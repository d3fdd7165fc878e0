import ShaderSplit.Proofs.Partition.Wiring

namespace ShaderSplit

namespace Expr

theorem sameValue_ty {a b : Expr} (h : a.sameValue b = true) : a.ty = b.ty := by
  cases a <;> cases b <;> simp_all [sameValue, ty, node]

end Expr

theorem InterfaceRecord.find?_some {r : InterfaceRecord} {e : Expr} {reaching : List NodeId}
    {i : Nat} (h : r.find? e reaching = some i) :
    ∃ f, r.fields[i]? = some f ∧ f.reaching = reaching ∧ f.key.sameValue e = true := by
  obtain ⟨hlt, hf, -⟩ := List.findIdx?_eq_some_iff_getElem.1 h
  rw [Bool.and_eq_true, beq_iff_eq] at hf
  exact ⟨_, List.getElem?_eq_getElem hlt, hf⟩

/-- One hop of a record: from the host, or from the active stage just before. -/
def Pipeline.Link (p : Pipeline) (s t : Stage) : Prop :=
  s = .host ∨ s ≠ .host ∧ p.stages.previousActive t = some s

/-- Where a value of an accepted function can be, an inactive fragment stage included. -/
def Pipeline.Stands (p : Pipeline) (s : Stage) : Prop :=
  s = .host ∨ s ∈ p.stages.devices ∨ s = .fragment

namespace Pipeline

def VaryingsActive (p : Pipeline) : Prop :=
  ∀ q ∈ p.fn.params, ∀ s, q.role = .varyingInput s → p.stages.contains s = true

theorem varyingsActive_iff {p : Pipeline} : p.VaryingsActive ↔ (p.fn.params.all fun q =>
    match q.role with
    | .varyingInput s => p.stages.contains s
    | _ => true) = true := by
  rw [List.all_eq_true]
  constructor
  · intro h q hq
    split
    · exact h q hq _ ‹_›
    · rfl
  · intro h q hq s hs
    simpa [hs] using h q hq

instance (p : Pipeline) : Decidable p.VaryingsActive := decidable_of_iff' _ varyingsActive_iff

/-- All methods but samples are swizzles, which take no arguments. -/
def BareSwizzles (p : Pipeline) : Prop :=
  ∀ n m object args f, .methodCall n m object args ∈ p.scope.terms → p.catalog.method? m = some f →
    f.isSample = false → args = []

theorem bareSwizzles_iff {p : Pipeline} : p.BareSwizzles ↔ (p.scope.terms.all fun e =>
    match e with
    | .methodCall _ m _ args => !(p.catalog.method? m).any (!·.isSample) || args.isEmpty
    | _ => true) = true := by
  rw [List.all_eq_true]
  constructor
  · intro h e he
    split
    next n m object args =>
      cases hf : p.catalog.method? m with
      | none => simp
      | some f =>
        cases hs : f.isSample with
        | true => simp [hs]
        | false => simp [h n m object args f he hf hs]
    · rfl
  · intro h n m object args f he hf hs
    simpa [hf, hs] using h _ he

instance (p : Pipeline) : Decidable p.BareSwizzles := decidable_of_iff' _ bareSwizzles_iff

def RolesStand (p : Pipeline) : Prop := ∀ q ∈ p.fn.params, p.Stands q.role.stage

end Pipeline

namespace Draft

variable {p : Pipeline} {d d' : Draft} {s t : Stage} {sc : Scope}

theorem Linked.source {r : InterfaceRecord} (h : d.Linked p) (hl : p.Link s t)
    (hr : d.record? s t = some r) : r.source = s := by
  obtain ⟨-, -, hs⟩ := h s t r hr
  rcases hl with rfl | ⟨hne, hp⟩
  · simpa using hs
  · rw [if_neg hne, hp] at hs
    simpa using hs.symm

theorem Carries.field {value e : Expr} (h : Carries sc s t value d e d') :
    ∃ n i r f, e = .interface n ⟨s, t, .consumer, i⟩ ∧ d'.record? s t = some r ∧
      r.fields[i]? = some f ∧ f.ty = n.ty ∧ n.ty = value.ty := by
  cases h with
  | @found r i hr hi =>
    obtain ⟨f, hf, -, hsame⟩ := InterfaceRecord.find?_some hi
    exact ⟨_, i, r, f, rfl, hr, hf, Expr.sameValue_ty hsame, rfl⟩
  | @opened r e hr hi he =>
    subst he
    refine ⟨_, _, r.push value (sc.reaching value), _, rfl, ?_,
      List.getElem?_concat_length, rfl, rfl⟩
    rw [tick_record?, openField_record?, if_pos ⟨rfl, Iff.rfl⟩]

theorem Carries.wired {value e : Expr} (h : Carries sc s t value d e d') (hw : d.Wired p)
    (hl : p.Link s t) (hv : d.Fits p s value) :
    d'.Wired p ∧ Grows d d' ∧ d'.Fits p t e ∧ ∃ n r, e = .interface n r := by
  have hdraft : d'.Wired p ∧ Grows d d' := by
    cases h with
    | found hr hi =>
      have hg : Agrees d (d.tick 1) := ⟨rfl, rfl, rfl, rfl⟩
      exact ⟨hw.agree hg, hg.grows⟩
    | @opened r e hr hi he =>
      have hg : Agrees e (e.tick 1) := ⟨rfl, rfl, rfl, rfl⟩
      subst he
      refine ⟨Wired.agree ?_ hg, (openField_grows value _ hr).trans hg.grows⟩
      exact hw.openField hr (hw.linked.source hl hr) hv
  obtain ⟨n, i, r, f, rfl, hr, hf, hty, -⟩ := h.field
  refine ⟨hdraft.1, hdraft.2, ?_, _, _, rfl⟩
  simp only [Fits, Expr.all_interface, Reads, true_and]
  exact ⟨r, f, hr, hdraft.1.linked.source hl hr, hf, hty⟩

/-- A value on a route without gaps ends in the route's last stage. -/
theorem Relays.wired {value e : Expr} {hops : List Stage} (h : Relays sc s value hops d e d')
    (hw : d.Wired p)
    (hl : (s = .host ∧ hops.length ≤ 1) ∨ s ≠ .host ∧
      ∃ l r, p.stages.devices = l ++ s :: (hops ++ r)) (hv : d.Fits p s value) (hne : hops ≠ []) :
    d'.Wired p ∧ Grows d d' ∧ (∀ t, hops.getLast? = some t → d'.Fits p t e) ∧
    ∃ n r, e = .interface n r := by
  induction h with
  | done => exact absurd rfl hne
  | @hop s t value next last rest d d₁ d₂ hc hr ih =>
    have hlink : p.Link s t := by
      rcases hl with ⟨rfl, -⟩ | ⟨hs, l, r, hd⟩
      · exact .inl rfl
      · exact .inr ⟨hs, StageSet.previousActive_of_neighbours hd⟩
    obtain ⟨hw₁, hg₁, hf₁, hn₁⟩ := hc.wired hw hlink hv
    cases rest with
    | nil =>
      cases hr
      exact ⟨hw₁, hg₁, by simpa using hf₁, hn₁⟩
    | cons u rest =>
      -- a second hop starts from the stage that the first has reached
      rcases hl with ⟨-, hlen⟩ | ⟨hs, l, r, hd⟩
      · simp at hlen
      · have hmem : t ∈ p.stages.devices := by simp [hd]
        have ht : t ≠ .host := (StageSet.mem_devices.1 hmem).2
        obtain ⟨hw₂, hg₂, hf₂, hn₂⟩ := ih hw₁ (.inr ⟨ht, l ++ [s], r, by simp [hd]⟩) hf₁ (by simp)
        exact ⟨hw₂, hg₁.trans hg₂, by simpa using hf₂, hn₂⟩

theorem wired_of_route {value e : Expr} {hops : List Stage} (hr : Route p.stages s t hops)
    (h : Relays sc s value hops d e d') (hw : d.Wired p) (hs : s = .host ∨ s ∈ p.stages.devices)
    (hv : d.Fits p s value) :
    d'.Wired p ∧ Grows d d' ∧ d'.Fits p t e ∧ ∃ n r, e = .interface n r := by
  rcases hr with ⟨rfl, rfl⟩ | ⟨hne, rfl, hlast⟩
  · obtain ⟨hw', hg, hf, hn⟩ := h.wired hw (.inl ⟨rfl, by simp⟩) hv (by simp)
    exact ⟨hw', hg, hf t (by simp), hn⟩
  · have hdev : s ∈ p.stages.devices := hs.resolve_left hne
    have hne' : p.stages.devices.filter (fun x => s < x ∧ x ≤ t) ≠ [] := by
      intro hnil
      rw [hnil] at hlast
      cases hlast
    obtain ⟨hw', hg, hf, hn⟩ := h.wired hw (.inr ⟨hne, StageSet.devices_between hdev⟩) hv hne'
    exact ⟨hw', hg, hf t hlast, hn⟩

/-- An expression may stand in a stage, and its locals are rebuilt there. -/
def Sits (p : Pipeline) (d : Draft) (sc : Scope) (s : Stage) (e : Expr) : Prop :=
  d.Fits p s e ∧ d.Ready sc s e

theorem Sits.grow {e : Expr} (h : d.Sits p sc s e) (hd : Grows d d') : d'.Sits p sc s e :=
  ⟨h.1.grow hd, h.2.grow hd⟩

section
variable {n : Node} {e l r : Expr} {es : List Expr}

@[simp] theorem sits_literal {v : Literal} : d.Sits p sc s (.literal n v) := by
  simp [Sits, Fits, Ready, Reads, HasRebuilt]

@[simp] theorem sits_constant {v : ConstValue} : d.Sits p sc s (.constant n v) := by
  simp [Sits, Fits, Ready, Reads, HasRebuilt]

@[simp] theorem sits_unary {op : UnaryOp} : d.Sits p sc s (.unary n op e) ↔ d.Sits p sc s e := by
  simp [Sits, Fits, Ready, Reads, HasRebuilt]

@[simp] theorem sits_cast : d.Sits p sc s (.cast n e) ↔ d.Sits p sc s e := by
  simp [Sits, Fits, Ready, Reads, HasRebuilt]

@[simp] theorem sits_member {f : String} : d.Sits p sc s (.member n e f) ↔ d.Sits p sc s e := by
  simp [Sits, Fits, Ready, Reads, HasRebuilt]

@[simp] theorem sits_binary {op : BinaryOp} :
    d.Sits p sc s (.binary n op l r) ↔ d.Sits p sc s l ∧ d.Sits p sc s r := by
  simp [Sits, Fits, Ready, Reads, HasRebuilt, and_and_and_comm]

@[simp] theorem sits_construct : d.Sits p sc s (.construct n es) ↔ ∀ e ∈ es, d.Sits p sc s e := by
  simp [Sits, Fits, Ready, Reads, HasRebuilt, forall_and]

@[simp] theorem sits_initList : d.Sits p sc s (.initList n es) ↔ ∀ e ∈ es, d.Sits p sc s e := by
  simp [Sits, Fits, Ready, Reads, HasRebuilt, forall_and]

@[simp] theorem sits_call {f : DeclId} :
    d.Sits p sc s (.call n f es) ↔ ∀ e ∈ es, d.Sits p sc s e := by
  simp [Sits, Fits, Ready, Reads, HasRebuilt, forall_and]

@[simp] theorem sits_methodCall {m : DeclId} :
    d.Sits p sc s (.methodCall n m e es) ↔ d.Sits p sc s e ∧ ∀ e ∈ es, d.Sits p sc s e := by
  simp [Sits, Fits, Ready, Reads, HasRebuilt, forall_and, and_and_and_comm]

theorem sits_localVar {v : LocalId} {name : String} {written : LocalDecl} {o : NodeId}
    (hw : sc.find (.localVar v) = some ⟨.declaration written, o⟩)
    (hr : (d.rebuilt? o s).isSome = true) :
    d.Sits p sc s (.localVar n v name) := by
  simp only [Sits, Fits, Ready, Expr.all_localVar, Reads, HasRebuilt, true_and]
  intro written' o' hw'
  cases hw.symm.trans hw'
  exact hr

end

theorem Wired.sits_rebuilt {o : NodeId} {decl : LocalDecl} (h : d.Wired p)
    (ho : d.rebuilt? o s = some decl) :
    d.Sits p (p.scope.upTo o) s decl.init :=
  h.rebuilt o s decl ho

theorem Wired.redeclare {o : NodeId} {decl : LocalDecl} (h : d.Wired p)
    (hi : d.Sits p (p.scope.upTo o) t decl.init) : (d.redeclare s t o decl).Wired p := by
  have h₁ := h.setRebuilt hi.1 hi.2
  have hst : (d.setRebuilt o t decl).Stays p t (.decl decl) := by
    intro e he
    rw [List.mem_singleton.1 he]
    exact hi.1.grow (setRebuilt_grows ..)
  exact (h₁.add hst).release

theorem Wired.declare {o : NodeId} {decl : LocalDecl} (h : d.Wired p)
    (hi : d.Sits p (p.scope.upTo o) s decl.init) : (d.declare o s decl).Wired p := by
  have hst : (d.setRebuilt o s decl).Stays p s (.decl decl) := by
    intro e he
    rw [List.mem_singleton.1 he]
    exact hi.1.grow (setRebuilt_grows ..)
  exact (h.setRebuilt hi.1 hi.2).add hst

theorem redeclare_grows (d : Draft) (s t : Stage) (o : NodeId) (decl : LocalDecl) :
    Grows d (d.redeclare s t o decl) :=
  ((setRebuilt_grows ..).trans (onQueue_grows ..)).trans (onQueue_grows ..)

theorem declare_grows (d : Draft) (s : Stage) (o : NodeId) (decl : LocalDecl) :
    Grows d (d.declare o s decl) :=
  (setRebuilt_grows ..).trans (onQueue_grows ..)

/-- Lifting keeps the wiring, and what it gives may stand in the later stage. -/
theorem Lifts.wired {es es' : List Expr} (h : Lifts p.stages s t sc es d es' d') (hw : d.Wired p)
    (hs : s = .host ∨ s ∈ p.stages.devices) (hsc : ∃ x, sc = p.scope.upTo x)
    (hes : ∀ e ∈ es, d.Sits p sc s e) :
    d'.Wired p ∧ Grows d d' ∧ ∀ e ∈ es', d'.Sits p sc t e := by
  induction h with
  | nil => exact ⟨hw, .refl _, by simp⟩
  | cons _ _ ih ihs =>
    obtain ⟨hw₁, hg₁, he₁⟩ := ih hw hsc (by simpa using hes _ (by simp))
    obtain ⟨hw₂, hg₂, he₂⟩ := ihs hw₁ hsc fun e he => (hes e (by simp [he])).grow hg₁
    refine ⟨hw₂, hg₁.trans hg₂, fun e he => ?_⟩
    rcases List.mem_cons.1 he with rfl | he
    · exact (he₁ e (by simp)).grow hg₂
    · exact he₂ e he
  | literal | constant => exact ⟨hw, .refl _, by simp⟩
  | construct _ ih =>
    obtain ⟨hw', hg, he⟩ := ih hw hsc (by simpa using hes)
    exact ⟨hw', hg, by simpa using he⟩
  | unary _ ih | cast _ ih =>
    obtain ⟨hw', hg, he⟩ := ih hw hsc (by simpa using hes)
    exact ⟨hw', hg, by simpa using he⟩
  | @redeclare sc n v name written decl o init d d₁ hfind hd _ ih =>
    obtain ⟨x, rfl⟩ := hsc
    have hscope : (p.scope.upTo x).upTo o = p.scope.upTo o := Scope.before_upTo hfind
    -- the local may stand in its stage, so its declaration was rebuilt there
    have hready : (d.rebuilt? o s).isSome = true := by
      have h := (hes (.localVar n v name) (by simp)).2
      simp only [Ready, Expr.all_localVar, HasRebuilt] at h
      exact h written o hfind
    obtain ⟨decl', hdecl⟩ := Option.isSome_iff_exists.1 hready
    obtain rfl : decl' = decl := by simpa [hdecl] using hd
    rw [hscope] at ih
    obtain ⟨hw₁, hg₁, he₁⟩ := ih hw ⟨o, rfl⟩ (by simpa using hw.sits_rebuilt hdecl)
    have hg := hg₁.trans (redeclare_grows d₁ s t o { decl' with init })
    refine ⟨hw₁.redeclare (by simpa using he₁), hg, ?_⟩
    simp only [List.mem_singleton, forall_eq]
    refine sits_localVar hfind ?_
    exact (onQueue_grows ..).rebuilt o t
      ((onQueue_grows ..).rebuilt o t (by simp [setRebuilt_rebuilt?]))
  | transfer _ hr hd =>
    obtain ⟨hw', hg, hf, n, r, rfl⟩ := wired_of_route hr hd hw hs (hes _ (by simp)).1
    refine ⟨hw', hg, ?_⟩
    simp only [List.mem_singleton, forall_eq]
    exact ⟨hf, by simp [Ready, HasRebuilt]⟩

def SitsAt (p : Pipeline) (d : Draft) (sc : Scope) (pl : Placement) (e : Expr) : Prop :=
  (∀ s, pl = some s → p.Stands s) ∧ ∀ s, pl = none ∨ pl = some s → d.Sits p sc s e

theorem SitsAt.grow {pl : Placement} {e : Expr} (h : d.SitsAt p sc pl e) (hd : Grows d d') :
    d'.SitsAt p sc pl e :=
  ⟨h.1, fun s hs => (h.2 s hs).grow hd⟩

theorem sitsAt_some {e : Expr} (hs : p.Stands s) (he : d.Sits p sc s e) :
    d.SitsAt p sc (some s) e := by
  refine ⟨fun x hx => ?_, fun x hx => ?_⟩
  · obtain rfl : s = x := by simpa using hx
    exact hs
  · obtain rfl : s = x := by simpa using hx
    exact he

theorem SitsAt.getD {pl : Placement} {e : Expr} {target : Stage} (h : d.SitsAt p sc pl e)
    (ht : p.Stands target) (hs : pl.getD target = s) : p.Stands s ∧ d.Sits p sc s e := by
  cases pl with
  | none => exact ⟨hs ▸ ht, h.2 s (.inl rfl)⟩
  | some x =>
    obtain rfl : x = s := by simpa using hs
    exact ⟨h.1 x rfl, h.2 x (.inr rfl)⟩

theorem SitsAt.imp {pl : Placement} {e e' : Expr} (h : d.SitsAt p sc pl e)
    (he : ∀ s, d.Sits p sc s e → d.Sits p sc s e') : d.SitsAt p sc pl e' :=
  ⟨h.1, fun s hs => he s (h.2 s hs)⟩

theorem Promotes.wired {pl wanted : Placement} {e e' : Expr}
    (h : Promotes p.stages sc pl wanted e d e' d') (hw : d.Wired p) (hsc : ∃ x, sc = p.scope.upTo x)
    (hn : wanted = none → pl = none) (hwanted : ∀ s, wanted = some s → p.Stands s)
    (he : d.SitsAt p sc pl e) :
    d'.Wired p ∧ Grows d d' ∧ d'.SitsAt p sc wanted e' := by
  cases h with
  | keep hk =>
    refine ⟨hw, .refl _, hwanted, fun s hs => he.2 s ?_⟩
    rcases hk with hk | hk | rfl
    · exact .inl hk
    · exact .inl (hn hk)
    · exact hs
  | @lift s t _ _ _ _ hst hl =>
    have hs : s = .host ∨ s ∈ p.stages.devices := by
      rcases he.1 s rfl with hs | hs | rfl
      · exact .inl hs
      · exact .inr hs
      · cases t <;> exact absurd hst (by decide)
    obtain ⟨hw', hg, he'⟩ := hl.wired hw hs hsc (by simpa using he.2 s (.inr rfl))
    refine ⟨hw', hg, hwanted, fun x hx => ?_⟩
    obtain rfl : t = x := by simpa using hx
    exact he' e' (by simp)

end Draft

theorem Aim.PromotesAll.wired {a : Aim} {sc : Scope} {wanted : Placement} {ts : List Traced}
    {d d' : Draft} {es : List Expr} (h : a.PromotesAll sc wanted ts d es d')
    (hw : d.Wired a.pipeline) (hsc : ∃ x, sc = a.pipeline.scope.upTo x)
    (hn : wanted = none → ∀ t ∈ ts, t.stage = none)
    (hwanted : ∀ s, wanted = some s → a.pipeline.Stands s)
    (hts : ∀ t ∈ ts, d.SitsAt a.pipeline sc t.stage t.expr) :
    d'.Wired a.pipeline ∧ d.Grows d' ∧ ∀ e ∈ es, d'.SitsAt a.pipeline sc wanted e := by
  induction h with
  | nil => exact ⟨hw, .refl _, by simp⟩
  | cons hp _ ih =>
    obtain ⟨hw₁, hg₁, he₁⟩ := hp.wired hw hsc (fun h => hn h _ (by simp)) hwanted (hts _ (by simp))
    obtain ⟨hw₂, hg₂, he₂⟩ :=
      ih hw₁ (fun h t ht => hn h t (by simp [ht])) fun t ht => (hts t (by simp [ht])).grow hg₁
    refine ⟨hw₂, hg₁.trans hg₂, fun e he => ?_⟩
    rcases List.mem_cons.1 he with rfl | he
    · exact he₁.grow hg₂
    · exact he₂ e he

/-- A sampler argument is a constant, and noting the sample changes no queue and no record. -/
theorem Draft.sample_agrees {s : Stage} {id : NodeId} {texture k : Nat} {sampler : Expr}
    {d d' : Draft} (h : Draft.sample s id texture sampler d = .ok k d') :
    d.Agrees d' ∧ ∃ n v, sampler = .constant n v := by
  unfold Draft.sample at h
  cases hc : SamplerConfig.ofExpr sampler with
  | error fault => simp [hc] at h
  | ok config =>
    have hconst : ∃ n v, sampler = .constant n v := by
      unfold SamplerConfig.ofExpr at hc
      split at hc
      · exact ⟨_, _, rfl⟩
      · exact ⟨_, _, rfl⟩
      · cases hc
    rw [hc] at h
    dsimp only at h
    split at h
    · cases h
    · split at h
      · cases h
      · cases h
        exact ⟨⟨rfl, rfl, rfl, rfl⟩, hconst⟩

theorem Draft.agrees_sample {s : Stage} {texture k : Nat} {sampler : Expr} {d d' : Draft}
    (h : Draft.sample s d.nextId texture sampler (d.tick 1) = .ok k d') : d.Agrees d' :=
  have hagree := (Draft.sample_agrees h).1
  ⟨hagree.uniforms, hagree.varyings, hagree.queues, hagree.rebuilt⟩

def Role.isTexture : Role → Bool
  | vertexTexture _ | fragmentTexture _ => true
  | _ => false

theorem Aim.sampledStage_ok {a : Aim} {object : Expr} {texture : Nat} {s : Stage}
    (h : a.sampledStage object = .ok (texture, s)) :
    ∃ n q, object = .param n texture ∧ a.pipeline.fn.params[texture]? = some q ∧
      q.role.stage = s ∧ q.role.isTexture = true := by
  unfold sampledStage at h
  split at h
  · rename_i n index
    cases hq : a.pipeline.fn.params[index]? with
    | none => simp [hq] at h
    | some q =>
      rw [hq] at h
      simp only [Option.map_some] at h
      split at h
      · rename_i hrole
        cases h
        refine ⟨n, q, rfl, hq, ?_⟩
        rw [Option.some.inj hrole]
        exact ⟨rfl, rfl⟩
      · rename_i hrole
        cases h
        refine ⟨n, q, rfl, hq, ?_⟩
        rw [Option.some.inj hrole]
        exact ⟨rfl, rfl⟩
      · cases h
  · cases h

namespace Aim.Traces

variable {a : Aim}

theorem wired_parts {sc : Scope} {e : Expr} {es : List Expr} {ts : List Traced} {wanted : Placement}
    {d d₁ d₂ : Draft} (hw : d₁.Wired a.pipeline) (hg : d.Grows d₁)
    (hts : ∀ t ∈ ts, d₁.SitsAt a.pipeline sc t.stage t.expr)
    (hsc : ∃ x, sc = a.pipeline.scope.upTo x) (htarget : a.pipeline.Stands a.target)
    (hwanted : wanted = placement ts ∨ wanted = some a.target)
    (hp : a.PromotesAll sc wanted ts d₁ es d₂)
    (he : ∀ s, d₂.Sits a.pipeline sc s e ↔ ∀ x ∈ es, d₂.Sits a.pipeline sc s x) :
    d₂.Wired a.pipeline ∧ d.Grows d₂ ∧
    ∀ t ∈ [(⟨e, wanted⟩ : Traced)], d₂.SitsAt a.pipeline sc t.stage t.expr := by
  have hstands : ∀ s, wanted = some s → a.pipeline.Stands s := by
    rintro s rfl
    rcases hwanted with h | h
    · obtain ⟨t, ht, hs⟩ := placement_mem h.symm
      exact (hts t ht).1 s hs
    · obtain rfl : s = a.target := by simpa using h
      exact htarget
  have hnone : wanted = none → ∀ t ∈ ts, t.stage = none := by
    rintro rfl
    exact placement_eq_none.1 (hwanted.resolve_right (by simp)).symm
  obtain ⟨hw₂, hg₂, he₂⟩ := hp.wired hw hsc hnone hstands hts
  refine ⟨hw₂, hg.trans hg₂,
    List.forall_mem_singleton.2 ⟨hstands, fun s hs => (he s).2 fun x hx => ?_⟩⟩
  exact (he₂ x hx).2 s hs

/-- Tracing keeps the wiring, and what it gives may stand where it is placed. -/
theorem wired {sc : Scope} {m : Bool} {es : List Expr} {ts : List Traced} {d d' : Draft}
    (h : a.Traces sc m es d ts d') (hroles : a.pipeline.RolesStand)
    (hbare : a.pipeline.BareSwizzles) (htarget : a.pipeline.Stands a.target)
    (hw : d.Wired a.pipeline) (hsc : ∃ x, sc = a.pipeline.scope.upTo x)
    (hes : ∀ e ∈ es, e ∈ a.pipeline.scope.terms) :
    d'.Wired a.pipeline ∧ d.Grows d' ∧ ∀ t ∈ ts, d'.SitsAt a.pipeline sc t.stage t.expr := by
  induction h with
  | nil => exact ⟨hw, .refl _, by simp⟩
  | cons _ _ ih ihs =>
    obtain ⟨hw₁, hg₁, ht₁⟩ := ih hw hsc (by simpa using hes _ (by simp))
    obtain ⟨hw₂, hg₂, ht₂⟩ := ihs hw₁ hsc fun e he => hes e (by simp [he])
    refine ⟨hw₂, hg₁.trans hg₂, fun t ht => ?_⟩
    rcases List.mem_cons.1 ht with rfl | ht
    · exact (ht₁ t (by simp)).grow hg₂
    · exact ht₂ t ht
  | literal | constant => exact ⟨hw, .refl _, by simp [Draft.SitsAt]⟩
  | @param sc m n i q d d' hq _ _ hd =>
    have hagree : d.Agrees d' := hd ▸ Draft.agrees_capture ..
    refine ⟨hw.agree hagree, hagree.grows, ?_⟩
    simp only [List.mem_singleton, forall_eq]
    refine Draft.sitsAt_some (hroles q (List.mem_of_getElem? hq)) ?_
    simp only [Draft.Sits, Draft.Fits, Draft.Ready, Expr.all_param, Draft.Reads,
      Draft.HasRebuilt, and_true]
    exact ⟨q, hq, rfl⟩
  | @declared sc m n v name written o t s d d₁ _ hfind _ hs ih =>
    obtain ⟨x, rfl⟩ := hsc
    have hscope : (a.pipeline.scope.upTo x).upTo o = a.pipeline.scope.upTo o :=
      Scope.before_upTo hfind
    have hmem : written.init ∈ a.pipeline.scope.terms :=
      Scope.terms_upTo (Scope.find_value_mem hfind)
    rw [hscope] at ih
    obtain ⟨hw₁, hg₁, ht₁⟩ := ih hw ⟨o, rfl⟩ (by simpa using hmem)
    obtain ⟨hstands, hinit⟩ := (ht₁ t (by simp)).getD htarget hs
    refine ⟨hw₁.declare hinit, hg₁.trans (Draft.declare_grows ..), ?_⟩
    simp only [List.mem_singleton, forall_eq]
    refine Draft.sitsAt_some hstands (Draft.sits_localVar hfind ?_)
    exact (Draft.onQueue_grows ..).rebuilt o s (by simp [Draft.setRebuilt_rebuilt?])
  | @assigned sc m n v name x o t s d d₁ _ hfind _ hs ih =>
    obtain ⟨y, rfl⟩ := hsc
    have hscope : (a.pipeline.scope.upTo y).upTo o = a.pipeline.scope.upTo o :=
      Scope.before_upTo hfind
    have hmem : x ∈ a.pipeline.scope.terms := Scope.terms_upTo (Scope.find_value_mem hfind)
    rw [hscope] at ih
    obtain ⟨hw₁, hg₁, ht₁⟩ := ih hw ⟨o, rfl⟩ (by simpa using hmem)
    obtain ⟨hstands, hx⟩ := (ht₁ t (by simp)).getD htarget hs
    have hst : d₁.Stays a.pipeline s (.expr t.expr) := by
      simpa [Draft.Stays, StageStmt.exprs] using hx.1
    refine ⟨hw₁.add hst, hg₁.trans (Draft.onQueue_grows ..), ?_⟩
    simp only [List.mem_singleton, forall_eq]
    refine Draft.sitsAt_some hstands ?_
    simp only [Draft.Sits, Draft.Fits, Draft.Ready, Expr.all_localVar, Draft.Reads,
      Draft.HasRebuilt, true_and]
    intro written o' hw'
    cases hfind.symm.trans hw'
  | @binary sc m n op lhs rhs lhs' rhs' l r pl d d₁ d₂ d₃ d₄ _ _ hp pl' pr ihl ihr =>
    obtain ⟨hw₁, hg₁, ht₁⟩ := ihl hw hsc (Scope.parts_terms hes (by simp [Expr.self_mem_subterms]))
    obtain ⟨hw₂, hg₂, ht₂⟩ := ihr hw₁ hsc (Scope.parts_terms hes (by simp [Expr.self_mem_subterms]))
    have hts : ∀ t ∈ [l, r], d₂.SitsAt a.pipeline sc t.stage t.expr :=
      List.forall_mem_cons.2 ⟨(ht₁ l (by simp)).grow hg₂, ht₂⟩
    -- the two operands are promoted like a list of two
    have hall : a.PromotesAll sc pl [l, r] d₂ [lhs', rhs'] d₄ := .cons pl' (.cons pr .nil)
    have hwanted : pl = placement [l, r] ∨ pl = some a.target := hp ▸ wait_cases a _ _
    exact wired_parts hw₂ (hg₁.trans hg₂) hts hsc htarget hwanted hall (by simp)
  | unary _ ih | cast _ _ ih | member _ _ ih =>
    obtain ⟨hw₁, hg₁, ht₁⟩ := ih hw hsc (Scope.parts_terms hes (by simp [Expr.self_mem_subterms]))
    exact ⟨hw₁, hg₁, by simpa [Draft.SitsAt] using ht₁⟩
  | construct _ _ hp ih | initList _ hp ih =>
    obtain ⟨hw₁, hg₁, ht₁⟩ :=
      ih hw hsc (Scope.parts_terms hes fun e he => by simp [Expr.mem_subtermsOf he])
    exact wired_parts hw₁ hg₁ ht₁ hsc htarget (.inl rfl) hp (by simp)
  | call _ _ hpl hp ih =>
    obtain ⟨hw₁, hg₁, ht₁⟩ :=
      ih hw hsc (Scope.parts_terms hes fun e he => by simp [Expr.mem_subtermsOf he])
    exact wired_parts hw₁ hg₁ ht₁ hsc htarget (hpl ▸ wait_cases a _ _) hp (by simp)
  | @sample sc m n method f object uv uv' sampler texture k s t d d₁ d₂ d₃ _ _ ho _ hp hk ih =>
    obtain ⟨n', q, rfl, hq, rfl, -⟩ := sampledStage_ok ho
    have hstands : a.pipeline.Stands q.role.stage := hroles q (List.mem_of_getElem? hq)
    obtain ⟨hw₁, hg₁, ht₁⟩ := ih hw hsc (Scope.parts_terms hes (by simp [Expr.self_mem_subterms]))
    obtain ⟨hw₂, hg₂, he₂⟩ :=
      hp.wired hw₁ hsc (by simp) (fun s hs => (Option.some.inj hs) ▸ hstands) (ht₁ t (by simp))
    have hagree := Draft.agrees_sample hk
    obtain ⟨-, n'', c, rfl⟩ := Draft.sample_agrees hk
    refine ⟨hw₂.agree hagree, (hg₁.trans hg₂).trans hagree.grows, ?_⟩
    simp only [List.mem_singleton, forall_eq]
    refine Draft.sitsAt_some hstands (Draft.sits_methodCall.2 ⟨?_, ?_⟩)
    · simp only [Draft.Sits, Draft.Fits, Draft.Ready, Expr.all_param, Draft.Reads,
        Draft.HasRebuilt, and_true]
      exact ⟨q, hq, rfl⟩
    · have huv := (he₂.2 q.role.stage (.inr rfl)).grow hagree.grows
      simpa using huv
  | @method sc m n method f object args t ts d d₁ d₂ hm hs _ ha ih ihs =>
    have hmem := hes (.methodCall n method object args) (by simp)
    obtain rfl : args = [] := hbare n method object args f hmem hm hs
    cases ha
    obtain ⟨hw₁, hg₁, ht₁⟩ := ih hw hsc (Scope.parts_terms hes (by simp [Expr.self_mem_subterms]))
    exact ⟨hw₁, hg₁, by simpa [Draft.SitsAt] using ht₁⟩

end Aim.Traces

end ShaderSplit
