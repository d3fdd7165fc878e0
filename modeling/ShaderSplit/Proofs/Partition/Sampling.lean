import Mathlib.Data.List.Nodup
import ShaderSplit.Proofs.Partition.Moves
import ShaderSplit.Proofs.Partition.Placement

namespace ShaderSplit

namespace Draft

variable {p : Pipeline} {d d' : Draft} {s t : Stage} {sc : Scope}

/-- The log has a sample of stage `s`, with the texture of a parameter and the sampler that an
argument asks for, both marked for the stage. -/
def HasSample (d : Draft) (s : Stage) (id : NodeId) (param : Nat) (sampler : Expr) : Prop :=
  ∃ call ∈ d.sampleCalls, call.expr = id ∧ call.stage = s ∧
    (∃ x, d.textures[call.texture]? = some x ∧ x.param = param ∧ x.stages.contains s = true) ∧
    ∃ k, d.samplers[call.sampler]? = some k ∧ SamplerConfig.ofExpr sampler = .ok k.config ∧
      k.stages.contains s = true

/-- A method that stands in stage `s` is known, and logged for the stage if it is a sample; any
other has no arguments. -/
def Logs (p : Pipeline) (d : Draft) (s : Stage) : Expr → Prop
  | .methodCall n m object args => ∃ f, p.catalog.method? m = some f ∧
      (f.isSample = false → args = []) ∧ (f.isSample = true →
        ∃ n' i uv sampler, object = .param n' i ∧ args = [uv, sampler] ∧
        d.HasSample s n.id i sampler)
  | _ => True

def Logged (p : Pipeline) (d : Draft) (s : Stage) (e : Expr) : Prop := e.All (d.Logs p s)

/-- The log is added to, and its tables keep what they tell of an entry. -/
structure LogGrows (d d' : Draft) : Prop where
  calls : d.sampleCalls ⊆ d'.sampleCalls
  textures : ∀ (i : Nat) x, d.textures[i]? = some x → ∃ x', d'.textures[i]? = some x' ∧
    x'.param = x.param ∧
    ∀ s, x.stages.contains s = true → x'.stages.contains s = true
  samplers : ∀ (i : Nat) k, d.samplers[i]? = some k → ∃ k', d'.samplers[i]? = some k' ∧
    k'.config = k.config ∧
    ∀ s, k.stages.contains s = true → k'.stages.contains s = true

theorem LogGrows.trans {d₁ d₂ d₃ : Draft} (h : LogGrows d₁ d₂) (k : LogGrows d₂ d₃) :
    LogGrows d₁ d₃ := by
  refine ⟨fun c hc => k.calls (h.calls hc), fun i x hx => ?_, fun i x hx => ?_⟩
  · obtain ⟨x₂, hx₂, hp₂, hs₂⟩ := h.textures i x hx
    obtain ⟨x₃, hx₃, hp₃, hs₃⟩ := k.textures i x₂ hx₂
    exact ⟨x₃, hx₃, hp₃.trans hp₂, fun s hs => hs₃ s (hs₂ s hs)⟩
  · obtain ⟨x₂, hx₂, hc₂, hs₂⟩ := h.samplers i x hx
    obtain ⟨x₃, hx₃, hc₃, hs₃⟩ := k.samplers i x₂ hx₂
    exact ⟨x₃, hx₃, hc₃.trans hc₂, fun s hs => hs₃ s (hs₂ s hs)⟩

theorem HasSample.grow {id : NodeId} {param : Nat} {sampler : Expr}
    (h : d.HasSample s id param sampler) (hd : LogGrows d d') :
    d'.HasSample s id param sampler := by
  obtain ⟨call, hcall, hid, hstage, ⟨x, hx, hparam, hmark⟩, k, hk, hconfig, hmark'⟩ := h
  obtain ⟨x', hx', hparam', hmarks⟩ := hd.textures _ x hx
  obtain ⟨k', hk', hconfig', hmarks'⟩ := hd.samplers _ k hk
  exact ⟨call, hd.calls hcall, hid, hstage, ⟨x', hx', hparam'.trans hparam, hmarks s hmark⟩,
    k', hk', by rw [hconfig', hconfig], hmarks' s hmark'⟩

theorem Logged.grow {e : Expr} (h : d.Logged p s e) (hd : LogGrows d d') : d'.Logged p s e := by
  refine Expr.All.mono h fun x hx => ?_
  unfold Logs at hx ⊢
  split
  · obtain ⟨f, hf, hbare, hsample⟩ := hx
    refine ⟨f, hf, hbare, fun hs => ?_⟩
    obtain ⟨n', i, uv, sampler, ho, hargs, hlog⟩ := hsample hs
    exact ⟨n', i, uv, sampler, ho, hargs, hlog.grow hd⟩
  · trivial

/-- Nothing is sampled on the way, though identities may be given out. -/
structure Mute (d d' : Draft) : Prop where
  calls : d'.sampleCalls = d.sampleCalls
  textures : d'.textures = d.textures
  samplers : d'.samplers = d.samplers
  nextId : d.nextId ≤ d'.nextId

theorem Mute.refl (d : Draft) : Mute d d := ⟨rfl, rfl, rfl, Nat.le_refl _⟩

theorem Mute.trans {d₁ d₂ d₃ : Draft} (h : Mute d₁ d₂) (k : Mute d₂ d₃) : Mute d₁ d₃ :=
  ⟨k.calls.trans h.calls, k.textures.trans h.textures, k.samplers.trans h.samplers,
    Nat.le_trans h.nextId k.nextId⟩

theorem Mute.logGrows (h : Mute d d') : LogGrows d d' := by
  refine ⟨fun c hc => h.calls ▸ hc, fun i x hx => ⟨x, ?_, rfl, fun _ => id⟩,
    fun i k hk => ⟨k, ?_, rfl, fun _ => id⟩⟩
  · rw [h.textures, hx]
  · rw [h.samplers, hk]

theorem setRecord_mute (d : Draft) (s t : Stage) (r : InterfaceRecord) :
    Mute d (d.setRecord s t r) := by
  unfold setRecord
  split <;> exact ⟨rfl, rfl, rfl, Nat.le_refl _⟩

theorem tick_mute (d : Draft) (k : Nat) : Mute d (d.tick k) := ⟨rfl, rfl, rfl, Nat.le_add_right _ _⟩

theorem openField_mute (d : Draft) (s t : Stage) (r : InterfaceRecord) (value : Expr)
    (reaching : List NodeId) :
    Mute d (d.openField s t r value reaching) := by
  have h := setRecord_mute d s t (r.push value reaching)
  exact ⟨h.calls, h.textures, h.samplers, Nat.le_add_right_of_le h.nextId⟩

/-- All entries of the log have identities that were given out, each its own, and its textures are
those of the function; every sample in a queue, or in a declaration that may be repeated, is logged
for its stage. -/
structure Logbook (p : Pipeline) (d : Draft) : Prop where
  ids : (d.sampleCalls.map (·.expr)).Nodup
  bound : ∀ x ∈ d.textures, ∃ y ∈ p.signature.textures, x = { y with stages := x.stages }
  given : ∀ call ∈ d.sampleCalls, call.expr < d.nextId
  queued : ∀ s, ∀ e ∈ (d.queue s).tags, ∀ x ∈ e.1.exprs, d.Logged p s x
  rebuilt : ∀ o s decl, d.rebuilt? o s = some decl →
    d.Logged p s decl.init ∧ d.Ready (p.scope.upTo o) s decl.init

/-- A step that samples nothing keeps the logbook, if what it queues and rebuilds is logged. -/
theorem Logbook.mute (h : d.Logbook p) (hm : Mute d d')
    (hq : ∀ s, ∀ e ∈ (d'.queue s).tags, e ∈ (d.queue s).tags ∨ ∀ x ∈ e.1.exprs, d.Logged p s x)
    (hr : ∀ o s decl, d'.rebuilt? o s = some decl → d'.Logged p s decl.init ∧
      d'.Ready (p.scope.upTo o) s decl.init) :
    d'.Logbook p := by
  refine ⟨hm.calls ▸ h.ids, hm.textures ▸ h.bound, fun call hc => ?_, fun s e he x hx => ?_, hr⟩
  · exact Nat.lt_of_lt_of_le (h.given call (hm.calls ▸ hc)) hm.nextId
  · refine Logged.grow ?_ hm.logGrows
    rcases hq s e he with he | hx'
    · exact h.queued s e he x hx
    · exact hx' x hx

theorem Logbook.agree (h : d.Logbook p) (ha : Agrees d d') (hm : Mute d d') : d'.Logbook p := by
  refine h.mute hm (fun s e he => .inl (ha.queue s ▸ he)) fun o s decl ho => ?_
  rw [ha.rebuilt?] at ho
  exact (h.rebuilt o s decl ho).imp (·.grow hm.logGrows) (·.grow ha.grows)

theorem Logbook.steady (h : d.Logbook p) (hm : Mute d d') (hg : Grows d d')
    (hrebuilt : d'.rebuilt = d.rebuilt)
    (hq : ∀ s, ∀ e ∈ (d'.queue s).tags, e ∈ (d.queue s).tags ∨ ∀ x ∈ e.1.exprs, d.Logged p s x) :
    d'.Logbook p := by
  refine h.mute hm hq fun o s decl ho => ?_
  have ho' : d.rebuilt? o s = some decl := by
    unfold Draft.rebuilt? at ho ⊢
    rwa [hrebuilt] at ho
  exact (h.rebuilt o s decl ho').imp (·.grow hm.logGrows) (·.grow hg)

theorem onQueue_mute (d : Draft) (s : Stage) (f : Queue → Queue) : Mute d (d.onQueue s f) :=
  ⟨rfl, rfl, rfl, Nat.le_refl _⟩

theorem Logbook.add {st : StageStmt} {origin : Option NodeId} (h : d.Logbook p)
    (hst : ∀ x ∈ st.exprs, d.Logged p s x) : (d.add s st origin).Logbook p := by
  refine h.steady (onQueue_mute ..) (onQueue_grows ..) rfl fun x e he => ?_
  rcases mem_tags_add he with he | ⟨rfl, rfl⟩
  · exact .inl he
  · exact .inr hst

theorem Logbook.release {o : NodeId} (h : d.Logbook p) : (d.onQueue s (·.release o)).Logbook p :=
  h.steady (onQueue_mute ..) (onQueue_grows ..) rfl fun _ _ he => .inl (mem_tags_release he)

theorem Logbook.setRebuilt {o : NodeId} {decl : LocalDecl} (h : d.Logbook p)
    (hl : d.Logged p s decl.init) (hr : d.Ready (p.scope.upTo o) s decl.init) :
    (d.setRebuilt o s decl).Logbook p := by
  have hm : Mute d (d.setRebuilt o s decl) := ⟨rfl, rfl, rfl, Nat.le_refl _⟩
  have hg := setRebuilt_grows d o s decl
  refine h.mute hm (fun x e he => .inl he) fun x t decl' hx => ?_
  rw [setRebuilt_rebuilt?] at hx
  split at hx
  · rename_i hxt
    obtain ⟨rfl, rfl⟩ := hxt
    obtain rfl : decl = decl' := by simpa using hx
    exact ⟨hl.grow hm.logGrows, hr.grow hg⟩
  · exact (h.rebuilt x t decl' hx).imp (·.grow hm.logGrows) (·.grow hg)

theorem Logbook.openField {r : InterfaceRecord} {value : Expr} {reaching : List NodeId}
    (h : d.Logbook p) (hr : d.record? s t = some r) (hv : d.Logged p s value) :
    (d.openField s t r value reaching).Logbook p := by
  refine h.steady (openField_mute ..) (openField_grows value reaching hr) ?_ fun x e he => ?_
  · unfold Draft.openField Draft.setRecord
    split <;> rfl
  · rcases mem_tags_openField.1 he with he | ⟨rfl, rfl⟩
    · exact .inl he
    · refine .inr fun x hx => ?_
      obtain rfl := List.mem_singleton.1 hx
      simpa [Logged, producer, endAt, Logs] using hv

theorem Carries.mute {value e : Expr} (h : Carries sc s t value d e d') : Mute d d' := by
  cases h with
  | found => exact tick_mute ..
  | opened _ _ he =>
    subst he
    exact (openField_mute ..).trans (tick_mute ..)

/-- What arrives is the end of a field, which samples nothing. -/
theorem Carries.logbook {value e : Expr} (h : Carries sc s t value d e d') (hb : d.Logbook p)
    (hv : d.Logged p s value) :
    d'.Logbook p ∧ ∃ n r, e = .interface n r := by
  cases h with
  | found => exact ⟨hb.agree ⟨rfl, rfl, rfl, rfl⟩ (tick_mute ..), _, _, rfl⟩
  | opened hr _ he =>
    subst he
    exact ⟨(hb.openField hr hv).agree ⟨rfl, rfl, rfl, rfl⟩ (tick_mute ..), _, _, rfl⟩

theorem logged_interface {n : Node} {r : InterfaceRef} : d.Logged p s (.interface n r) := by
  simp [Logged, Logs]

theorem Relays.mute {value e : Expr} {hops : List Stage} (h : Relays sc s value hops d e d') :
    Mute d d' := by
  induction h with
  | done => exact .refl _
  | hop hc _ ih => exact hc.mute.trans ih

theorem Relays.logbook {value e : Expr} {hops : List Stage} (h : Relays sc s value hops d e d')
    (hne : hops ≠ []) (hb : d.Logbook p) (hv : d.Logged p s value) :
    d'.Logbook p ∧ ∃ n r, e = .interface n r := by
  induction h with
  | done => exact absurd rfl hne
  | @hop s t value next last rest d d₁ d₂ hc hr ih =>
    obtain ⟨hb₁, n, r, rfl⟩ := hc.logbook hb hv
    cases rest with
    | nil =>
      cases hr
      exact ⟨hb₁, n, r, rfl⟩
    | cons => exact ih (by simp) hb₁ logged_interface

/-- A value whose samples are logged for a stage, and whose locals are rebuilt there. -/
def Settled (p : Pipeline) (d : Draft) (sc : Scope) (s : Stage) (e : Expr) : Prop :=
  d.Logged p s e ∧ d.Ready sc s e

theorem Settled.grow {e : Expr} (h : d.Settled p sc s e) (hl : LogGrows d d') (hg : Grows d d') :
    d'.Settled p sc s e :=
  ⟨h.1.grow hl, h.2.grow hg⟩

section
variable {n : Node} {e l r : Expr} {es : List Expr}

@[simp] theorem settled_literal {v : Literal} : d.Settled p sc s (.literal n v) := by
  simp [Settled, Logged, Ready, Logs, HasRebuilt]

@[simp] theorem settled_constant {v : ConstValue} : d.Settled p sc s (.constant n v) := by
  simp [Settled, Logged, Ready, Logs, HasRebuilt]

@[simp] theorem settled_interface {f : InterfaceRef} : d.Settled p sc s (.interface n f) := by
  simp [Settled, Logged, Ready, Logs, HasRebuilt]

@[simp] theorem settled_param {i : Nat} : d.Settled p sc s (.param n i) := by
  simp [Settled, Logged, Ready, Logs, HasRebuilt]

@[simp] theorem settled_unary {op : UnaryOp} :
    d.Settled p sc s (.unary n op e) ↔ d.Settled p sc s e := by
  simp [Settled, Logged, Ready, Logs, HasRebuilt]

@[simp] theorem settled_cast : d.Settled p sc s (.cast n e) ↔ d.Settled p sc s e := by
  simp [Settled, Logged, Ready, Logs, HasRebuilt]

@[simp] theorem settled_member {f : String} :
    d.Settled p sc s (.member n e f) ↔ d.Settled p sc s e := by
  simp [Settled, Logged, Ready, Logs, HasRebuilt]

@[simp] theorem settled_binary {op : BinaryOp} :
    d.Settled p sc s (.binary n op l r) ↔ d.Settled p sc s l ∧ d.Settled p sc s r := by
  simp [Settled, Logged, Ready, Logs, HasRebuilt, and_and_and_comm]

@[simp] theorem settled_construct :
    d.Settled p sc s (.construct n es) ↔ ∀ e ∈ es, d.Settled p sc s e := by
  simp [Settled, Logged, Ready, Logs, HasRebuilt, forall_and]

@[simp] theorem settled_initList :
    d.Settled p sc s (.initList n es) ↔ ∀ e ∈ es, d.Settled p sc s e := by
  simp [Settled, Logged, Ready, Logs, HasRebuilt, forall_and]

@[simp] theorem settled_call {f : DeclId} :
    d.Settled p sc s (.call n f es) ↔ ∀ e ∈ es, d.Settled p sc s e := by
  simp [Settled, Logged, Ready, Logs, HasRebuilt, forall_and]

theorem settled_methodCall {m : DeclId} : d.Settled p sc s (.methodCall n m e es) ↔
    d.Logs p s (.methodCall n m e es) ∧ d.Settled p sc s e ∧ ∀ x ∈ es, d.Settled p sc s x := by
  simp only [Settled, Logged, Ready, Expr.all_methodCall, HasRebuilt, true_and, forall_and]
  grind

theorem settled_localVar {v : LocalId} {name : String} (hr : ∀ written o,
    sc.find (.localVar v) = some ⟨.declaration written, o⟩ → (d.rebuilt? o s).isSome = true) :
    d.Settled p sc s (.localVar n v name) := by
  simpa [Settled, Logged, Ready, Logs, HasRebuilt] using hr

end

theorem Logbook.declare {o : NodeId} {decl : LocalDecl} (h : d.Logbook p)
    (hi : d.Settled p (p.scope.upTo o) s decl.init) : (d.declare o s decl).Logbook p := by
  apply (h.setRebuilt hi.1 hi.2).add
  intro x hx
  obtain rfl := List.mem_singleton.1 hx
  exact hi.1

theorem Logbook.redeclare {o : NodeId} {decl : LocalDecl} (h : d.Logbook p)
    (hi : d.Settled p (p.scope.upTo o) t decl.init) : (d.redeclare s t o decl).Logbook p :=
  (h.declare hi).release

theorem Lifts.mute {stages : StageSet} {es es' : List Expr} (h : Lifts stages s t sc es d es' d') :
    Mute d d' := by
  induction h with
  | nil | literal | constant => exact .refl _
  | cons _ _ ih ihs => exact ih.trans ihs
  | construct _ ih | unary _ ih | cast _ ih => exact ih
  | redeclare _ _ _ ih => exact ih.trans ⟨rfl, rfl, rfl, Nat.le_refl _⟩
  | transfer _ _ hd => exact hd.mute

/-- What is lifted has left its samples behind. -/
theorem Lifts.settled {stages : StageSet} {es es' : List Expr} (h : Lifts stages s t sc es d es' d')
    (hb : d.Logbook p) (hsc : ∃ x, sc = p.scope.upTo x) (hes : ∀ e ∈ es, d.Settled p sc s e) :
    d'.Logbook p ∧ ∀ e ∈ es', d'.Settled p sc t e := by
  induction h with
  | nil => exact ⟨hb, by simp⟩
  | cons h₁ h₂ ih ihs =>
    obtain ⟨hb₁, he₁⟩ := ih hb hsc (by simpa using hes _ (by simp))
    obtain ⟨hb₂, he₂⟩ :=
      ihs hb₁ hsc fun e he => (hes e (by simp [he])).grow h₁.mute.logGrows h₁.moves.grows
    refine ⟨hb₂, fun e he => ?_⟩
    rcases List.mem_cons.1 he with rfl | he
    · exact (he₁ e (by simp)).grow h₂.mute.logGrows h₂.moves.grows
    · exact he₂ e he
  | literal | constant => exact ⟨hb, by simp⟩
  | construct _ ih | unary _ ih | cast _ ih =>
    obtain ⟨hb', he⟩ := ih hb hsc (by simpa using hes)
    exact ⟨hb', by simpa using he⟩
  | @redeclare sc n v name written decl o init d d₁ hfind hd _ ih =>
    obtain ⟨x, rfl⟩ := hsc
    have hready : (d.rebuilt? o s).isSome = true := by
      have h := (hes (.localVar n v name) (by simp)).2
      simp only [Ready, Expr.all_localVar, HasRebuilt] at h
      exact h written o hfind
    obtain ⟨decl', hdecl⟩ := Option.isSome_iff_exists.1 hready
    obtain rfl : decl' = decl := by simpa [hdecl] using hd
    rw [show (p.scope.upTo x).upTo o = p.scope.upTo o from Scope.before_upTo hfind] at ih
    have hinit : d.Settled p (p.scope.upTo o) s decl'.init := hb.rebuilt o s decl' hdecl
    obtain ⟨hb₁, he₁⟩ := ih hb ⟨o, rfl⟩ (by simpa using hinit)
    refine ⟨hb₁.redeclare (by simpa using he₁), ?_⟩
    simp only [List.mem_singleton, forall_eq]
    apply settled_localVar
    intro written' o' hfind'
    cases hfind.symm.trans hfind'
    exact (onQueue_grows ..).rebuilt o t
      ((onQueue_grows ..).rebuilt o t (by simp [setRebuilt_rebuilt?]))
  | transfer _ hr hd =>
    obtain ⟨hb', n, r, rfl⟩ := hd.logbook hr.ne_nil hb (hes _ (by simp)).1
    exact ⟨hb', by simp⟩

def SettledAt (p : Pipeline) (d : Draft) (sc : Scope) (pl : Placement) (e : Expr) : Prop :=
  ∀ s, pl = none ∨ pl = some s → d.Settled p sc s e

theorem SettledAt.grow {pl : Placement} {e : Expr} (h : d.SettledAt p sc pl e) (hl : LogGrows d d')
    (hg : Grows d d') : d'.SettledAt p sc pl e :=
  fun s hs => (h s hs).grow hl hg

theorem settledAt_some {e : Expr} (h : d.Settled p sc s e) : d.SettledAt p sc (some s) e := by
  intro x hx
  obtain rfl : s = x := by simpa using hx
  exact h

theorem SettledAt.getD {pl : Placement} {e : Expr} {target : Stage} (h : d.SettledAt p sc pl e)
    (hs : pl.getD target = s) : d.Settled p sc s e := by
  cases pl with
  | none => exact h s (.inl rfl)
  | some x => exact h s (.inr (congrArg some hs))

theorem Promotes.mute {stages : StageSet} {pl wanted : Placement} {e e' : Expr}
    (h : Promotes stages sc pl wanted e d e' d') : Mute d d' := by
  cases h with
  | keep => exact .refl _
  | lift _ hl => exact hl.mute

theorem Promotes.settled {stages : StageSet} {pl wanted : Placement} {e e' : Expr}
    (h : Promotes stages sc pl wanted e d e' d') (hb : d.Logbook p) (hsc : ∃ x, sc = p.scope.upTo x)
    (hn : wanted = none → pl = none) (he : d.SettledAt p sc pl e) :
    d'.Logbook p ∧ d'.SettledAt p sc wanted e' := by
  cases h with
  | keep hk =>
    refine ⟨hb, fun s hs => he s ?_⟩
    rcases hk with hk | hk | rfl
    · exact .inl hk
    · exact .inl (hn hk)
    · exact hs
  | @lift s t _ _ _ _ hst hl =>
    obtain ⟨hb', he'⟩ := hl.settled hb hsc (by simpa using he s (.inr rfl))
    exact ⟨hb', settledAt_some (he' e' (by simp))⟩

end Draft

namespace Draft

theorem internSampler_some {samplers samplers' : List SamplerRecord} {config : SamplerConfig}
    {i : Nat} (h : internSampler samplers config = some (i, samplers')) :
    samplers <+: samplers' ∧ ∃ k, samplers'[i]? = some k ∧ k.config = config := by
  unfold internSampler at h
  split at h
  next j hj =>
    cases h
    obtain ⟨hlt, hc, -⟩ := List.findIdx?_eq_some_iff_getElem.1 hj
    exact ⟨List.prefix_refl _, _, List.getElem?_eq_getElem hlt, by simpa using hc⟩
  · split at h
    · cases h
      exact ⟨List.prefix_append _ _, _, List.getElem?_concat_length, rfl⟩
    · cases h

theorem recordSample_textures (d : Draft) (samplers : List SamplerRecord)
    (call : SampleCall) (j : Nat) :
    (d.recordSample samplers call).textures[j]? = d.textures[j]?.map fun x =>
      if call.texture = j then { x with stages := x.stages.insert call.stage } else x := by
  rw [recordSample, List.getElem?_modify]
  cases d.textures[j]? <;> by_cases hj : call.texture = j <;> simp [hj]

theorem recordSample_samplers (d : Draft) (samplers : List SamplerRecord)
    (call : SampleCall) (j : Nat) :
    (d.recordSample samplers call).samplers[j]? = samplers[j]?.map fun k =>
      if call.sampler = j then { k with stages := k.stages.insert call.stage } else k := by
  rw [recordSample, List.getElem?_modify]
  cases samplers[j]? <;> by_cases hj : call.sampler = j <;> simp [hj]

theorem recordSample_logGrows {d : Draft} {samplers : List SamplerRecord}
    (hs : d.samplers <+: samplers) (call : SampleCall) :
    LogGrows d (d.recordSample samplers call) := by
  refine ⟨fun c hc => List.mem_append_left _ hc, fun j x hx => ?_, fun j k hk => ?_⟩
  · refine ⟨_, by rw [recordSample_textures, hx, Option.map_some], ?_, fun s hm => ?_⟩
    · split <;> rfl
    · split
      · simp [hm]
      · exact hm
  · have hk' : samplers[j]? = some k := by
      obtain ⟨rest, rfl⟩ := hs
      rw [List.getElem?_append_left (List.getElem?_eq_some_iff.1 hk).1, hk]
    refine ⟨_, by rw [recordSample_samplers, hk', Option.map_some], ?_, fun s hm => ?_⟩
    · split <;> rfl
    · split
      · simp [hm]
      · exact hm

theorem sample_ok {s : Stage} {id : NodeId} {param k : Nat} {sampler : Expr} {d d' : Draft}
    (h : Draft.sample s id param sampler d = .ok k d') :
    ∃ config i samplers, SamplerConfig.ofExpr sampler = .ok config ∧
    d.textures.findIdx? (·.param == param) = some i ∧
      internSampler d.samplers config = some (k, samplers) ∧
      d' = d.recordSample samplers ⟨id, i, k, s⟩ := by
  unfold Draft.sample at h
  split at h
  · cases h
  next config hconfig =>
    split at h
    · cases h
    next i hi =>
      split at h
      · cases h
      next k' samplers hk =>
        cases h
        exact ⟨config, i, samplers, hconfig, hi, hk, rfl⟩

end Draft

namespace Aim

variable {a : Aim} {sc : Scope} {d d' : Draft}

theorem PromotesAll.mute {wanted : Placement} {ts : List Traced} {es : List Expr}
    (h : a.PromotesAll sc wanted ts d es d') : d.Mute d' := by
  induction h with
  | nil => exact .refl _
  | cons hp _ ih => exact hp.mute.trans ih

theorem PromotesAll.settled {wanted : Placement} {ts : List Traced} {es : List Expr}
    (h : a.PromotesAll sc wanted ts d es d') (hb : d.Logbook a.pipeline)
    (hsc : ∃ x, sc = a.pipeline.scope.upTo x) (hn : wanted = none → ∀ t ∈ ts, t.stage = none)
    (hts : ∀ t ∈ ts, d.SettledAt a.pipeline sc t.stage t.expr) :
    d'.Logbook a.pipeline ∧ ∀ e ∈ es, d'.SettledAt a.pipeline sc wanted e := by
  induction h with
  | nil => exact ⟨hb, by simp⟩
  | cons hp hps ih =>
    obtain ⟨hb₁, he₁⟩ := hp.settled hb hsc (fun h => hn h _ (by simp)) (hts _ (by simp))
    obtain ⟨hb₂, he₂⟩ := ih hb₁ (fun h t ht => hn h t (by simp [ht]))
      fun t ht => (hts t (by simp [ht])).grow hp.mute.logGrows hp.moves.grows
    refine ⟨hb₂, fun e he => ?_⟩
    rcases List.mem_cons.1 he with rfl | he
    · exact he₁.grow hps.mute.logGrows hps.moves.grows
    · exact he₂ e he

/-- Entering a sample: its identity is the last one given out, and its texture and
sampler are marked. -/
theorem sample_logbook {p : Pipeline} {s : Stage} {texture k : Nat} {sampler : Expr}
    (hb : d.Logbook p) (h : Draft.sample s d.nextId texture sampler (d.tick 1) = .ok k d') :
    d'.Logbook p ∧ d.LogGrows d' ∧ d'.HasSample s d.nextId texture sampler := by
  obtain ⟨config, i, samplers, hconfig, hi, hk, rfl⟩ := Draft.sample_ok h
  obtain ⟨hkept, x, hx, hxc⟩ := Draft.internSampler_some hk
  obtain ⟨hlt, hparam, -⟩ := List.findIdx?_eq_some_iff_getElem.1 hi
  have hgrows :=
    (Draft.tick_mute d 1).logGrows.trans (Draft.recordSample_logGrows hkept ⟨d.nextId, i, k, s⟩)
  refine ⟨⟨?_, fun y hy => ?_, ?_, fun x e he y hy => (hb.queued x e he y hy).grow hgrows,
    fun o x decl ho => ?_⟩, hgrows, ?_⟩
  · -- the new identity is above all that were given out before
    have hnew : d.nextId ∉ d.sampleCalls.map (·.expr) := by
      intro hmem
      obtain ⟨call, hcall, he⟩ := List.mem_map.1 hmem
      exact Nat.lt_irrefl _ (he ▸ hb.given call hcall)
    rw [Draft.recordSample, List.map_append, List.map_singleton, ← List.concat_eq_append]
    exact List.Nodup.concat hnew hb.ids
  · -- an entry changes the marks of its texture only
    obtain ⟨j, hj⟩ := List.mem_iff_getElem?.1 hy
    rw [Draft.recordSample_textures] at hj
    obtain ⟨z, hz, rfl⟩ := Option.map_eq_some_iff.1 hj
    obtain ⟨y, hy, heq⟩ := hb.bound z (List.mem_of_getElem? hz)
    refine ⟨y, hy, ?_⟩
    rw [heq]
    split <;> rfl
  · intro call hcall
    change call.expr < d.nextId + 1
    rcases List.mem_append.1 hcall with hcall | hcall
    · exact Nat.lt_succ_of_lt (hb.given call hcall)
    · rw [List.mem_singleton.1 hcall]
      exact Nat.lt_succ_self _
  · exact (hb.rebuilt o x decl ho).imp (·.grow hgrows)
      (·.grow (Draft.Agrees.grows ⟨rfl, rfl, rfl, rfl⟩))
  · have htexture := Draft.recordSample_textures (d.tick 1) samplers ⟨d.nextId, i, k, s⟩ i
    have hstate := Draft.recordSample_samplers (d.tick 1) samplers ⟨d.nextId, i, k, s⟩ k
    rw [List.getElem?_eq_getElem hlt, Option.map_some, if_pos rfl] at htexture
    rw [hx, Option.map_some, if_pos rfl] at hstate
    exact ⟨⟨d.nextId, i, k, s⟩, List.mem_append_right _ (by simp), rfl, rfl,
      ⟨_, htexture, by simpa using hparam, by simp⟩, _, hstate, by rw [hconfig, ← hxc], by simp⟩

namespace Traces

theorem settled_parts {d₁ : Draft} {e : Expr} {es : List Expr} {ts : List Traced}
    {wanted : Placement} (hp : a.PromotesAll sc wanted ts d₁ es d') (hb : d₁.Logbook a.pipeline)
    (hg : d.LogGrows d₁) (hsc : ∃ x, sc = a.pipeline.scope.upTo x)
    (hts : ∀ t ∈ ts, d₁.SettledAt a.pipeline sc t.stage t.expr)
    (hwanted : wanted = placement ts ∨ wanted = some a.target)
    (he : ∀ s, d'.Settled a.pipeline sc s e ↔ ∀ x ∈ es, d'.Settled a.pipeline sc s x) :
    d'.Logbook a.pipeline ∧ d.LogGrows d' ∧
      ∀ t ∈ [(⟨e, wanted⟩ : Traced)], d'.SettledAt a.pipeline sc t.stage t.expr := by
  have hnone : wanted = none → ∀ t ∈ ts, t.stage = none := by
    rintro rfl
    exact placement_eq_none.1 (hwanted.resolve_right (by simp)).symm
  obtain ⟨hb', hes⟩ := hp.settled hb hsc hnone hts
  refine ⟨hb', hg.trans hp.mute.logGrows, List.forall_mem_singleton.2 fun s hs => ?_⟩
  exact (he s).2 fun x hx => hes x hx s hs

/-- Tracing enters each sample it meets, and what it gives is settled where it is placed. -/
theorem settled {m : Bool} {es : List Expr} {ts : List Traced} (h : a.Traces sc m es d ts d')
    (hbare : a.pipeline.BareSwizzles) (hb : d.Logbook a.pipeline)
    (hsc : ∃ x, sc = a.pipeline.scope.upTo x) (hes : ∀ e ∈ es, e ∈ a.pipeline.scope.terms) :
    d'.Logbook a.pipeline ∧ d.LogGrows d' ∧
    ∀ t ∈ ts, d'.SettledAt a.pipeline sc t.stage t.expr := by
  induction h with
  | nil => exact ⟨hb, (Draft.Mute.refl _).logGrows, by simp⟩
  | cons _ hs ih ihs =>
    obtain ⟨hb₁, hg₁, ht₁⟩ := ih hb hsc (by simpa using hes _ (by simp))
    obtain ⟨hb₂, hg₂, ht₂⟩ := ihs hb₁ hsc fun e he => hes e (by simp [he])
    refine ⟨hb₂, hg₁.trans hg₂, fun t ht => ?_⟩
    rcases List.mem_cons.1 ht with rfl | ht
    · exact (ht₁ t (by simp)).grow hg₂ hs.moves.grows
    · exact ht₂ t ht
  | literal | constant => exact ⟨hb, (Draft.Mute.refl _).logGrows, by simp [Draft.SettledAt]⟩
  | @param sc m n i q d d' hq _ _ hd =>
    have hagree : d.Agrees d' ∧ d.Mute d' := by
      subst hd
      split <;> exact ⟨⟨rfl, rfl, rfl, rfl⟩, rfl, rfl, rfl, Nat.le_refl _⟩
    refine ⟨hb.agree hagree.1 hagree.2, hagree.2.logGrows, ?_⟩
    simp [Draft.SettledAt]
  | @declared sc m n v name written o t s d d₁ _ hfind _ hs ih =>
    obtain ⟨x, rfl⟩ := hsc
    have hscope : (a.pipeline.scope.upTo x).upTo o = a.pipeline.scope.upTo o :=
      Scope.before_upTo hfind
    have hmem : written.init ∈ a.pipeline.scope.terms :=
      Scope.terms_upTo (Scope.find_value_mem hfind)
    rw [hscope] at ih
    obtain ⟨hb₁, hg₁, ht₁⟩ := ih hb ⟨o, rfl⟩ (by simpa using hmem)
    have hinit := (ht₁ t (by simp)).getD hs
    refine ⟨hb₁.declare hinit, hg₁.trans (Draft.Mute.logGrows ⟨rfl, rfl, rfl, Nat.le_refl _⟩), ?_⟩
    simp only [List.mem_singleton, forall_eq]
    apply Draft.settledAt_some
    apply Draft.settled_localVar
    intro written' o' hfind'
    cases hfind.symm.trans hfind'
    exact (Draft.onQueue_grows ..).rebuilt o s (by simp [Draft.setRebuilt_rebuilt?])
  | @assigned sc m n v name x o t s d d₁ _ hfind _ hs ih =>
    obtain ⟨y, rfl⟩ := hsc
    have hscope : (a.pipeline.scope.upTo y).upTo o = a.pipeline.scope.upTo o :=
      Scope.before_upTo hfind
    have hmem : x ∈ a.pipeline.scope.terms := Scope.terms_upTo (Scope.find_value_mem hfind)
    rw [hscope] at ih
    obtain ⟨hb₁, hg₁, ht₁⟩ := ih hb ⟨o, rfl⟩ (by simpa using hmem)
    have hx := (ht₁ t (by simp)).getD hs
    refine ⟨hb₁.add (by simpa [StageStmt.exprs] using hx.1),
      hg₁.trans (Draft.onQueue_mute ..).logGrows, ?_⟩
    simp only [List.mem_singleton, forall_eq]
    apply Draft.settledAt_some
    apply Draft.settled_localVar
    intro written' o' hfind'
    cases hfind.symm.trans hfind'
  | @binary sc m n op lhs rhs lhs' rhs' l r pl d d₁ d₂ d₃ d₄ _ htr hp pl' pr ihl ihr =>
    obtain ⟨hb₁, hg₁, ht₁⟩ := ihl hb hsc (Scope.parts_terms hes (by simp [Expr.self_mem_subterms]))
    obtain ⟨hb₂, hg₂, ht₂⟩ := ihr hb₁ hsc (Scope.parts_terms hes (by simp [Expr.self_mem_subterms]))
    have hts : ∀ t ∈ [l, r], d₂.SettledAt a.pipeline sc t.stage t.expr :=
      List.forall_mem_cons.2 ⟨(ht₁ l (by simp)).grow hg₂ htr.moves.grows, ht₂⟩
    -- the two operands are promoted like a list of two
    have hall : a.PromotesAll sc pl [l, r] d₂ [lhs', rhs'] d₄ := .cons pl' (.cons pr .nil)
    have hwanted : pl = placement [l, r] ∨ pl = some a.target := hp ▸ wait_cases a _ _
    exact settled_parts hall hb₂ (hg₁.trans hg₂) hsc hts hwanted (by simp)
  | unary _ ih | cast _ _ ih | member _ _ ih =>
    obtain ⟨hb₁, hg₁, ht₁⟩ := ih hb hsc (Scope.parts_terms hes (by simp [Expr.self_mem_subterms]))
    exact ⟨hb₁, hg₁, by simpa [Draft.SettledAt] using ht₁⟩
  | construct _ _ hp ih | initList _ hp ih =>
    obtain ⟨hb₁, hg₁, ht₁⟩ :=
      ih hb hsc (Scope.parts_terms hes fun e he => by simp [Expr.mem_subtermsOf he])
    exact settled_parts hp hb₁ hg₁ hsc ht₁ (.inl rfl) (by simp)
  | call _ _ hpl hp ih =>
    obtain ⟨hb₁, hg₁, ht₁⟩ :=
      ih hb hsc (Scope.parts_terms hes fun e he => by simp [Expr.mem_subtermsOf he])
    exact settled_parts hp hb₁ hg₁ hsc ht₁ (hpl ▸ wait_cases a _ _) (by simp)
  | @sample sc m n method f object uv uv' sampler texture k s t d d₁ d₂ d₃ hm hsample
      ho _ hp hk ih =>
    obtain ⟨n', q, rfl, hq, rfl, -⟩ := sampledStage_ok ho
    obtain ⟨hb₁, hg₁, ht₁⟩ := ih hb hsc (Scope.parts_terms hes (by simp [Expr.self_mem_subterms]))
    obtain ⟨hb₂, he₂⟩ := hp.settled hb₁ hsc (by simp) (ht₁ t (by simp))
    obtain ⟨hb₃, hg₃, hlog⟩ := sample_logbook hb₂ hk
    have hagree := Draft.agrees_sample hk
    obtain ⟨-, n'', c, rfl⟩ := Draft.sample_agrees hk
    refine ⟨hb₃, (hg₁.trans hp.mute.logGrows).trans hg₃, ?_⟩
    simp only [List.mem_singleton, forall_eq]
    apply Draft.settledAt_some
    refine Draft.settled_methodCall.2
      ⟨⟨f, hm, by simp [hsample], fun _ => ⟨n', texture, uv', _, rfl, rfl, hlog⟩⟩, by simp, ?_⟩
    simpa using (he₂ q.role.stage (.inr rfl)).grow hg₃ hagree.grows
  | @method sc m n method f object args t ts d d₁ d₂ hm hs _ ha ih ihs =>
    have hmem := hes (.methodCall n method object args) (by simp)
    obtain rfl : args = [] := hbare n method object args f hmem hm hs
    cases ha
    obtain ⟨hb₁, hg₁, ht₁⟩ := ih hb hsc (Scope.parts_terms hes (by simp [Expr.self_mem_subterms]))
    refine ⟨hb₁, hg₁, ?_⟩
    simp only [List.mem_singleton, forall_eq]
    intro s hst
    refine Draft.settled_methodCall.2 ⟨⟨f, hm, fun _ => rfl, fun h => ?_⟩,
      ht₁ t (by simp) s hst, by simp⟩
    rw [hs] at h
    cases h

end Traces
end Aim

namespace Pipeline

variable {p : Pipeline}

theorem start_logbook (p : Pipeline) : (Draft.start p).Logbook p := by
  refine ⟨List.nodup_nil, fun x hx => ⟨x, hx, rfl⟩,
    by simp [Draft.start], fun s e he => ?_, fun o s decl ho => ?_⟩
  · cases s <;> simp [Draft.start, Draft.queue, PerStage.const, PerStage.get, Queue.tags] at he
  · simp [Draft.start, Draft.rebuilt?] at ho

theorem Runs.logbook {todo : List (Stage × Param × Nat)} {d d' : Draft} (h : p.Runs todo d d')
    (hbare : p.BareSwizzles) (hb : d.Logbook p) : d'.Logbook p := by
  induction h with
  | nil => exact hb
  | unwritten _ _ ih => exact ih (hb.agree ⟨rfl, rfl, rfl, rfl⟩ ⟨rfl, rfl, rfl, Nat.le_refl _⟩)
  | @written s q i rest x e o t d d₁ d₂ d' hfind ht hs hp _ ih =>
    have hmem : x ∈ p.scope.terms := Scope.find_value_mem hfind
    obtain ⟨hb₁, -, ht₁⟩ := ht.settled hbare hb ⟨o, rfl⟩ (by simpa using hmem)
    obtain ⟨hb₂, he₂⟩ := hp.settled hb₁ ⟨o, rfl⟩ (by simp) (ht₁ t (by simp))
    exact ih (hb₂.add (by simpa [StageStmt.exprs] using (he₂ s (.inr rfl)).1))

end Pipeline
end ShaderSplit
