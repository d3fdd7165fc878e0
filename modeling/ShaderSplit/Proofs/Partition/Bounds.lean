import ShaderSplit.Proofs.Partition.Fields
import ShaderSplit.Proofs.Partition.Host
import ShaderSplit.Proofs.Partition.Placement

namespace ShaderSplit

/-- Stages in which a split may work, and values that it may carry. What is read from a field may be
carried on if the field's own value may be. -/
structure Limits where
  stage : Stage → Prop
  value : Expr → Prop
  field : InterfaceRef → InterfaceField → Prop
  arrives : ∀ n r f, field r f → f.ty = n.ty → value f.key → value (.interface n r)

namespace Expr

/-- A variable or a part of one; its type is checked where it is a value. -/
def isReference : Expr → Bool
  | param .. | localVar .. | member .. => true
  | _ => false

/-- An expression that is carried as a whole, and whose type is not checked. -/
def isComputed : Expr → Bool
  | binary .. | initList .. | call .. | methodCall .. => true
  | _ => false

variable (p : Pipeline) (L : Limits)

/-- A field's end is on the way to a later stage that the function has. -/
def Leads : Expr → Prop
  | interface _ r => L.stage r.source ∧ r.source < r.dest ∧ p.stages.contains r.dest = true
  | _ => True

structure Carriable (e : Expr) : Prop where
  leads : e.All (Leads p L)
  value : L.value e

/-- A value that may be lifted: what lifting carries of it may be carried, also in declarations
that it repeats. -/
inductive Liftable : Scope → Expr → Prop
  | literal {sc : Scope} {n : Node} {v : Literal} : Liftable sc (.literal n v)
  | constant {sc : Scope} {n : Node} {v : ConstValue} : Liftable sc (.constant n v)
  | construct {sc : Scope} {n : Node} {args : List Expr} (h : ∀ e ∈ args, Liftable sc e) :
      Liftable sc (.construct n args)
  | unary {sc : Scope} {n : Node} {op : UnaryOp} {e : Expr} (h : Liftable sc e) :
      Liftable sc (.unary n op e)
  | cast {sc : Scope} {n : Node} {e : Expr} (h : Liftable sc e) : Liftable sc (.cast n e)
  | declared {sc : Scope} {n : Node} {v : LocalId} {name : String} {written : LocalDecl}
      {o : NodeId} (hw : sc.find (.localVar v) = some ⟨.declaration written, o⟩)
      (h : Liftable (sc.upTo o) written.init) : Liftable sc (.localVar n v name)
  | crossing {sc : Scope} {e : Expr} (hc : e.crosses sc = true) (h : e.Carriable p L) :
      Liftable sc e

variable {p L} {sc : Scope}

theorem Liftable.leads {e : Expr} (h : e.Liftable p L sc) : e.All (Leads p L) := by
  induction h with
  | literal | constant | declared => simp [Leads]
  | construct _ ih => simpa [Leads] using ih
  | unary _ ih | cast _ ih => simpa [Leads] using ih
  | crossing _ h => exact h.leads

theorem Liftable.args {n : Node} {args : List Expr} (h : (Expr.construct n args).Liftable p L sc) :
    ∀ e ∈ args, e.Liftable p L sc := by
  cases h with
  | construct h => exact h
  | crossing hc _ => cases hc

theorem Liftable.operand {n : Node} {op : UnaryOp} {e : Expr}
    (h : (Expr.unary n op e).Liftable p L sc) : e.Liftable p L sc := by
  cases h with
  | unary h => exact h
  | crossing hc _ => cases hc

theorem Liftable.inner {n : Node} {e : Expr} (h : (Expr.cast n e).Liftable p L sc) :
    e.Liftable p L sc := by
  cases h with
  | cast h => exact h
  | crossing hc _ => cases hc

theorem Liftable.written {n : Node} {v : LocalId} {name : String} {written : LocalDecl} {o : NodeId}
    (h : (Expr.localVar n v name).Liftable p L sc)
    (hw : sc.find (.localVar v) = some ⟨.declaration written, o⟩) :
    written.init.Liftable p L (sc.upTo o) := by
  cases h with
  | declared hw' h =>
    cases hw.symm.trans hw'
    exact h
  | crossing hc _ => exact absurd ⟨written, o, hw⟩ (crosses_localVar.1 hc)

theorem Liftable.carriable {e : Expr} (h : e.Liftable p L sc) (hc : e.crosses sc = true) :
    e.Carriable p L := by
  cases h with
  | crossing _ h => exact h
  | literal | constant | construct | unary | cast => cases hc
  | declared hw _ => exact absurd ⟨_, _, hw⟩ (crosses_localVar.1 hc)

end Expr

def Limits.Knows (L : Limits) (d : Draft) : Prop :=
  ∀ s t r, d.record? s t = some r → ∀ i f, r.fields[i]? = some f → ∀ side, L.field ⟨s, t, side, i⟩ f

theorem Limits.Knows.of_grows {L : Limits} {d d' : Draft} (h : L.Knows d') (hd : d.Grows d') :
    L.Knows d := by
  intro s t r hr i f hf
  obtain ⟨r', hr', -, l, hl⟩ := hd.records s t r hr
  have hlt : i < r.fields.length := (List.getElem?_eq_some_iff.1 hf).1
  refine h s t r' hr' i f ?_
  rw [← hl, List.getElem?_append_left hlt, hf]

namespace Draft

variable {d d' : Draft} {s t : Stage} {p : Pipeline} {L : Limits} {sc : Scope}

/-- Records lead to stages of the function and carry values within limits, statements stand in
stages within limits, and rebuilt declarations may be lifted on. -/
structure Bounded (p : Pipeline) (L : Limits) (d : Draft) : Prop where
  records : ∀ s t r, d.record? s t = some r →
    p.stages.contains t = true ∧ ∀ f ∈ r.fields, L.value f.key
  queued : ∀ s, ∀ e ∈ (d.queue s).tags, L.stage s ∧ ∀ x ∈ e.1.exprs, x.All (Expr.Leads p L)
  rebuilt : ∀ o s decl, d.rebuilt? o s = some decl → decl.init.Liftable p L (p.scope.upTo o)

namespace Bounded

theorem agree (h : d.Bounded p L) (hd : Agrees d d') : d'.Bounded p L := by
  refine ⟨fun s t r hr => ?_, fun s e he => ?_, fun o s decl ho => ?_⟩
  · exact h.records s t r ((hd.record? s t).symm.trans hr)
  · exact h.queued s e (hd.queue s ▸ he)
  · exact h.rebuilt o s decl ((hd.rebuilt? o s).symm.trans ho)

theorem add {st : StageStmt} {origin : Option NodeId} (h : d.Bounded p L) (hs : L.stage s)
    (hst : ∀ x ∈ st.exprs, x.All (Expr.Leads p L)) : (d.add s st origin).Bounded p L := by
  refine ⟨h.records, fun x e he => ?_, h.rebuilt⟩
  rcases mem_tags_add he with he | ⟨rfl, rfl⟩
  · exact h.queued x e he
  · exact ⟨hs, hst⟩

theorem release {o : NodeId} (h : d.Bounded p L) : (d.onQueue s (·.release o)).Bounded p L :=
  ⟨h.records, fun x e he => h.queued x e (mem_tags_release he), h.rebuilt⟩

theorem setRebuilt {o : NodeId} {decl : LocalDecl} (h : d.Bounded p L)
    (hi : decl.init.Liftable p L (p.scope.upTo o)) : (d.setRebuilt o s decl).Bounded p L := by
  refine ⟨h.records, h.queued, fun x t decl' hx => ?_⟩
  rw [setRebuilt_rebuilt?] at hx
  split at hx
  · rename_i hxt
    obtain ⟨rfl, rfl⟩ := hxt
    cases hx
    exact hi
  · exact h.rebuilt x t decl' hx

theorem declare {o : NodeId} {decl : LocalDecl} (h : d.Bounded p L) (hs : L.stage s)
    (hi : decl.init.Liftable p L (p.scope.upTo o)) : (d.declare o s decl).Bounded p L := by
  apply (h.setRebuilt hi).add hs
  intro x hx
  obtain rfl := List.mem_singleton.1 hx
  exact hi.leads

theorem redeclare {o : NodeId} {decl : LocalDecl} (h : d.Bounded p L) (ht : L.stage t)
    (hi : decl.init.Liftable p L (p.scope.upTo o)) : (d.redeclare s t o decl).Bounded p L :=
  (h.declare ht hi).release

theorem openField {r : InterfaceRecord} {value : Expr} {reaching : List NodeId} (h : d.Bounded p L)
    (hr : d.record? s t = some r) (hst : s < t) (hs : L.stage s) (hv : value.Carriable p L) :
    (d.openField s t r value reaching).Bounded p L := by
  obtain ⟨hactive, hfields⟩ := h.records s t r hr
  refine ⟨fun x y r' hr' => ?_, fun x e he => ?_, fun o x decl ho => ?_⟩
  · have hrecord : (d.openField s t r value reaching).record? x y = _ := setRecord_record? ..
    rw [hrecord] at hr'
    split at hr'
    · rename_i hxy
      obtain ⟨rfl, -⟩ := hxy
      cases hr'
      refine ⟨hactive, fun f hf => ?_⟩
      rcases List.mem_append.1 hf with hf | hf
      · exact hfields f hf
      · rw [List.mem_singleton.1 hf]
        exact hv.value
    · exact h.records x y r' hr'
  · rcases mem_tags_openField.1 he with he | ⟨rfl, rfl⟩
    · exact h.queued x e he
    · refine ⟨hs, fun x hx => ?_⟩
      obtain rfl := List.mem_singleton.1 hx
      simp only [producer, endAt, Expr.all_binary, Expr.all_interface, Expr.Leads, true_and]
      exact ⟨⟨hs, hst, hactive⟩, hv.leads⟩
  · exact h.rebuilt o x decl ((setRecord_rebuilt? ..).symm.trans ho)

end Bounded

/-- What arrives is a field's end, on its way to an active stage. -/
theorem Carries.bounded {value e : Expr} (h : Carries sc s t value d e d') (hk : L.Knows d')
    (hd : d.Bounded p L) (hst : s < t) (hs : L.stage s) (hv : value.Carriable p L) :
    d'.Bounded p L ∧ p.stages.contains t = true ∧ e.Carriable p L := by
  have hd' : d'.Bounded p L := by
    cases h with
    | found => exact hd.agree ⟨rfl, rfl, rfl, rfl⟩
    | opened hr _ he =>
      subst he
      exact (hd.openField hr hst hs hv).agree ⟨rfl, rfl, rfl, rfl⟩
  obtain ⟨n, i, r, f, rfl, hr, hf, hty, -⟩ := h.field
  obtain ⟨ht, hfields⟩ := hd'.records s t r hr
  refine ⟨hd', ht, ?_,
    L.arrives n _ f (hk s t r hr i f hf _) hty (hfields f (List.mem_of_getElem? hf))⟩
  simpa [Expr.Leads] using ⟨hs, hst, ht⟩

theorem Relays.bounded {value e : Expr} {hops : List Stage} (h : Relays sc s value hops d e d')
    (hk : L.Knows d') (hactive : ∀ s, p.stages.contains s = true → L.stage s) (hd : d.Bounded p L)
    (hsorted : (s :: hops).Pairwise (· < ·)) (hs : L.stage s) (hv : value.Carriable p L) :
    d'.Bounded p L ∧ e.Carriable p L := by
  induction h with
  | done => exact ⟨hd, hv⟩
  | hop hc hr ih =>
    obtain ⟨hfirst, hrest⟩ := List.pairwise_cons.1 hsorted
    have hk₁ := hk.of_grows hr.moves.grows
    obtain ⟨hd₁, ht, hnext⟩ := hc.bounded hk₁ hd (hfirst _ List.mem_cons_self) hs hv
    exact ih hk hd₁ hrest (hactive _ ht) hnext

theorem Route.sorted {m : StageSet} {hops : List Stage} (h : Route m s t hops) (hst : s < t) :
    (s :: hops).Pairwise (· < ·) := by
  rcases h with ⟨-, rfl⟩ | ⟨-, rfl, -⟩
  · simpa using hst
  · refine List.pairwise_cons.2 ⟨fun x hx => ?_, (StageSet.devices_sorted m).filter _⟩
    have hx := (List.mem_filter.1 hx).2
    simp only [decide_eq_true_eq] at hx
    exact hx.1

theorem Lifts.bounded {es es' : List Expr} (h : Lifts p.stages s t sc es d es' d') (hk : L.Knows d')
    (hactive : ∀ s, p.stages.contains s = true → L.stage s) (hst : s < t) (hs : L.stage s)
    (ht : L.stage t) (hd : d.Bounded p L) (hsc : ∃ x, sc = p.scope.upTo x)
    (hes : ∀ e ∈ es, e.Liftable p L sc) :
    d'.Bounded p L ∧ ∀ e ∈ es', e.Liftable p L sc := by
  induction h with
  | nil => exact ⟨hd, hes⟩
  | cons _ hs' ih ihs =>
    obtain ⟨he, hes⟩ := List.forall_mem_cons.1 hes
    obtain ⟨hd₁, he₁⟩ := ih (hk.of_grows hs'.moves.grows) hd hsc (by simpa using he)
    obtain ⟨hd₂, he₂⟩ := ihs hk hd₁ hsc hes
    exact ⟨hd₂, List.forall_mem_cons.2 ⟨he₁ _ List.mem_cons_self, he₂⟩⟩
  | literal | constant => exact ⟨hd, hes⟩
  | construct _ ih =>
    obtain ⟨hd₁, hargs⟩ := ih hk hd hsc (hes _ List.mem_cons_self).args
    exact ⟨hd₁, by simpa using .construct hargs⟩
  | unary _ ih =>
    obtain ⟨hd₁, he⟩ := ih hk hd hsc (by simpa using (hes _ List.mem_cons_self).operand)
    exact ⟨hd₁, by simpa using .unary (he _ List.mem_cons_self)⟩
  | cast _ ih =>
    obtain ⟨hd₁, he⟩ := ih hk hd hsc (by simpa using (hes _ List.mem_cons_self).inner)
    exact ⟨hd₁, by simpa using .cast (he _ List.mem_cons_self)⟩
  | @redeclare sc n v name written decl o init d d₁ hw hdecl _ ih =>
    obtain ⟨x, rfl⟩ := hsc
    have hscope : (p.scope.upTo x).upTo o = p.scope.upTo o := Scope.before_upTo hw
    rw [hscope] at ih
    have hwritten := (hes _ List.mem_cons_self).written hw
    rw [hscope] at hwritten
    -- the declaration as it was rebuilt for the earlier stage, or else as it was written
    have hinit : decl.init.Liftable p L (p.scope.upTo o) := by
      cases hr : d.rebuilt? o s with
      | none =>
        obtain rfl : written = decl := by simpa [hr] using hdecl
        exact hwritten
      | some decl' =>
        obtain rfl : decl' = decl := by simpa [hr] using hdecl
        exact hd.rebuilt o s decl' hr
    have hk₁ := hk.of_grows (redeclare_moves ..).grows
    obtain ⟨hd₁, he₁⟩ := ih hk₁ hd ⟨o, rfl⟩ (by simpa using hinit)
    exact ⟨hd₁.redeclare ht (he₁ init List.mem_cons_self), hes⟩
  | transfer hc hr hrelays =>
    have hv := (hes _ List.mem_cons_self).carriable hc
    obtain ⟨n, ref, rfl⟩ := hrelays.interface hr.ne_nil
    obtain ⟨hd₁, he₁⟩ := hrelays.bounded hk hactive hd (hr.sorted hst) hs hv
    exact ⟨hd₁, by simpa using .crossing rfl he₁⟩

theorem Promotes.bounded {pl wanted : Placement} {e e' : Expr}
    (h : Promotes p.stages sc pl wanted e d e' d') (hk : L.Knows d')
    (hactive : ∀ s, p.stages.contains s = true → L.stage s) (hd : d.Bounded p L)
    (hsc : ∃ x, sc = p.scope.upTo x) (hpl : ∀ s, pl = some s → L.stage s)
    (hwanted : ∀ s, wanted = some s → L.stage s) (he : e.Liftable p L sc) :
    d'.Bounded p L ∧ e'.Liftable p L sc := by
  cases h with
  | keep => exact ⟨hd, he⟩
  | lift hst hl =>
    obtain ⟨hd', he'⟩ :=
      hl.bounded hk hactive hst (hpl _ rfl) (hwanted _ rfl) hd hsc (by simpa using he)
    exact ⟨hd', he' e' List.mem_cons_self⟩

end Draft

/-- A function whose terms bring in nothing beyond the limits, as far as they are placed no
later than `u`. -/
structure Pipeline.Within (p : Pipeline) (L : Limits) (u : Stage) : Prop where
  active : ∀ s, p.stages.contains s = true → L.stage s
  params : ∀ n i q, .param n i ∈ p.scope.terms → p.fn.params[i]? = some q → q.role.stage ≤ u →
    L.stage q.role.stage
  swizzles : p.BareSwizzles ∨ u = .fragment
  references : ∀ e ∈ p.scope.terms, e.isReference = true → p.catalog.isValueType e.ty = true →
    ∀ e', e'.isReference = true → e'.ty = e.ty → L.value e'
  computed : ∀ e ∈ p.scope.terms, e.isComputed = true →
    ∀ e', e'.isComputed = true → e'.ty = e.ty → L.value e'

namespace Expr

variable {p : Pipeline} {L : Limits} {sc : Scope} {m : Bool} {e : Expr}

/-- A value that tracing takes or gives. Below a member access it is not lifted by itself. -/
structure Sound (p : Pipeline) (L : Limits) (m : Bool) (sc : Scope) (e : Expr) : Prop where
  leads : e.All (Leads p L)
  liftable : m = false → e.Liftable p L sc

theorem Liftable.sound (h : e.Liftable p L sc) : e.Sound p L m sc := ⟨h.leads, fun _ => h⟩

theorem sound_of_crosses (hc : e.crosses sc = true) (hl : e.All (Leads p L))
    (hv : m = false → L.value e) : e.Sound p L m sc :=
  ⟨hl, fun hm => .crossing hc ⟨hl, hv hm⟩⟩

theorem crosses_of_isComputed (h : e.isComputed = true) : e.crosses sc = true := by
  cases e <;> first | rfl | cases h

theorem sound_of_isComputed (hc : e.isComputed = true) (hl : e.All (Leads p L)) (hv : L.value e) :
    e.Sound p L m sc :=
  sound_of_crosses (crosses_of_isComputed hc) hl fun _ => hv

end Expr

namespace Aim

variable {a : Aim} {L : Limits} {u : Stage} {sc : Scope} {m : Bool} {d d' : Draft}

structure Bounded (a : Aim) (L : Limits) (sc : Scope) (m : Bool) (es : List Expr)
    (ts : List Traced) (d : Draft) : Prop where
  draft : d.Bounded a.pipeline L
  stages : ∀ t ∈ ts, ∀ s, t.stage = some s → L.stage s
  given : ∀ e ∈ es, e.Sound a.pipeline L m sc
  traced : ∀ t ∈ ts, t.expr.Sound a.pipeline L m sc

theorem bounded_one {e : Expr} {t : Traced} (hd : d.Bounded a.pipeline L)
    (hs : ∀ s, t.stage = some s → L.stage s) (he : e.Sound a.pipeline L m sc)
    (ht : t.expr.Sound a.pipeline L m sc) : a.Bounded L sc m [e] [t] d :=
  ⟨hd, by simpa using hs, by simpa using he, by simpa using ht⟩

theorem bounded_computed {e e' : Expr} {pl : Placement} (hw : a.pipeline.Within L u)
    (he : e ∈ a.pipeline.scope.terms) (hc : e.isComputed = true) (hc' : e'.isComputed = true)
    (hty : e'.ty = e.ty) (hd : d.Bounded a.pipeline L) (hs : ∀ s, pl = some s → L.stage s)
    (hl : e.All (Expr.Leads a.pipeline L)) (hl' : e'.All (Expr.Leads a.pipeline L)) :
    a.Bounded L sc m [e] [⟨e', pl⟩] d := by
  have hv := hw.computed e he hc
  exact bounded_one hd hs (Expr.sound_of_isComputed hc hl (hv e hc rfl))
    (Expr.sound_of_isComputed hc' hl' (hv e' hc' hty))

theorem PromotesAll.bounded {wanted : Placement} {ts : List Traced} {es : List Expr}
    (h : a.PromotesAll sc wanted ts d es d') (hk : L.Knows d') (hw : a.pipeline.Within L u)
    (hsc : ∃ x, sc = a.pipeline.scope.upTo x) (hwanted : ∀ s, wanted = some s → L.stage s)
    (hd : d.Bounded a.pipeline L) (hs : ∀ t ∈ ts, ∀ s, t.stage = some s → L.stage s)
    (ht : ∀ t ∈ ts, t.expr.Sound a.pipeline L false sc) :
    d'.Bounded a.pipeline L ∧ ∀ e ∈ es, e.Liftable a.pipeline L sc := by
  induction h with
  | nil => exact ⟨hd, by simp⟩
  | cons hp hps ih =>
    obtain ⟨hs₁, hs₂⟩ := List.forall_mem_cons.1 hs
    obtain ⟨ht₁, ht₂⟩ := List.forall_mem_cons.1 ht
    have hk₁ := hk.of_grows hps.moves.grows
    obtain ⟨hd₁, he₁⟩ := hp.bounded hk₁ hw.active hd hsc hs₁ hwanted (ht₁.liftable rfl)
    obtain ⟨hd₂, he₂⟩ := ih hk hd₁ hs₂ ht₂
    exact ⟨hd₂, List.forall_mem_cons.2 ⟨he₁, he₂⟩⟩

/-- A stage that several values share is the stage of one of them, or the target. -/
theorem placement_stage {ts : List Traced} {wanted : Placement} (htarget : L.stage a.target)
    (hs : ∀ t ∈ ts, ∀ s, t.stage = some s → L.stage s)
    (h : wanted = placement ts ∨ wanted = some a.target) : ∀ s, wanted = some s → L.stage s := by
  rintro s rfl
  rcases h with h | h
  · obtain ⟨t, ht, hts⟩ := placement_mem h.symm
    exact hs t ht s hts
  · cases h
    exact htarget

theorem getD_stage {pl : Placement} {s : Stage} (htarget : L.stage a.target)
    (hpl : ∀ s, pl = some s → L.stage s) (hs : pl.getD a.target = s) : L.stage s := by
  cases pl with
  | none => exact hs ▸ htarget
  | some x => exact hs ▸ hpl x rfl

theorem getD_upto {pl : Placement} {s : Stage} (hs : pl.getD a.target = s)
    (h : Placement.Upto (some s) u) : pl.Upto u := by
  cases pl with
  | none => exact Placement.upto_none u
  | some x =>
    obtain rfl : x = s := hs
    exact h

theorem Admits.value {n : Node} {e e' : Expr} (h : a.Admits m n) (hw : a.pipeline.Within L u)
    (he : e ∈ a.pipeline.scope.terms) (hr : e.isReference = true) (hn : e.ty = n.ty)
    (hr' : e'.isReference = true) (hty : e'.ty = e.ty) : m = false → L.value e' := by
  rintro rfl
  rcases h with h | h
  · cases h
  · exact hw.references e he hr (hn ▸ h) e' hr' hty

section
variable {x o : NodeId} {n : Node} {v : LocalId} {name : String} {t : Traced} {s : Stage}

theorem bounded_declared {written : LocalDecl} (htarget : L.stage a.target)
    (hfind : (a.pipeline.scope.upTo x).find (.localVar v) = some ⟨.declaration written, o⟩)
    (h : a.Bounded L (a.pipeline.scope.upTo o) false [written.init] [t] d)
    (hs : t.stage.getD a.target = s) :
    a.Bounded L (a.pipeline.scope.upTo x) m [.localVar n v name] [⟨.localVar n v name, some s⟩]
      (d.declare o s ⟨v, name, written.ty, t.expr⟩) := by
  have hscope : (a.pipeline.scope.upTo x).upTo o = a.pipeline.scope.upTo o :=
    Scope.before_upTo hfind
  have hstage := getD_stage htarget (h.stages t List.mem_cons_self) hs
  have hinit := (h.given _ List.mem_cons_self).liftable rfl
  have hlocal : (Expr.localVar n v name).Liftable a.pipeline L (a.pipeline.scope.upTo x) :=
    .declared hfind (hscope ▸ hinit)
  refine bounded_one (h.draft.declare hstage ?_) (fun s' hs' => ?_) hlocal.sound hlocal.sound
  · exact (h.traced t List.mem_cons_self).liftable rfl
  · exact Option.some.inj hs' ▸ hstage

/-- A local that is assigned where the value stands. It is carried as it is, so its
type was checked. -/
theorem bounded_assigned {y : Expr} {sc' : Scope} (htarget : L.stage a.target)
    (hfind : sc.find (.localVar v) = some ⟨.assignment y, o⟩)
    (hv : m = false → L.value (.localVar n v name)) (h : a.Bounded L sc' false [y] [t] d)
    (hs : t.stage.getD a.target = s) :
    a.Bounded L sc m [.localVar n v name] [⟨.localVar n v name, some s⟩]
      (d.add s (.expr t.expr) (some o)) := by
  have hstage := getD_stage htarget (h.stages t List.mem_cons_self) hs
  have hcrosses : (Expr.localVar n v name).crosses sc = true := by
    rw [Expr.crosses_localVar, hfind]
    simp
  have hsound : (Expr.localVar n v name).Sound a.pipeline L m sc :=
    Expr.sound_of_crosses hcrosses (by simp [Expr.Leads]) hv
  refine bounded_one (h.draft.add hstage ?_) (fun s' hs' => ?_) hsound hsound
  · simpa [StageStmt.exprs] using (h.traced t List.mem_cons_self).leads
  · exact Option.some.inj hs' ▸ hstage

end

namespace Traces

/-- Tracing stays within limits. What it takes is accounted for along with what it gives, since a
declaration that was not rebuilt for a stage is lifted from there as it was written. -/
theorem bounded {es : List Expr} {ts : List Traced} (h : a.Traces sc m es d ts d') (hk : L.Knows d')
    (hw : a.pipeline.Within L u) (htarget : L.stage a.target) (hd : d.Bounded a.pipeline L)
    (hsc : ∃ x, sc = a.pipeline.scope.upTo x) (hes : ∀ e ∈ es, e ∈ a.pipeline.scope.terms)
    (hup : ∀ t ∈ ts, t.stage.Upto u) : a.Bounded L sc m es ts d' := by
  induction h with
  | nil => exact ⟨hd, by simp, by simp, by simp⟩
  | cons _ hs ih ihs =>
    obtain ⟨he, hes⟩ := List.forall_mem_cons.1 hes
    obtain ⟨ht, hts⟩ := List.forall_mem_cons.1 hup
    have h₁ := ih (hk.of_grows hs.moves.grows) hd hsc (by simpa using he) (by simpa using ht)
    have h₂ := ihs hk h₁.draft hsc hes hts
    exact ⟨h₂.draft, List.forall_mem_cons.2 ⟨h₁.stages _ List.mem_cons_self, h₂.stages⟩,
      List.forall_mem_cons.2 ⟨h₁.given _ List.mem_cons_self, h₂.given⟩,
      List.forall_mem_cons.2 ⟨h₁.traced _ List.mem_cons_self, h₂.traced⟩⟩
  | literal =>
    exact bounded_one hd (by simp) Expr.Liftable.literal.sound Expr.Liftable.literal.sound
  | constant =>
    exact bounded_one hd (by simp) Expr.Liftable.constant.sound Expr.Liftable.constant.sound
  | @param sc m n i q d d' hq hn _ hd' =>
    have hmem := hes _ List.mem_cons_self
    have hagree : d.Agrees d' := hd' ▸ Draft.agrees_capture ..
    have hstage := hw.params n i q hmem hq (Placement.upto_some.1 (hup _ List.mem_cons_self))
    have hsound : (Expr.param n i).Sound a.pipeline L m sc :=
      Expr.sound_of_crosses rfl (by simp [Expr.Leads]) (hn.value hw hmem rfl rfl rfl rfl)
    refine bounded_one (hd.agree hagree) (fun s hs => ?_) hsound hsound
    exact Option.some.inj hs ▸ hstage
  | @declared sc m n v name written o t s d d₁ _ hfind _ hs ih =>
    obtain ⟨x, rfl⟩ := hsc
    have hscope : (a.pipeline.scope.upTo x).upTo o = a.pipeline.scope.upTo o :=
      Scope.before_upTo hfind
    have hmem : written.init ∈ a.pipeline.scope.terms :=
      Scope.terms_upTo (Scope.find_value_mem hfind)
    have hk₁ := hk.of_grows (Draft.declare_moves ..).grows
    have hinit := ih hk₁ hd ⟨o, hscope⟩ (by simpa using hmem)
      (by simpa using getD_upto hs (hup _ List.mem_cons_self))
    exact bounded_declared htarget hfind (hscope ▸ hinit) hs
  | @assigned sc m n v name x o t s d d₁ hn hfind _ hs ih =>
    obtain ⟨y, rfl⟩ := hsc
    have hscope : (a.pipeline.scope.upTo y).upTo o = a.pipeline.scope.upTo o :=
      Scope.before_upTo hfind
    have hmem : x ∈ a.pipeline.scope.terms := Scope.terms_upTo (Scope.find_value_mem hfind)
    have hk₁ := hk.of_grows (Draft.onQueue_grows ..)
    have hvalue := ih hk₁ hd ⟨o, hscope⟩ (by simpa using hmem)
      (by simpa using getD_upto hs (hup _ List.mem_cons_self))
    exact bounded_assigned htarget hfind
      (hn.value hw (hes _ List.mem_cons_self) rfl rfl rfl rfl) hvalue hs
  | @binary sc m n op lhs rhs lhs' rhs' l r pl d d₁ d₂ d₃ d₄ _ hr hp pl' pr ihl ihr =>
    obtain ⟨hul, hur⟩ := Placement.later_upto.1 (wait_upto (hp ▸ hup _ List.mem_cons_self))
    -- the two operands are promoted like a list of two
    have hall : a.PromotesAll sc pl [l, r] d₂ [lhs', rhs'] d₄ := .cons pl' (.cons pr .nil)
    have hk₂ := hk.of_grows hall.moves.grows
    have h₁ := ihl (hk₂.of_grows hr.moves.grows) hd hsc
        (Scope.parts_terms hes (by simp [Expr.self_mem_subterms])) (by simpa using hul)
    have h₂ := ihr hk₂ h₁.draft hsc (Scope.parts_terms hes (by simp [Expr.self_mem_subterms]))
      (by simpa using hur)
    have hts : ∀ t ∈ [l, r], ∀ s, t.stage = some s → L.stage s :=
      List.forall_mem_cons.2 ⟨h₁.stages l List.mem_cons_self, h₂.stages⟩
    have htraced : ∀ t ∈ [l, r], t.expr.Sound a.pipeline L false sc :=
      List.forall_mem_cons.2 ⟨h₁.traced l List.mem_cons_self, h₂.traced⟩
    have hstages := placement_stage htarget hts (hp ▸ wait_cases a _ _)
    obtain ⟨hd₄, hargs⟩ := hall.bounded hk hw hsc hstages h₂.draft hts htraced
    refine bounded_computed hw (hes _ List.mem_cons_self) rfl rfl rfl hd₄ hstages ?_ ?_
    · simpa [Expr.Leads] using ⟨(h₁.given lhs List.mem_cons_self).leads,
        (h₂.given rhs List.mem_cons_self).leads⟩
    · simpa [Expr.Leads] using ⟨(hargs lhs' (by simp)).leads, (hargs rhs' (by simp)).leads⟩
  | @unary sc m n op e t d d₁ _ ih =>
    have h := ih hk hd hsc (Scope.parts_terms hes (by simp [Expr.self_mem_subterms]))
      (by simpa using hup)
    exact bounded_one h.draft (h.stages t List.mem_cons_self)
      (Expr.Liftable.unary ((h.given e List.mem_cons_self).liftable rfl)).sound
      (Expr.Liftable.unary ((h.traced t List.mem_cons_self).liftable rfl)).sound
  | @cast sc m n e t d d₁ _ _ ih =>
    have h := ih hk hd hsc (Scope.parts_terms hes (by simp [Expr.self_mem_subterms]))
      (by simpa using hup)
    exact bounded_one h.draft (h.stages t List.mem_cons_self)
      (Expr.Liftable.cast ((h.given e List.mem_cons_self).liftable rfl)).sound
      (Expr.Liftable.cast ((h.traced t List.mem_cons_self).liftable rfl)).sound
  | @construct sc m n args args' ts d d₁ d₂ _ _ hp ih =>
    have h := ih (hk.of_grows hp.moves.grows) hd hsc
        (Scope.parts_terms hes fun e he => by simp [Expr.mem_subtermsOf he])
      (placement_upto.1 (hup _ List.mem_cons_self))
    have hstages := placement_stage htarget h.stages (.inl rfl)
    obtain ⟨hd₂, hargs⟩ := hp.bounded hk hw hsc hstages h.draft h.stages h.traced
    exact bounded_one hd₂ hstages
      (Expr.Liftable.construct fun e he => (h.given e he).liftable rfl).sound
      (Expr.Liftable.construct hargs).sound
  | @initList sc m n items items' ts d d₁ d₂ _ hp ih =>
    have h := ih (hk.of_grows hp.moves.grows) hd hsc
        (Scope.parts_terms hes fun e he => by simp [Expr.mem_subtermsOf he])
      (placement_upto.1 (hup _ List.mem_cons_self))
    have hstages := placement_stage htarget h.stages (.inl rfl)
    obtain ⟨hd₂, hitems⟩ := hp.bounded hk hw hsc hstages h.draft h.stages h.traced
    refine bounded_computed hw (hes _ List.mem_cons_self) rfl rfl rfl hd₂ hstages ?_ ?_
    · simpa [Expr.Leads] using fun e he => (h.given e he).leads
    · simpa [Expr.Leads] using fun e he => (hitems e he).leads
  | @call sc m n func f args args' ts pl d d₁ d₂ _ _ hpl hp ih =>
    have h := ih (hk.of_grows hp.moves.grows) hd hsc
        (Scope.parts_terms hes fun e he => by simp [Expr.mem_subtermsOf he])
      (placement_upto.1 (wait_upto (hpl ▸ hup _ List.mem_cons_self)))
    have hstages := placement_stage htarget h.stages (hpl ▸ wait_cases a _ _)
    obtain ⟨hd₂, hargs⟩ := hp.bounded hk hw hsc hstages h.draft h.stages h.traced
    refine bounded_computed hw (hes _ List.mem_cons_self) rfl rfl rfl hd₂ hstages ?_ ?_
    · simpa [Expr.Leads] using fun e he => (h.given e he).leads
    · simpa [Expr.Leads] using fun e he => (hargs e he).leads
  | @sample sc m n method f object uv uv' sampler texture k s t d d₁ d₂ d₃ _ _ ho _ hp hk' ih =>
    have hmem := hes _ List.mem_cons_self
    obtain ⟨n', q, rfl, hq, rfl, -⟩ := sampledStage_ok ho
    obtain ⟨-, n'', c, rfl⟩ := Draft.sample_agrees hk'
    have hobject : .param n' texture ∈ a.pipeline.scope.terms := Scope.terms_trans (by simp) hmem
    have hle : q.role.stage ≤ u := Placement.upto_some.1 (hup _ List.mem_cons_self)
    have hstage := hw.params n' texture q hobject hq hle
    have hstages : ∀ s, some q.role.stage = some s → L.stage s :=
      fun s hs => Option.some.inj hs ▸ hstage
    -- the coordinates are brought to the texture's stage, so they come from no later one
    have hbefore : t.stage.Upto u := fun s hs => le_trans (hp.upto s hs) hle
    have hk₂ := hk.of_grows (Draft.agrees_sample hk').grows
    have hk₁ := hk₂.of_grows hp.moves.grows
    have h := ih hk₁ hd hsc (Scope.parts_terms hes (by simp [Expr.self_mem_subterms]))
      (by simpa using hbefore)
    obtain ⟨hd₂, huv'⟩ :=
      hp.bounded hk₂ hw.active h.draft hsc (h.stages t List.mem_cons_self) hstages
      ((h.traced t List.mem_cons_self).liftable rfl)
    have hd₃ : d₃.Bounded a.pipeline L := hd₂.agree (Draft.agrees_sample hk')
    refine bounded_computed hw (hes _ List.mem_cons_self) rfl rfl rfl hd₃ hstages ?_ ?_
    · simpa [Expr.Leads] using (h.given uv List.mem_cons_self).leads
    · simpa [Expr.Leads] using huv'.leads
  | @method sc m n method f object args t ts d d₁ d₂ hm hs ho ha ih ihs =>
    have hmem := hes _ List.mem_cons_self
    -- arguments of a swizzle stay where they are, which may be later than the swizzle
    have hargs : ∀ t ∈ ts, t.stage.Upto u := by
      rcases hw.swizzles with hbare | rfl
      · obtain rfl := hbare n method object args f hmem hm hs
        cases ha
        simp
      · intro t _ s _
        cases s <;> decide
    have h₁ := ih (hk.of_grows ha.moves.grows) hd hsc
        (Scope.parts_terms hes (by simp [Expr.self_mem_subterms]))
      (by simpa using hup)
    have h₂ := ihs hk h₁.draft hsc
        (Scope.parts_terms hes fun e he => by simp [Expr.mem_subtermsOf he]) hargs
    refine bounded_computed hw (hes _ List.mem_cons_self) rfl rfl rfl h₂.draft
      (h₁.stages t List.mem_cons_self) ?_ ?_
    · simpa [Expr.Leads] using ⟨(h₁.given object List.mem_cons_self).leads,
        fun e he => (h₂.given e he).leads⟩
    · simpa [Expr.Leads] using ⟨(h₁.traced t List.mem_cons_self).leads,
        fun t ht => (h₂.traced t ht).leads⟩
  | @member sc m n base field t d d₁ hn _ ih =>
    have h := ih hk hd hsc (Scope.parts_terms hes (by simp [Expr.self_mem_subterms]))
      (by simpa using hup)
    have hmem := hes _ List.mem_cons_self
    refine bounded_one h.draft (h.stages t List.mem_cons_self)
      (Expr.sound_of_crosses rfl ?_ (hn.value hw hmem rfl rfl rfl rfl))
      (Expr.sound_of_crosses rfl ?_ (hn.value hw hmem rfl rfl rfl rfl))
    · simpa [Expr.Leads] using (h.given base List.mem_cons_self).leads
    · simpa [Expr.Leads] using (h.traced t List.mem_cons_self).leads

end Traces
end Aim

theorem Draft.start_bounded (p : Pipeline) (L : Limits) : (Draft.start p).Bounded p L := by
  refine ⟨fun s t r hr => ?_, fun s e he => ?_, nofun⟩
  · obtain ⟨hfields, -, ht, -⟩ := start_record hr
    refine ⟨(StageSet.mem_devices.1 ht).1, ?_⟩
    simp [hfields]
  · have hqueue : (Draft.start p).queue s = [] := PerStage.get_const [] s
    rw [hqueue] at he
    cases he

namespace Pipeline

variable {p : Pipeline} {L : Limits}

theorem Runs.bounded {todo : List (Stage × Param × Nat)} {d d' : Draft} (h : Runs p todo d d')
    (hk : L.Knows d') (hw : ∀ s ∈ p.stages.devices, ∃ u, s ≤ u ∧ p.Within L u)
    (htodo : ∀ x ∈ todo, x.1 ∈ p.stages.devices) (hd : d.Bounded p L) : d'.Bounded p L := by
  induction h with
  | nil => exact hd
  | unwritten _ _ ih => exact ih hk (List.forall_mem_cons.1 htodo).2 (hd.agree ⟨rfl, rfl, rfl, rfl⟩)
  | @written s q i rest x e o t d d₁ d₂ d' hfind ht hs hp hr ih =>
    obtain ⟨hdev, htodo⟩ := List.forall_mem_cons.1 htodo
    obtain ⟨u, hsu, hwithin⟩ := hw s hdev
    have htarget : L.stage s := hwithin.active s (StageSet.mem_devices.1 hdev).1
    have hx : x ∈ p.scope.terms := Scope.find_value_mem hfind
    have hup : t.stage.Upto u := fun s' hs' => le_trans (hs s' hs') hsu
    have hk₂ := hk.of_grows ((Draft.onQueue_grows ..).trans hr.grows)
    have hk₁ := hk₂.of_grows hp.moves.grows
    have h₁ := ht.bounded hk₁ hwithin htarget hd ⟨o, rfl⟩ (by simpa using hx) (by simpa using hup)
    obtain ⟨hd₂, he⟩ :=
      hp.bounded hk₂ hwithin.active h₁.draft ⟨o, rfl⟩ (h₁.stages t List.mem_cons_self)
      (fun s' hs' => Option.some.inj hs' ▸ htarget) ((h₁.traced t List.mem_cons_self).liftable rfl)
    apply ih hk htodo (hd₂.add htarget _)
    simpa [StageStmt.exprs] using he.leads

/-- A run over all outputs stays within the limits of its function's terms. -/
theorem Runs.bounded_start {d : Draft} (h : Runs p p.allOutputs (Draft.start p) d) (hk : L.Knows d)
    (hw : ∀ s ∈ p.stages.devices, ∃ u, s ≤ u ∧ p.Within L u) : d.Bounded p L :=
  h.bounded hk hw (fun _ hx => (mem_allOutputs hx).1) (Draft.start_bounded p L)

end Pipeline
end ShaderSplit
