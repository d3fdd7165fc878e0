import Mathlib.Order.Basic
import ShaderSplit.Proofs.Partition.Fields
import ShaderSplit.Proofs.Partition.Sampling

namespace ShaderSplit

def Node.erase (n : Node) : Node := { n with id := 0 }

namespace Expr

mutual
/-- An expression without its identities and without the positions of its fields. -/
@[simp] def erase : Expr → Expr
  | literal n v => literal n.erase v
  | constant n v => constant n.erase v
  | param n i => param n.erase i
  | localVar n v name => localVar n.erase v name
  | binary n op lhs rhs => binary n.erase op lhs.erase rhs.erase
  | unary n op e => unary n.erase op e.erase
  | construct n args => construct n.erase (eraseAll args)
  | cast n e => cast n.erase e.erase
  | initList n items => initList n.erase (eraseAll items)
  | call n f args => call n.erase f (eraseAll args)
  | methodCall n m object args => methodCall n.erase m object.erase (eraseAll args)
  | member n base field => member n.erase base.erase field
  | interface n r => interface n.erase { r with field := 0 }
  | unsupported n what => unsupported n.erase what
@[simp] def eraseAll : List Expr → List Expr
  | [] => []
  | e :: es => e.erase :: eraseAll es
end

variable {e x : Expr} {sc : Scope}

theorem ty_of_erase (h : e.erase = x.erase) : e.ty = x.ty := by
  have ty_erase (e : Expr) : e.erase.ty = e.ty := by cases e <;> rfl
  rw [← ty_erase, h, ty_erase]

theorem span_of_erase (h : e.erase = x.erase) : e.span = x.span := by
  have span_erase (e : Expr) : e.erase.span = e.span := by cases e <;> rfl
  rw [← span_erase, h, span_erase]

theorem crosses_of_erase (h : e.erase = x.erase) : e.crosses sc = x.crosses sc := by
  have crosses_erase (e : Expr) : e.erase.crosses sc = e.crosses sc := by cases e <;> rfl
  rw [← crosses_erase, h, crosses_erase]

end Expr

namespace Drafting

variable {α β γ δ : Type}

/-- Two runs that end alike: with related results, or with the same error. A run that is out of
samplers is not compared. -/
inductive Concur (R : α → Draft → β → Draft → Prop) :
    EStateM.Result TraceError Draft α → EStateM.Result TraceError Draft β → Prop
  | ok {a : α} {b : β} {d d' : Draft} (h : R a d b d') : Concur R (.ok a d) (.ok b d')
  | error {e : TraceError} {d d' : Draft} : Concur R (.error e d) (.error e d')
  | outLeft {e : TraceError} {d : Draft} {y : EStateM.Result TraceError Draft β}
      (h : e.fault = .samplerLimit) : Concur R (.error e d) y
  | outRight {e : TraceError} {d : Draft} {x : EStateM.Result TraceError Draft α}
      (h : e.fault = .samplerLimit) : Concur R x (.error e d)

theorem Concur.mono {R R' : α → Draft → β → Draft → Prop} {x : EStateM.Result TraceError Draft α}
    {y : EStateM.Result TraceError Draft β} (h : Concur R x y)
    (hr : ∀ a d b d', R a d b d' → R' a d b d') : Concur R' x y := by
  cases h with
  | ok h => exact .ok (hr _ _ _ _ h)
  | error => exact .error
  | outLeft h => exact .outLeft h
  | outRight h => exact .outRight h

end Drafting

/-- The declarations that a visit has rebuilt, each by its step and for a stage. A visit reads no
others, whatever earlier ones have left in the draft. -/
abbrev Marks := NodeId → Stage → Prop

def Marks.add (W : Marks) (o : NodeId) (s : Stage) : Marks := fun o' s' => W o' s' ∨ o = o' ∧ s = s'

theorem Marks.le_add (W : Marks) (o : NodeId) (s : Stage) : W ≤ W.add o s := fun _ _ => .inl

namespace Expr

variable {W W' : Marks} {sc : Scope} {s : Stage} {pl : Placement} {e : Expr}

/-- The declarations that lifting a value from stage `s` comes to are marked for that stage. -/
def Marked (W : Marks) (sc : Scope) (s : Stage) (e : Expr) : Prop :=
  ∀ v ∈ e.kept sc, ∀ written o, sc.find (.localVar v) = some ⟨.declaration written, o⟩ → W o s

theorem Marked.mono (h : e.Marked W sc s) (hw : W ≤ W') : e.Marked W' sc s :=
  fun v hv written o hf => hw o s (h v hv written o hf)

/-- Marked for a place; a value without a place is marked for every stage. -/
def MarkedAt (W : Marks) (sc : Scope) (pl : Placement) (e : Expr) : Prop :=
  ∀ s, pl = none ∨ pl = some s → e.Marked W sc s

theorem markedAt_some : e.MarkedAt W sc (some s) ↔ e.Marked W sc s := by
  simp [MarkedAt]

theorem MarkedAt.mono (h : e.MarkedAt W sc pl) (hw : W ≤ W') : e.MarkedAt W' sc pl :=
  fun s hs => (h s hs).mono hw

theorem markedAt_of_kept (h : e.kept sc = []) : e.MarkedAt W sc pl := by
  intro s _ v hv
  rw [h] at hv
  cases hv

theorem MarkedAt.getD (h : e.MarkedAt W sc pl) (target : Stage) :
    e.Marked W sc (pl.getD target) := by
  cases pl with
  | none => exact h target (.inl rfl)
  | some s => exact h s (.inr rfl)

theorem markedAt_construct {n : Node} {args : List Expr} :
    (construct n args).MarkedAt W sc pl ↔ ∀ e ∈ args, e.MarkedAt W sc pl := by
  unfold MarkedAt Marked
  rw [kept, keptOf_eq]
  simp only [List.mem_flatMap]
  constructor
  · intro h e he s hs v hv
    exact h s hs v ⟨e, he, hv⟩
  · rintro h s hs v ⟨e, he, hv⟩
    exact h e he s hs v hv

end Expr

/-- Writes that a scope finds are behind the same steps in a longer scope. -/
def Scope.Within (base sc : Scope) : Prop :=
  ∀ v w, sc.find v = some w → sc.upTo w.step = base.upTo w.step

theorem Scope.Within.refl (sc : Scope) : Scope.Within sc sc := fun _ _ _ => rfl

theorem Scope.within_upTo (base : Scope) (o : NodeId) : base.Within (base.upTo o) :=
  fun _ _ => Scope.before_upTo

namespace Draft

variable {d d' d₁ d₂ : Draft} {base sc : Scope} {W : Marks} {s t : Stage} {o : NodeId}

structure Alike (d d' : Draft) : Prop where
  records : ∀ s t, (d.record? s t).isSome = (d'.record? s t).isSome
  textures : d.textures.map (·.param) = d'.textures.map (·.param)

theorem Alike.refl (d : Draft) : Alike d d := ⟨fun _ _ => rfl, rfl⟩

theorem Alike.symm (h : Alike d d') : Alike d' d :=
  ⟨fun s t => (h.records s t).symm, h.textures.symm⟩

theorem Alike.trans {d₁ d₂ d₃ : Draft} (h : Alike d₁ d₂) (k : Alike d₂ d₃) : Alike d₁ d₃ :=
  ⟨fun s t => (h.records s t).trans (k.records s t), h.textures.trans k.textures⟩

/-- A marked declaration is the same in both drafts, and what lifting it comes to is
marked in turn. -/
structure Level (base : Scope) (W : Marks) (d₁ d₂ : Draft) : Prop extends Alike d₁ d₂ where
  rebuilt : ∀ o s, W o s → ∃ x y, d₁.rebuilt? o s = some x ∧ d₂.rebuilt? o s = some y ∧
    x.init.erase = y.init.erase ∧ x.init.Marked W (base.upTo o) s

theorem Level.frame {d₁' d₂' : Draft} (h : Level base W d₁ d₂) (h₁ : Alike d₁ d₁')
    (h₂ : Alike d₂ d₂') (hr₁ : ∀ o s, d₁'.rebuilt? o s = d₁.rebuilt? o s)
    (hr₂ : ∀ o s, d₂'.rebuilt? o s = d₂.rebuilt? o s) : Level base W d₁' d₂' := by
  refine ⟨h₁.symm.trans (h.toAlike.trans h₂), fun o s ho => ?_⟩
  rw [hr₁, hr₂]
  exact h.rebuilt o s ho

theorem Level.setRebuilt {x y : LocalDecl} (h : Level base W d₁ d₂)
    (he : x.init.erase = y.init.erase) (hm : x.init.Marked W (base.upTo o) s) :
    Level base (W.add o s) (d₁.setRebuilt o s x) (d₂.setRebuilt o s y) := by
  refine ⟨⟨h.records, h.textures⟩, fun o' s' ho => ?_⟩
  simp only [setRebuilt_rebuilt?]
  by_cases hk : o = o' ∧ s = s'
  · obtain ⟨rfl, rfl⟩ := hk
    exact ⟨x, y, by simp, by simp, he, hm.mono (W.le_add o s)⟩
  · rw [if_neg hk, if_neg hk]
    obtain ⟨x', y', hx', hy', he', hm'⟩ := h.rebuilt o' s' (ho.resolve_right hk)
    exact ⟨x', y', hx', hy', he', hm'.mono (W.le_add o s)⟩

theorem onQueue_alike (d : Draft) (s : Stage) (f : Queue → Queue) : Alike d (d.onQueue s f) :=
  ⟨fun _ _ => rfl, rfl⟩

theorem tick_alike (d : Draft) (k : Nat) : Alike d (d.tick k) := ⟨fun _ _ => rfl, rfl⟩

theorem setRecord_alike {r r' : InterfaceRecord} (h : d.record? s t = some r) :
    Alike d (d.setRecord s t r') := by
  refine ⟨fun x y => ?_, congrArg _ (setRecord_mute d s t r').textures.symm⟩
  rw [setRecord_record?]
  split
  · rename_i hk
    obtain ⟨rfl, hk⟩ := hk
    have hx : d.record? x t = some r := by
      unfold record? at h ⊢
      simpa [hk] using h
    rw [hx]
    rfl
  · rfl

theorem Moves.records (h : Moves d d') :
    ∀ s t, (d.record? s t).isSome = (d'.record? s t).isSome := by
  intro s t
  induction h with
  | refl => rfl
  | tail _ hm ih =>
    rw [ih]
    cases hm with
    | agree h =>
      unfold record?
      rw [h.uniforms, h.varyings]
    | openField value reaching hr => exact (setRecord_alike hr).records s t
    | setRebuilt | add | release => rfl

theorem Carries.alike {value e : Expr} (h : Carries sc s t value d e d') : Alike d d' :=
  ⟨h.moves.records, congrArg _ h.mute.textures.symm⟩

end Draft

/-- Run on level drafts, both computations end alike, with level drafts and with related results. -/
def Drafting.InStep {α β : Type} (base : Scope) (W : Marks) (R : Marks → α → β → Prop)
    (x : Drafting α) (y : Drafting β) : Prop :=
  ∀ d₁ d₂, Draft.Level base W d₁ d₂ →
    Drafting.Concur (fun a d₁' b d₂' => ∃ W', W ≤ W' ∧ Draft.Level base W' d₁' d₂' ∧
      R W' a b) (x d₁) (y d₂)

namespace Drafting

variable {α β γ δ : Type} {base : Scope} {W : Marks} {R : Marks → α → β → Prop}
  {Q : Marks → γ → δ → Prop}

theorem InStep.pure {a : α} {b : β} (h : R W a b) : InStep base W R (pure a) (pure b) :=
  fun _ _ hd => .ok ⟨W, le_refl W, hd, h⟩

theorem InStep.throw (e : TraceError) : InStep base W R (throw e) (throw e) := fun _ _ _ => .error

theorem InStep.bind {x : Drafting α} {y : Drafting β} {f : α → Drafting γ} {g : β → Drafting δ}
    (h : InStep base W R x y) (hf : ∀ W' a b, W ≤ W' → R W' a b → InStep base W' Q (f a) (g b)) :
    InStep base W Q (x >>= f) (y >>= g) := by
  intro d₁ d₂ hd
  have hxy := h d₁ d₂ hd
  change Concur _ (EStateM.bind x f d₁) (EStateM.bind y g d₂)
  unfold EStateM.bind
  revert hxy
  generalize x d₁ = r₁
  generalize y d₂ = r₂
  intro hxy
  cases hxy with
  | ok h =>
    -- what the first part marks stays marked in the second
    obtain ⟨W', hW, hd', hab⟩ := h
    refine (hf W' _ _ hW hab _ _ hd').mono fun c e₁ c' e₂ hc => ?_
    obtain ⟨W'', hW', hd'', hq⟩ := hc
    exact ⟨W'', le_trans hW hW', hd'', hq⟩
  | error => exact .error
  | outLeft h => exact .outLeft h
  | outRight h => exact .outRight h

theorem InStep.weaken {R' : Marks → α → β → Prop} {x : Drafting α} {y : Drafting β}
    (h : InStep base W R x y) (hr : ∀ W' a b, W ≤ W' → R W' a b → R' W' a b) :
    InStep base W R' x y := by
  refine fun d₁ d₂ hd => (h d₁ d₂ hd).mono fun a e₁ b e₂ hab => ?_
  obtain ⟨W', hW, hd', hab⟩ := hab
  exact ⟨W', hW, hd', hr W' a b hW hab⟩

theorem InStep.modify {f g : Draft → Draft} {R : Marks → PUnit → PUnit → Prop}
    (h : ∀ d₁ d₂, Draft.Level base W d₁ d₂ → ∃ W', W ≤ W' ∧
      Draft.Level base W' (f d₁) (g d₂) ∧ R W' ⟨⟩ ⟨⟩) :
    InStep base W R (modify f) (modify g) :=
  fun d₁ d₂ hd => .ok (h d₁ d₂ hd)

theorem bind_get {f : Draft → Drafting α} {d : Draft} : (get >>= f) d = f d d := rfl

end Drafting

namespace Draft

open Drafting

variable {d d' : Draft} {base sc : Scope} {W : Marks} {stages : StageSet} {s t : Stage} {e x : Expr}

/-- Values that are the same up to erasure; the first, and so the other, is marked for a place. -/
def Paired (sc : Scope) (pl : Placement) (W : Marks) (e x : Expr) : Prop :=
  e.erase = x.erase ∧ e.MarkedAt W sc pl

theorem Paired.mono {pl : Placement} {W' : Marks} (h : Paired sc pl W e x) (hw : W ≤ W') :
    Paired sc pl W' e x :=
  ⟨h.1, h.2.mono hw⟩

theorem paired_args {pl : Placement} {es xs : List Expr} : List.Forall₂ (Paired sc pl W) es xs ↔
    Expr.eraseAll es = Expr.eraseAll xs ∧ ∀ e ∈ es, e.MarkedAt W sc pl := by
  induction es generalizing xs with
  | nil => cases xs <;> simp
  | cons e es ih =>
    cases xs with
    | nil => simp
    | cons x xs =>
      simp only [List.forall₂_cons, ih, Paired, Expr.eraseAll, List.cons.injEq,
        List.forall_mem_cons]
      exact and_and_and_comm

theorem carry_none (h : d.record? s t = none) :
    carry sc s t e d = .error ⟨.noInterface s t, e.span⟩ d := by
  unfold carry
  simp only [bind_get, h]
  rfl

theorem carry_some {r : InterfaceRecord} (h : d.record? s t = some r) (sc : Scope) (e : Expr) :
    ∃ e' d', carry sc s t e d = .ok e' d' := by
  unfold carry
  simp only [bind_get, h]
  cases (r.intern e (sc.reaching e)).2.1 <;> exact ⟨_, _, rfl⟩

/-- A value is carried in both runs, though in one its field may be found and in the
other opened. -/
theorem carry_inStep (h : e.erase = x.erase) :
    InStep base W (fun _ a b => a.erase = b.erase ∧ a.kept sc = []) (carry sc s t e)
      (carry sc s t x) := by
  intro d₁ d₂ hd
  have hrecord := hd.records s t
  cases hr : d₁.record? s t with
  | none =>
    rw [hr] at hrecord
    rw [carry_none hr, carry_none (Option.isNone_iff_eq_none.1 (by simpa using hrecord.symm)),
      Expr.span_of_erase h]
    exact .error
  | some r =>
    rw [hr] at hrecord
    obtain ⟨r', hr'⟩ := Option.isSome_iff_exists.1 hrecord.symm
    obtain ⟨a, d₁', ha⟩ := carry_some hr sc e
    obtain ⟨b, d₂', hb⟩ := carry_some hr' sc x
    rw [ha, hb]
    have ka := carry_ok ha
    have kb := carry_ok hb
    refine .ok ⟨W, le_refl W, hd.frame ka.alike kb.alike ka.rebuilt? kb.rebuilt?, ?_⟩
    have hty := Expr.ty_of_erase h
    have hspan := Expr.span_of_erase h
    cases ka <;> cases kb <;> exact ⟨by simp [endAt, Node.erase, hty, hspan], rfl⟩

theorem relay_inStep {hops : List Stage} (h : e.erase = x.erase) (hk : e.kept sc = []) :
    InStep base W (fun _ a b => a.erase = b.erase ∧ a.kept sc = []) (relay sc s e hops)
      (relay sc s x hops) := by
  induction hops generalizing s e x W with
  | nil => exact .pure ⟨h, hk⟩
  | cons t rest ih => exact .bind (carry_inStep h) fun _ _ _ _ hab => ih hab.1 hab.2

theorem transfer_inStep {pl : Placement} (h : e.erase = x.erase) (hk : e.kept sc = []) :
    InStep base W (Paired sc pl) (transfer stages sc s t e) (transfer stages sc s t x) := by
  have hweaken : ∀ W' (a b : Expr), W ≤ W' → a.erase = b.erase ∧ a.kept sc = [] →
      Paired sc pl W' a b :=
    fun _ _ _ _ hab => ⟨hab.1, Expr.markedAt_of_kept hab.2⟩
  unfold transfer
  split
  · exact (carry_inStep h).weaken hweaken
  · dsimp only
    split
    · exact (relay_inStep h hk).weaken hweaken
    · rw [Expr.span_of_erase h]
      exact .throw _

section
variable {lower : (s : Scope) → s.length < sc.length → Expr → Drafting Expr}

theorem liftIn_crosses_inStep (hc : e.crosses sc = true) (h : Paired sc (some s) W e x) :
    InStep base W (Paired sc (some t)) (liftIn stages s t sc lower e)
      (liftIn stages s t sc lower x) := by
  rw [liftIn_crosses hc, liftIn_crosses (Expr.crosses_of_erase h.1 ▸ hc)]
  exact transfer_inStep h.1 (Expr.kept_of_crosses hc)

/-- The declaration that is lifted is marked, so both runs lift the same. -/
theorem liftIn_declared_inStep {n n' : Node} {v : LocalId} {name : String} {written : LocalDecl}
    {o : NodeId} (hsc : base.Within sc)
    (hw : sc.find (.localVar v) = some ⟨.declaration written, o⟩) (hn : n.erase = n'.erase)
    (hm : W o s)
    (hlower : ∀ W e x, Paired (sc.upTo o) (some s) W e x →
      InStep base W (Paired (sc.upTo o) (some t)) (lower (sc.upTo o) (Scope.length_before_lt hw) e)
      (lower (sc.upTo o) (Scope.length_before_lt hw) x)) :
    InStep base W (Paired sc (some t)) (liftIn stages s t sc lower (.localVar n v name))
      (liftIn stages s t sc lower (.localVar n' v name)) := by
  have hscope : sc.upTo o = base.upTo o := hsc _ _ hw
  rw [liftIn_declared hw, liftIn_declared hw, Drafting.expect_bind, Drafting.expect_bind]
  intro d₁ d₂ hd
  -- the only place where a run reads what was rebuilt: the mark says that this visit has written it
  obtain ⟨x, y, hx, hy, he, hinit⟩ := hd.rebuilt o s hm
  rw [← hscope] at hinit
  simp only [bind_get, hx, hy, Option.getD_some]
  refine InStep.bind (hlower W x.init y.init ⟨he, Expr.markedAt_some.2 hinit⟩)
    (fun W₁ a b _ hab => ?_) d₁ d₂ hd
  refine InStep.bind (R := fun W₂ _ _ => W₂ o t) (.modify fun e₁ e₂ hd₁ => ?_)
    fun W₂ _ _ _ hm₂ => ?_
  · have hmarked : a.Marked W₁ (base.upTo o) t := hscope ▸ Expr.markedAt_some.1 hab.2
    have hlevel :=
      hd₁.setRebuilt (x := { x with init := a }) (y := { y with init := b }) hab.1 hmarked
    refine ⟨W₁.add o t, W₁.le_add o t, hlevel.frame ?_ ?_ (fun _ _ => rfl) fun _ _ => rfl,
      .inr ⟨rfl, rfl⟩⟩
    · exact (onQueue_alike ..).trans (onQueue_alike ..)
    · exact (onQueue_alike ..).trans (onQueue_alike ..)
  · refine .pure ⟨by simp [hn], Expr.markedAt_some.2 fun u hu written' o' hfind => ?_⟩
    obtain rfl : u = v := by simpa using Expr.kept_subset hu
    cases hw.symm.trans hfind
    exact hm₂

theorem liftAllIn_inStep {es xs : List Expr}
    (ih : ∀ e ∈ es, ∀ x W, Paired sc (some s) W e x →
      InStep base W (Paired sc (some t)) (liftIn stages s t sc lower e)
      (liftIn stages s t sc lower x)) (h : List.Forall₂ (Paired sc (some s) W) es xs) :
    InStep base W (fun W' => List.Forall₂ (Paired sc (some t) W'))
      (liftAllIn stages s t sc lower es)
      (liftAllIn stages s t sc lower xs) := by
  induction es generalizing xs W with
  | nil =>
    cases h
    rw [liftAllIn]
    exact .pure .nil
  | cons e es ihes =>
    obtain ⟨⟩ | ⟨hx, hxs⟩ := h
    rw [liftAllIn, liftAllIn]
    refine .bind (ih e (by simp) _ W hx) fun W₁ a b hW₁ hab => ?_
    have hxs₁ := hxs.imp fun _ _ hp => hp.mono hW₁
    refine .bind (ihes (fun e he => ih e (by simp [he])) hxs₁) fun W₂ as bs hW₂ habs => ?_
    exact .pure (.cons (hab.mono hW₂) habs)

theorem liftIn_inStep (hsc : base.Within sc)
    (hlower : ∀ sc' hs W e x, base.Within sc' → Paired sc' (some s) W e x →
      InStep base W (Paired sc' (some t)) (lower sc' hs e) (lower sc' hs x))
    (e x : Expr) (W : Marks) (h : Paired sc (some s) W e x) :
    InStep base W (Paired sc (some t)) (liftIn stages s t sc lower e)
      (liftIn stages s t sc lower x) := by
  -- the two values differ in nodes only, so they have the same constructor
  induction e using Expr.ind generalizing x W with
  | literal n v =>
    cases x <;> simp only [Paired, Expr.erase, reduceCtorEq, false_and] at h
    rw [liftIn, liftIn]
    exact .pure ⟨h.1, Expr.markedAt_of_kept rfl⟩
  | constant n v =>
    cases x <;> simp only [Paired, Expr.erase, reduceCtorEq, false_and] at h
    rw [liftIn, liftIn]
    exact .pure ⟨h.1, Expr.markedAt_of_kept rfl⟩
  | construct n args ih =>
    cases x <;> simp only [Paired, Expr.erase, reduceCtorEq, false_and, Expr.construct.injEq] at h
    obtain ⟨⟨hn, hargs⟩, hm⟩ := h
    rw [liftIn, liftIn]
    refine .bind (liftAllIn_inStep ih (paired_args.2 ⟨hargs, Expr.markedAt_construct.1 hm⟩))
      fun W₁ as bs _ hab => .pure ?_
    obtain ⟨hargs', hm'⟩ := paired_args.1 hab
    exact ⟨by simp [hn, hargs'], Expr.markedAt_construct.2 hm'⟩
  | unary n op e ih =>
    cases x <;> simp only [Paired, Expr.erase, reduceCtorEq, false_and, Expr.unary.injEq] at h
    obtain ⟨⟨hn, hop, he⟩, hm⟩ := h
    rw [liftIn, liftIn]
    refine .bind (ih _ W ⟨he, hm⟩) fun W₁ a b _ hab => .pure ?_
    exact ⟨by simp [hn, hop, hab.1], hab.2⟩
  | cast n e ih =>
    cases x <;> simp only [Paired, Expr.erase, reduceCtorEq, false_and, Expr.cast.injEq] at h
    obtain ⟨⟨hn, he⟩, hm⟩ := h
    rw [liftIn, liftIn]
    refine .bind (ih _ W ⟨he, hm⟩) fun W₁ a b _ hab => .pure ?_
    exact ⟨by simp [hn, hab.1], hab.2⟩
  | localVar n v name =>
    by_cases hw : ∃ written o, sc.find (.localVar v) = some ⟨.declaration written, o⟩
    · obtain ⟨written, o, hw⟩ := hw
      cases x <;> simp only [Paired, Expr.erase, reduceCtorEq, false_and, Expr.localVar.injEq] at h
      obtain ⟨⟨hn, rfl, rfl⟩, hm⟩ := h
      have hmark : W o s := Expr.markedAt_some.1 hm v (by simp [Expr.isDeclared, hw]) written o hw
      refine liftIn_declared_inStep hsc hw hn hmark fun W e x hex => ?_
      exact hlower _ _ W e x ((hsc _ _ hw).symm ▸ Scope.within_upTo base o) hex
    · exact liftIn_crosses_inStep (Expr.crosses_localVar.2 hw) h
  | _ => exact liftIn_crosses_inStep rfl h

end

theorem liftBelow_inStep {n : Nat} (hsc : base.Within sc) (hn : sc.length < n)
    (h : Paired sc (some s) W e x) :
    InStep base W (Paired sc (some t)) (liftBelow stages s t n sc hn e)
      (liftBelow stages s t n sc hn x) := by
  induction n generalizing sc W e x with
  | zero => exact absurd hn (Nat.not_lt_zero _)
  | succ n ih =>
    rw [liftBelow]
    exact liftIn_inStep hsc (fun sc' hs W e x hsc' hex => ih hsc' _ hex) e x W h

theorem promote_inStep {pl wanted : Placement} (hsc : base.Within sc) (h : Paired sc pl W e x)
    (hw : wanted = none → pl = none) :
    InStep base W (Paired sc wanted) (promote stages sc pl wanted e)
      (promote stages sc pl wanted x) := by
  cases pl with
  | none => exact .pure ⟨h.1, fun s _ => h.2 s (.inl rfl)⟩
  | some s =>
    cases wanted with
    | none => cases hw rfl
    | some t =>
      unfold promote promoteM
      dsimp only
      split
      · rename_i hst
        subst hst
        exact .pure h
      · split
        · rw [Expr.span_of_erase h.1]
          exact .throw _
        · exact liftBelow_inStep hsc _ h

theorem fresh_inStep : InStep base W (fun _ _ _ => True) fresh fresh :=
  fun d₁ d₂ hd => .ok ⟨W, le_refl W, hd.frame (tick_alike d₁ 1) (tick_alike d₂ 1) (fun _ _ => rfl)
    fun _ _ => rfl, trivial⟩

theorem recordSample_alike (d : Draft) (samplers : List SamplerRecord) (call : SampleCall) :
    Alike d (d.recordSample samplers call) := by
  refine ⟨fun _ _ => rfl, ?_⟩
  apply List.ext_getElem?
  intro j
  rw [List.getElem?_map, List.getElem?_map, recordSample_textures]
  cases d.textures[j]? with
  | none => rfl
  | some x =>
    simp only [Option.map_some]
    split <;> rfl

/-- Sampling fails alike, but for the table of samplers, which may be full in one run only. -/
theorem sample_inStep {i j : NodeId} {param : Nat} {arg : Expr} :
    InStep base W (fun _ _ _ => True) (Draft.sample s i param arg)
      (Draft.sample s j param arg) := by
  intro d₁ d₂ hd
  unfold Draft.sample
  cases SamplerConfig.ofExpr arg with
  | error fault => exact .error
  | ok config =>
    have hfind (d : Draft) : d.textures.findIdx? (·.param == param) =
        (d.textures.map (·.param)).findIdx? (· == param) := by
      rw [List.findIdx?_map]
      rfl
    dsimp only
    rw [hfind, hfind, hd.textures]
    cases (d₂.textures.map (·.param)).findIdx? (· == param) with
    | none => exact .error
    | some texture =>
      dsimp only
      -- the two tables of samplers are not related
      cases internSampler d₁.samplers config with
      | none => exact .outLeft rfl
      | some found₁ =>
        cases internSampler d₂.samplers config with
        | none => exact .outRight rfl
        | some found₂ =>
          exact .ok ⟨W, le_refl W, hd.frame (recordSample_alike ..) (recordSample_alike ..)
            (fun _ _ => rfl) fun _ _ => rfl, trivial⟩

end Draft

def Traced.Meets (sc : Scope) (W : Marks) (t u : Traced) : Prop :=
  t.stage = u.stage ∧ Draft.Paired sc t.stage W t.expr u.expr

theorem Traced.Meets.mono {sc : Scope} {W W' : Marks} {t u : Traced} (h : t.Meets sc W u)
    (hw : W ≤ W') : t.Meets sc W' u :=
  ⟨h.1, h.2.mono hw⟩

namespace Aim

open Draft Drafting

variable {a : Aim} {base sc : Scope} {W : Marks}

theorem stages_of_meets {ts us : List Traced} (h : List.Forall₂ (Traced.Meets sc W) ts us) :
    ts.map (·.stage) = us.map (·.stage) := by
  induction h with
  | nil => rfl
  | cons h _ ih => rw [List.map_cons, List.map_cons, h.1, ih]

theorem eraseAll_of_meets {ts us : List Traced} (h : List.Forall₂ (Traced.Meets sc W) ts us) :
    Expr.eraseAll (ts.map (·.expr)) = Expr.eraseAll (us.map (·.expr)) := by
  induction h with
  | nil => rfl
  | cons h _ ih => rw [List.map_cons, List.map_cons, Expr.eraseAll, Expr.eraseAll, h.2.1, ih]

theorem promoteAll_inStep {wanted : Placement} {ts us : List Traced} (hsc : base.Within sc)
    (h : List.Forall₂ (Traced.Meets sc W) ts us) (hw : wanted = none → ∀ t ∈ ts, t.stage = none) :
    InStep base W (fun W' => List.Forall₂ (Paired sc wanted W')) (a.promoteAll sc wanted ts)
      (a.promoteAll sc wanted us) := by
  induction ts generalizing us W with
  | nil =>
    cases h
    exact .pure .nil
  | cons t ts ih =>
    obtain ⟨⟩ | ⟨⟨hstage, hexpr⟩, hts⟩ := h
    rw [promoteAll, promoteAll, ← hstage]
    refine .bind (promote_inStep hsc hexpr fun hn => hw hn t (by simp)) fun W₁ e x hW₁ hex => ?_
    have hts₁ := hts.imp fun _ _ ht => ht.mono hW₁
    refine .bind (ih hts₁ fun hn t ht => hw hn t (by simp [ht])) fun W₂ es xs hW₂ hexs => ?_
    exact .pure (.cons (hex.mono hW₂) hexs)

theorem checkValue_inStep {n : Node} :
    InStep base W (fun _ _ _ => True) (a.checkValue n) (a.checkValue n) := by
  unfold checkValue
  split
  · exact .pure trivial
  · exact .throw _

theorem check_inStep {α : Type} {R : Marks → α → α → Prop} {m : Bool} {n : Node} {k : Drafting α}
    (h : ∀ W', W ≤ W' → InStep base W' R k k) :
    InStep base W R (if m = true then k else a.checkValue n >>= fun _ => k)
      (if m = true then k else a.checkValue n >>= fun _ => k) := by
  split
  · exact h W (le_refl W)
  · exact .bind checkValue_inStep fun W' _ _ hW _ => h W' hW

theorem visitParam_inStep {m : Bool} {n : Node} {i : Nat} :
    InStep base W (Traced.Meets sc) (a.visitParam m n i) (a.visitParam m n i) := by
  have hparam (W : Marks) (s : Stage) :
      Traced.Meets sc W ⟨.param n i, some s⟩ ⟨.param n i, some s⟩ :=
    ⟨rfl, rfl, Expr.markedAt_of_kept rfl⟩
  unfold visitParam
  cases a.pipeline.fn.params[i]? with
  | none => exact .throw _
  | some q =>
    refine check_inStep fun W₁ _ => ?_
    split
    · split
      · exact .bind (.throw _) fun _ _ _ _ h => h
      · refine .bind (R := fun _ _ _ => True) (.modify fun d₁ d₂ hd => ?_) fun W₂ _ _ _ _ =>
          .pure (hparam W₂ _)
        exact ⟨W₁, le_refl W₁, hd.frame ⟨fun _ _ => rfl, rfl⟩ ⟨fun _ _ => rfl, rfl⟩ (fun _ _ => rfl)
          fun _ _ => rfl, trivial⟩
    · exact .pure (hparam W₁ _)

section
variable {lower : (s : Scope) → s.length < sc.length → Expr → Drafting Traced}

theorem visitAllIn_inStep {es : List Expr}
    (ih : ∀ e ∈ es, ∀ m W, InStep base W (Traced.Meets sc) (a.visitIn sc lower m e)
      (a.visitIn sc lower m e)) :
    InStep base W (fun W' => List.Forall₂ (Traced.Meets sc W')) (a.visitAllIn sc lower es)
      (a.visitAllIn sc lower es) := by
  induction es generalizing W with
  | nil =>
    rw [visitAllIn]
    exact .pure .nil
  | cons e es ihes =>
    rw [visitAllIn]
    refine .bind (ih e (by simp) false W) fun W₁ t u _ ht => ?_
    refine .bind (ihes fun e he => ih e (by simp [he])) fun W₂ ts us hW₂ hts => ?_
    exact .pure (.cons (ht.mono hW₂) hts)

theorem visitIn_declared_inStep {m : Bool} {n : Node} {v : LocalId} {name : String}
    {written : LocalDecl} {o : NodeId} (hsc : base.Within sc)
    (hw : sc.find (.localVar v) = some ⟨.declaration written, o⟩)
    (hlower : ∀ W, InStep base W (Traced.Meets (sc.upTo o))
      (lower (sc.upTo o) (Scope.length_before_lt hw) written.init)
      (lower (sc.upTo o) (Scope.length_before_lt hw) written.init)) :
    InStep base W (Traced.Meets sc) (a.visitIn sc lower m (.localVar n v name))
      (a.visitIn sc lower m (.localVar n v name)) := by
  have hscope : sc.upTo o = base.upTo o := hsc _ _ hw
  rw [visitIn_localVar, visitLocal_declared hw]
  refine check_inStep fun W₁ _ => .bind (hlower W₁) fun W₂ t u _ htu => ?_
  obtain ⟨hstage, hexpr, hmark⟩ := htu
  rw [← hstage]
  -- a value without a place goes to the target, and is marked for every stage
  have hinit := hmark.getD a.target
  rw [hscope] at hinit
  refine .bind (R := fun W₃ _ _ => W₃ o (t.stage.getD a.target)) (.modify fun d₁ d₂ hd => ?_)
    fun W₃ _ _ _ hm₃ => ?_
  · have hlevel := hd.setRebuilt (x := ⟨v, name, written.ty, t.expr⟩)
      (y := ⟨v, name, written.ty, u.expr⟩) hexpr hinit
    refine ⟨_, W₂.le_add o _, hlevel.frame ?_ ?_ (fun _ _ => rfl) fun _ _ => rfl, .inr ⟨rfl, rfl⟩⟩
    · exact onQueue_alike ..
    · exact onQueue_alike ..
  · refine .pure ⟨rfl, rfl, Expr.markedAt_some.2 fun x hx written' o' hfind => ?_⟩
    obtain rfl : x = v := by simpa using Expr.kept_subset hx
    cases hw.symm.trans hfind
    exact hm₃

/-- A local that was assigned is read where its value is; it is not lifted. -/
theorem visitIn_assigned_inStep {m : Bool} {n : Node} {v : LocalId} {name : String} {x : Expr}
    {o : NodeId} (hw : sc.find (.localVar v) = some ⟨.assignment x, o⟩)
    (hlower : ∀ W, InStep base W (Traced.Meets (sc.upTo o))
      (lower (sc.upTo o) (Scope.length_before_lt hw) x)
      (lower (sc.upTo o) (Scope.length_before_lt hw) x)) :
    InStep base W (Traced.Meets sc) (a.visitIn sc lower m (.localVar n v name))
      (a.visitIn sc lower m (.localVar n v name)) := by
  rw [visitIn_localVar, visitLocal_assigned hw]
  refine check_inStep fun W₁ _ => .bind (hlower W₁) fun W₂ t u _ htu => ?_
  rw [← htu.1]
  refine .bind (R := fun _ _ _ => True) (.modify fun d₁ d₂ hd => ?_) fun W₃ _ _ _ _ => ?_
  · exact ⟨W₂, le_refl W₂, hd.frame (onQueue_alike ..) (onQueue_alike ..) (fun _ _ => rfl)
      fun _ _ => rfl, trivial⟩
  · refine .pure ⟨rfl, rfl, Expr.markedAt_of_kept ?_⟩
    simp [Expr.isDeclared, hw]

theorem visitIn_sample_inStep {m : Bool} {n : Node} {method : DeclId} {f : BuiltinMethod}
    {object : Expr} {args : List Expr} (hsc : base.Within sc)
    (hm : a.pipeline.catalog.method? method = some f) (hs : f.isSample = true)
    (ih : ∀ e ∈ args, ∀ m W, InStep base W (Traced.Meets sc) (a.visitIn sc lower m e)
      (a.visitIn sc lower m e)) :
    InStep base W (Traced.Meets sc) (a.visitIn sc lower m (.methodCall n method object args))
      (a.visitIn sc lower m (.methodCall n method object args)) := by
  rw [visitIn, hm]
  simp only [hs, if_true]
  cases a.sampledStage object with
  | error fault => exact .throw _
  | ok found =>
    obtain ⟨texture, s⟩ := found
    rcases args with _ | ⟨uv, _ | ⟨sampler, _ | _⟩⟩
    case cons.cons.nil =>
      refine .bind (ih uv (by simp) false W) fun W₁ t u _ htu => ?_
      obtain ⟨hstage, hexpr⟩ := htu
      rw [← hstage]
      refine .bind (promote_inStep hsc hexpr (by simp)) fun W₂ e x _ hex => ?_
      refine .bind fresh_inStep fun W₃ i j _ _ => .bind sample_inStep fun W₄ _ _ _ _ =>
        .pure ⟨rfl, ?_, ?_⟩
      · simp [Node.erase, hex.1]
      · exact Expr.markedAt_of_kept rfl
    all_goals exact .throw _

/-- One run visits a value as the other does, whatever the two drafts hold of earlier traces. -/
theorem visitIn_inStep (hsc : base.Within sc)
    (hlower : ∀ sc' hs W e, base.Within sc' →
      InStep base W (Traced.Meets sc') (lower sc' hs e) (lower sc' hs e)) (m : Bool)
    (e : Expr) (W : Marks) :
    InStep base W (Traced.Meets sc) (a.visitIn sc lower m e) (a.visitIn sc lower m e) := by
  have hbelow {v : LocalId} {w : Write} (hw : sc.find (.localVar v) = some w) :
      base.Within (sc.upTo w.step) :=
    hsc _ _ hw ▸ Scope.within_upTo base w.step
  -- an operand is visited with the marks that the ones before it have left
  induction e using Expr.ind generalizing m W with
  | literal | constant =>
    rw [visitIn]
    exact .pure ⟨rfl, rfl, Expr.markedAt_of_kept rfl⟩
  | param n i =>
    rw [visitIn]
    exact visitParam_inStep
  | localVar n v name =>
    cases hw : sc.find (.localVar v) with
    | none =>
      rw [visitIn_localVar, visitLocal_unreached hw]
      exact check_inStep fun _ _ => .throw _
    | some w =>
      obtain ⟨site, o⟩ := w
      cases site with
      | declaration written =>
        exact visitIn_declared_inStep hsc hw fun W => hlower _ _ W _ (hbelow hw)
      | assignment x => exact visitIn_assigned_inStep hw fun W => hlower _ _ W _ (hbelow hw)
  | binary n op lhs rhs ihl ihr =>
    rw [visitIn]
    refine .bind (ihl false W) fun W₁ l l' _ hl => .bind (ihr false W₁) fun W₂ r r' hW₂ hr => ?_
    obtain ⟨hls, hle⟩ := hl.mono hW₂
    obtain ⟨hrs, hre⟩ := hr
    rw [← hls, ← hrs]
    have hnone : a.wait (a.waits op l.stage r.stage) (l.stage.later r.stage) = none →
        l.stage = none ∧ r.stage = none :=
      fun h => Placement.later_eq_none.1 (wait_eq_none h)
    refine .bind (promote_inStep hsc hle fun h => (hnone h).1) fun W₃ x x' hW₃ hx => ?_
    refine .bind (promote_inStep hsc (hre.mono hW₃) fun h => (hnone h).2) fun W₄ y y' _ hy =>
      .pure ⟨rfl, ?_, ?_⟩
    · simp [hx.1, hy.1]
    · exact Expr.markedAt_of_kept rfl
  | unary n op e ih =>
    rw [visitIn]
    exact .bind (ih false W) fun W₁ t u _ htu => .pure ⟨htu.1, by simp [htu.2.1], htu.2.2⟩
  | cast n e ih =>
    rw [visitIn]
    split
    · exact .bind (.throw _) fun _ _ _ _ h => h
    · exact .bind (ih false W) fun W₁ t u _ htu => .pure ⟨htu.1, by simp [htu.2.1], htu.2.2⟩
  | construct n args ih =>
    rw [visitIn]
    split
    · exact .bind (.throw _) fun _ _ _ _ h => h
    · refine .bind (visitAllIn_inStep ih) fun W₁ ts us _ hts => ?_
      rw [← placement_congr (stages_of_meets hts)]
      refine .bind (promoteAll_inStep hsc hts placement_eq_none.1) fun W₂ es xs _ hes =>
        .pure ⟨rfl, ?_⟩
      obtain ⟨herase, hmarked⟩ := paired_args.1 hes
      exact ⟨by simp [herase], Expr.markedAt_construct.2 hmarked⟩
  | initList n items ih =>
    rw [visitIn]
    refine .bind (visitAllIn_inStep ih) fun W₁ ts us _ hts => ?_
    rw [← placement_congr (stages_of_meets hts)]
    refine .bind (promoteAll_inStep hsc hts placement_eq_none.1) fun W₂ es xs _ hes =>
      .pure ⟨rfl, ?_, ?_⟩
    · simp [(paired_args.1 hes).1]
    · exact Expr.markedAt_of_kept rfl
  | call n func args ih =>
    rw [visitIn]
    cases a.pipeline.catalog.function? func with
    | none => exact .throw _
    | some f =>
      refine .bind (visitAllIn_inStep ih) fun W₁ ts us _ hts => ?_
      rw [← placement_congr (stages_of_meets hts), ← callWaits_congr (stages_of_meets hts)]
      refine .bind (promoteAll_inStep hsc hts fun h => placement_eq_none.1 (wait_eq_none h))
          fun W₂ es xs _ hes =>
        .pure ⟨rfl, ?_, ?_⟩
      · simp [(paired_args.1 hes).1]
      · exact Expr.markedAt_of_kept rfl
  | methodCall n method object args iho ih =>
    cases hm : a.pipeline.catalog.method? method with
    | none =>
      rw [visitIn, hm]
      exact .throw _
    | some f =>
      cases hs : f.isSample with
      | true => exact visitIn_sample_inStep hsc hm hs ih
      | false =>
        rw [visitIn, hm]
        simp only [hs, Bool.false_eq_true, if_false]
        refine .bind (iho false W) fun W₁ t u _ htu => .bind (visitAllIn_inStep ih)
          fun W₂ ts us _ hts => ?_
        refine .pure ⟨htu.1, ?_, Expr.markedAt_of_kept rfl⟩
        simp [htu.2.1, eraseAll_of_meets hts]
  | member n base field ih =>
    rw [visitIn]
    refine check_inStep fun W₁ _ => .bind (ih true W₁) fun W₂ t u _ htu => .pure ⟨htu.1, ?_, ?_⟩
    · simp [htu.2.1]
    · exact Expr.markedAt_of_kept rfl
  | interface | unsupported =>
    rw [visitIn]
    exact .throw _

end

theorem visitBelow_inStep {n : Nat} (hsc : base.Within sc) (hn : sc.length < n)
    (e : Expr) (W : Marks) :
    InStep base W (Traced.Meets sc) (a.visitBelow n sc hn e) (a.visitBelow n sc hn e) := by
  induction n generalizing sc e W with
  | zero => exact absurd hn (Nat.not_lt_zero _)
  | succ n ih =>
    rw [visitBelow]
    exact visitIn_inStep hsc (fun sc' hs W e hsc' => ih hsc' _ e W) false e W

theorem Traces.textures {m : Bool} {es : List Expr} {ts : List Traced} {d d' : Draft}
    (h : a.Traces sc m es d ts d') :
    d.textures.map (·.param) = d'.textures.map (·.param) := by
  induction h with
  | nil | literal | constant => rfl
  | cons _ _ ih ihs => exact ih.trans ihs
  | param _ _ _ hd =>
    subst hd
    split <;> rfl
  | declared _ _ _ _ ih | assigned _ _ _ _ ih => exact ih
  | binary _ _ _ pl pr ihl ihr =>
    rw [pr.mute.textures, pl.mute.textures]
    exact ihl.trans ihr
  | unary _ ih | cast _ _ ih | member _ _ ih => exact ih
  | construct _ _ hp ih | initList _ hp ih | call _ _ _ hp ih =>
    rw [hp.mute.textures]
    exact ih
  | sample _ _ _ _ hp hk ih =>
    obtain ⟨config, i, samplers, -, -, -, rfl⟩ := Draft.sample_ok hk
    rw [← (recordSample_alike ..).textures]
    exact ih.trans (congrArg _ hp.mute.textures.symm)
  | method _ _ _ _ ih ihs => exact ih.trans ihs

end Aim

/-- The drafts that traces of a function arrive at, each of any value, for any stage. -/
inductive Pipeline.Reachable (p : Pipeline) : Draft → Prop
  | start : Reachable p (.start p)
  | trace {d d' : Draft} {s : Stage} {e : Expr} {o : NodeId} {u : Unit} (h : Reachable p d)
      (ht : Aim.trace ⟨p, s⟩ e o d = .ok u d') : Reachable p d'

theorem Pipeline.Reachable.alike {p : Pipeline} {d : Draft} (h : p.Reachable d) :
    Draft.Alike (.start p) d := by
  induction h with
  | start => exact .refl _
  | trace _ ht ih =>
    obtain ⟨t, e', d₁, d₂, hv, -, hp, rfl⟩ := Aim.trace_ok ht
    refine ih.trans (Draft.Alike.trans ?_ (Draft.onQueue_alike ..))
    refine ⟨Draft.Moves.records (hv.moves.trans hp.moves), ?_⟩
    rw [hp.mute.textures]
    exact hv.textures

/-- What a visit gives does not depend on what was traced before. From any two drafts that traces
arrive at, a value is placed in the same stage and rebuilt as the same expression, identities and
positions of fields aside, or the visit fails with the same error, unless one of the two runs is
out of samplers. -/
theorem Pipeline.visit_independent {p : Pipeline} {d₁ d₂ : Draft} (h₁ : p.Reachable d₁)
    (h₂ : p.Reachable d₂) (target : Stage) (sc : Scope) (e : Expr)
    (hl₁ : ∀ err d, Aim.visit ⟨p, target⟩ sc e d₁ = .error err d → err.fault ≠ .samplerLimit)
    (hl₂ : ∀ err d, Aim.visit ⟨p, target⟩ sc e d₂ = .error err d → err.fault ≠ .samplerLimit) :
    (∃ t u d₁' d₂', Aim.visit ⟨p, target⟩ sc e d₁ = .ok t d₁' ∧
      Aim.visit ⟨p, target⟩ sc e d₂ = .ok u d₂' ∧
      t.stage = u.stage ∧ t.expr.erase = u.expr.erase) ∨
    ∃ err d₁' d₂', Aim.visit ⟨p, target⟩ sc e d₁ = .error err d₁' ∧
      Aim.visit ⟨p, target⟩ sc e d₂ = .error err d₂' := by
  -- nothing is marked yet, so the drafts are level whatever was rebuilt
  have hlevel : Draft.Level sc (fun _ _ => False) d₁ d₂ :=
    ⟨h₁.alike.symm.trans h₂.alike, fun _ _ => False.elim⟩
  have hrun : Drafting.Concur _ (Aim.visit ⟨p, target⟩ sc e d₁) (Aim.visit ⟨p, target⟩ sc e d₂) :=
    Aim.visitBelow_inStep (Scope.Within.refl sc) sc.length_lt e _ d₁ d₂ hlevel
  revert hrun hl₁ hl₂
  generalize Aim.visit ⟨p, target⟩ sc e d₁ = r₁
  generalize Aim.visit ⟨p, target⟩ sc e d₂ = r₂
  intro hl₁ hl₂ hrun
  cases hrun with
  | ok h =>
    obtain ⟨-, -, -, hstage, hexpr, -⟩ := h
    exact .inl ⟨_, _, _, _, rfl, rfl, hstage, hexpr⟩
  | error => exact .inr ⟨_, _, _, rfl, rfl⟩
  | outLeft h => exact absurd h (hl₁ _ _ rfl)
  | outRight h => exact absurd h (hl₂ _ _ rfl)

namespace Sample

open Workbench

/-- The geometry stage reads a product, and the negation of a local that the fragment stage negates
too: traced after the fragment stage, it finds the local's field, and the product comes second. -/
def revisited : PipelineFn :=
  let ps := [param "tint" .captured, param "v" (.varyingInput .vertex),
      param "h" (.varyingInput .geometry),
    param "g" (.varyingOutput .geometry), param "o" (.varyingOutput .fragment)]
  fn "revisited" ps do
    let (da, a) ← declare "a" .float (← binary .add (← arg ps 1) (← arg ps 0))
    let square ← binary .add (← binary .mul (← arg ps 1) (← arg ps 1)) (← arg ps 2)
    let opposite ← binary .add (← unary .neg (← useLocal a)) (← arg ps 2)
    let g ← assign .assign (← arg ps 3) (← binary .add square opposite)
    let o ← assign .assign (← arg ps 4) (← unary .neg (← useLocal a))
    return [da, g, o]

def lastWrite (p : Pipeline) (i : Nat) : Expr × NodeId :=
  match p.scope.find (.param i) with
  | some w => (w.site.value, w.step)
  | none => (.unsupported ⟨0, .float, .dummy⟩ "", 0)

def visitGeometry (p : Pipeline) : Drafting Traced :=
  Aim.visit ⟨p, .geometry⟩ p.scope (lastWrite p 3).1

def traceFragment (p : Pipeline) : Drafting Unit :=
  Aim.trace ⟨p, .fragment⟩ (lastWrite p 4).1 (lastWrite p 4).2

def ends {α : Type} (x : Drafting α) (d : Draft) (test : Draft → Bool) : Bool :=
  match x d with
  | .ok _ d' => test d'
  | .error .. => false

theorem exists_of_ends {α : Type} (x : Drafting α) (d : Draft) (test : Draft → Bool)
    (h : ends x d test = true) :
    ∃ a d', x d = .ok a d' ∧ test d' = true := by
  unfold ends at h
  split at h
  · rename_i a d' hx
    exact ⟨a, d', hx, h⟩
  · cases h

end Sample

open Sample in
/-- The drafts differ in what was rebuilt, and both visits succeed. -/
theorem Pipeline.visit_independent_revisited : ∃ d t u d₁ d₂,
    (pipeline revisited).Reachable (.start (pipeline revisited)) ∧
    (pipeline revisited).Reachable d ∧ d.rebuilt.length = 2 ∧
    visitGeometry (pipeline revisited) (.start (pipeline revisited)) = .ok t d₁ ∧
    visitGeometry (pipeline revisited) d = .ok u d₂ ∧ t.stage = u.stage ∧
    t.expr.erase = u.expr.erase := by
  obtain ⟨_, d, htrace, hd⟩ := exists_of_ends (traceFragment (pipeline revisited))
    (.start (pipeline revisited))
    (fun d => d.rebuilt.length == 2 && ends (visitGeometry (pipeline revisited)) d fun _ => true)
      (by decide +kernel)
  rw [Bool.and_eq_true] at hd
  obtain ⟨t, d₁, hfirst, -⟩ := exists_of_ends (visitGeometry (pipeline revisited))
    (.start (pipeline revisited))
    (fun _ => true) (by decide +kernel)
  obtain ⟨u, d₂, hsecond, -⟩ := exists_of_ends _ _ _ hd.2
  have hstart : (pipeline revisited).Reachable (.start (pipeline revisited)) := .start
  have hlater : (pipeline revisited).Reachable d := hstart.trace htrace
  unfold visitGeometry at hfirst hsecond ⊢
  have h := Pipeline.visit_independent hstart hlater .geometry (pipeline revisited).scope
    (lastWrite (pipeline revisited) 3).1 (by simp [hfirst]) (by simp [hsecond])
  rcases h with ⟨t', u', e₁, e₂, ht, hu, hstage, hexpr⟩ | ⟨err, e₁, e₂, herr, -⟩
  · cases hfirst.symm.trans ht
    cases hsecond.symm.trans hu
    exact ⟨d, t, u, d₁, d₂, hstart, hlater, by simpa using hd.1, hfirst, hsecond, hstage, hexpr⟩
  · cases hfirst.symm.trans herr

end ShaderSplit
