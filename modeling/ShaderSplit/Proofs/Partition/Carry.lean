import ShaderSplit.Partition.Lift
import ShaderSplit.Proofs.Scope.Reach

namespace ShaderSplit

namespace Drafting

variable {α β : Type} {d d' : Draft}

theorem bind_ok {x : Drafting α} {f : α → Drafting β} {b : β} :
    (x >>= f) d = .ok b d' ↔ ∃ a d₁, x d = .ok a d₁ ∧ f a d₁ = .ok b d' := by
  change EStateM.bind x f d = _ ↔ _
  unfold EStateM.bind
  cases x d with
  | error e d₁ => simp
  | ok a d₁ =>
    constructor
    · exact fun h => ⟨a, d₁, rfl, h⟩
    · rintro ⟨_, _, ha, h⟩
      cases ha
      exact h

theorem pure_ok {a b : α} : (pure a : Drafting α) d = .ok b d' ↔ a = b ∧ d = d' := by
  change EStateM.Result.ok a d = _ ↔ _
  simp

theorem throw_ok {e : TraceError} {b : α} : (throw e : Drafting α) d = .ok b d' ↔ False := by
  change EStateM.Result.error e d = _ ↔ _
  simp

theorem modify_ok {f : Draft → Draft} {u : PUnit} :
    (modify f : Drafting PUnit) d = .ok u d' ↔ f d = d' := by
  change EStateM.Result.ok _ (f d) = _ ↔ _
  simp

theorem get_ok {b : Draft} : (get : Drafting Draft) d = .ok b d' ↔ d = b ∧ d = d' := by
  change EStateM.Result.ok d d = _ ↔ _
  simp

theorem expect_bind {b : Breach} {c : Draft → Bool} {f : Unit → Drafting α} :
    Guards.expect b c >>= f = f () := rfl

theorem liftM_eq {x : Drafting α} : (liftM x : Drafting α) = x := rfl

end Drafting

namespace Draft

def tick (d : Draft) (k : Nat) : Draft := { d with nextId := d.nextId + k }

@[simp] theorem tick_queue (d : Draft) (k : Nat) (s : Stage) : (d.tick k).queue s = d.queue s := rfl
@[simp] theorem tick_record? (d : Draft) (k : Nat) (s t : Stage) :
    (d.tick k).record? s t = d.record? s t :=
  rfl
@[simp] theorem tick_rebuilt (d : Draft) (k : Nat) : (d.tick k).rebuilt = d.rebuilt := rfl

/-- A field's end for a value, called by the next identity. -/
def endAt (d : Draft) (s t : Stage) (side : Side) (field : Nat) (value : Expr) : Expr :=
  .interface ⟨d.nextId, value.ty, value.span⟩ ⟨s, t, side, field⟩

def producer (d : Draft) (s t : Stage) (field : Nat) (value : Expr) : Expr :=
  .binary ⟨d.nextId + 1, value.ty, value.span⟩ .assign (d.endAt s t .producer field value) value

/-- The draft with a new field for a value in the record `r`, and with its producer. -/
def openField (d : Draft) (s t : Stage) (r : InterfaceRecord) (value : Expr)
    (reaching : List NodeId) : Draft :=
  let e := d.setRecord s t (r.push value reaching)
  (e.onQueue s (·.insertReached reaching (.expr (e.producer s t r.fields.length value)))).tick 2

inductive Carries (sc : Scope) (s t : Stage) (value : Expr) (d : Draft) : Expr → Draft → Prop
  | found {r : InterfaceRecord} {i : Nat} (hr : d.record? s t = some r)
      (hi : r.find? value (sc.reaching value) = some i) :
      Carries sc s t value d (d.endAt s t .consumer i value) (d.tick 1)
  | opened {r : InterfaceRecord} {e : Draft} (hr : d.record? s t = some r)
      (hi : r.find? value (sc.reaching value) = none)
      (he : d.openField s t r value (sc.reaching value) = e) :
      Carries sc s t value d (e.endAt s t .consumer r.fields.length value) (e.tick 1)

theorem setRecord_self {d : Draft} {s t : Stage} {r : InterfaceRecord}
    (h : d.record? s t = some r) : d.setRecord s t r = d := by
  have set_get (p : PerStage (Option InterfaceRecord)) (hp : p.get t = some r) :
      p.set t (some r) = p := by
    rw [← hp]
    cases t <;> rfl
  unfold record? at h
  unfold setRecord
  split at h
  · rename_i hs
    rw [if_pos hs, set_get _ h]
  · rename_i hs
    rw [if_neg hs, set_get _ h]

theorem carry_ok {sc : Scope} {s t : Stage} {value e : Expr} {d d' : Draft}
    (h : carry sc s t value d = .ok e d') : Carries sc s t value d e d' := by
  unfold carry at h
  simp only [Drafting.bind_ok, Drafting.get_ok] at h
  obtain ⟨_, _, ⟨rfl, rfl⟩, h⟩ := h
  cases hr : d.record? s t with
  | none => simp [hr, Drafting.throw_ok] at h
  | some r =>
    rw [hr] at h
    unfold InterfaceRecord.intern at h
    cases hi : r.find? value (sc.reaching value) with
    | some i =>
      simp only [hi, Drafting.bind_ok, Drafting.modify_ok, setRecord_self hr] at h
      obtain ⟨_, _, rfl, h⟩ := h
      cases h
      exact .found hr hi
    | none =>
      simp only [hi, Drafting.bind_ok, Drafting.modify_ok, if_true] at h
      obtain ⟨_, _, rfl, _, _, hp, he⟩ := h
      cases hp
      cases he
      exact .opened hr hi rfl

inductive Relays (sc : Scope) : Stage → Expr → List Stage → Draft → Expr → Draft → Prop
  | done {s : Stage} {value : Expr} {d : Draft} : Relays sc s value [] d value d
  | hop {s t : Stage} {value next last : Expr} {rest : List Stage} {d d₁ d₂ : Draft}
      (hc : Carries sc s t value d next d₁) (hr : Relays sc t next rest d₁ last d₂) :
      Relays sc s value (t :: rest) d last d₂

theorem relay_ok {sc : Scope} {hops : List Stage} {s : Stage} {value e : Expr} {d d' : Draft}
    (h : relay sc s value hops d = .ok e d') : Relays sc s value hops d e d' := by
  induction hops generalizing s value d with
  | nil =>
    obtain ⟨rfl, rfl⟩ := Drafting.pure_ok.1 h
    exact .done
  | cons t rest ih =>
    obtain ⟨next, d₁, hc, hr⟩ := Drafting.bind_ok.1 h
    exact .hop (carry_ok hc) (ih hr)

/-- The stages after `s` on the way to `t`: one hop from the host, else every active stage. -/
def Route (stages : StageSet) (s t : Stage) (hops : List Stage) : Prop :=
  (s = .host ∧ hops = [t]) ∨
    (s ≠ .host ∧ hops = stages.devices.filter (fun x => s < x ∧ x ≤ t) ∧ hops.getLast? = some t)

theorem transfer_ok {stages : StageSet} {sc : Scope} {s t : Stage} {value e : Expr} {d d' : Draft}
    (h : transfer stages sc s t value d = .ok e d') :
    ∃ hops, Route stages s t hops ∧ Relays sc s value hops d e d' := by
  unfold transfer at h
  split at h
  · rename_i hs
    exact ⟨[t], .inl ⟨hs, rfl⟩, hs ▸ .hop (carry_ok h) .done⟩
  · rename_i hs
    dsimp only at h
    split at h
    · rename_i hl
      exact ⟨_, .inr ⟨hs, rfl, hl⟩, relay_ok h⟩
    · simp [Drafting.throw_ok] at h

end Draft

/-- What lifting carries over a record; all else it repeats. -/
def Expr.crosses (sc : Scope) : Expr → Bool
  | literal .. | constant .. | construct .. | unary .. | cast .. => false
  | localVar _ v _ =>
    match sc.find (.localVar v) with
    | some ⟨.declaration _, _⟩ => false
    | _ => true
  | _ => true

theorem Expr.crosses_localVar {sc : Scope} {n : Node} {v : LocalId} {name : String} :
    (localVar n v name).crosses sc = true ↔
      ¬ ∃ written o, sc.find (.localVar v) = some ⟨.declaration written, o⟩ := by
  rw [crosses]
  split
  · rename_i written o hf
    simp [hf]
  · rename_i hf
    simpa using hf

namespace Draft

/-- A declaration is rebuilt for a later stage, and one of its uses moves there. -/
def redeclare (d : Draft) (s t : Stage) (o : NodeId) (decl : LocalDecl) : Draft :=
  (d.setRebuilt o t decl).liftDeclaration decl s t o

/-- Lifting a list of expressions from `s` to `t`; a single expression is a list of one. -/
inductive Lifts (stages : StageSet) (s t : Stage) :
    Scope → List Expr → Draft → List Expr → Draft → Prop
  | nil {sc : Scope} {d : Draft} : Lifts stages s t sc [] d [] d
  | cons {sc : Scope} {e e' : Expr} {es es' : List Expr} {d d₁ d₂ : Draft}
      (h : Lifts stages s t sc [e] d [e'] d₁) (hs : Lifts stages s t sc es d₁ es' d₂) :
      Lifts stages s t sc (e :: es) d (e' :: es') d₂
  | literal {sc : Scope} {n : Node} {v : Literal} {d : Draft} :
      Lifts stages s t sc [.literal n v] d [.literal n v] d
  | constant {sc : Scope} {n : Node} {v : ConstValue} {d : Draft} :
      Lifts stages s t sc [.constant n v] d [.constant n v] d
  | construct {sc : Scope} {n : Node} {args args' : List Expr} {d d' : Draft}
      (h : Lifts stages s t sc args d args' d') :
      Lifts stages s t sc [.construct n args] d [.construct n args'] d'
  | unary {sc : Scope} {n : Node} {op : UnaryOp} {e e' : Expr} {d d' : Draft}
      (h : Lifts stages s t sc [e] d [e'] d') :
      Lifts stages s t sc [.unary n op e] d [.unary n op e'] d'
  | cast {sc : Scope} {n : Node} {e e' : Expr} {d d' : Draft}
      (h : Lifts stages s t sc [e] d [e'] d') : Lifts stages s t sc [.cast n e] d [.cast n e'] d'
  | redeclare {sc : Scope} {n : Node} {v : LocalId} {name : String} {written decl : LocalDecl}
      {o : NodeId} {init : Expr} {d d₁ : Draft}
      (hw : sc.find (.localVar v) = some ⟨.declaration written, o⟩)
      (hd : (d.rebuilt? o s).getD written = decl)
      (hi : Lifts stages s t (sc.upTo o) [decl.init] d [init] d₁) :
      Lifts stages s t sc [.localVar n v name] d [.localVar n v name]
        (d₁.redeclare s t o { decl with init })
  | transfer {sc : Scope} {e e' : Expr} {hops : List Stage} {d d' : Draft}
      (hc : e.crosses sc = true) (hr : Route stages s t hops) (hd : Relays sc s e hops d e' d') :
      Lifts stages s t sc [e] d [e'] d'

section
variable {m : Type → Type} [Monad m] [MonadStateOf Draft m] [MonadLiftT Drafting m] [Guards m]
  {stages : StageSet} {s t : Stage} {sc : Scope}
  {lower : (s : Scope) → s.length < sc.length → Expr → m Expr}

theorem liftIn_declared {n : Node} {v : LocalId} {name : String} {written : LocalDecl} {o : NodeId}
    (hw : sc.find (.localVar v) = some ⟨.declaration written, o⟩) :
    liftIn stages s t sc lower (.localVar n v name) = do
      Guards.expect .unrebuilt fun d => (d.rebuilt? o s).isSome
      let decl := ((← get).rebuilt? o s).getD written
      let init ← lower (sc.upTo o) (Scope.length_before_lt hw) decl.init
      modify (·.redeclare s t o { decl with init })
      return .localVar n v name := by
  rw [liftIn]
  split
  · rename_i hf
    cases hw.symm.trans hf
    rfl
  · rename_i hf
    exact absurd hw (hf written o)

theorem liftIn_crosses {e : Expr} (h : e.crosses sc = true) :
    liftIn stages s t sc lower e = liftM (transfer stages sc s t e) := by
  cases e with
  | localVar n v name =>
    rw [liftIn]
    split
    · rename_i written o hf
      exact absurd ⟨written, o, hf⟩ (Expr.crosses_localVar.1 h)
    · rfl
  | literal | constant | construct | unary | cast => simp [Expr.crosses] at h
  | _ => simp only [liftIn]

end

variable {stages : StageSet} {s t : Stage} {sc : Scope}
  {lower : (s : Scope) → s.length < sc.length → Expr → Drafting Expr}

theorem lifts_of_crosses {e e' : Expr} {d d' : Draft} (hc : e.crosses sc = true)
    (h : liftIn stages s t sc lower e d = .ok e' d') : Lifts stages s t sc [e] d [e'] d' := by
  rw [liftIn_crosses hc] at h
  obtain ⟨hops, hr, hd⟩ := transfer_ok h
  exact .transfer hc hr hd

mutual
theorem liftIn_ok (hlower : ∀ sc' hs e d e' d', lower sc' hs e d = .ok e' d' →
      Lifts stages s t sc' [e] d [e'] d') :
    ∀ (e : Expr) {d d' : Draft} {e' : Expr}, liftIn stages s t sc lower e d = .ok e' d' →
      Lifts stages s t sc [e] d [e'] d'
  | .literal n v, d, d', e', h => by
    rw [liftIn, Drafting.pure_ok] at h
    obtain ⟨rfl, rfl⟩ := h
    exact .literal
  | .constant n v, d, d', e', h => by
    rw [liftIn, Drafting.pure_ok] at h
    obtain ⟨rfl, rfl⟩ := h
    exact .constant
  | .construct n args, d, d', e', h => by
    rw [liftIn, Drafting.bind_ok] at h
    obtain ⟨args', d₁, ha, h⟩ := h
    obtain ⟨rfl, rfl⟩ := Drafting.pure_ok.1 h
    exact .construct (liftAllIn_ok hlower args ha)
  | .unary n op e, d, d', e', h => by
    rw [liftIn, Drafting.bind_ok] at h
    obtain ⟨e₁, d₁, he, h⟩ := h
    obtain ⟨rfl, rfl⟩ := Drafting.pure_ok.1 h
    exact .unary (liftIn_ok hlower e he)
  | .cast n e, d, d', e', h => by
    rw [liftIn, Drafting.bind_ok] at h
    obtain ⟨e₁, d₁, he, h⟩ := h
    obtain ⟨rfl, rfl⟩ := Drafting.pure_ok.1 h
    exact .cast (liftIn_ok hlower e he)
  | .localVar n v name, d, d', e', h => by
    by_cases hw : ∃ written o, sc.find (.localVar v) = some ⟨.declaration written, o⟩
    · obtain ⟨written, o, hw⟩ := hw
      simp only [liftIn_declared hw, Drafting.expect_bind, Drafting.bind_ok, Drafting.get_ok,
        Drafting.modify_ok, Drafting.pure_ok] at h
      obtain ⟨_, _, ⟨rfl, rfl⟩, init, d₁, hi, _, _, rfl, rfl, rfl⟩ := h
      exact .redeclare hw rfl (hlower _ _ _ _ _ _ hi)
    · exact lifts_of_crosses (Expr.crosses_localVar.2 hw) h
  | .param n i, d, d', e', h => lifts_of_crosses rfl h
  | .binary n op l r, d, d', e', h => lifts_of_crosses rfl h
  | .initList n items, d, d', e', h => lifts_of_crosses rfl h
  | .call n f args, d, d', e', h => lifts_of_crosses rfl h
  | .methodCall n m o args, d, d', e', h => lifts_of_crosses rfl h
  | .member n b f, d, d', e', h => lifts_of_crosses rfl h
  | .interface n r, d, d', e', h => lifts_of_crosses rfl h
  | .unsupported n w, d, d', e', h => lifts_of_crosses rfl h
theorem liftAllIn_ok (hlower : ∀ sc' hs e d e' d', lower sc' hs e d = .ok e' d' →
      Lifts stages s t sc' [e] d [e'] d') :
    ∀ (es : List Expr) {d d' : Draft} {es' : List Expr}, liftAllIn stages s t sc lower es
      d = .ok es' d' →
      Lifts stages s t sc es d es' d'
  | [], d, d', es', h => by
    rw [liftAllIn, Drafting.pure_ok] at h
    obtain ⟨rfl, rfl⟩ := h
    exact .nil
  | e :: es, d, d', es', h => by
    simp only [liftAllIn, Drafting.bind_ok, Drafting.pure_ok] at h
    obtain ⟨e₁, d₁, he, es₁, d₂, hes, rfl, rfl⟩ := h
    exact .cons (liftIn_ok hlower e he) (liftAllIn_ok hlower es hes)
end

theorem liftBelow_ok {n : Nat} : ∀ {sc : Scope} (hn : sc.length < n) {e e' : Expr} {d d' : Draft},
    (liftBelow stages s t n sc hn e : Drafting Expr) d = .ok e' d' →
    Lifts stages s t sc [e] d [e'] d' := by
  induction n with
  | zero => exact fun hn => absurd hn (Nat.not_lt_zero _)
  | succ n ih =>
    intro sc hn e e' d d' h
    rw [liftBelow] at h
    exact liftIn_ok (fun sc' hs e d e' d' hl => ih _ hl) e h

inductive Promotes (stages : StageSet) (sc : Scope) :
    Placement → Placement → Expr → Draft → Expr → Draft → Prop
  | keep {at_ wanted : Placement} {e : Expr} {d : Draft}
      (h : at_ = none ∨ wanted = none ∨ at_ = wanted) : Promotes stages sc at_ wanted e d e d
  | lift {s t : Stage} {e e' : Expr} {d d' : Draft} (hst : s < t)
      (h : Lifts stages s t sc [e] d [e'] d') : Promotes stages sc (some s) (some t) e d e' d'

theorem promote_ok {at_ wanted : Placement} {e e' : Expr} {d d' : Draft}
    (h : promote stages sc at_ wanted e d = .ok e' d') :
    Promotes stages sc at_ wanted e d e' d' := by
  unfold promote promoteM at h
  split at h
  · rename_i s t
    split at h
    · rename_i hst
      obtain ⟨rfl, rfl⟩ := Drafting.pure_ok.1 h
      exact .keep (.inr (.inr (congrArg some hst)))
    · rename_i hst
      split at h
      · simp [Drafting.throw_ok] at h
      · rename_i hlt
        have hidx : s.index ≠ t.index := fun hi => hst (Stage.index_injective hi)
        have hle : ¬ t.index < s.index := hlt
        exact .lift (show s.index < t.index by omega) (liftBelow_ok _ h)
  · rename_i hne
    obtain ⟨rfl, rfl⟩ := Drafting.pure_ok.1 h
    refine .keep ?_
    cases at_ with
    | none => exact .inl rfl
    | some s =>
      cases wanted with
      | none => exact .inr (.inl rfl)
      | some t => exact absurd rfl (hne s t rfl)

end Draft
end ShaderSplit
