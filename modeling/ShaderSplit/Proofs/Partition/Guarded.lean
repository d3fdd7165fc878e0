import ShaderSplit.Proofs.Interface.Acceptance
import ShaderSplit.Proofs.Partition.SamplerTable

namespace ShaderSplit

inductive Halt where
  | fault (e : TraceError)
  | breach (b : Breach)

/-- Steps that change a draft and stop at a breach. -/
abbrev Guarding := EStateM Halt Draft

def Drafting.unguarded {α : Type} (x : Drafting α) : Guarding α := fun d =>
  match x d with
  | .ok a d' => .ok a d'
  | .error e d' => .error (.fault e) d'

/-- A step that must not fail with certain faults. -/
def Guarding.barring {α : Type} (b : Breach) (bad : TraceFault → Bool) (x : Guarding α) :
    Guarding α := fun d =>
  match x d with
  | .ok a d' => .ok a d'
  | .error (.fault e) d' => .error (if bad e.fault then .breach b else .fault e) d'
  | .error (.breach b') d' => .error (.breach b') d'

instance : MonadExceptOf TraceError Guarding where
  throw e := throwThe Halt (.fault e)
  tryCatch x handle := tryCatchThe Halt x fun
    | .fault e => handle e
    | .breach b => throwThe Halt (.breach b)

instance : MonadLift Drafting Guarding := ⟨Drafting.unguarded⟩

instance : Guards Guarding where
  expect b c d := if c d then .ok () d else .error (.breach b) d
  bar := Guarding.barring

theorem Guarding.bind_get {α : Type} {f : Draft → Guarding α} {d : Draft} : (get >>= f) d = f d d :=
  rfl

/-- What the checks of a function have made sure of. -/
structure Pipeline.Vetted (p : Pipeline) : Prop where
  supported : ∀ x ∈ p.scope.terms, ∀ n what, x ≠ .unsupported n what
  valued : ∀ v, p.lacksValue v = false
  textured : ∀ (i : Nat) q, p.fn.params[i]? = some q → q.role.isTexture = true →
    ∃ x ∈ p.signature.textures, x.param = i

/-- The tracer, stopped at a breach. -/
def Guarded.traceOutputs (p : Pipeline) : Guarding Unit := p.traceOutputsM

namespace Drafting

variable {α β : Type} {E : TraceFault → Prop} {x : Drafting α}

/-- The step binds no texture, and fails only with faults of a kind. -/
def Regular (E : TraceFault → Prop) (x : Drafting α) : Prop :=
  ∀ d, match x d with
    | .ok _ d' => d'.textures.map (·.param) = d.textures.map (·.param)
    | .error e _ => E e.fault

theorem Regular.pure (a : α) : Regular E (pure a) := fun _ => rfl

theorem Regular.throw {e : TraceError} (h : E e.fault) : Regular E (throw e : Drafting α) :=
  fun _ => h

theorem Regular.modify {f : Draft → Draft}
    (h : ∀ d, (f d).textures.map (·.param) = d.textures.map (·.param)) : Regular E (modify f) :=
  fun d => h d

theorem Regular.bind {f : α → Drafting β} (h : Regular E x) (hf : ∀ a, Regular E (f a)) :
    Regular E (x >>= f) := by
  intro d
  have hx := h d
  change match EStateM.bind x f d with | .ok _ d' => _ | .error e _ => _
  unfold EStateM.bind
  cases hr : x d with
  | ok a d₁ =>
    rw [hr] at hx
    have hfa := hf a d₁
    dsimp only at hx hfa ⊢
    rw [← hx]
    exact hfa
  | error e d₁ =>
    rw [hr] at hx
    exact hx

theorem Regular.get_bind {f : Draft → Drafting β} (hf : ∀ d, Regular E (f d)) :
    Regular E (get >>= f) :=
  fun d => hf d d

end Drafting

namespace Draft

open Drafting

variable {E : TraceFault → Prop} {sc : Scope} {s t : Stage} {e : Expr}

theorem fresh_regular : Regular E fresh := fun _ => rfl

theorem endpoint_regular {side : Side} {k : Nat} : Regular E (endpoint s t side k e) :=
  .bind fresh_regular fun _ => .pure _

theorem produce_regular {k : Nat} {reaching : List NodeId} : Regular E (produce s t k e reaching) :=
  .bind endpoint_regular fun _ => .bind fresh_regular fun _ => .modify fun _ => rfl

theorem carry_regular (hE : ∀ s t, E (.noInterface s t)) : Regular E (carry sc s t e) := by
  refine .get_bind fun d => ?_
  split
  · exact .throw (hE _ _)
  · dsimp only
    refine .bind (.modify fun d => ?_) fun _ => ?_
    · rw [(setRecord_mute ..).textures]
    · split
      · exact .bind produce_regular fun _ => endpoint_regular
      · exact endpoint_regular

theorem relay_regular {hops : List Stage} (hE : ∀ s t, E (.noInterface s t)) :
    Regular E (relay sc s e hops) := by
  induction hops generalizing s e with
  | nil => exact .pure _
  | cons t rest ih => exact .bind (carry_regular hE) fun _ => ih

theorem transfer_regular {stages : StageSet} (hE : ∀ s t, E (.noInterface s t)) :
    Regular E (transfer stages sc s t e) := by
  unfold transfer
  split
  · exact carry_regular hE
  · dsimp only
    split
    · exact relay_regular hE
    · exact .throw (hE _ _)

end Draft

def TraceFault.Expected : TraceFault → Prop
  | unboundTexture => False
  | unsupported what => what = "InterfaceReference"
  | _ => True

namespace Aim

open Drafting

variable {a : Aim} {n : Node}

theorem checkValue_regular : Regular TraceFault.Expected (a.checkValue n) := by
  unfold checkValue
  split
  · exact .pure _
  · exact .throw trivial

theorem check_regular {α : Type} {m : Bool} {k : Drafting α} (h : Regular TraceFault.Expected k) :
    Regular TraceFault.Expected (if m = true then k else a.checkValue n >>= fun _ => k) := by
  split
  · exact h
  · exact .bind checkValue_regular fun _ => h

theorem visitParam_regular {m : Bool} {i : Nat} :
    Regular TraceFault.Expected (a.visitParam m n i) := by
  unfold visitParam
  cases a.pipeline.fn.params[i]? with
  | none => exact .throw trivial
  | some q =>
    refine check_regular ?_
    split
    · split
      · exact .bind (.throw trivial) fun _ => .pure _
      · exact .bind (.modify fun _ => rfl) fun _ => .pure _
    · exact .pure _

end Aim

/-- The guarded run ends as the run does: with the same result, or with the same fault, which is
one of a kind. -/
inductive Agree {α : Type} (E : TraceFault → Prop) (P : Draft → Prop) :
    EStateM.Result TraceError Draft α → EStateM.Result Halt Draft α → Prop
  | ok {a : α} {d : Draft} (h : P d) : Agree E P (.ok a d) (.ok a d)
  | error {e : TraceError} {d : Draft} (h : E e.fault) :
      Agree E P (.error e d) (.error (.fault e) d)

theorem Agree.bind {α β : Type} {E : TraceFault → Prop} {P Q : Draft → Prop} {x : Drafting α}
    {y : Guarding α} {f : α → Drafting β} {g : α → Guarding β} {d : Draft}
    (h : Agree E P (x d) (y d)) (hf : ∀ a d', x d = .ok a d' → P d' → Agree E Q (f a d') (g a d')) :
    Agree E Q ((x >>= f) d) ((y >>= g) d) := by
  change Agree E Q (EStateM.bind x f d) (EStateM.bind y g d)
  unfold EStateM.bind
  generalize x d = r at h hf ⊢
  generalize y d = r' at h ⊢
  cases h with
  | ok hP => exact hf _ _ rfl hP
  | error he => exact .error he

/-- Marked declarations are rebuilt, and the textures are the function's. -/
structure Draft.Safe (d : Draft) (p : Pipeline) (W : Marks) : Prop where
  level : Level p.scope W d d
  binds : d.Binds p

theorem Draft.Binds.safe {d : Draft} {p : Pipeline} (h : d.Binds p) : d.Safe p fun _ _ => False :=
  ⟨⟨.refl d, fun _ _ => False.elim⟩, h⟩

/-- On safe drafts the guarded computation agrees with the computation. -/
def Follows {α : Type} (p : Pipeline) (E : TraceFault → Prop) (W : Marks) (x : Drafting α)
    (y : Guarding α) : Prop :=
  ∀ d, d.Safe p W → Agree E (·.Binds p) (x d) (y d)

section

open Drafting

variable {α β : Type} {p : Pipeline} {E E' : TraceFault → Prop} {W : Marks} {x : Drafting α}
  {y : Guarding α}

theorem Follows.pure (a : α) : Follows p E W (pure a) (pure a) := fun _ hd => .ok hd.binds

theorem Follows.throw {e : TraceError} (h : E e.fault) :
    Follows p E W (throw e : Drafting α) (throwThe TraceError e) :=
  fun _ _ => .error h

theorem Follows.throw_bind {e : TraceError} (h : E e.fault) {f : α → Drafting β}
    {g : α → Guarding β} :
    Follows p E W (MonadExcept.throw e >>= f) (throwThe TraceError e >>= g) :=
  fun _ _ => .error h

theorem Follows.weaken (h : Follows p E W x y) (hE : ∀ f, E f → E' f) : Follows p E' W x y := by
  intro d hd
  have hxy := h d hd
  generalize x d = r at hxy ⊢
  generalize y d = r' at hxy ⊢
  cases hxy with
  | ok hb => exact .ok hb
  | error he => exact .error (hE _ he)

theorem Follows.unguarded (h : Regular E x) : Follows p E W x x.unguarded := by
  intro d hd
  have hx := h d
  unfold Drafting.unguarded
  cases hr : x d with
  | ok a d' =>
    rw [hr] at hx
    exact .ok (hx.trans hd.binds)
  | error e d' =>
    rw [hr] at hx
    exact .error hx

theorem Follows.expect {b : Breach} {c : Draft → Bool} {k : Drafting α} {k' : Guarding α}
    (h : ∀ d, d.Safe p W → c d = true) (hk : Follows p E W k k') :
    Follows p E W (Guards.expect b c >>= fun _ => k) (Guards.expect b c >>= fun _ => k') := by
  intro d hd
  have hpass : (Guards.expect b c : Guarding Unit) d = .ok () d := if_pos (h d hd)
  change Agree E _ (k d) (EStateM.bind _ _ d)
  unfold EStateM.bind
  rw [hpass]
  exact hk d hd

theorem Follows.bar {b : Breach} {bad : TraceFault → Bool} (h : Follows p E W x y)
    (hE : ∀ f, E f → bad f = false) :
    Follows p E W (Guards.bar b bad x) (Guards.bar b bad y) := by
  intro d hd
  have hxy := h d hd
  change Agree E _ (x d) (Guarding.barring b bad y d)
  unfold Guarding.barring
  generalize x d = r at hxy ⊢
  generalize y d = r' at hxy ⊢
  cases hxy with
  | ok hb => exact .ok hb
  | error he =>
    dsimp only
    rw [hE _ he]
    exact .error he

/-- The first part marks what the second may use. -/
theorem Follows.bind {R : Marks → α → α → Prop} {f : α → Drafting β} {g : α → Guarding β}
    (h : Follows p E W x y) (hx : InStep p.scope W R x x)
    (hf : ∀ W' a, W ≤ W' → R W' a a → Follows p E W' (f a) (g a)) :
    Follows p E W (x >>= f) (y >>= g) := by
  intro d hd
  refine (h d hd).bind fun a d' hok hb => ?_
  -- the run beside itself tells which marks it leaves
  have hstep := hx d d hd.level
  rw [hok] at hstep
  cases hstep with
  | ok hstep =>
    obtain ⟨W', hW, hlevel, hr⟩ := hstep
    exact hf W' a hW hr d' ⟨hlevel, hb⟩

theorem Follows.seq {f : α → Drafting β} {g : α → Guarding β}
    (h : Follows p E (fun _ _ => False) x y)
    (hf : ∀ a, Follows p E (fun _ _ => False) (f a) (g a)) :
    Follows p E (fun _ _ => False) (x >>= f) (y >>= g) :=
  fun d hd => (h d hd).bind fun a d' _ hb => hf a d' hb.safe

/-- What is only put together at the end needs no marks. -/
theorem Follows.bind_pure (h : Follows p E W x y) (f : α → β) :
    Follows p E W (do return f (← x)) (do return f (← y)) :=
  fun d hd => (h d hd).bind fun _ _ _ hb => .ok hb

theorem Follows.change {f : Draft → Draft}
    (h : ∀ d, (f d).textures.map (·.param) = d.textures.map (·.param)) :
    Follows p E W (modify f) (modify f) :=
  fun d hd => .ok ((h d).trans hd.binds)

theorem Follows.change_pure {f : Draft → Draft}
    (h : ∀ d, (f d).textures.map (·.param) = d.textures.map (·.param)) (a : α) :
    Follows p E W (do modify f; return a) (do modify f; return a) :=
  fun d hd => .ok ((h d).trans hd.binds)

end

end ShaderSplit
