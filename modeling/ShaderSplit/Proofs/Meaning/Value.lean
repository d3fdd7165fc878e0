import ShaderSplit.Proofs.Syntax.Subterm
import ShaderSplit.Scope

namespace ShaderSplit

universe u

/-- What the operations do with values of type `V`. Each is told the type of its result. -/
structure Interp (V : Type u) where
  literal : Ty → Literal → V
  constant : Ty → ConstValue → V
  /-- Operators; for a compound assignment, the value to be assigned. -/
  binary : Ty → BinaryOp → V → V → V
  unary : Ty → UnaryOp → V → V
  construct : Ty → List V → V
  cast : Ty → V → V
  initList : Ty → List V → V
  call : Ty → DeclId → List V → V
  /-- Texture samples and swizzles. -/
  method : Ty → DeclId → V → List V → V
  member : Ty → String → V → V
  setMember : Ty → String → V → V → V
  setSwizzle : Ty → DeclId → V → V → V

/-- What holds a value: a variable, or a field on its way between two stages. -/
inductive Cell where
  | var (v : Var)
  | field (source dest : Stage) (index : Nat)
  deriving DecidableEq

abbrev Memory (V : Type u) := Cell → Option V

/-- Whatever is defined in `m` has that value in `m'`. -/
def Memory.Below {V : Type u} (m m' : Memory V) : Prop := ∀ c y, m c = some y → m' c = some y

theorem Memory.Below.refl {V : Type u} (m : Memory V) : m.Below m := fun _ _ h => h

theorem Memory.Below.trans {V : Type u} {m₁ m₂ m₃ : Memory V} (h : m₁.Below m₂) (k : m₂.Below m₃) :
    m₁.Below m₃ :=
  fun c y hy => k c y (h c y hy)

namespace ConstValue

mutual
theorem eq_of_same : ∀ {v w : ConstValue}, v.same w = true → v = w
  | .int _, .int _, h | .float _, .float _, h | .bool _, .bool _,
  h => by simpa [ConstValue.same] using h
  | .aggregate vs, .aggregate ws, h => by
    rw [ConstValue.same] at h
    rw [eq_of_allSame h]
theorem eq_of_allSame : ∀ {vs ws : List ConstValue}, ConstValue.allSame vs ws = true → vs = ws
  | [], [], _ => rfl
  | v :: vs, w :: ws, h => by
    rw [ConstValue.allSame, Bool.and_eq_true] at h
    rw [eq_of_same h.1, eq_of_allSame h.2]
end

end ConstValue

namespace Expr

variable {V : Type u} (I : Interp V) (m : Memory V)

mutual
/-- What reads an undefined cell has no value, and neither has an assignment inside another
expression. -/
@[simp] def eval : Expr → Option V
  | literal n v => some (I.literal n.ty v)
  | constant n v => some (I.constant n.ty v)
  | param _ i => m (.var (.param i))
  | localVar _ v _ => m (.var (.localVar v))
  | binary n op lhs rhs =>
    if op.isAssignment then none else (eval lhs).bind fun x => (eval rhs).map (I.binary n.ty op x)
  | unary n op e => (eval e).map (I.unary n.ty op)
  | construct n args => (evalAll args).map (I.construct n.ty)
  | cast n e => (eval e).map (I.cast n.ty)
  | initList n items => (evalAll items).map (I.initList n.ty)
  | call n f args => (evalAll args).map (I.call n.ty f)
  | methodCall n f object args => (eval object).bind fun x => (evalAll args).map (I.method n.ty f x)
  | member n base field => (eval base).map (I.member n.ty field)
  | interface _ r => if r.side = .consumer then m (.field r.source r.dest r.field) else none
  | unsupported .. => none
@[simp] def evalAll : List Expr → Option (List V)
  | [] => some []
  | e :: es => (eval e).bind fun x => (evalAll es).map (x :: ·)
end

variable {I m} {m' : Memory V}

theorem evalAll_congr {es es' : List Expr} (h : es.map (eval I m) = es'.map (eval I m')) :
    evalAll I m es = evalAll I m' es' := by
  induction es generalizing es' with
  | nil =>
    obtain rfl := List.map_eq_nil_iff.1 h.symm
    rfl
  | cons e es ih =>
    obtain ⟨e', es', rfl, he, hes⟩ := List.map_eq_cons_iff.1 h.symm
    rw [evalAll, evalAll, ih hes.symm, he]

theorem evalAll_isSome {es : List Expr} :
    (evalAll I m es).isSome = true ↔ ∀ e ∈ es, (eval I m e).isSome = true := by
  induction es with
  | nil => simp
  | cons e es ih =>
    rw [evalAll, List.forall_mem_cons, ← ih]
    cases eval I m e <;> simp

/-- The cell that an expression reads by itself. -/
def cell : Expr → Option Cell
  | param _ i => some (.var (.param i))
  | localVar _ v _ => some (.var (.localVar v))
  | interface _ r => if r.side = .consumer then some (.field r.source r.dest r.field) else none
  | _ => none

def Copied (m m' : Memory V) (x : Expr) : Prop :=
  ∀ c, x.cell = some c → ∀ y, m c = some y → m' c = some y

/-- A value is kept in a memory that has all that was read. -/
theorem eval_mono {e : Expr} {y : V} (h : e.All (Copied m m')) (he : e.eval I m = some y) :
    e.eval I m' = some y := by
  have args {es : List Expr} {ys : List V}
      (ih : ∀ e ∈ es, ∀ {y}, e.All (Copied m m') → e.eval I m = some y → e.eval I m' = some y)
      (h : ∀ e ∈ es, e.All (Copied m m')) (hes : evalAll I m es = some ys) :
      evalAll I m' es = some ys := by
    have hsome := evalAll_isSome.1 (Option.isSome_of_mem hes)
    rw [← hes]
    refine evalAll_congr (List.map_congr_left fun e he => ?_)
    obtain ⟨y, hy⟩ := Option.isSome_iff_exists.1 (hsome e he)
    rw [ih e he (h e he) hy, hy]
  induction e using ind generalizing y with
  | literal | constant | unsupported => exact he
  | param n i => exact h.self _ rfl y he
  | localVar n v name => exact h.self _ rfl y he
  | interface n r =>
    rw [eval] at he ⊢
    split at he
    · rename_i hr
      rw [if_pos hr]
      exact h.self _ (if_pos hr) y he
    · cases he
  | binary n op lhs rhs ihl ihr =>
    rw [eval] at he ⊢
    obtain ⟨-, hl, hr⟩ := all_binary.1 h
    split at he
    · cases he
    · rename_i hop
      obtain ⟨x, hx, he⟩ := Option.bind_eq_some_iff.1 he
      obtain ⟨z, hz, rfl⟩ := Option.map_eq_some_iff.1 he
      rw [if_neg hop, ihl hl hx, ihr hr hz]
      rfl
  | unary n op e ih =>
    obtain ⟨x, hx, rfl⟩ := Option.map_eq_some_iff.1 he
    rw [eval, ih (all_unary.1 h).2 hx, Option.map_some]
  | cast n e ih =>
    obtain ⟨x, hx, rfl⟩ := Option.map_eq_some_iff.1 he
    rw [eval, ih (all_cast.1 h).2 hx, Option.map_some]
  | member n e f ih =>
    obtain ⟨x, hx, rfl⟩ := Option.map_eq_some_iff.1 he
    rw [eval, ih (all_member.1 h).2 hx, Option.map_some]
  | construct n es ih =>
    obtain ⟨ys, hys, rfl⟩ := Option.map_eq_some_iff.1 he
    rw [eval, args ih (all_construct.1 h).2 hys, Option.map_some]
  | initList n es ih =>
    obtain ⟨ys, hys, rfl⟩ := Option.map_eq_some_iff.1 he
    rw [eval, args ih (all_initList.1 h).2 hys, Option.map_some]
  | call n f es ih =>
    obtain ⟨ys, hys, rfl⟩ := Option.map_eq_some_iff.1 he
    rw [eval, args ih (all_call.1 h).2 hys, Option.map_some]
  | methodCall n f o es iho ih =>
    obtain ⟨-, ho, hes⟩ := all_methodCall.1 h
    obtain ⟨x, hx, he⟩ := Option.bind_eq_some_iff.1 he
    obtain ⟨ys, hys, rfl⟩ := Option.map_eq_some_iff.1 he
    rw [eval, iho ho hx, args ih hes hys]
    rfl

theorem eval_congr {e : Expr} (h : e.All fun x => ∀ c, x.cell = some c → m c = m' c) :
    e.eval I m = e.eval I m' := by
  have hle : e.All (Copied m m') := h.mono fun x hx c hc y hy => (hx c hc).symm.trans hy
  have hge : e.All (Copied m' m) := h.mono fun x hx c hc y hy => (hx c hc).trans hy
  exact Option.ext fun y => ⟨eval_mono hle, eval_mono hge⟩

theorem eval_below {e : Expr} {y : V} (h : m.Below m') (he : e.eval I m = some y) :
    e.eval I m' = some y :=
  eval_mono (fun _ _ c _ y => h c y) he

/-- Reads nothing undefined by itself, and is supported. -/
def Defined (m : Memory V) : Expr → Prop
  | binary _ op _ _ => op.isAssignment = false
  | param _ i => ∃ y, m (.var (.param i)) = some y
  | localVar _ v _ => ∃ y, m (.var (.localVar v)) = some y
  | interface .. | unsupported .. => False
  | _ => True

theorem eval_defined {e : Expr} (h : e.All (Defined m)) : ∃ y, e.eval I m = some y := by
  have args {es : List Expr} (ih : ∀ e ∈ es, e.All (Defined m) → ∃ y, e.eval I m = some y)
      (h : ∀ e ∈ es, e.All (Defined m)) : ∃ ys, evalAll I m es = some ys := by
    refine Option.isSome_iff_exists.1 (evalAll_isSome.2 fun e he => ?_)
    exact Option.isSome_iff_exists.2 (ih e he (h e he))
  induction e using ind with
  | literal | constant => exact ⟨_, rfl⟩
  | unsupported | interface => exact h.self.elim
  | param n i => exact h.self
  | localVar n v name => exact h.self
  | binary n op lhs rhs ihl ihr =>
    obtain ⟨hop, hl, hr⟩ := all_binary.1 h
    obtain ⟨x, hx⟩ := ihl hl
    obtain ⟨y, hy⟩ := ihr hr
    have hop : op.isAssignment = false := hop
    exact ⟨_, by rw [eval, hop, hx, hy]; rfl⟩
  | unary n op e ih =>
    obtain ⟨y, hy⟩ := ih (all_unary.1 h).2
    exact ⟨_, by rw [eval, hy]; rfl⟩
  | cast n e ih =>
    obtain ⟨y, hy⟩ := ih (all_cast.1 h).2
    exact ⟨_, by rw [eval, hy]; rfl⟩
  | member n e f ih =>
    obtain ⟨y, hy⟩ := ih (all_member.1 h).2
    exact ⟨_, by rw [eval, hy]; rfl⟩
  | construct n es ih =>
    obtain ⟨ys, hys⟩ := args ih (all_construct.1 h).2
    exact ⟨_, by rw [eval, hys]; rfl⟩
  | initList n es ih =>
    obtain ⟨ys, hys⟩ := args ih (all_initList.1 h).2
    exact ⟨_, by rw [eval, hys]; rfl⟩
  | call n f es ih =>
    obtain ⟨ys, hys⟩ := args ih (all_call.1 h).2
    exact ⟨_, by rw [eval, hys]; rfl⟩
  | methodCall n f o es iho ih =>
    obtain ⟨-, ho, hes⟩ := all_methodCall.1 h
    obtain ⟨x, hx⟩ := iho ho
    obtain ⟨ys, hys⟩ := args ih hes
    exact ⟨_, by rw [eval, hx, hys]; rfl⟩

theorem evalAll_cons {e : Expr} {es : List Expr} {y : V} {ys : List V} :
    evalAll I m (e :: es) = some (y :: ys) ↔ e.eval I m = some y ∧ evalAll I m es = some ys := by
  rw [evalAll]
  cases e.eval I m <;> cases evalAll I m es <;> simp

theorem evalAll_one {e : Expr} {ys : List V} :
    evalAll I m [e] = some ys ↔ ∃ y, ys = [y] ∧ e.eval I m = some y := by
  cases h : e.eval I m <;> simp [h, eq_comm]

theorem evalAll_below {es : List Expr} {ys : List V} (h : m.Below m')
    (hes : evalAll I m es = some ys) : evalAll I m' es = some ys := by
  induction es generalizing ys with
  | nil => exact hes
  | cons e es ih =>
    obtain ⟨y, hy, hes⟩ := Option.bind_eq_some_iff.1 hes
    obtain ⟨zs, hzs, rfl⟩ := Option.map_eq_some_iff.1 hes
    exact evalAll_cons.2 ⟨eval_below h hy, ih hzs⟩

theorem eval_sameValue {e e' : Expr} (h : e.sameValue e' = true) : e.eval I m = e'.eval I m := by
  induction e using ind generalizing e' <;> cases e' <;>
    simp only [sameValue, Bool.and_eq_true, beq_iff_eq] at h
  case literal.literal | param.param | localVar.localVar | interface.interface => simp [h]
  case constant.constant => simp [h.1, ConstValue.eq_of_same h.2]
  case binary.binary ihl ihr _ _ _ _ => simp [h, ihl h.1.2, ihr h.2]
  case unary.unary ih _ _ _ => simp [h, ih h.2]
  case cast.cast ih _ _ => simp [h, ih h.2]
  case member.member ih _ _ _ => simp [h, ih h.2]
  case construct.construct ih _ _ | initList.initList ih _ _ =>
    simp [h, evalAll_congr (map_allSame ih h.2)]
  case call.call ih _ _ _ => simp [h, evalAll_congr (map_allSame ih h.2)]
  case methodCall.methodCall iho ih _ _ _ _ =>
    simp [h, iho h.1.2, evalAll_congr (map_allSame ih h.2)]
  all_goals exact absurd h (by simp)

end Expr
end ShaderSplit
