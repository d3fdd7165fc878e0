import ShaderSplit.Syntax.Same

namespace ShaderSplit.Expr

universe u

/-- Induction over an expression; a list of arguments comes with the hypothesis for each of them. -/
@[elab_as_elim]
theorem ind {P : Expr → Prop}
    (literal : ∀ n v, P (literal n v))
    (constant : ∀ n v, P (constant n v))
    (param : ∀ n i, P (param n i))
    (localVar : ∀ n v name, P (localVar n v name))
    (binary : ∀ n op lhs rhs, P lhs → P rhs → P (binary n op lhs rhs))
    (unary : ∀ n op e, P e → P (unary n op e))
    (construct : ∀ n args, (∀ e ∈ args, P e) → P (construct n args))
    (cast : ∀ n e, P e → P (cast n e))
    (initList : ∀ n items, (∀ e ∈ items, P e) → P (initList n items))
    (call : ∀ n f args, (∀ e ∈ args, P e) → P (call n f args))
    (methodCall : ∀ n m object args, P object → (∀ e ∈ args, P e) → P (methodCall n m object args))
    (member : ∀ n base field, P base → P (member n base field))
    (interface : ∀ n r, P (interface n r))
    (unsupported : ∀ n what, P (unsupported n what)) (e : Expr) : P e :=
  @Expr.rec P (fun es => ∀ e ∈ es, P e) literal constant param localVar binary unary construct cast
    initList call methodCall member interface unsupported (by simp)
    (fun e es he hes => by simpa using ⟨he, hes⟩) e

mutual
@[simp] def subterms : Expr → List Expr
  | literal n v => [literal n v]
  | constant n v => [constant n v]
  | param n i => [param n i]
  | localVar n v name => [localVar n v name]
  | binary n op lhs rhs => binary n op lhs rhs :: (lhs.subterms ++ rhs.subterms)
  | unary n op e => unary n op e :: e.subterms
  | construct n args => construct n args :: subtermsOf args
  | cast n e => cast n e :: e.subterms
  | initList n items => initList n items :: subtermsOf items
  | call n f args => call n f args :: subtermsOf args
  | methodCall n m object args => methodCall n m object args :: (object.subterms ++ subtermsOf args)
  | member n base field => member n base field :: base.subterms
  | interface n r => [interface n r]
  | unsupported n what => [unsupported n what]
@[simp] def subtermsOf : List Expr → List Expr
  | [] => []
  | e :: es => e.subterms ++ subtermsOf es
end

theorem subtermsOf_eq (es : List Expr) : subtermsOf es = es.flatMap subterms := by
  induction es with
  | nil => rfl
  | cons e es ih => rw [subtermsOf, ih, List.flatMap_cons]

theorem localsOf_eq (es : List Expr) : localsOf es = es.flatMap locals := by
  induction es with
  | nil => rfl
  | cons e es ih => rw [localsOf, ih, List.flatMap_cons]

theorem self_mem_subterms (e : Expr) : e ∈ e.subterms := by
  cases e <;> simp [subterms]

theorem mem_subtermsOf {e : Expr} {es : List Expr} (h : e ∈ es) : e ∈ subtermsOf es := by
  rw [subtermsOf_eq]
  exact List.mem_flatMap.2 ⟨e, h, self_mem_subterms e⟩

theorem subterms_trans {x y z : Expr} (hxy : x ∈ y.subterms) (hyz : y ∈ z.subterms) :
    x ∈ z.subterms := by
  induction z using ind <;>
    simp only [subterms, subtermsOf_eq, List.mem_cons, List.mem_append, List.mem_flatMap,
      List.not_mem_nil, or_false] at hyz ⊢
  case literal | constant | param | localVar | interface | unsupported =>
    subst hyz
    simpa [subterms] using hxy
  case binary n op lhs rhs hl hr =>
    rcases hyz with rfl | h | h
    · simpa [subterms, subtermsOf_eq] using hxy
    · exact .inr (.inl (hl h))
    · exact .inr (.inr (hr h))
  case unary n op e he | cast n e he | member n e f he =>
    rcases hyz with rfl | h
    · simpa [subterms] using hxy
    · exact .inr (he h)
  case construct n es ih | initList n es ih | call n f es ih =>
    rcases hyz with rfl | ⟨e, hm, h⟩
    · simpa [subterms, subtermsOf_eq] using hxy
    · exact .inr ⟨e, hm, ih e hm h⟩
  case methodCall n m o es ho ih =>
    rcases hyz with rfl | h | ⟨e, hm, h⟩
    · simpa [subterms, subtermsOf_eq] using hxy
    · exact .inr (.inl (ho h))
    · exact .inr (.inr ⟨e, hm, ih e hm h⟩)

theorem mem_locals {e : Expr} {v : LocalId} :
    v ∈ e.locals ↔ ∃ n name, localVar n v name ∈ e.subterms := by
  induction e using ind <;>
    simp only [locals, localsOf_eq, subterms, subtermsOf_eq, List.mem_cons, List.mem_append,
      List.mem_flatMap, List.not_mem_nil, or_false, reduceCtorEq, false_or, exists_false] at *
  case localVar n w name =>
    simp [eq_comm]
  case binary n op lhs rhs hl hr =>
    rw [hl, hr]
    simp only [exists_or]
  case unary n op e he | cast n e he | member n e f he => exact he
  case construct n es ih | initList n es ih | call n f es ih =>
    constructor
    · rintro ⟨e, he, hv⟩
      obtain ⟨m, name, h⟩ := (ih e he).1 hv
      exact ⟨m, name, e, he, h⟩
    · rintro ⟨m, name, e, he, h⟩
      exact ⟨e, he, (ih e he).2 ⟨m, name, h⟩⟩
  case methodCall n m o es ho ih =>
    constructor
    · rintro (hv | ⟨e, he, hv⟩)
      · obtain ⟨k, name, h⟩ := ho.1 hv
        exact ⟨k, name, .inl h⟩
      · obtain ⟨k, name, h⟩ := (ih e he).1 hv
        exact ⟨k, name, .inr ⟨e, he, h⟩⟩
    · rintro ⟨k, name, h | ⟨e, he, h⟩⟩
      · exact .inl (ho.2 ⟨k, name, h⟩)
      · exact .inr ⟨e, he, (ih e he).2 ⟨k, name, h⟩⟩

def All (P : Expr → Prop) (e : Expr) : Prop := ∀ x ∈ e.subterms, P x

theorem All.self {P : Expr → Prop} {e : Expr} (h : e.All P) : P e := h e e.self_mem_subterms

theorem All.mono {P Q : Expr → Prop} {e : Expr} (h : e.All P) (hPQ : ∀ x, P x → Q x) : e.All Q :=
  fun x hx => hPQ x (h x hx)

section
variable {P : Expr → Prop}

@[simp] theorem all_literal {n : Node} {v : Literal} : (literal n v).All P ↔ P (literal n v) := by
  simp [All, subterms]

@[simp] theorem all_constant {n : Node} {v : ConstValue} :
    (constant n v).All P ↔ P (constant n v) := by
  simp [All, subterms]

@[simp] theorem all_param {n : Node} {i : Nat} : (param n i).All P ↔ P (param n i) := by
  simp [All, subterms]

@[simp] theorem all_localVar {n : Node} {v : LocalId} {name : String} :
    (localVar n v name).All P ↔ P (localVar n v name) := by
  simp [All, subterms]

@[simp] theorem all_interface {n : Node} {r : InterfaceRef} :
    (interface n r).All P ↔ P (interface n r) := by
  simp [All, subterms]

@[simp] theorem all_binary {n : Node} {op : BinaryOp} {lhs rhs : Expr} :
    (binary n op lhs rhs).All P ↔ P (binary n op lhs rhs) ∧ lhs.All P ∧ rhs.All P := by
  simp [All, subterms, or_imp, forall_and]

@[simp] theorem all_unary {n : Node} {op : UnaryOp} {e : Expr} :
    (unary n op e).All P ↔ P (unary n op e) ∧ e.All P := by
  simp [All, subterms, or_imp, forall_and]

@[simp] theorem all_cast {n : Node} {e : Expr} : (cast n e).All P ↔ P (cast n e) ∧ e.All P := by
  simp [All, subterms, or_imp, forall_and]

@[simp] theorem all_member {n : Node} {e : Expr} {f : String} :
    (member n e f).All P ↔ P (member n e f) ∧ e.All P := by
  simp [All, subterms, or_imp, forall_and]

theorem all_args {es : List Expr} : (∀ x ∈ subtermsOf es, P x) ↔ ∀ e ∈ es, e.All P := by
  rw [subtermsOf_eq]
  constructor
  · exact fun h e he x hx => h x (List.mem_flatMap.2 ⟨e, he, hx⟩)
  · intro h x hx
    obtain ⟨e, he, hxe⟩ := List.mem_flatMap.1 hx
    exact h e he x hxe

@[simp] theorem all_construct {n : Node} {es : List Expr} :
    (construct n es).All P ↔ P (construct n es) ∧ ∀ e ∈ es, e.All P := by
  rw [← all_args]
  simp [All, subterms]

@[simp] theorem all_initList {n : Node} {es : List Expr} :
    (initList n es).All P ↔ P (initList n es) ∧ ∀ e ∈ es, e.All P := by
  rw [← all_args]
  simp [All, subterms]

@[simp] theorem all_call {n : Node} {f : DeclId} {es : List Expr} :
    (call n f es).All P ↔ P (call n f es) ∧ ∀ e ∈ es, e.All P := by
  rw [← all_args]
  simp [All, subterms]

@[simp] theorem all_methodCall {n : Node} {m : DeclId} {o : Expr} {es : List Expr} :
    (methodCall n m o es).All P ↔ P (methodCall n m o es) ∧ o.All P ∧ ∀ e ∈ es, e.All P := by
  rw [← all_args]
  simp [All, subterms, or_imp, forall_and]

end

theorem map_allSame {α : Type u} {f : Expr → α} {es es' : List Expr}
    (ih : ∀ e ∈ es, ∀ {e'}, e.sameValue e' = true → f e = f e') (h : allSame es es' = true) :
    es.map f = es'.map f := by
  induction es generalizing es' with
  | nil =>
    cases es' with
    | nil => rfl
    | cons => simp [allSame] at h
  | cons e es ihes =>
    cases es' with
    | nil => simp [allSame] at h
    | cons e' es' =>
      rw [allSame, Bool.and_eq_true] at h
      rw [List.map_cons, List.map_cons, ih e (by simp) h.1,
        ihes (fun x hx => ih x (by simp [hx])) h.2]

end ShaderSplit.Expr
