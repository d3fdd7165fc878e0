import ShaderSplit.Proofs.Partition.Recursion

namespace ShaderSplit

namespace Expr

def at? (e : Expr) : List Nat → Option Expr
  | [] => some e
  | i :: p => e.operands[i]?.bind (at? · p)

/-- The same construct with other operands, if they are as many. -/
def withOperands : Expr → List Expr → Expr
  | binary n op _ _, [lhs, rhs] => binary n op lhs rhs
  | unary n op _, [e] => unary n op e
  | construct n _, args => construct n args
  | cast n _, [e] => cast n e
  | initList n _, items => initList n items
  | call n f _, args => call n f args
  | methodCall n m _ _, object :: args => methodCall n m object args
  | member n _ field, [e] => member n e field
  | e, _ => e

def replaceAt (e : Expr) (p : List Nat) (x : Expr) : Expr :=
  match p with
  | [] => x
  | i :: p => e.withOperands (e.operands.modify i fun y => y.replaceAt p x)

variable {e x : Expr} {i : Nat} {p : List Nat}

@[simp] theorem at?_nil : e.at? [] = some e := rfl

theorem at?_cons : e.at? (i :: p) = some x ↔ ∃ y, e.operands[i]? = some y ∧ y.at? p = some x := by
  rw [at?, Option.bind_eq_some_iff]

end Expr

namespace Stmt

def inner : Stmt → List Stmt
  | block _ _ body => body
  | decl .. | expr .. | null .. | unsupported .. => []

def at? (s : Stmt) : List Nat → Option Stmt
  | [] => some s
  | i :: p => s.inner[i]?.bind (at? · p)

def atOf? (body : List Stmt) : List Nat → Option Stmt
  | [] => none
  | i :: p => body[i]?.bind (at? · p)

mutual
/-- A statement and all within it, as they are passed, with their paths. -/
def places : Stmt → List (List Nat × Stmt)
  | block i span body => ([], block i span body) :: placesOf 0 body
  | decl i span v name ty init => [([], decl i span v name ty init)]
  | expr i span e => [([], expr i span e)]
  | null i span => [([], null i span)]
  | unsupported i span what => [([], unsupported i span what)]
/-- The same for statements that are counted from a number on. -/
def placesOf : Nat → List Stmt → List (List Nat × Stmt)
  | _, [] => []
  | i, s :: ss => s.places.map (fun x => (i :: x.1, x.2)) ++ placesOf (i + 1) ss
end

def step : Stmt → Step
  | decl i _ v name ty (some e) => ⟨i, .declare ⟨v, name, ty, e⟩⟩
  | decl i _ _ _ _ none | null i _ | unsupported i .. | block i .. => ⟨i, .skip⟩
  | expr i _ e => ⟨i, .run e⟩

theorem step_id (s : Stmt) : s.step.id = s.id := by
  unfold step
  split <;> rfl

theorem at?_eq_some {s t : Stmt} {p : List Nat} : s.at? p = some t ↔
    (p = [] ∧ t = s) ∨ ∃ j q, p = j :: q ∧ s.inner[j]?.bind (·.at? q) = some t := by
  cases p <;> simp [at?, eq_comm, and_assoc]

theorem at?_leaf {s t : Stmt} {p : List Nat} (hs : s.inner = []) :
    s.at? p = some t ↔ p = [] ∧ t = s := by
  rw [at?_eq_some, hs]
  simp

mutual
theorem mem_places {p : List Nat} {t : Stmt} : (s : Stmt) → ((p, t) ∈ s.places ↔ s.at? p = some t)
  | decl .. | expr .. | null .. | unsupported .. => by
    rw [places, List.mem_singleton, Prod.mk.injEq, at?_leaf rfl]
  | block i span body => by
    rw [places, List.mem_cons, Prod.mk.injEq, mem_placesOf body, at?_eq_some]
    simp only [Nat.zero_add, inner]
theorem mem_placesOf {p : List Nat} {t : Stmt} {i : Nat} : (ss : List Stmt) →
    ((p, t) ∈ placesOf i ss ↔ ∃ j q, p = (i + j) :: q ∧ ss[j]?.bind (·.at? q) = some t)
  | [] => by simp [placesOf]
  | s :: ss => by
    rw [placesOf, List.mem_append, mem_placesOf ss, List.mem_map]
    constructor
    · rintro (⟨⟨q, t⟩, hq, hp⟩ | ⟨j, q, rfl, ht⟩)
      · cases hp
        exact ⟨0, q, rfl, (mem_places s).1 hq⟩
      · exact ⟨j + 1, q, by rw [Nat.add_assoc, Nat.add_comm 1], ht⟩
    · rintro ⟨_ | j, q, rfl, ht⟩
      · exact .inl ⟨(q, t), (mem_places s).2 ht, rfl⟩
      · exact .inr ⟨j, q, by rw [Nat.add_assoc, Nat.add_comm 1], ht⟩
end

theorem mem_placesOf_zero {body : List Stmt} {p : List Nat} {t : Stmt} :
    (p, t) ∈ placesOf 0 body ↔ atOf? body p = some t := by
  rw [mem_placesOf]
  cases p <;> simp [atOf?, and_assoc]

mutual
theorem pairwise_places : (s : Stmt) → s.places.Pairwise fun x y => x.1 < y.1
  | decl .. | expr .. | null .. | unsupported .. => List.pairwise_singleton ..
  | block i span body => by
    refine List.pairwise_cons.2 ⟨fun ⟨p, t⟩ hp => ?_, pairwise_placesOf body⟩
    obtain ⟨j, q, rfl, -⟩ := (mem_placesOf body).1 hp
    exact List.nil_lt_cons ..
theorem pairwise_placesOf {i : Nat} :
    (ss : List Stmt) → (placesOf i ss).Pairwise fun x y => x.1 < y.1
  | [] => .nil
  | s :: ss => by
    refine List.pairwise_append.2 ⟨List.pairwise_map.2 ?_, pairwise_placesOf ss,
      fun x hx ⟨p, t⟩ hp => ?_⟩
    · exact (pairwise_places s).imp fun h => List.cons_lt_cons_iff.2 (.inr ⟨rfl, h⟩)
    · obtain ⟨x, -, rfl⟩ := List.mem_map.1 hx
      obtain ⟨j, q, rfl, -⟩ := (mem_placesOf ss).1 hp
      exact List.cons_lt_cons_iff.2 (.inl (by omega))
end

mutual
theorem steps_eq_places : (s : Stmt) → s.steps = s.places.map (·.2.step)
  | decl _ _ _ _ _ none | decl _ _ _ _ _ (some _) | expr .. | null .. | unsupported .. => rfl
  | block i span body => by rw [steps, places, List.map_cons, stepsOf_eq_places body]; rfl
theorem stepsOf_eq_places {i : Nat} : (ss : List Stmt) → stepsOf ss = (placesOf i ss).map (·.2.step)
  | [] => rfl
  | s :: ss => by
    rw [stepsOf, placesOf, List.map_append, List.map_map, steps_eq_places s, stepsOf_eq_places ss]
    rfl
end

end Stmt

end ShaderSplit
