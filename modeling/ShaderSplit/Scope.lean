import ShaderSplit.Syntax.Stmt

namespace ShaderSplit

inductive Var where
  | param (index : Nat)
  | localVar (id : LocalId)
  deriving DecidableEq, Repr

inductive Action where
  | declare (d : LocalDecl)
  | run (e : Expr)
  | skip

/-- One statement as it is passed. -/
structure Step where
  id : NodeId
  action : Action

mutual
def Stmt.steps : Stmt → List Step
  | .decl i _ v name ty (some e) => [⟨i, .declare ⟨v, name, ty, e⟩⟩]
  | .decl i _ _ _ _ none | .null i _ | .unsupported i .. => [⟨i, .skip⟩]
  | .expr i _ e => [⟨i, .run e⟩]
  | .block i _ body => ⟨i, .skip⟩ :: Stmt.stepsOf body
def Stmt.stepsOf : List Stmt → List Step
  | [] => []
  | s :: ss => s.steps ++ Stmt.stepsOf ss
end

namespace Expr

mutual
/-- The assignment that writes `v` last, left sides before right sides. `under` is the assignment
on whose left side the expression stands; any mention of `v` there is a write. -/
def lastWrite (v : Var) (under : Option Expr) : Expr → Option Expr
  | binary n op lhs rhs =>
    rhs.lastWrite v under <|>
      lhs.lastWrite v (if op.isAssignment then some (binary n op lhs rhs) else under)
  | param _ i => if v = .param i then under else none
  | localVar _ i _ => if v = .localVar i then under else none
  | unary _ _ e | cast _ e | member _ e _ => e.lastWrite v under
  | construct _ args | initList _ args | call _ _ args => lastWriteOf v under args
  | methodCall _ _ object args => lastWriteOf v under args <|> object.lastWrite v under
  | literal .. | constant .. | interface .. | unsupported .. => none
def lastWriteOf (v : Var) (under : Option Expr) : List Expr → Option Expr
  | [] => none
  | e :: es => lastWriteOf v under es <|> e.lastWrite v under
end

end Expr

inductive Site where
  | declaration (d : LocalDecl)
  | assignment (e : Expr)

structure Write where
  site : Site
  step : NodeId

/-- A declaration of `v` hides whatever its initializer writes. -/
def Step.lastWrite (v : Var) (s : Step) : Option Write :=
  match s.action with
  | .declare d =>
    if v = .localVar d.var then some ⟨.declaration d, s.id⟩
    else (d.init.lastWrite v none).map (⟨.assignment ·, s.id⟩)
  | .run e => (e.lastWrite v none).map (⟨.assignment ·, s.id⟩)
  | .skip => none

/-- Steps taken so far, the earliest first; blocks are entered in place. -/
abbrev Scope := List Step

namespace Scope

/-- The steps before the first one called `stop`. -/
def upTo (sc : Scope) (stop : NodeId) : Scope := sc.takeWhile (·.id != stop)

/-- The write to `v` that reaches the end of the scope. -/
def find (v : Var) : Scope → Option Write
  | [] => none
  | s :: rest => find v rest <|> s.lastWrite v

/-- What is visible to the written value itself. -/
def before (sc : Scope) (w : Write) : Scope := sc.upTo w.step

theorem lastWrite_step {v : Var} {s : Step} {w : Write} (h : s.lastWrite v = some w) :
    w.step = s.id := by
  unfold Step.lastWrite at h
  split at h
  · split at h
    · simp only [Option.some.injEq] at h; subst h; rfl
    · obtain ⟨e, _, rfl⟩ := Option.map_eq_some_iff.1 h; rfl
  · obtain ⟨e, _, rfl⟩ := Option.map_eq_some_iff.1 h; rfl
  · simp at h

theorem find_mem {v : Var} {sc : Scope} {w : Write} (h : find v sc = some w) :
    ∃ s ∈ sc, s.lastWrite v = some w := by
  induction sc with
  | nil => simp [find] at h
  | cons s rest ih =>
    rw [find] at h
    cases hr : find v rest with
    | none => exact ⟨s, by simp, by simpa [hr] using h⟩
    | some w' =>
      rw [hr] at h
      obtain ⟨t, ht, hw⟩ := ih (by simpa [hr] using h)
      exact ⟨t, by simp [ht], hw⟩

theorem length_upTo_lt {sc : Scope} {s : Step} (h : s ∈ sc) :
    (sc.upTo s.id).length < sc.length := by
  induction sc with
  | nil => simp at h
  | cons t rest ih =>
    simp only [Scope.upTo, List.takeWhile_cons]
    split
    · rename_i hne
      rcases List.mem_cons.1 h with rfl | hmem
      · simp at hne
      · have := ih hmem
        simp only [Scope.upTo] at this
        simpa using this
    · simp

theorem length_before_lt {v : Var} {sc : Scope} {w : Write} (h : find v sc = some w) :
    (sc.before w).length < sc.length := by
  obtain ⟨s, hs, hw⟩ := find_mem h
  rw [before, lastWrite_step hw]
  exact length_upTo_lt hs

theorem length_declared_lt {v : LocalId} {sc : Scope} {d : LocalDecl} {o : NodeId}
    (h : find (.localVar v) sc = some ⟨.declaration d, o⟩) :
    (sc.before ⟨.declaration d, o⟩).length < sc.length :=
  length_before_lt h

theorem length_assigned_lt {v : LocalId} {sc : Scope} {e : Expr} {o : NodeId}
    (h : find (.localVar v) sc = some ⟨.assignment e, o⟩) :
    (sc.before ⟨.assignment e, o⟩).length < sc.length :=
  length_before_lt h

theorem length_lt (sc : Scope) : sc.length < sc.length + 1 := Nat.lt_succ_self _

theorem not_length_lt_zero {sc : Scope} (h : sc.length < 0) : False := Nat.not_lt_zero _ h

theorem length_lt_of_lt {s sc : Scope} {n : Nat} (hs : s.length < sc.length)
    (h : sc.length < n + 1) : s.length < n :=
  Nat.lt_of_lt_of_le hs (Nat.le_of_lt_succ h)

def insertId (i : NodeId) : List NodeId → List NodeId
  | [] => [i]
  | j :: js => if i < j then i :: j :: js else if i = j then j :: js else j :: insertId i js

/-- Steps whose writes reach the locals of `e`, increasing. Where these differ, the same
expression is another value. -/
def reaching (sc : Scope) (e : Expr) : List NodeId :=
  (e.locals.filterMap fun v => (find (.localVar v) sc).map (·.step)).foldr insertId []

end Scope
end ShaderSplit
