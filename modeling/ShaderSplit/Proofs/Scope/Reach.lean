import ShaderSplit.Proofs.Syntax.Subterm
import ShaderSplit.Scope

namespace ShaderSplit

def Site.value : Site → Expr
  | declaration d => d.init
  | assignment e => e

def Step.exprs (s : Step) : List Expr :=
  match s.action with
  | .declare d => [d.init]
  | .run e => [e]
  | .skip => []

def Var.In : Var → Expr → Prop
  | param i, e => ∃ n, .param n i ∈ e.subterms
  | localVar v, e => v ∈ e.locals

theorem Var.In.mono {v : Var} {x e : Expr} (h : v.In x) (hx : x ∈ e.subterms) : v.In e := by
  cases v with
  | param i =>
    obtain ⟨n, hn⟩ := h
    exact ⟨n, Expr.subterms_trans hn hx⟩
  | localVar v =>
    obtain ⟨n, name, hn⟩ := Expr.mem_locals.1 h
    exact Expr.mem_locals.2 ⟨n, name, Expr.subterms_trans hn hx⟩

namespace Expr

def Writes (v : Var) (x : Expr) : Prop :=
  ∃ n op lhs rhs, x = binary n op lhs rhs ∧ op.isAssignment = true ∧ v.In lhs

theorem lastWriteOf_mem {v : Var} {under : Option Expr} {es : List Expr} {x : Expr}
    (h : lastWriteOf v under es = some x) : ∃ e ∈ es, e.lastWrite v under = some x := by
  induction es with
  | nil => simp [lastWriteOf] at h
  | cons e es ih =>
    rw [lastWriteOf] at h
    cases hs : lastWriteOf v under es with
    | none => exact ⟨e, by simp, by simpa [hs] using h⟩
    | some y =>
      rw [hs] at h
      obtain ⟨f, hf, hy⟩ := ih (by simpa [hs] using h)
      exact ⟨f, by simp [hf], hy⟩

/-- A write is the assignment given from outside, or one inside the expression. -/
def Holds (v : Var) (under : Option Expr) (x e : Expr) : Prop :=
  (under = some x ∧ v.In e) ∨ (x ∈ e.subterms ∧ Writes v x)

theorem Holds.mono {v : Var} {under : Option Expr} {x y e : Expr} (h : Holds v under x y)
    (hy : y ∈ e.subterms) : Holds v under x e :=
  h.imp (fun ⟨hu, hv⟩ => ⟨hu, hv.mono hy⟩) (fun ⟨hx, hw⟩ => ⟨subterms_trans hx hy, hw⟩)

theorem lastWrite_holds {v : Var} {under : Option Expr} {e x : Expr}
    (h : e.lastWrite v under = some x) : Holds v under x e := by
  induction e using ind generalizing under with
  | literal n l | constant n l | interface n r | unsupported n w => simp [lastWrite] at h
  | param n i =>
    rw [lastWrite] at h
    split at h
    · rename_i hv
      subst hv
      exact .inl ⟨h, n, by simp [subterms]⟩
    · simp at h
  | localVar n i name =>
    rw [lastWrite] at h
    split at h
    · rename_i hv
      subst hv
      exact .inl ⟨h, by simp [Var.In, locals]⟩
    · simp at h
  | binary n op lhs rhs hl hr =>
    have hlhs : lhs ∈ (binary n op lhs rhs).subterms := by simp [subterms, self_mem_subterms]
    have hrhs : rhs ∈ (binary n op lhs rhs).subterms := by simp [subterms, self_mem_subterms]
    rw [lastWrite] at h
    cases hs : rhs.lastWrite v under with
    | some y =>
      have hy : y = x := by simpa [hs] using h
      exact (hr (hy ▸ hs)).mono hrhs
    | none =>
      have hlw : lhs.lastWrite v (if op.isAssignment then some (binary n op lhs rhs) else under) =
            some x := by
        simpa [hs] using h
      -- The left side stands under this assignment, unless the operator is another one.
      by_cases ha : op.isAssignment = true
      · rw [if_pos ha] at hlw
        rcases hl hlw with ⟨hu, hv⟩ | ⟨hx, hw⟩
        · have hx : binary n op lhs rhs = x := by simpa using hu
          exact .inr ⟨hx ▸ self_mem_subterms _, n, op, lhs, rhs, hx.symm, ha, hv⟩
        · exact .inr ⟨subterms_trans hx hlhs, hw⟩
      · rw [if_neg ha] at hlw
        exact (hl hlw).mono hlhs
  | unary n op e he | cast n e he | member n e f he =>
    rw [lastWrite] at h
    exact (he h).mono (by simp [subterms, self_mem_subterms])
  | construct n es ih | initList n es ih | call n f es ih =>
    rw [lastWrite] at h
    obtain ⟨e, he, hx⟩ := lastWriteOf_mem h
    exact (ih e he hx).mono (by
      simp only [subterms, subtermsOf_eq, List.mem_cons, List.mem_flatMap]
      exact .inr ⟨e, he, self_mem_subterms e⟩)
  | methodCall n m o es ho ih =>
    rw [lastWrite] at h
    cases hs : lastWriteOf v under es with
    | some y =>
      have hy : y = x := by simpa [hs] using h
      obtain ⟨e, he, hx⟩ := lastWriteOf_mem hs
      exact (ih e he (hy ▸ hx)).mono (by
        simp only [subterms, subtermsOf_eq, List.mem_cons, List.mem_append, List.mem_flatMap]
        exact .inr (.inr ⟨e, he, self_mem_subterms e⟩))
    | none =>
      have hol : o.lastWrite v under = some x := by simpa [hs] using h
      exact (ho hol).mono (by simp [subterms, self_mem_subterms])

end Expr

theorem Step.lastWrite_cases {v : Var} {s : Step} {w : Write} (h : s.lastWrite v = some w) :
    w.step = s.id ∧
      ((∃ d, s.action = .declare d ∧ v = .localVar d.var ∧ w.site = .declaration d) ∨
        ∃ x, w.site = .assignment x ∧ x.Writes v ∧ ∃ e ∈ s.exprs, x ∈ e.subterms) := by
  have inside {e : Expr} {w : Write} (he : e ∈ s.exprs)
      (hw : (e.lastWrite v none).map (⟨.assignment ·, s.id⟩) = some w) :
      ∃ x, w.site = .assignment x ∧ x.Writes v ∧ ∃ e ∈ s.exprs, x ∈ e.subterms := by
    obtain ⟨x, hx, rfl⟩ := Option.map_eq_some_iff.1 hw
    rcases Expr.lastWrite_holds hx with ⟨hu, _⟩ | ⟨hm, hwr⟩
    · simp at hu
    · exact ⟨x, rfl, hwr, e, he, hm⟩
  refine ⟨Scope.lastWrite_step h, ?_⟩
  unfold Step.lastWrite at h
  split at h
  · rename_i d hd
    split at h
    · rename_i hv
      have hw : ⟨.declaration d, s.id⟩ = w := by simpa using h
      exact .inl ⟨d, hd, hv, by rw [← hw]⟩
    · exact .inr (inside (by simp [Step.exprs, hd]) h)
  · rename_i e he
    exact .inr (inside (by simp [Step.exprs, he]) h)
  · simp at h

namespace Scope

/-- Everything that is written in a scope, down to the smallest part. -/
def terms (sc : Scope) : List Expr := sc.flatMap fun s => s.exprs.flatMap Expr.subterms

theorem mem_terms {sc : Scope} {x : Expr} :
    x ∈ sc.terms ↔ ∃ s ∈ sc, ∃ e ∈ s.exprs, x ∈ e.subterms := by
  simp [terms]

theorem terms_trans {sc : Scope} {x y : Expr} (hx : x ∈ y.subterms) (hy : y ∈ sc.terms) :
    x ∈ sc.terms := by
  obtain ⟨s, hs, e, he, h⟩ := mem_terms.1 hy
  exact mem_terms.2 ⟨s, hs, e, he, Expr.subterms_trans hx h⟩

theorem parts_terms {sc : Scope} {y : Expr} {xs : List Expr} (hy : ∀ e ∈ [y], e ∈ sc.terms)
    (hxs : ∀ x ∈ xs, x ∈ y.subterms) : ∀ x ∈ xs, x ∈ sc.terms :=
  fun x hx => terms_trans (hxs x hx) (hy y (List.mem_singleton_self y))

theorem find_step_mem {v : Var} {sc : Scope} {w : Write} (h : find v sc = some w) :
    ∃ s ∈ sc, s.id = w.step := by
  obtain ⟨s, hs, hw⟩ := find_mem h
  exact ⟨s, hs, (lastWrite_step hw).symm⟩

theorem find_value_mem {v : Var} {sc : Scope} {w : Write} (h : find v sc = some w) :
    w.site.value ∈ sc.terms := by
  obtain ⟨s, hs, hw⟩ := find_mem h
  rcases (Step.lastWrite_cases hw).2 with ⟨d, hd, _, hsite⟩ | ⟨x, hsite, _, e, he, hx⟩
  · rw [hsite]
    exact mem_terms.2 ⟨s, hs, d.init, by simp [Step.exprs, hd], Expr.self_mem_subterms _⟩
  · rw [hsite]
    exact mem_terms.2 ⟨s, hs, e, he, hx⟩

theorem find_declaration_var {v : LocalId} {sc : Scope} {d : LocalDecl} {o : NodeId}
    (h : find (.localVar v) sc = some ⟨.declaration d, o⟩) : d.var = v := by
  obtain ⟨s, _, hw⟩ := find_mem h
  rcases (Step.lastWrite_cases hw).2 with ⟨d', _, hv, hsite⟩ | ⟨x, hsite, _⟩
  · have hd : d = d' := by simpa using hsite
    rw [hd]
    simpa using hv.symm
  · simp at hsite

theorem find_param_declaration {i : Nat} {sc : Scope} {d : LocalDecl} {o : NodeId} :
    find (.param i) sc ≠ some ⟨.declaration d, o⟩ := by
  intro h
  obtain ⟨s, _, hw⟩ := find_mem h
  rcases (Step.lastWrite_cases hw).2 with ⟨d', _, hv, _⟩ | ⟨x, hsite, _⟩
  · simp at hv
  · simp at hsite

theorem find_assignment_writes {v : Var} {sc : Scope} {x : Expr} {o : NodeId}
    (h : find v sc = some ⟨.assignment x, o⟩) : x.Writes v := by
  obtain ⟨s, _, hw⟩ := find_mem h
  rcases (Step.lastWrite_cases hw).2 with ⟨d, _, _, hsite⟩ | ⟨y, hsite, hy, _⟩
  · simp at hsite
  · have hxy : x = y := by simpa using hsite
    rw [hxy]
    exact hy

theorem upTo_subset {sc : Scope} {o : NodeId} {s : Step} (h : s ∈ sc.upTo o) : s ∈ sc :=
  (List.takeWhile_sublist _).subset h

theorem ne_of_mem_upTo {sc : Scope} {o : NodeId} {s : Step} (h : s ∈ sc.upTo o) : s.id ≠ o := by
  have hid : (s.id != o) = true := List.all_eq_true.1 List.all_takeWhile s h
  simpa using hid

theorem terms_upTo {sc : Scope} {o : NodeId} {x : Expr} (h : x ∈ (sc.upTo o).terms) :
    x ∈ sc.terms := by
  obtain ⟨s, hs, he⟩ := mem_terms.1 h
  exact mem_terms.2 ⟨s, upTo_subset hs, he⟩

theorem upTo_upTo {sc : Scope} {o x : NodeId} (h : ∃ s ∈ sc.upTo x, s.id = o) :
    (sc.upTo x).upTo o = sc.upTo o := by
  induction sc with
  | nil => rfl
  | cons t rest ih =>
    obtain ⟨s, hs, ho⟩ := h
    by_cases hx : t.id = x
    · simp [upTo, hx] at hs
    · by_cases hto : t.id = o
      · have hox : o ≠ x := hto ▸ hx
        simp [upTo, hto, hox]
      · have hs' : s ∈ upTo rest x := by
          have : s = t ∨ s ∈ upTo rest x := by simpa [upTo, hx] using hs
          rcases this with rfl | h
          · exact absurd ho hto
          · exact h
        have := ih ⟨s, hs', ho⟩
        simp only [upTo] at this ⊢
        simp [hx, hto, this]

/-- What is told by recursion on a bound for the length of a scope does not depend on the bound. -/
theorem below_eq {α : Type} {f : (sc : Scope) → ((s : Scope) → s.length < sc.length → α) → α}
    {g : (n : Nat) → (sc : Scope) → sc.length < n → α}
    (hg : ∀ n sc h, g (n + 1) sc h = f sc fun s hs => g n s (length_lt_of_lt hs h)) {n k : Nat} :
    ∀ {sc : Scope} (hn : sc.length < n) (hk : sc.length < k), g n sc hn = g k sc hk := by
  induction n generalizing k with
  | zero => exact fun hn => absurd hn (Nat.not_lt_zero _)
  | succ n ih =>
    intro sc hn hk
    cases k with
    | zero => exact absurd hk (Nat.not_lt_zero _)
    | succ k =>
      rw [hg, hg]
      congr 1
      funext s hs
      exact ih _ _

/-- The scope of a write does not depend on where it was found. -/
theorem before_upTo {v : Var} {sc : Scope} {x : NodeId} {w : Write}
    (h : find v (sc.upTo x) = some w) :
    (sc.upTo x).before w = sc.upTo w.step :=
  upTo_upTo (find_step_mem h)

theorem mem_insertId {i j : NodeId} {l : List NodeId} : j ∈ insertId i l ↔ j = i ∨ j ∈ l := by
  induction l with
  | nil => simp [insertId]
  | cons k l ih =>
    rw [insertId]
    split
    · simp
    · split
      · rename_i _ hik
        simp [hik]
      · rw [List.mem_cons, ih, List.mem_cons]
        exact or_left_comm

/-- A step reaches an expression if it holds the last write to one of its locals. -/
theorem mem_reaching {sc : Scope} {e : Expr} {o : NodeId} :
    o ∈ sc.reaching e ↔ ∃ v ∈ e.locals, ∃ w, find (.localVar v) sc = some w ∧ w.step = o := by
  have fold (l : List NodeId) : o ∈ l.foldr insertId [] ↔ o ∈ l := by
    induction l with
    | nil => rfl
    | cons k l ih => rw [List.foldr_cons, mem_insertId, ih, List.mem_cons]
  rw [reaching, fold, List.mem_filterMap]
  simp only [Option.map_eq_some_iff]

end Scope
end ShaderSplit
