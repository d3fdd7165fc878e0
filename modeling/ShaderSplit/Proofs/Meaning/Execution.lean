import ShaderSplit.Proofs.Meaning.Run

namespace ShaderSplit

universe u

variable {V : Type u} (I : Interp V)

namespace Expr

/-- What a left side names after the assignments in it have been carried out. -/
def named : Expr → Expr
  | binary n op lhs rhs => if op.isAssignment then lhs.named else binary n op lhs rhs
  | member n e f => member n e.named f
  | methodCall n f e [] => methodCall n f e.named []
  | e => e

/-- The memory after `y` was assigned to a left side. What names no variable holds nothing. -/
def store (m : Memory V) (lhs : Expr) (y : Option V) : Memory V :=
  match lhs.named.root with
  | some (.var v) => Function.update m (.var v) (y.bind (lhs.named.stored I m))
  | _ => m

def combine (n : Node) (op : BinaryOp) (x y : Option V) : Option V :=
  x.bind fun x => y.map (I.binary n.ty op x)

section
variable (skips : BinaryOp → V → Bool)

mutual
/-- The value of an expression and the memory after it. Assignments are carried out where they
stand, right sides before left sides. An operator may skip what its right side does, as a
conjunction does once its left side is false. -/
def perform : Expr → Memory V → Option V × Memory V
  | literal n v, m => (some (I.literal n.ty v), m)
  | constant n v, m => (some (I.constant n.ty v), m)
  | param _ i, m => (m (.var (.param i)), m)
  | localVar _ v _, m => (m (.var (.localVar v)), m)
  | binary n op lhs rhs, m =>
    if op.isAssignment then
      let r := perform rhs m
      let l := perform lhs r.2
      let y := if op = .assign then r.1 else combine I n op l.1 r.1
      (y, store I l.2 lhs y)
    else
      let l := perform lhs m
      let r := perform rhs l.2
      (combine I n op l.1 r.1, if l.1.any (skips op) then l.2 else r.2)
  | unary n op e, m => ((perform e m).1.map (I.unary n.ty op), (perform e m).2)
  | construct n args, m => ((performAll args m).1.map (I.construct n.ty), (performAll args m).2)
  | cast n e, m => ((perform e m).1.map (I.cast n.ty), (perform e m).2)
  | initList n items, m => ((performAll items m).1.map (I.initList n.ty), (performAll items m).2)
  | call n f args, m => ((performAll args m).1.map (I.call n.ty f), (performAll args m).2)
  | methodCall n f object args, m =>
    let o := perform object m
    let r := performAll args o.2
    (o.1.bind fun x => r.1.map (I.method n.ty f x), r.2)
  | member n base field, m => ((perform base m).1.map (I.member n.ty field), (perform base m).2)
  | interface _ r, m => (if r.side = .consumer then m (.field r.source r.dest r.field) else none, m)
  | unsupported .., m => (none, m)
def performAll : List Expr → Memory V → Option (List V) × Memory V
  | [], m => (some [], m)
  | e :: es, m =>
    let x := perform e m
    let xs := performAll es x.2
    (x.1.bind fun x => xs.1.map (x :: ·), xs.2)
end

end

/-- An assignment to `v`, or to a part of it. -/
def Assigns (v : Var) : Expr → Prop
  | binary _ op lhs _ => op.isAssignment = true ∧ lhs.named.root = some (.var v)
  | _ => False

instance (v : Var) : DecidablePred (Assigns v)
  | binary .. => inferInstanceAs (Decidable (_ ∧ _))
  | literal .. | constant .. | param .. | localVar .. | unary .. | construct .. | cast ..
  | initList .. | call ..
  | methodCall .. | member .. | interface .. | unsupported .. => isFalse id

def isAssignment : Expr → Bool
  | binary _ op _ _ => op.isAssignment
  | _ => false

def AssignmentFree (e : Expr) : Prop := e.All fun x => x.isAssignment = false

instance (e : Expr) : Decidable e.AssignmentFree :=
  inferInstanceAs (Decidable (∀ x ∈ e.subterms, x.isAssignment = false))

end Expr

def Step.perform (skips : BinaryOp → V → Bool) (m : Memory V) (s : Step) : Memory V :=
  match s.action with
  | .declare d =>
    Function.update (d.init.perform I skips m).2 (.var (.localVar d.var))
      (d.init.perform I skips m).1
  | .run e => (e.perform I skips m).2
  | .skip => m

def Scope.perform (skips : BinaryOp → V → Bool) (sc : Scope) (m : Memory V) : Memory V :=
  sc.foldl (Step.perform I skips) m

variable {I} {skips : BinaryOp → V → Bool}

namespace Expr

variable {m : Memory V} {c : Cell} {v : Var}

theorem AssignmentFree.mono {e x : Expr} (h : e.AssignmentFree) (hx : x ∈ e.subterms) :
    x.AssignmentFree :=
  fun y hy => h y (subterms_trans hy hx)

/-- An expression without assignments changes nothing and has the value that it has by itself. -/
theorem perform_assignmentFree {e : Expr} (h : e.AssignmentFree) :
    e.perform I skips m = (e.eval I m, m) := by
  have args {es : List Expr}
      (ih : ∀ e ∈ es, e.AssignmentFree → e.perform I skips m = (e.eval I m, m))
      (h : ∀ e ∈ es, e.AssignmentFree) : performAll I skips es m = (evalAll I m es, m) := by
    induction es with
    | nil => rw [performAll, evalAll]
    | cons e es ihs =>
      rw [performAll, ih e (by simp) (h e (by simp)), evalAll]
      dsimp only
      rw [ihs (fun x hx => ih x (by simp [hx])) fun x hx => h x (by simp [hx])]
  induction e using ind with
  | literal | constant | param | localVar | interface | unsupported => rw [perform, eval]
  | binary n op lhs rhs ihl ihr =>
    have hop : op.isAssignment = false := h _ (self_mem_subterms _)
    rw [perform, ihl (h.mono (by simp [self_mem_subterms])), eval]
    dsimp only
    rw [ihr (h.mono (by simp [self_mem_subterms]))]
    simp [hop, combine]
  | unary n op e ih | cast n e ih | member n e f ih =>
    rw [perform, ih (h.mono (by simp [self_mem_subterms])), eval]
  | construct n es ih | initList n es ih | call n f es ih =>
    rw [perform, args ih fun e he => h.mono (by simp [mem_subtermsOf he]), eval]
  | methodCall n f o es iho ih =>
    rw [perform, iho (h.mono (by simp [self_mem_subterms])), eval]
    dsimp only
    rw [args ih fun e he => h.mono (by simp [mem_subtermsOf he])]

theorem AssignmentFree.named {e : Expr} (h : e.AssignmentFree) : e.named = e := by
  fun_induction Expr.named e with
  | case1 n op lhs rhs hop =>
    have hfree : op.isAssignment = false := h _ (self_mem_subterms _)
    exact absurd hop (by simp [hfree])
  | case2 | case5 => rfl
  | case3 n e f ih | case4 n f e ih => rw [ih (h.mono (by simp [self_mem_subterms]))]

theorem store_frame {lhs : Expr} {y : Option V}
    (h : ∀ v, lhs.named.root = some (.var v) → c ≠ .var v) : store I m lhs y c = m c := by
  cases hroot : lhs.named.root with
  | none => simp only [store, hroot]
  | some target =>
    cases target with
    | var v =>
      simp only [store, hroot]
      exact Function.update_of_ne (h v hroot) _ _
    | field => simp only [store, hroot]

/-- A cell that is assigned nowhere in an expression is left as it is. -/
theorem perform_frame {e : Expr} (h : e.All fun x => ∀ v, x.Assigns v → c ≠ .var v) :
    (e.perform I skips m).2 c = m c := by
  have args {es : List Expr} (h : ∀ e ∈ es, ∀ {m : Memory V}, (e.perform I skips m).2 c = m c)
      {m : Memory V} :
      (performAll I skips es m).2 c = m c := by
    induction es generalizing m with
    | nil => rw [performAll]
    | cons e es ihs =>
      rw [performAll]
      exact (ihs fun x hx => h x (by simp [hx])).trans (h e (by simp))
  induction e using ind generalizing m with
  | literal | constant | param | localVar | interface | unsupported => rw [perform]
  | binary n op lhs rhs ihl ihr =>
    obtain ⟨hself, hl, hr⟩ := all_binary.1 h
    rw [perform]
    split
    · rename_i hop
      have hstore : ∀ v, lhs.named.root = some (.var v) → c ≠ .var v :=
        fun v hv => hself v ⟨hop, hv⟩
      -- the right side runs first, then the left side, then the store
      exact (store_frame hstore).trans ((ihl hl).trans (ihr hr))
    · dsimp only
      split
      · exact ihl hl
      · exact (ihr hr).trans (ihl hl)
  | unary n op e ih =>
    rw [perform]
    exact ih (all_unary.1 h).2
  | cast n e ih =>
    rw [perform]
    exact ih (all_cast.1 h).2
  | member n e f ih =>
    rw [perform]
    exact ih (all_member.1 h).2
  | construct n es ih =>
    rw [perform]
    exact args fun e he m => ih e he ((all_construct.1 h).2 e he)
  | initList n es ih =>
    rw [perform]
    exact args fun e he m => ih e he ((all_initList.1 h).2 e he)
  | call n f es ih =>
    rw [perform]
    exact args fun e he m => ih e he ((all_call.1 h).2 e he)
  | methodCall n f o es iho ih =>
    obtain ⟨-, ho, hes⟩ := all_methodCall.1 h
    rw [perform]
    exact (args fun e he m => ih e he (hes e he)).trans (iho ho)

theorem lastWrite_named {e y : Expr} (h : e.named.root = some (.var v)) :
    e.lastWrite v (some y) ≠ none := by
  induction e using ind generalizing y with
  | param n i =>
    obtain rfl : Var.param i = v := by simpa [named, root] using h
    simp [lastWrite]
  | localVar n i name =>
    obtain rfl : Var.localVar i = v := by simpa [named, root] using h
    simp [lastWrite]
  | binary n op lhs rhs ihl ihr =>
    rw [named] at h
    split at h
    · rename_i hop
      rw [lastWrite, if_pos hop]
      cases rhs.lastWrite v (some y) with
      | none => exact ihl h
      | some x => simp
    · cases h
  | member n e f ih =>
    rw [lastWrite]
    exact ih h
  | methodCall n f o es iho ih =>
    cases es with
    | nil =>
      rw [lastWrite, lastWriteOf]
      exact iho h
    | cons e es => cases h
  | interface n r => simp [named, root] at h
  | _ => cases h

theorem lastWriteOf_ne_none {under : Option Expr} {es : List Expr} {e : Expr} (he : e ∈ es)
    (h : e.lastWrite v under ≠ none) : lastWriteOf v under es ≠ none := by
  induction es with
  | nil => cases he
  | cons x es ih =>
    rw [lastWriteOf]
    cases hs : lastWriteOf v under es with
    | some y => simp
    | none =>
      rcases List.mem_cons.1 he with rfl | he
      · exact h
      · exact absurd hs (ih he)

/-- An assignment to `v` in an expression is found, whatever the expression stands under. -/
theorem lastWrite_assigns {e x : Expr} (hx : x ∈ e.subterms) (h : x.Assigns v)
    (under : Option Expr) : e.lastWrite v under ≠ none := by
  have args {es : List Expr} (ih : ∀ e ∈ es, ∀ under, x ∈ e.subterms → e.lastWrite v under ≠ none)
      (hx : x ∈ subtermsOf es) (under : Option Expr) : lastWriteOf v under es ≠ none := by
    rw [subtermsOf_eq] at hx
    obtain ⟨e, he, hxe⟩ := List.mem_flatMap.1 hx
    exact lastWriteOf_ne_none he (ih e he under hxe)
  cases x with
  | binary n op lhs rhs => ?_
  | _ => cases h
  obtain ⟨hop, hroot⟩ := h
  induction e using ind generalizing under with
  | literal | constant | param | localVar | interface | unsupported => cases List.mem_singleton.1 hx
  | binary n' op' lhs' rhs' ihl ihr =>
    rw [subterms, List.mem_cons, List.mem_append] at hx
    rw [lastWrite]
    -- the right side is asked first, so the rest counts only if nothing is written there
    cases hr : rhs'.lastWrite v under with
    | some y => simp
    | none =>
      rcases hx with heq | hx | hx
      · cases heq
        rw [if_pos hop]
        exact lastWrite_named hroot
      · exact ihl _ hx
      · exact absurd hr (ihr _ hx)
  | unary n' op' e ih | cast n' e ih | member n' e f ih =>
    rw [lastWrite]
    exact ih under ((List.mem_cons.1 hx).resolve_left (by simp))
  | construct n' es ih | initList n' es ih | call n' f es ih =>
    rw [lastWrite]
    exact args ih ((List.mem_cons.1 hx).resolve_left (by simp)) under
  | methodCall n' f o es iho ih =>
    rw [subterms, List.mem_cons, List.mem_append] at hx
    rw [lastWrite]
    cases hs : lastWriteOf v under es with
    | some y => simp
    | none =>
      rcases hx with heq | hx | hx
      · cases heq
      · exact iho under hx
      · exact absurd hs (args ih hx under)

end Expr

namespace Step

variable {s : Step} {m : Memory V} {c : Cell}

theorem perform_frame (hdecl : ∀ d, s.action = .declare d → c ≠ .var (.localVar d.var))
    (hexprs : ∀ e ∈ s.exprs, e.All fun x => ∀ v, x.Assigns v → c ≠ .var v) :
    s.perform I skips m c = m c := by
  obtain ⟨id, action⟩ := s
  cases action with
  | declare d =>
    refine (Function.update_of_ne (hdecl d rfl) _ _).trans ?_
    exact Expr.perform_frame (hexprs d.init (List.mem_singleton_self _))
  | run e => exact Expr.perform_frame (hexprs e (List.mem_singleton_self _))
  | skip => rfl

theorem perform_unwritten {v : Var} (h : s.lastWrite v = none) :
    s.perform I skips m (.var v) = m (.var v) := by
  have quiet {e : Expr} (h : e.lastWrite v none = none) :
      e.All fun x => ∀ u, x.Assigns u → Cell.var v ≠ .var u := by
    rintro x hx u hu ⟨⟩
    exact Expr.lastWrite_assigns hx hu none h
  unfold lastWrite at h
  refine perform_frame (fun d hd hv => ?_) fun e he => ?_
  · cases hv
    simp [hd] at h
  · unfold exprs at he
    split at he
    · rename_i d hd
      obtain rfl := List.mem_singleton.1 he
      rw [hd] at h
      dsimp only at h
      split at h
      · cases h
      · exact quiet (Option.map_eq_none_iff.1 h)
    · rename_i x hx
      obtain rfl := List.mem_singleton.1 he
      rw [hx] at h
      exact quiet (Option.map_eq_none_iff.1 h)
    · cases he

/-- Assignments are statements of their own and name variables. -/
def Flat (s : Step) : Prop :=
  match s.action with
  | .declare d => d.init.AssignmentFree
  | .run (.binary _ op lhs rhs) =>
    lhs.AssignmentFree ∧ rhs.AssignmentFree ∧
      (op.isAssignment = true → ∀ a b i, lhs.root ≠ some (.field a b i))
  | .run e => e.AssignmentFree
  | .skip => True

theorem perform_eq_exec (h : s.Flat) : s.perform I skips m = s.exec I m := by
  obtain ⟨id, action⟩ := s
  cases action with
  | declare d =>
    have hfree : d.init.AssignmentFree := h
    simp only [perform, exec, Expr.perform_assignmentFree hfree]
  | skip => rfl
  | run e =>
    -- without an assignment nothing is stored, in either reading
    have other (hfree : e.AssignmentFree) :
        (e.perform I skips m).2 = (⟨id, .run e⟩ : Step).exec I m := by
      have heffect : e.effect I m = none := by
        unfold Expr.effect
        split
        · rename_i n op lhs rhs
          have hop : op.isAssignment = false := hfree _ (Expr.self_mem_subterms _)
          simp [hop]
        · rfl
      rw [Expr.perform_assignmentFree hfree]
      simp only [exec, heffect]
    cases e with
    | binary n op lhs rhs =>
      obtain ⟨hl, hr, hroot⟩ := h
      cases hop : op.isAssignment with
      | false =>
        exact other (Expr.all_binary.2 ⟨hop, hl, hr⟩)
      | true =>
        have hassigned :
            (if op = .assign then rhs.eval I m else Expr.combine I n op (lhs.eval I m)
              (rhs.eval I m)) =
            Expr.assigned I m n op lhs rhs := rfl
        simp only [perform, exec, Expr.perform, hop, if_true, Expr.perform_assignmentFree hr,
          Expr.perform_assignmentFree hl, hassigned, Expr.store, hl.named, Expr.effect]
        cases hc : lhs.root with
        | none => rfl
        | some c =>
          cases c with
          | var v => rfl
          | field a b i => exact absurd hc (hroot hop a b i)
    | _ => exact other h

end Step

namespace Scope

variable {sc : Scope} {m : Memory V}

/-- A body whose assignments are all statements of their own does what it does when it is run. -/
theorem perform_eq_run (h : ∀ s ∈ sc, s.Flat) : perform I skips sc m = run I sc m := by
  induction sc generalizing m with
  | nil => rfl
  | cons s rest ih =>
    change perform I skips rest (s.perform I skips m) = run I rest (s.exec I m)
    rw [ih fun t ht => h t (by simp [ht]), Step.perform_eq_exec (h s (by simp))]

theorem perform_append (l r : Scope) (m : Memory V) :
    perform I skips (l ++ r) m = perform I skips r (perform I skips l m) := List.foldl_append

theorem perform_keeps {c : Cell} (h : ∀ s ∈ sc, ∀ m : Memory V, s.perform I skips m c = m c) :
    perform I skips sc m c = m c := by
  induction sc generalizing m with
  | nil => rfl
  | cons s rest ih => exact (ih fun t ht => h t (by simp [ht])).trans (h s (by simp) m)

theorem perform_unwritten {v : Var} (h : find v sc = none) :
    perform I skips sc m (.var v) = m (.var v) :=
  perform_keeps fun s hs _ => Step.perform_unwritten (find_eq_none.1 h s hs)

end Scope
end ShaderSplit
