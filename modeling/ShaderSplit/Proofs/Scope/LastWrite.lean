import Mathlib.Data.List.TakeWhile
import ShaderSplit.Proofs.Meaning.Execution
import ShaderSplit.Proofs.Syntax.Path

namespace ShaderSplit

section Latest

variable {α β ι κ μ : Type} {lt : κ → κ → Prop} {lt' : μ → μ → Prop} {W W' : κ → α → Prop}
  {o o' : Option α}

/-- Of all that is at some place, the one at the last place. -/
def Latest (lt : κ → κ → Prop) (W : κ → α → Prop) : Option α → Prop
  | none => ∀ k a, ¬ W k a
  | some a => ∃ k, W k a ∧ ∀ k' a', W k' a' → k' = k ∨ lt k' k

def lastOf : List (Option α) → Option α
  | [] => none
  | o :: os => lastOf os <|> o

theorem Latest.congr (h : Latest lt W o) (hW : ∀ k a, W' k a ↔ W k a) : Latest lt W' o := by
  obtain rfl : W' = W := funext fun k => funext fun a => propext (hW k a)
  exact h

theorem Latest.map (h : Latest lt W o) (key : κ → μ) (g : α → β)
    (hkey : ∀ k k', lt k k' → lt' (key k) (key k')) :
    Latest lt' (fun m b => ∃ k a, m = key k ∧ b = g a ∧ W k a) (o.map g) := by
  cases o with
  | none =>
    rintro _ _ ⟨k, a, -, -, hk⟩
    exact h k a hk
  | some a =>
    obtain ⟨k, hk, hlast⟩ := h
    refine ⟨key k, ⟨k, a, rfl, rfl, hk⟩, ?_⟩
    rintro _ _ ⟨k', a', rfl, -, hk'⟩
    exact (hlast k' a' hk').imp (congrArg key) (hkey k' k)

/-- What comes later hides what comes before. -/
theorem Latest.orElse (h : Latest lt W o) (h' : Latest lt W' o')
    (hbefore : ∀ k a k' a', W k a → W' k' a' → lt k k') :
    Latest lt (fun k a => W k a ∨ W' k a) (o' <|> o) := by
  cases o' with
  | some a' =>
    obtain ⟨k', hk', hlast⟩ := h'
    refine ⟨k', .inr hk', fun k a hk => ?_⟩
    rcases hk with hk | hk
    · exact .inr (hbefore k a k' a' hk hk')
    · exact hlast k a hk
  | none => exact h.congr fun k a => or_iff_left (h' k a)

theorem latest_lastOf {R : ι → ι → Prop} {W : ι → κ → α → Prop} {l : List ι} {f : ι → Option α}
    (key : ι → κ → μ) (hl : l.Pairwise R) (h : ∀ i ∈ l, Latest lt (W i) (f i))
    (hkey : ∀ i k k', lt k k' → lt' (key i k) (key i k'))
    (hR : ∀ i j k k', R i j → lt' (key i k) (key j k')) :
    Latest lt' (fun m a => ∃ i ∈ l, ∃ k, m = key i k ∧ W i k a) (lastOf (l.map f)) := by
  induction l with
  | nil => exact fun m a ⟨i, hi, _⟩ => List.not_mem_nil hi
  | cons i l ih =>
    obtain ⟨hi, hl⟩ := List.pairwise_cons.1 hl
    have hfirst : Latest lt' (fun m a => ∃ k, m = key i k ∧ W i k a) (f i) := by
      have hmap := (h i List.mem_cons_self).map (key i) id (hkey i)
      rw [Option.map_id_fun, id] at hmap
      exact hmap.congr fun m a => by simp
    have hrest := ih hl fun j hj => h j (List.mem_cons_of_mem _ hj)
    refine (hfirst.orElse hrest ?_).congr fun m a => by simp
    rintro _ _ _ _ ⟨k, rfl, -⟩ ⟨j, hj, k', rfl, -⟩
    exact hR i j k k' (hi j hj)

/-- There is one latest, and none only if there is nothing. -/
theorem Latest.iff (h : Latest lt W o) (hW : ∀ k a a', W k a → W k a' → a = a')
    (hlt : ∀ k k', lt k k' → ¬ lt k' k) :
    (∀ a, o = some a ↔ ∃ k, W k a ∧ ∀ k' a', W k' a' → k' = k ∨ lt k' k) ∧
    (o = none ↔ ∀ k a, ¬ W k a) := by
  cases o with
  | none => exact ⟨fun a => iff_of_false nofun fun ⟨k, hk, _⟩ => h k a hk, iff_of_true rfl h⟩
  | some a =>
    refine ⟨fun b => ⟨fun heq => Option.some.inj heq ▸ h, ?_⟩, iff_of_false nofun fun hno => ?_⟩
    · rintro ⟨k', hk', hlast'⟩
      obtain ⟨k, hk, hlast⟩ := h
      rcases hlast k' b hk' with rfl | hlt'
      · rw [hW _ _ _ hk hk']
      · rcases hlast' k a hk with rfl | hlt''
        · rw [hW _ _ _ hk hk']
        · exact absurd hlt'' (hlt _ _ hlt')
    · obtain ⟨k, hk, -⟩ := h
      exact hno k a hk

end Latest

namespace Expr

variable {e x y a : Expr} {v : Var} {under : Option Expr} {i : Nat} {l p : List Nat}

def var? : Expr → Option Var
  | param _ i => some (.param i)
  | localVar _ i _ => some (.localVar i)
  | _ => none

/-- At `l` stands an assignment, and `p` leads into its left side. -/
def LeftOf (e : Expr) (l p : List Nat) (a : Expr) : Prop :=
  e.at? l = some a ∧ a.isAssignment = true ∧ l ++ [0] <+: p

/-- The innermost assignment whose left side a path leads into. -/
def Innermost (e : Expr) (p : List Nat) (a : Expr) : Prop :=
  ∃ l, e.LeftOf l p a ∧ ∀ l' a', e.LeftOf l' p a' → l' <+: l

def Written (e : Expr) (v : Var) (p : List Nat) (a : Expr) : Prop :=
  (∃ x, e.at? p = some x ∧ x.var? = some v) ∧ e.Innermost p a

/-- What an operand stands under: the expression itself for the left side of an assignment, else
what that stands under. -/
def operandUnder (e : Expr) (under : Option Expr) (i : Nat) : Option Expr :=
  if e.isAssignment = true ∧ i = 0 then some e else under

def assigner : Option Expr → Expr → List Nat → Option Expr
  | under, _, [] => under
  | under, e, i :: p => e.operands[i]?.bind (assigner (e.operandUnder under i) · p)

theorem not_leftOf_nil : ¬ e.LeftOf l [] a := fun h => by simpa using h.2.2

/-- An assignment on the way is the expression itself, or one in the operand that the
way leads into. -/
theorem leftOf_cons (hy : e.operands[i]? = some y) :
    e.LeftOf l (i :: p) a ↔ (l = [] ∧ a = e ∧ e.isAssignment = true ∧ i = 0) ∨ ∃ l', l = i :: l' ∧
    y.LeftOf l' p a := by
  cases l with
  | nil =>
    have hself : e.LeftOf [] (i :: p) a ↔ e = a ∧ a.isAssignment = true ∧ 0 = i := by simp [LeftOf]
    rw [hself]
    constructor
    · rintro ⟨rfl, ha, rfl⟩
      exact .inl ⟨rfl, rfl, ha, rfl⟩
    · rintro (⟨-, rfl, ha, rfl⟩ | ⟨l', hl', -⟩)
      · exact ⟨rfl, ha, rfl⟩
      · cases hl'
  | cons j l =>
    simp only [LeftOf, at?_cons, List.cons_append, List.cons_prefix_cons]
    constructor
    · rintro ⟨⟨y', hy', hl⟩, ha, rfl, hp⟩
      obtain rfl : y' = y := Option.some.inj (hy'.symm.trans hy)
      exact .inr ⟨l, rfl, hl, ha, hp⟩
    · rintro (⟨hl, -⟩ | ⟨l', hl', hat, ha, hp⟩)
      · cases hl
      · cases hl'
        exact ⟨⟨y, hy, hat⟩, ha, rfl, hp⟩

theorem innermost_cons (hy : e.operands[i]? = some y) :
    e.Innermost (i :: p) a ↔ y.Innermost p a ∨
      ((∀ l a', ¬ y.LeftOf l p a') ∧ a = e ∧ e.isAssignment = true ∧ i = 0) := by
  have hinside {l : List Nat} {a : Expr} (h : y.LeftOf l p a) : e.LeftOf (i :: l) (i :: p) a :=
    (leftOf_cons hy).2 (.inr ⟨l, rfl, h⟩)
  constructor
  · rintro ⟨l, hl, hin⟩
    rcases (leftOf_cons hy).1 hl with ⟨rfl, rfl, ha, hi⟩ | ⟨m, rfl, hm⟩
    · refine .inr ⟨fun l' a' hl' => ?_, rfl, ha, hi⟩
      simpa using hin (i :: l') a' (hinside hl')
    · exact .inl
        ⟨m, hm, fun l' a' hl' => (List.cons_prefix_cons.1 (hin (i :: l') a' (hinside hl'))).2⟩
  · rintro (⟨m, hm, hin⟩ | ⟨hno, rfl, ha, hi⟩)
    · refine ⟨i :: m, hinside hm, fun l' a' hl' => ?_⟩
      rcases (leftOf_cons hy).1 hl' with ⟨rfl, -⟩ | ⟨m', rfl, hm'⟩
      · exact List.nil_prefix
      · exact List.cons_prefix_cons.2 ⟨rfl, hin m' a' hm'⟩
    · refine ⟨[], (leftOf_cons hy).2 (.inl ⟨rfl, rfl, ha, hi⟩), fun l' a' hl' => ?_⟩
      rcases (leftOf_cons hy).1 hl' with ⟨rfl, -⟩ | ⟨m', rfl, hm'⟩
      · exact List.prefix_rfl
      · exact absurd hm' (hno m' a')

/-- What is met on the way down is the innermost assignment, or what was given if there is none. -/
theorem assigner_eq_some (h : e.at? p = some x) : assigner under e p = some a ↔
    e.Innermost p a ∨ ((∀ l a', ¬ e.LeftOf l p a') ∧ under = some a) := by
  induction p generalizing e under with
  | nil =>
    rw [assigner, or_iff_right (fun ⟨l, hl, _⟩ => not_leftOf_nil hl)]
    exact (and_iff_right fun _ _ => not_leftOf_nil).symm
  | cons i p ih =>
    obtain ⟨y, hy, hx⟩ := at?_cons.1 h
    rw [assigner, hy, Option.bind_some, ih hx, innermost_cons hy, or_assoc]
    refine or_congr_right ?_
    have hno : (∀ l a', ¬ e.LeftOf l (i :: p) a') ↔
        (∀ l a', ¬ y.LeftOf l p a') ∧ ¬ (e.isAssignment = true ∧ i = 0) := by
      simp only [leftOf_cons hy]
      grind
    rw [hno, operandUnder]
    split
    · rename_i hbelow
      simp [hbelow, eq_comm]
    · rename_i hbelow
      simp only [hbelow, and_false, false_or, not_false_eq_true, and_true]

theorem written_iff : e.Written v p a ↔ (∃ x, e.at? p = some x ∧ x.var? = some v) ∧
    assigner none e p = some a := by
  refine and_congr_right fun ⟨x, hx, _⟩ => ?_
  rw [assigner_eq_some hx]
  exact (or_iff_left fun ⟨_, h⟩ => nomatch h).symm

theorem lastWriteOf_eq (v : Var) (under : Option Expr) (es : List Expr) :
    lastWriteOf v under es = lastOf (es.map (lastWrite v under)) := by
  induction es with
  | nil => rw [lastWriteOf, List.map_nil, lastOf]
  | cons e es ih => rw [lastWriteOf, List.map_cons, lastOf, ih]

theorem lastWrite_eq (e : Expr) (v : Var) (under : Option Expr) : e.lastWrite v under =
    if e.var? = some v then under
    else lastOf (e.operands.zipIdx.map fun x => x.1.lastWrite v (e.operandUnder under x.2)) := by
  have hargs (es : List Expr) (k : Nat) :
      (es.zipIdx k).map (fun x => x.1.lastWrite v under) = es.map (lastWrite v under) := by
    rw [← List.zipIdx_map_fst k es, List.map_map, List.zipIdx_map_fst]
    rfl
  cases e with
  | param | localVar => simp [lastWrite, var?, operands, lastOf, eq_comm]
  | binary n op lhs rhs => simp [lastWrite, var?, operands, lastOf, operandUnder, isAssignment]
  | unary | cast | member => simp [lastWrite, var?, operands, lastOf, operandUnder, isAssignment]
  | construct | initList | call =>
    simp [lastWrite, var?, operands, operandUnder, isAssignment, lastWriteOf_eq, hargs]
  | methodCall =>
    simp [lastWrite, var?, operands, lastOf, operandUnder, isAssignment, lastWriteOf_eq, hargs]
  | literal | constant | interface | unsupported => simp [lastWrite, var?, operands, lastOf]

theorem operands_of_var? (h : e.var? = some v) : e.operands = [] := by
  cases e <;> first | rfl | cases h

/-- By induction on the expression: the operands are searched in the order of the
paths into them. -/
theorem latest_lastWrite (e : Expr) (v : Var) (under : Option Expr) :
    Latest (· < ·) (fun p a => (∃ x, e.at? p = some x ∧ x.var? = some v) ∧
      assigner under e p = some a)
      (e.lastWrite v under) := by
  rw [lastWrite_eq]
  split
  · rename_i hv
    have hself (p : List Nat) (a : Expr) :
        ((∃ x, e.at? p = some x ∧ x.var? = some v) ∧ assigner under e p = some a) ↔
        p = [] ∧ under = some a := by
      cases p with
      | nil => simp [hv, assigner]
      | cons i p => simp [at?, operands_of_var? hv]
    refine Latest.congr ?_ hself
    cases under with
    | none => exact fun _ _ h => Option.some_ne_none _ h.2.symm
    | some a => exact ⟨[], ⟨rfl, rfl⟩, fun _ _ h => .inl h.1⟩
  · rename_i hv
    -- a variable below operand `i` stands at a path that starts with `i`, so operands are
    -- compared first
    have hsorted : e.operands.zipIdx.Pairwise fun x y => x.2 < y.2 := by
      rw [← List.pairwise_map (R := (· < ·)), List.zipIdx_map_snd]
      exact List.pairwise_lt_range' 1
    refine (latest_lastOf (fun x p => x.2 :: p) hsorted
      (fun x hx => latest_lastWrite x.1 v (e.operandUnder under x.2))
      (fun i _ _ h => List.cons_lt_cons_iff.2 (.inr ⟨rfl, h⟩))
      (fun i j _ _ h => List.cons_lt_cons_iff.2 (.inl h))).congr fun p a => ?_
    cases p with
    | nil => simp [hv]
    | cons i p =>
      constructor
      · rintro ⟨⟨x, hx, hvar⟩, ha⟩
        obtain ⟨y, hy, hx⟩ := at?_cons.1 hx
        rw [assigner, hy, Option.bind_some] at ha
        exact ⟨(y, i), List.mem_zipIdx_iff_getElem?.2 hy, p, rfl, ⟨x, hx, hvar⟩, ha⟩
      · rintro ⟨⟨y, j⟩, hy, q, hq, ⟨x, hx, hvar⟩, ha⟩
        cases hq
        have hy := List.mem_zipIdx_iff_getElem?.1 hy
        refine ⟨⟨x, at?_cons.2 ⟨y, hy, hx⟩, hvar⟩, ?_⟩
        rw [assigner, hy]
        exact ha
termination_by sizeOf e
decreasing_by exact sizeOf_operand (List.fst_mem_of_mem_zipIdx hx)

theorem latest_written (e : Expr) (v : Var) : Latest (· < ·) (e.Written v) (e.lastWrite v none) :=
  (latest_lastWrite e v none).congr fun _ _ => written_iff

/-- In `(x = y) = z` the inner assignment writes `x`, and the outer one `y`. -/
example (n : Node) (id : NodeId) :
    let e := binary n .assign (binary { n with id } .assign (param n 0) (param n 1)) (param n 2)
    (e.lastWrite (.param 0) none).map (·.node.id) = some id ∧
      (e.lastWrite (.param 1) none).map (·.node.id) = some n.id ∧
      (e.lastWrite (.param 2) none).isNone := ⟨rfl, rfl, rfl⟩

theorem Written.unique {b : Expr} (h : e.Written v p a) (h' : e.Written v p b) : a = b :=
  Option.some.inj ((written_iff.1 h).2.symm.trans (written_iff.1 h').2)

end Expr

namespace Stmt

variable {s : Stmt} {v : Var} {part : List Nat} {w w' : Write}

def expr? : Stmt → Option Expr
  | decl _ _ _ _ _ init => init
  | expr _ _ e => some e
  | block .. | null .. | unsupported .. => none

/-- Where a statement itself writes a variable: in its expression, or, once that is done, with
its declaration. -/
inductive Written (v : Var) : Stmt → List Nat → Write → Prop
  | assigned {s : Stmt} {e a : Expr} {p : List Nat} (he : s.expr? = some e) (h : e.Written v p a) :
      Written v s (0 :: p) ⟨.assignment a, s.id⟩
  | declared {id : NodeId} {span : Span} {x : LocalId} {name : String} {ty : Ty} {e : Expr}
      (hv : v = .localVar x) :
      Written v (decl id span x name ty (some e)) [1] ⟨.declaration ⟨x, name, ty, e⟩, id⟩

theorem Written.unique (h : s.Written v part w) (h' : s.Written v part w') : w = w' := by
  cases h with
  | assigned he h =>
    cases h' with
    | assigned he' h' =>
      obtain rfl := Option.some.inj (he.symm.trans he')
      rw [h.unique h']
  | declared =>
    cases h'
    rfl

theorem Written.exists_expr (h : s.Written v part w) : ∃ e, s.expr? = some e := by
  cases h with
  | assigned he => exact ⟨_, he⟩
  | declared => exact ⟨_, rfl⟩

theorem Written.part_le (h : s.Written v part w) : part = [1] ∨ part < [1] := by
  cases h with
  | assigned => exact .inr (List.cons_lt_cons_iff.2 (.inl Nat.zero_lt_one))
  | declared => exact .inl rfl

theorem latest_assigned {e : Expr} (he : s.expr? = some e)
    (hno : ∀ d part, ¬ s.Written v part ⟨.declaration d, s.id⟩) :
    Latest (· < ·) (s.Written v) ((e.lastWrite v none).map (⟨.assignment ·, s.id⟩)) := by
  refine ((e.latest_written v).map (0 :: ·) _ fun _ _ h =>
    List.cons_lt_cons_iff.2 (.inr ⟨rfl, h⟩)).congr fun part w => ?_
  constructor
  · intro hw
    cases hw with
    | assigned he' h =>
      obtain rfl := Option.some.inj (he.symm.trans he')
      exact ⟨_, _, rfl, rfl, h⟩
    | declared hv => exact absurd (.declared hv) (hno _ _)
  · rintro ⟨p, a, rfl, rfl, h⟩
    exact .assigned he h

theorem latest_step (s : Stmt) (v : Var) : Latest (· < ·) (s.Written v) (s.step.lastWrite v) := by
  have hskip (hs : s.expr? = none) : Latest (· < ·) (s.Written v) none := by
    intro part w hw
    obtain ⟨e, he⟩ := hw.exists_expr
    cases hs.symm.trans he
  cases s with
  | decl id span x name ty init =>
    cases init with
    | none => exact hskip rfl
    | some e =>
      by_cases hv : v = .localVar x
      · have hstep : (decl id span x name ty (some e)).step.lastWrite v =
              some ⟨.declaration ⟨x, name, ty, e⟩, id⟩ :=
          if_pos hv
        rw [hstep]
        exact ⟨[1], .declared hv, fun part w hw => hw.part_le⟩
      · have hstep : (decl id span x name ty (some e)).step.lastWrite v = _ := if_neg hv
        rw [hstep]
        exact latest_assigned rfl fun d part hw => by cases hw; contradiction
  | expr id span e => exact latest_assigned rfl fun d part hw => nomatch hw
  | block | null | unsupported => exact hskip rfl

end Stmt

namespace Scope

variable {body : List Stmt} {stop : Option NodeId} {v : Var}

/-- A statement that is passed, with its path: it comes before every statement called `stop`. -/
def Passed (body : List Stmt) (stop : Option NodeId) (p : List Nat) (s : Stmt) : Prop :=
  Stmt.atOf? body p = some s ∧ ∀ q t, Stmt.atOf? body q = some t → some t.id = stop → p < q

/-- A write among the statements that are passed. Its place is the path to its statement with
the one within. -/
def WriteAt (body : List Stmt) (stop : Option NodeId) (v : Var) (place : List Nat × List Nat)
    (w : Write) : Prop :=
  ∃ s, Passed body stop place.1 s ∧ s.Written v place.2 w

def Before : List Nat × List Nat → List Nat × List Nat → Prop := Prod.Lex (· < ·) (· < ·)

theorem Before.asymm {k k' : List Nat × List Nat} (h : Before k k') : ¬ Before k' k := by
  intro h'
  rcases Prod.lex_def.1 h with hlt | ⟨heq, hlt⟩
  · rcases Prod.lex_def.1 h' with hlt' | ⟨heq', -⟩
    · exact List.lt_asymm hlt hlt'
    · exact List.lt_irrefl _ (heq' ▸ hlt)
  · rcases Prod.lex_def.1 h' with hlt' | ⟨-, hlt'⟩
    · exact List.lt_irrefl _ (heq ▸ hlt')
    · exact List.lt_asymm hlt hlt'

theorem WriteAt.unique {k : List Nat × List Nat} {w w' : Write} (h : WriteAt body stop v k w)
    (h' : WriteAt body stop v k w') : w = w' := by
  obtain ⟨s, ⟨hs, -⟩, hw⟩ := h
  obtain ⟨s', ⟨hs', -⟩, hw'⟩ := h'
  obtain rfl := Option.some.inj (hs.symm.trans hs')
  exact hw.unique hw'

theorem find_eq (v : Var) (sc : Scope) : find v sc = lastOf (sc.map (Step.lastWrite v)) := by
  induction sc with
  | nil => rfl
  | cons s rest ih => rw [find, List.map_cons, lastOf, ih]

def passed (body : List Stmt) (stop : Option NodeId) : List (List Nat × Stmt) :=
  (Stmt.placesOf 0 body).takeWhile fun x => some x.2.id ≠ stop

theorem visible_eq (body : List Stmt) (stop : Option NodeId) :
    visible body stop = (passed body stop).map (·.2.step) := by
  have hsteps := Stmt.stepsOf_eq_places (i := 0) body
  cases stop with
  | none =>
    rw [visible, passed, hsteps, List.takeWhile_eq_self_iff.2 (by simp)]
  | some stop =>
    have hstop (x : List Nat × Stmt) :
        (x.2.step.id != stop) = decide (some x.2.id ≠ some stop) := by
      rw [Stmt.step_id, Bool.eq_iff_iff]
      simp
    rw [visible, upTo, hsteps, List.takeWhile_map, passed]
    exact congrArg (fun P => ((Stmt.placesOf 0 body).takeWhile P).map (·.2.step)) (funext hstop)

/-- What stands in increasing order is taken up to the first that is refused. -/
theorem mem_takeWhile_iff {α : Type} {lt : α → α → Prop} {P : α → Bool} {l : List α} {x : α}
    (hl : l.Pairwise lt) (hlt : ∀ x y, lt x y → ¬ lt y x) :
    x ∈ l.takeWhile P ↔ x ∈ l ∧ ∀ y ∈ l, P y = false → lt x y := by
  induction l with
  | nil => simp
  | cons z l ih =>
    obtain ⟨hz, hl⟩ := List.pairwise_cons.1 hl
    rw [List.takeWhile_cons]
    split
    · rename_i hP
      rw [List.mem_cons, ih hl, List.mem_cons, List.forall_mem_cons]
      constructor
      · rintro (rfl | ⟨hx, hbefore⟩)
        · exact ⟨.inl rfl, fun h => by simp [hP] at h, fun y hy _ => hz y hy⟩
        · exact ⟨.inr hx, fun h => by simp [hP] at h, hbefore⟩
      · rintro ⟨rfl | hx, -, hbefore⟩
        · exact .inl rfl
        · exact .inr ⟨hx, hbefore⟩
    · rename_i hP
      refine iff_of_false List.not_mem_nil fun ⟨hx, hbefore⟩ => ?_
      have hlast := hbefore z List.mem_cons_self (by simpa using hP)
      rcases List.mem_cons.1 hx with rfl | hx
      · exact hlt _ _ hlast hlast
      · exact hlt _ _ hlast (hz x hx)

theorem mem_passed {p : List Nat} {s : Stmt} :
    (p, s) ∈ passed body stop ↔ Passed body stop p s := by
  rw [passed, mem_takeWhile_iff (Stmt.pairwise_placesOf body) (fun _ _ h => List.lt_asymm h),
    Stmt.mem_placesOf_zero]
  refine and_congr_right fun _ => ⟨fun h q t ht hid => ?_, fun h y hy hid => ?_⟩
  · exact h (q, t) (Stmt.mem_placesOf_zero.2 ht) (by simp [hid])
  · exact h y.1 y.2 (Stmt.mem_placesOf_zero.1 hy) (by simpa using hid)

theorem latest_find (body : List Stmt) (stop : Option NodeId) (v : Var) :
    Latest Before (WriteAt body stop v) (find v (visible body stop)) := by
  have hsorted : (passed body stop).Pairwise fun x y => x.1 < y.1 :=
    (Stmt.pairwise_placesOf body).sublist (List.takeWhile_sublist _)
  rw [find_eq, visible_eq, List.map_map]
  refine (latest_lastOf (fun x part => (x.1, part)) hsorted (fun x _ => Stmt.latest_step x.2 v)
    (fun x _ _ h => Prod.lex_def.2 (.inr ⟨rfl, h⟩))
    (fun x y _ _ h => Prod.lex_def.2 (.inl h))).congr fun k w => ?_
  constructor
  · rintro ⟨s, hs, hw⟩
    exact ⟨(k.1, s), mem_passed.2 hs, k.2, rfl, hw⟩
  · rintro ⟨x, hx, part, rfl, hw⟩
    exact ⟨x.2, mem_passed.1 hx, hw⟩

/-- For every body, wherever the search stops, and every variable, it finds the last of the writes
that are passed, and nothing only if none is passed. -/
theorem find_exact (body : List Stmt) (stop : Option NodeId) (v : Var) :
    (∀ w, find v (visible body stop) = some w ↔
      ∃ k, WriteAt body stop v k w ∧ ∀ k' w', WriteAt body stop v k' w' → k' = k ∨ Before k' k) ∧
    (find v (visible body stop) = none ↔ ∀ k w, ¬ WriteAt body stop v k w) :=
  (latest_find body stop v).iff (fun _ _ _ => WriteAt.unique) fun _ _ => Before.asymm

end Scope

end ShaderSplit
