import Mathlib.Data.List.Nodup
import Mathlib.Logic.Function.Basic
import ShaderSplit.Partition.Program
import ShaderSplit.Proofs.Meaning.Value
import ShaderSplit.Proofs.Scope.Reach

namespace ShaderSplit

universe u

variable {V : Type u} (I : Interp V)

namespace Expr

/-- The cell at the root of the left side of an assignment. -/
def root : Expr → Option Cell
  | param _ i => some (.var (.param i))
  | localVar _ v _ => some (.var (.localVar v))
  | interface _ r => if r.side = .producer then some (.field r.source r.dest r.field) else none
  | member _ e _ | methodCall _ _ e [] => e.root
  | _ => none

/-- What the root gets to hold when `y` is assigned to the left side. -/
def stored (m : Memory V) : Expr → V → Option V
  | member n e f, y => (e.eval I m).bind fun x => e.stored m (I.setMember n.ty f x y)
  | methodCall n f e [], y => (e.eval I m).bind fun x => e.stored m (I.setSwizzle n.ty f x y)
  | _, y => some y

def assigned (m : Memory V) (n : Node) (op : BinaryOp) (lhs rhs : Expr) : Option V :=
  if op = .assign then rhs.eval I m
  else (lhs.eval I m).bind fun x => (rhs.eval I m).map (I.binary n.ty op x)

/-- The cell that a statement writes, and what it writes there. -/
def effect (m : Memory V) : Expr → Option (Cell × Option V)
  | binary n op lhs rhs =>
    if op.isAssignment then lhs.root.map (·, (assigned I m n op lhs rhs).bind (lhs.stored I m))
    else none
  | _ => none

end Expr

def Step.exec (m : Memory V) (s : Step) : Memory V :=
  match s.action with
  | .declare d => Function.update m (.var (.localVar d.var)) (d.init.eval I m)
  | .run e =>
    match e.effect I m with
    | some (c, y) => Function.update m c y
    | none => m
  | .skip => m

def Scope.run (sc : Scope) (m : Memory V) : Memory V := sc.foldl (Step.exec I) m

/-- Running a statement of a stage, which reads the memory as the stage sees it. -/
def StageStmt.exec (view : Memory V → Memory V) (m : Memory V) : StageStmt → Option (Memory V)
  | decl d => (d.init.eval I (view m)).map fun y =>
    Function.update m (.var (.localVar d.var)) (some y)
  | expr e =>
    match e.effect I (view m) with
    | some (c, y) => y.map fun y => Function.update m c (some y)
    | none => (e.eval I (view m)).map fun _ => m
  | bindingDecl _ | pushUniform _ => some m

namespace Memory

def input (x : Nat → V) : Memory V
  | .var (.param i) => some (x i)
  | _ => none

/-- A block starts without locals. -/
def enter (m : Memory V) : Memory V
  | .var (.localVar _) => none
  | c => m c

end Memory

namespace Program

variable (prog : Program)

/-- What a stage can read: its own parameters, the locals of its block and the fields
that lead to it. -/
def view (s : Stage) (m : Memory V) : Memory V
  | .var (.param i) => if prog.params[i]?.map (·.role.stage) =
    some s then m (.var (.param i)) else none
  | .var (.localVar v) => m (.var (.localVar v))
  | .field a b i => if b = s then m (.field a b i) else none

def runBlock (s : Stage) (m : Memory V) : Option (Memory V) :=
  (prog.blocks.get s).foldlM (StageStmt.exec I (prog.view s)) m.enter

/-- The host first, then each active stage, up to the first statement that reads something
undefined. -/
def run (x : Nat → V) : Option (Memory V) :=
  (.host :: prog.devices).foldlM (fun m s => prog.runBlock I s m) (.input x)

end Program

variable {I}

namespace Expr

variable {m m' : Memory V} {n : Node} {op : BinaryOp} {lhs rhs rhs' : Expr} {c : Cell}

theorem root_subterms {e x : Expr} (h : e.root = some c) (hx : x ∈ e.subterms) :
    x.root = some c := by
  fun_induction root e with
  | case1 | case2 =>
    obtain rfl := List.mem_singleton.1 hx
    exact h
  | case3 n r hr =>
    obtain rfl := List.mem_singleton.1 hx
    exact (if_pos hr).trans h
  | case4 | case7 => cases h
  | case5 n e f ih =>
    rcases List.mem_cons.1 hx with rfl | hx
    · exact h
    · exact ih h hx
  | case6 n f e ih =>
    rw [subterms, subtermsOf, List.append_nil] at hx
    rcases List.mem_cons.1 hx with rfl | hx
    · exact h
    · exact ih h hx

theorem eq_of_root {e : Expr} {v w : Var} (h : e.root = some (.var v)) (hw : w.In e) : w = v := by
  have cell {x : Expr} {u : Var} (hx : x ∈ e.subterms) (hu : x.root = some (.var u)) : u = v := by
    simpa [hu] using root_subterms h hx
  cases w with
  | param i =>
    obtain ⟨n, hn⟩ := hw
    exact cell hn rfl
  | localVar i =>
    obtain ⟨n, name, hn⟩ := mem_locals.1 hw
    exact cell hn rfl

theorem param_of_root {e : Expr} {i : Nat} (h : e.root = some (.var (.param i))) :
    ∃ n, param n i ∈ e.subterms := by
  fun_induction root e with
  | case1 n j =>
    cases h
    exact ⟨n, by simp⟩
  | case2 | case3 | case4 | case7 => cases h
  | case5 n e f ih | case6 n f e ih =>
    obtain ⟨k, hk⟩ := ih h
    exact ⟨k, by simp [hk]⟩

theorem cell_of_root {e : Expr} (h : e.root = some c) :
    e.All fun x => ∀ c', x.cell = some c' → c' = c := by
  intro x hx c' hc'
  have hroot := root_subterms h hx
  cases x with
  | param | localVar => simpa using hc'.symm.trans hroot
  | interface n r =>
    rw [cell] at hc'
    rw [root] at hroot
    split at hc'
    · rename_i hr
      simp [hr] at hroot
    · cases hc'
  | _ => cases hc'

theorem eval_root {e : Expr} (h : e.root = some c) (hc : m c = m' c) : e.eval I m = e.eval I m' :=
  eval_congr ((cell_of_root h).mono fun _ hx _ hc' => (hx _ hc') ▸ hc)

theorem stored_root {e : Expr} {y : V} (h : e.root = some c) (hc : m c = m' c) :
    e.stored I m y = e.stored I m' y := by
  fun_induction root e generalizing y with
  | case1 | case2 | case3 => rfl
  | case4 | case7 => cases h
  | case5 n e f ih | case6 n f e ih =>
    rw [stored, stored, eval_root h hc]
    exact congrArg _ (funext fun z => ih h)

/-- What an assignment does depends on its root and on the value of its right side. -/
theorem effect_congr (hroot : lhs.root = some c) (hc : m c = m' c)
    (hr : rhs.eval I m = rhs'.eval I m') :
    (binary n op lhs rhs).effect I m = (binary n op lhs rhs').effect I m' := by
  have hassigned : assigned I m n op lhs rhs = assigned I m' n op lhs rhs' := by
    rw [assigned, assigned, hr, eval_root hroot hc]
  have hstored : lhs.stored I m = lhs.stored I m' := funext fun y => stored_root hroot hc
  rw [effect, effect, hassigned, hstored]

theorem stored_mono {e : Expr} {y z : V} (h : e.All (Copied m m')) (he : e.stored I m y = some z) :
    e.stored I m' y = some z := by
  fun_induction stored I m e y with
  | case1 n e f y ih | case2 n f e y ih =>
    obtain ⟨x, hx, hs⟩ := Option.bind_eq_some_iff.1 he
    have hpart : e.All (Copied m m') := fun x hx => h x (by simp [hx])
    rw [stored, eval_mono hpart hx]
    exact ih x hpart hs
  | case3 e y hmember hswizzle => rwa [stored.eq_3 I m' e y hmember hswizzle]

theorem assigned_mono {y : V} (hl : lhs.All (Copied m m')) (hr : rhs.All (Copied m m'))
    (h : assigned I m n op lhs rhs = some y) : assigned I m' n op lhs rhs = some y := by
  unfold assigned at h ⊢
  split at h
  · rename_i hop
    rw [if_pos hop, eval_mono hr h]
  · rename_i hop
    obtain ⟨x, hx, h⟩ := Option.bind_eq_some_iff.1 h
    obtain ⟨z, hz, rfl⟩ := Option.map_eq_some_iff.1 h
    rw [if_neg hop, eval_mono hl hx, eval_mono hr hz]
    rfl

theorem effect_mono {e : Expr} {y : V} (h : e.All (Copied m m'))
    (he : e.effect I m = some (c, some y)) : e.effect I m' = some (c, some y) := by
  unfold effect at he ⊢
  split at he
  · obtain ⟨-, hl, hr⟩ := all_binary.1 h
    split at he
    · rename_i hop
      obtain ⟨c', hroot, hwrite⟩ := Option.map_eq_some_iff.1 he
      obtain ⟨rfl, hvalue⟩ := Prod.mk.inj hwrite
      obtain ⟨z, hz, hs⟩ := Option.bind_eq_some_iff.1 hvalue
      rw [if_pos hop, hroot, assigned_mono hl hr hz]
      simp [stored_mono hl hs]
    · cases he
  · cases he

theorem eval_of_var {e : Expr} {v : Var} {y : V} (h : e.root = some (.var v))
    (hv : m (.var v) = some y) : ∃ z, e.eval I m = some z := by
  fun_induction root e with
  | case1 | case2 =>
    cases h
    exact ⟨y, hv⟩
  | case3 | case4 | case7 => cases h
  | case5 n e f ih =>
    obtain ⟨z, hz⟩ := ih h
    exact ⟨_, by rw [eval, hz]; rfl⟩
  | case6 n f e ih =>
    obtain ⟨z, hz⟩ := ih h
    exact ⟨_, by rw [eval, hz]; rfl⟩

theorem stored_of_var {e : Expr} {v : Var} {y z : V} (h : e.root = some (.var v))
    (hv : m (.var v) = some y) : ∃ w, e.stored I m z = some w := by
  fun_induction root e generalizing z with
  | case1 | case2 => exact ⟨z, rfl⟩
  | case3 | case4 | case7 => cases h
  | case5 n e f ih | case6 n f e ih =>
    obtain ⟨u, hu⟩ := eval_of_var h hv
    rw [stored, hu]
    exact ih h

theorem effect_of_var {v : Var} {y z : V} (hop : op.isAssignment = true)
    (hroot : lhs.root = some (.var v)) (hv : m (.var v) = some y) (hr : rhs.eval I m = some z) :
    ∃ w, (binary n op lhs rhs).effect I m = some (.var v, some w) := by
  obtain ⟨l, hl⟩ := eval_of_var hroot hv
  obtain ⟨a, ha⟩ : ∃ a, assigned I m n op lhs rhs = some a := by
    rw [assigned, hl, hr]
    split <;> simp
  obtain ⟨w, hw⟩ := stored_of_var (I := I) (z := a) hroot hv
  exact ⟨w, by rw [effect, if_pos hop, hroot, ha]; simp [hw]⟩

end Expr

theorem Expr.lastWrite_root {e x : Expr} {v : Var} (h : e.root = some (.var v)) :
    e.lastWrite v (some x) = some x := by
  fun_induction root e with
  | case1 n i =>
    obtain rfl : Var.param i = v := by simpa using h
    simp [lastWrite]
  | case2 n i name =>
    obtain rfl : Var.localVar i = v := by simpa using h
    simp [lastWrite]
  | case3 | case4 | case7 => simp at h
  | case5 n e f ih => rw [lastWrite, ih h]
  | case6 n f e ih => rw [lastWrite, lastWriteOf, ih h]; rfl

theorem Expr.lastWrite_of_effect {e : Expr} {v : Var} {m : Memory V} {y : Option V}
    (h : e.effect I m = some (.var v, y)) : e.lastWrite v none ≠ none := by
  unfold effect at h
  split at h
  · split at h
    · rename_i n op lhs rhs hop
      obtain ⟨c, hc, hy⟩ := Option.map_eq_some_iff.1 h
      obtain ⟨rfl, -⟩ := Prod.mk.inj hy
      rw [lastWrite, if_pos hop, lastWrite_root hc]
      cases rhs.lastWrite v none <;> simp
    · cases h
  · cases h

theorem Step.exec_frame {s : Step} {v : Var} {m : Memory V} (h : s.lastWrite v = none) :
    s.exec I m (.var v) = m (.var v) := by
  obtain ⟨id, action⟩ := s
  cases action with
  | declare d =>
    refine Function.update_of_ne ?_ _ _
    rintro hv
    cases hv
    simp [Step.lastWrite] at h
  | run e =>
    cases he : e.effect I m with
    | none => simp [Step.exec, he]
    | some write =>
      obtain ⟨c, y⟩ := write
      have hc : .var v ≠ c := by
        rintro rfl
        exact Expr.lastWrite_of_effect he (by simpa [Step.lastWrite] using h)
      simp [Step.exec, he, Function.update_of_ne hc]
  | skip => rfl

namespace Scope

variable {sc : Scope} {v : Var} {w : Write} {m : Memory V}

theorem run_append (l r : Scope) (m : Memory V) : run I (l ++ r) m = run I r (run I l m) :=
  List.foldl_append

theorem find_eq_none : find v sc = none ↔ ∀ s ∈ sc, s.lastWrite v = none := by
  induction sc with
  | nil => simp [find]
  | cons s rest ih =>
    rw [find, Option.orElse_eq_orElse, Option.orElse_eq_or, Option.or_eq_none_iff, ih,
      List.forall_mem_cons, and_comm]

theorem find_append (l r : Scope) : find v (l ++ r) = (find v r <|> find v l) := by
  induction l with
  | nil => simp [find]
  | cons s l ih =>
    rw [List.cons_append, find, find, ih]
    cases find v r <;> rfl

theorem run_frame (h : find v sc = none) : run I sc m (.var v) = m (.var v) := by
  induction sc generalizing m with
  | nil => rfl
  | cons s rest ih =>
    rw [find, Option.orElse_eq_orElse, Option.orElse_eq_or, Option.or_eq_none_iff] at h
    exact (ih h.1).trans (Step.exec_frame h.2)

/-- The write that reaches the end of a scope stands in the last step that writes the variable. -/
theorem find_split (h : find v sc = some w) :
    ∃ l s r, sc = l ++ s :: r ∧ s.lastWrite v = some w ∧ find v r = none := by
  induction sc with
  | nil => cases h
  | cons s rest ih =>
    rw [find] at h
    cases hr : find v rest with
    | none => exact ⟨[], s, rest, rfl, by simpa [hr] using h, hr⟩
    | some w' =>
      obtain ⟨l, t, r, rfl, ht, hnone⟩ := ih (by simpa [hr] using h)
      exact ⟨s :: l, t, r, rfl, ht, hnone⟩

theorem upTo_of_nodup {l r : Scope} {s : Step} (h : ((l ++ s :: r).map (·.id)).Nodup) :
    upTo (l ++ s :: r) s.id = l := by
  rw [List.map_append, List.map_cons, List.nodup_append] at h
  have hl : ∀ t ∈ l, (t.id != s.id) = true := fun t ht => by
    simpa using h.2.2 t.id (List.mem_map_of_mem ht) s.id (by simp)
  rw [upTo, List.takeWhile_append_of_pos hl, List.takeWhile_cons]
  simp

theorem nodup_upTo (hids : (sc.map (·.id)).Nodup) (o : NodeId) : ((sc.upTo o).map (·.id)).Nodup :=
  hids.sublist ((List.takeWhile_sublist _).map _)

/-- A variable holds what the step of the write that reaches it has left there. -/
theorem run_find (hids : (sc.map (·.id)).Nodup) (h : find v sc = some w) :
    ∃ s ∈ sc, s.lastWrite v = some w ∧
    run I sc m (.var v) = s.exec I (run I (sc.before w) m) (.var v) := by
  obtain ⟨l, s, r, rfl, hw, hr⟩ := find_split h
  refine ⟨s, by simp, hw, ?_⟩
  rw [run_append, before, lastWrite_step hw, upTo_of_nodup hids]
  exact run_frame hr

theorem run_declared {v : LocalId} {d : LocalDecl} {o : NodeId} (hids : (sc.map (·.id)).Nodup)
    (h : find (.localVar v) sc = some ⟨.declaration d, o⟩) :
    run I sc m (.var (.localVar v)) = d.init.eval I (run I (sc.upTo o) m) := by
  obtain ⟨s, -, hw, hrun⟩ := run_find hids h
  obtain ⟨-, ⟨d', hd, hv, hsite⟩ | ⟨x, hsite, -⟩⟩ := Step.lastWrite_cases hw
  · cases hsite
    cases hv
    rw [hrun, Step.exec, hd]
    exact Function.update_self ..
  · cases hsite

end Scope
end ShaderSplit
