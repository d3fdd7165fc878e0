import ShaderSplit.Proofs.Meaning.Execution
import ShaderSplit.Proofs.Meaning.Faithful
import ShaderSplit.Proofs.Partition.Host
import ShaderSplit.Proofs.Partition.Recursion

namespace ShaderSplit

universe u

variable {V : Type u} (I : Interp V) (skips : BinaryOp → V → Bool)

mutual
/-- Executes a statement, a block by what stands in it. Execution ends in front of the statement
called `stop`; the flag tells that it did. A declaration without an initializer does nothing. -/
def Stmt.execute (stop : Option NodeId) : Stmt → Memory V → Memory V × Bool
  | .decl i _ v _ _ (some e), m =>
    if stop = some i then (m, true)
    else (Function.update (e.perform I skips m).2 (.var (.localVar v)) (e.perform I skips m).1,
      false)
  | .expr i _ e, m => if stop = some i then (m, true) else ((e.perform I skips m).2, false)
  | .block i _ body, m => if stop = some i then (m, true) else executeAll stop body m
  | .decl i _ _ _ _ none, m | .null i _, m | .unsupported i .., m => (m, stop = some i)
def Stmt.executeAll (stop : Option NodeId) : List Stmt → Memory V → Memory V × Bool
  | [], m => (m, false)
  | s :: ss, m =>
    let r := s.execute stop m
    if r.2 then r else executeAll stop ss r.1
end

/-- The value of an expression in front of the statement called `stop`, or at the end of a body
that has none. -/
def Expr.valueAt (body : List Stmt) (stop : Option NodeId) (m : Memory V) (e : Expr) : Option V :=
  (e.perform I skips (Stmt.executeAll I skips stop body m).1).1

namespace Scope

/-- Takes the steps of a scope up to `stop`, and tells whether it was met. -/
def pass (stop : Option NodeId) : Scope → Memory V → Memory V × Bool
  | [], m => (m, false)
  | s :: rest, m => if stop = some s.id then (m, true) else pass stop rest (s.perform I skips m)

variable {I} {skips} {stop : Option NodeId} {m : Memory V}

theorem pass_append {l r : Scope} :
    pass I skips stop (l ++ r) m =
      if (pass I skips stop l m).2 then pass I skips stop l m
      else pass I skips stop r (pass I skips stop l m).1 := by
  induction l generalizing m with
  | nil => rfl
  | cons s l ih =>
    rw [List.cons_append, pass, pass]
    split
    · rfl
    · exact ih

theorem pass_none {sc : Scope} : (pass I skips none sc m).1 = perform I skips sc m := by
  induction sc generalizing m with
  | nil => rfl
  | cons s rest ih => exact ih

theorem pass_some {sc : Scope} {o : NodeId} :
    (pass I skips (some o) sc m).1 = perform I skips (sc.upTo o) m := by
  induction sc generalizing m with
  | nil => rfl
  | cons s rest ih =>
    rw [pass, upTo, List.takeWhile_cons]
    by_cases h : o = s.id
    · simp [h, perform]
    · have hne : (s.id != o) = true := by simpa using Ne.symm h
      rw [if_neg (by simpa using h), hne, ih]
      rfl

end Scope

variable {I} {skips} {stop : Option NodeId}

mutual
theorem Stmt.execute_eq :
    ∀ (s : Stmt) (m : Memory V), s.execute I skips stop m = Scope.pass I skips stop s.steps m
  | .decl i _ v _ _ (some e), m => by
    rw [execute, steps, Scope.pass]
    rfl
  | .expr i _ e, m => by
    rw [execute, steps, Scope.pass]
    rfl
  | .block i _ body, m => by
    rw [execute, steps, Scope.pass, executeAll_eq body m]
    rfl
  | .decl i _ _ _ _ none, m | .null i _, m | .unsupported i .., m => by
    rw [execute, steps, Scope.pass]
    by_cases h : stop = some i
    · simp [h]
    · simp [h, Scope.pass, Step.perform]
theorem Stmt.executeAll_eq : ∀ (ss : List Stmt) (m : Memory V),
    executeAll I skips stop ss m = Scope.pass I skips stop (stepsOf ss) m
  | [], m => rfl
  | s :: ss, m => by
    rw [executeAll, stepsOf, Scope.pass_append, execute_eq s m, executeAll_eq ss]
end

/-- Executing a body takes the steps that are visible at the place where it ends. -/
theorem Stmt.executeAll_visible {body : List Stmt} {m : Memory V} :
    (executeAll I skips stop body m).1 = Scope.perform I skips (Scope.visible body stop) m := by
  rw [executeAll_eq]
  cases stop with
  | none => exact Scope.pass_none
  | some o => exact Scope.pass_some

namespace Expr

variable {e e' : Expr}

theorem operands_sameValue (h : e.sameValue e' = true) : allSame e.operands e'.operands = true := by
  cases e <;> cases e' <;> simp only [sameValue, Bool.and_eq_true, beq_iff_eq] at h <;>
    simp_all [operands, allSame]

theorem isAssignment_sameValue (h : e.sameValue e' = true) : e.isAssignment = e'.isAssignment := by
  cases e <;> cases e' <;> simp_all [sameValue, isAssignment]

theorem all_operands {P : Expr → Prop} : e.All P ↔ P e ∧ ∀ x ∈ e.operands, x.All P := by
  constructor
  · intro h
    exact ⟨h e (self_mem_subterms e), fun x hx y hy => h y (mem_subterms.2 (.inr ⟨x, hx, hy⟩))⟩
  · rintro ⟨hself, hparts⟩ y hy
    rcases mem_subterms.1 hy with rfl | ⟨x, hx, hyx⟩
    · exact hself
    · exact hparts x hx y hyx

theorem assignmentFree_sameValue {e e' : Expr} (h : e.sameValue e' = true) :
    e.AssignmentFree = e'.AssignmentFree := by
  have hparts : e.operands.map AssignmentFree = e'.operands.map AssignmentFree :=
    map_allSame (fun x hx y hxy => assignmentFree_sameValue hxy) (operands_sameValue h)
  have hall (es : List Expr) : (∀ x ∈ es, x.AssignmentFree) ↔ ∀ q ∈ es.map AssignmentFree, q :=
    (List.forall_mem_map (P := fun q => q)).symm
  refine propext ?_
  rw [AssignmentFree, AssignmentFree, all_operands, all_operands, isAssignment_sameValue h]
  exact and_congr_right fun _ => (hall _).trans (hparts ▸ (hall _).symm)
termination_by sizeOf e
decreasing_by exact sizeOf_operand hx

end Expr

/-- Nothing in a scope assigns a parameter of an expression. -/
def Scope.Spares (sc : Scope) (e : Expr) : Prop :=
  ∀ k ∈ e.params, ∀ x ∈ sc.terms, ¬ x.Assigns (.param k)

instance (sc : Scope) (e : Expr) : Decidable (sc.Spares e) :=
  inferInstanceAs (Decidable (∀ k ∈ e.params, ∀ x ∈ sc.terms, ¬ x.Assigns (.param k)))

namespace Scope

variable {l r : Scope} {e e' : Expr} {m : Memory V}

/-- Where the same steps reach the one expression early and the other late, nothing in between
writes a local of the late one: what wrote it would reach the early one too, from a step that
comes after it. -/
theorem find_between (hids : ((l ++ r).map (·.id)).Nodup) (h : reaching l e = reaching (l ++ r) e')
    {v : LocalId} (hv : v ∈ e'.locals) : find (.localVar v) r = none := by
  cases hw : find (.localVar v) r with
  | none => rfl
  | some w =>
    have hlate : find (.localVar v) (l ++ r) = some w := by simp [find_append, hw]
    have hreach : w.step ∈ reaching l e := h ▸ mem_reaching.2 ⟨v, hv, w, hlate, rfl⟩
    obtain ⟨u, -, w', hw', hstep⟩ := mem_reaching.1 hreach
    obtain ⟨s, hs, hsid⟩ := find_step_mem hw'
    obtain ⟨t, ht, htid⟩ := find_step_mem hw
    have hid : s.id = t.id := hsid.trans (hstep.trans htid.symm)
    rw [List.map_append, List.nodup_append] at hids
    exact absurd hid (hids.2.2 _ (List.mem_map_of_mem hs) _ (List.mem_map_of_mem ht))

theorem perform_spares {n : Node} {k : Nat} (h : Spares r e) (hk : .param n k ∈ e.subterms) :
    perform I skips r m (.var (.param k)) = m (.var (.param k)) := by
  refine perform_keeps fun s hs m => Step.perform_frame (fun d _ => by simp)
    fun y hy x hx v hv => ?_
  rintro ⟨⟩
  exact h k (Expr.mem_params.2 ⟨n, hk⟩) x (mem_terms.2 ⟨s, hs, y, hy, hx⟩) hv

theorem perform_field {a b : Stage} {i : Nat} :
    perform I skips r m (.field a b i) = m (.field a b i) :=
  perform_keeps fun _ _ _ => Step.perform_frame (fun _ _ => by simp) fun _ _ _ _ _ _ => by simp

theorem eval_between (hids : ((l ++ r).map (·.id)).Nodup) (hparams : Spares r e')
    (h : reaching l e = reaching (l ++ r) e') :
    e'.eval I (perform I skips (l ++ r) m) = e'.eval I (perform I skips l m) := by
  rw [perform_append]
  refine Expr.eval_congr fun x hx c hc => ?_
  cases x with
  | param n k =>
    obtain rfl : Cell.var (.param k) = c := by simpa [Expr.cell] using hc
    exact perform_spares hparams hx
  | localVar n v name =>
    obtain rfl : Cell.var (.localVar v) = c := by simpa [Expr.cell] using hc
    exact perform_unwritten (find_between hids h (Expr.mem_locals.2 ⟨n, name, hx⟩))
  | interface n f =>
    obtain ⟨-, rfl⟩ : f.side = .consumer ∧ Cell.field f.source f.dest f.field = c := by
      simpa [Expr.cell] using hc
    exact perform_field
  | _ => cases hc

theorem Spares.mono {sc sc' : Scope} (h : Spares sc e) (hsub : ∀ s ∈ sc', s ∈ sc) :
    Spares sc' e := by
  intro k hk x hx
  obtain ⟨s, hs, hy⟩ := mem_terms.1 hx
  exact h k hk x (mem_terms.2 ⟨s, hsub s hs, hy⟩)

theorem visible_isPrefix {body : List Stmt} {i : Option NodeId} :
    visible body i <+: Stmt.stepsOf body := by
  cases i with
  | none => exact List.prefix_rfl
  | some o => exact List.takeWhile_prefix _

/-- Two expressions that denote the same value have the same value wherever the same steps reach
their locals. -/
theorem eval_visible {body : List Stmt} (hids : ((Stmt.stepsOf body).map (·.id)).Nodup)
    {i j : Option NodeId} (hvalue : ∀ m : Memory V, e.eval I m = e'.eval I m)
    (hparams : Spares (Stmt.stepsOf body) e) (hparams' : Spares (Stmt.stepsOf body) e')
    (h : (visible body i).reaching e = (visible body j).reaching e') :
    e.eval I (perform I skips (visible body i) m) =
      e'.eval I (perform I skips (visible body j) m) := by
  -- Of the two places one comes first; between them nothing that is read is written.
  have apart {a b : Option NodeId} {f f' : Expr} (hab : visible body a <+: visible body b)
      (hparams : Spares (Stmt.stepsOf body) f')
      (h : (visible body a).reaching f = (visible body b).reaching f') :
      f'.eval I (perform I skips (visible body b) m) =
        f'.eval I (perform I skips (visible body a) m) := by
    have hbody : visible body b <+: Stmt.stepsOf body := visible_isPrefix
    obtain ⟨r, hr⟩ := hab
    rw [← hr] at h hbody ⊢
    refine eval_between (hids.sublist (hbody.sublist.map _)) (hparams.mono fun s hs => ?_) h
    exact hbody.subset (List.mem_append_right _ hs)
  rcases List.prefix_or_prefix_of_prefix (visible_isPrefix : visible body i <+: _)
    (visible_isPrefix : visible body j <+: _) with hij | hji
  · rw [hvalue, apart hij hparams' h]
  · rw [apart hji hparams h.symm, hvalue]

end Scope

theorem InterfaceRecord.intern_field {r r' : InterfaceRecord} {e : Expr} {reaching : List NodeId}
    {k : Nat} {new : Bool} (h : r.intern e reaching = (k, new, r')) :
    ∃ f, r'.fields[k]? = some f ∧ f.reaching = reaching ∧
    (f.key = e ∨ f.key.sameValue e = true) := by
  unfold intern at h
  split at h
  · rename_i i hi
    cases h
    obtain ⟨f, hf, hreach, hkey⟩ := find?_some hi
    exact ⟨f, hf, hreach, .inr hkey⟩
  · cases h
    exact ⟨⟨e, reaching, fieldName r.source r.dest r.fields.length⟩, by simp [push], rfl, .inl rfl⟩

open Scope in
/-- Let the statements of a body have distinct identities, and let `e` hold no assignment and name
only parameters that the body does not assign. Where the same steps reach the locals of `e` at two
places, `e` has the same value there, whatever the operations mean, whatever they skip and whatever
the memory held at first. So whoever finds the field that `e` was put in, then or after more fields
were added, needs the value that it was put in with. -/
theorem Expr.valueAt_shared {body : List Stmt} (hids : ((Stmt.stepsOf body).map (·.id)).Nodup)
    {e : Expr} (hfree : e.AssignmentFree) (hparams : Spares (Stmt.stepsOf body) e)
    (i j : Option NodeId) :
    ((visible body i).reaching e = (visible body j).reaching e → ∀ (I : Interp V) skips m,
      e.valueAt I skips body i m = e.valueAt I skips body j m) ∧
    ∀ (r r' r'' : InterfaceRecord) (k : Nat) (new : Bool) (e' : Expr),
      r.intern e ((visible body i).reaching e) = (k, new, r') → r'.fields <+: r''.fields →
      r''.find? e' ((visible body j).reaching e') = some k → ∀ (I : Interp V) skips m,
      e.valueAt I skips body i m = e'.valueAt I skips body j m := by
  have value {x : Expr} (hx : x.AssignmentFree) (I : Interp V) skips (stop : Option NodeId) m :
      x.valueAt I skips body stop m = x.eval I (Scope.perform I skips (visible body stop) m) := by
    rw [Expr.valueAt, Stmt.executeAll_visible, Expr.perform_assignmentFree hx]
  refine ⟨fun h I skips m => ?_, fun r r' r'' k new e' hr hlater hfind I skips m => ?_⟩
  · rw [value hfree, value hfree]
    exact eval_visible hids (fun _ => rfl) hparams hparams h
  · obtain ⟨f, hf, hreach, hkey⟩ := InterfaceRecord.intern_field hr
    obtain ⟨f', hf', hreach', hkey'⟩ := InterfaceRecord.find?_some hfind
    obtain rfl : f = f' := by
      obtain ⟨added, hadded⟩ := hlater
      rw [← hadded, List.getElem?_append_left (List.getElem?_eq_some_iff.1 hf).1, hf] at hf'
      exact Option.some.inj hf'
    -- The key of the field stands between the two expressions.
    have hsame : f.key.AssignmentFree = e.AssignmentFree ∧ f.key.params = e.params ∧
        ∀ m : Memory V, f.key.eval I m = e.eval I m := by
      rcases hkey with rfl | hkey
      · exact ⟨rfl, rfl, fun _ => rfl⟩
      · exact ⟨assignmentFree_sameValue hkey, params_sameValue hkey, fun _ => eval_sameValue hkey⟩
    have hfree' : e'.AssignmentFree := by rwa [← assignmentFree_sameValue hkey', hsame.1]
    have hparams' : Spares (Stmt.stepsOf body) e' := by
      rwa [Spares, ← params_sameValue hkey', hsame.2.1]
    rw [value hfree, value hfree']
    refine eval_visible hids (fun m => ?_) hparams hparams' (hreach.symm.trans hreach')
    exact (hsame.2.2 m).symm.trans (eval_sameValue hkey')

namespace Sample

open Workbench

/-- A sum is used twice, around a block with an assignment in an assignment, before its
local is added to. -/
def reused : PipelineFn :=
  let ps := [param "a" (.varyingInput .vertex), param "b" (.varyingInput .vertex),
      param "o" (.varyingOutput .vertex)]
  fn "reused" ps do
    let (dc, c) ← declare "c" .float (← arg ps 0)
    let (dx, x) ← declare "x" .float (← arg ps 1)
    let (dy, y) ← declare "y" .float (← useLocal x)
    let o ← assign .assign (← arg ps 2) (← binary .add (← useLocal c) (← arg ps 0))
    let inner ← block
          [← assign .assign (← useLocal x) (← binary .assign (← useLocal y) (← useLocal c))]
    let o' ← assign .addAssign (← arg ps 2) (← binary .add (← useLocal c) (← arg ps 0))
    let c' ← assign .addAssign (← useLocal c) (← useLocal x)
    return [dc, dx, dy, o, inner, o', c']

def total (sum c a : NodeId) : Expr :=
  .binary ⟨sum, .float, .dummy⟩ .add (.localVar ⟨c, .float, .dummy⟩ 1 "c")
    (.param ⟨a, .float, .dummy⟩ 0)

def reach (stop : NodeId) (e : Expr) : List NodeId :=
  (Scope.visible reused.body (some stop)).reaching e

def summands : InterfaceRecord :=
  (InterfaceRecord.new .host .vertex).push (total 10 8 9) (reach 12 (total 10 8 9))

/-- The value of a sum where all is added up, with 1 and 2 for the first parameters. -/
def value (stop : Option NodeId) (e : Expr) : Option Nat :=
  e.valueAt sums (fun _ _ => false) reused.body stop (.input (· + 1))

end Sample

open Sample in
theorem Expr.valueAt_shared_reused :
    ((Stmt.stepsOf reused.body).map (·.id)).Nodup ∧ (total 10 8 9).AssignmentFree ∧
    Scope.Spares (Stmt.stepsOf reused.body) (total 10 8 9) ∧
    summands.find? (total 23 21 22) (reach 25 (total 23 21 22)) = some 0 ∧
    value (some 12) (total 10 8 9) = value (some 25) (total 10 8 9) ∧
    value (some 12) (total 10 8 9) = value (some 25) (total 23 21 22) ∧
    value (some 12) (total 10 8 9) = some 2 ∧ value none (total 10 8 9) = some 3 := by
  have hids : ((Stmt.stepsOf reused.body).map (·.id)).Nodup := by decide +kernel
  have hfree : (total 10 8 9).AssignmentFree := by decide +kernel
  have hspares : Scope.Spares (Stmt.stepsOf reused.body) (total 10 8 9) := by decide +kernel
  have hintern :
      (InterfaceRecord.new .host .vertex).intern (total 10 8 9) (reach 12 (total 10 8 9)) =
      (0, true, summands) := rfl
  have hfind : summands.find? (total 23 21 22) (reach 25 (total 23 21 22)) = some 0 := by
    decide +kernel
  have hreach : reach 12 (total 10 8 9) = reach 25 (total 10 8 9) := by decide +kernel
  obtain ⟨hplaces, hfields⟩ := valueAt_shared hids hfree hspares (some 12) (some 25)
  have hshared := hfields _ _ _ _ _ _ hintern List.prefix_rfl hfind sums (fun _ _ => false)
    (.input (· + 1))
  exact ⟨hids, hfree, hspares, hfind, hplaces hreach _ _ _, hshared,
    by decide +kernel, by decide +kernel⟩

end ShaderSplit
