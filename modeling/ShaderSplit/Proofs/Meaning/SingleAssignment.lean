import ShaderSplit.Partition.Draft
import ShaderSplit.Proofs.Meaning.Run

namespace ShaderSplit

universe u

def Step.declared? (s : Step) : Option LocalId :=
  match s.action with
  | .declare d => some d.var
  | _ => none

namespace Pipeline

variable (p : Pipeline)

def isOutput (i : Nat) : Bool := p.fn.params[i]?.any (·.role.isOutput)

/-- Outputs of the host are never traced. -/
def isDeviceOutput (i : Nat) : Bool :=
  p.fn.params[i]?.any fun q => q.role.isOutput && q.role.stage != .host

/-- Nothing is assigned inside an expression, and no output is read. -/
def Quiet (e : Expr) : Prop := e.All fun
  | .binary _ op _ _ => op.isAssignment = false
  | .param _ i => p.isOutput i = false
  | _ => True

/-- An assignment to an output of a device stage, or to a part of one. -/
def Stores : Expr → Prop
  | .binary _ op lhs rhs =>
    op.isAssignment = true ∧ (match lhs.root with
      | some (.var (.param i)) => p.isDeviceOutput i = true
      | _ => False) ∧ p.Quiet rhs
  | _ => False

/-- Declares a local, assigns to an output, or changes nothing. -/
def Tame (s : Step) : Prop :=
  match s.action with
  | .declare d => p.Quiet d.init
  | .run e => p.Stores e ∨ p.Quiet e
  | .skip => True

structure LocalsOnce : Prop where
  steps : (p.scope.map (·.id)).Nodup
  locals : (p.scope.filterMap Step.declared?).Nodup
  tame : ∀ s ∈ p.scope, p.Tame s

instance (e : Expr) : Decidable (p.Quiet e) :=
  have (x : Expr) : Decidable (match x with
      | .binary _ op _ _ => op.isAssignment = false
      | .param _ i => p.isOutput i = false
      | _ => True) := by
    split <;> infer_instance
  inferInstanceAs (Decidable (∀ x ∈ e.subterms, _))

instance : DecidablePred p.Stores
  | .binary _ op lhs rhs =>
    have : Decidable (match lhs.root with
        | some (.var (.param i)) => p.isDeviceOutput i = true
        | _ => False) := by
      split <;> infer_instance
    inferInstanceAs (Decidable (op.isAssignment = true ∧ _ ∧ p.Quiet rhs))
  | .literal .. | .constant .. | .param .. | .localVar .. | .unary .. | .construct .. | .cast ..
  | .initList ..
  | .call .. | .methodCall .. | .member .. | .interface .. | .unsupported .. => isFalse id

instance (s : Step) : Decidable (p.Tame s) := by
  unfold Tame
  split <;> infer_instance

variable {p} {V : Type u} {I : Interp V} {m : Memory V} {e : Expr} {s : Step} {v : Var} {w : Write}

theorem Stores.cases (h : p.Stores e) :
    ∃ n op lhs rhs i, e = .binary n op lhs rhs ∧ op.isAssignment = true ∧
    lhs.root = some (.var (.param i)) ∧ p.isDeviceOutput i = true ∧ p.Quiet rhs := by
  unfold Stores at h
  split at h
  · rename_i n op lhs rhs
    obtain ⟨hop, hroot, hq⟩ := h
    split at hroot
    · rename_i i hi
      exact ⟨n, op, lhs, rhs, i, rfl, hop, hi, hroot, hq⟩
    · cases hroot
  · cases h

theorem isOutput_of_device {i : Nat} (h : p.isDeviceOutput i = true) : p.isOutput i = true := by
  obtain ⟨q, hq, hr⟩ := (Option.any_eq_true _ _).1 h
  rw [Bool.and_eq_true] at hr
  exact (Option.any_eq_true _ _).2 ⟨q, hq, hr.1⟩

theorem Quiet.not_writes {x : Expr} (h : p.Quiet e) (hx : x ∈ e.subterms) : ¬ x.Writes v := by
  rintro ⟨n, op, lhs, rhs, rfl, hop, -⟩
  exact absurd (hop.symm.trans (h _ hx)) (by simp)

theorem Quiet.effect (h : p.Quiet e) : e.effect I m = none := by
  unfold Expr.effect
  split
  · exact if_neg (by simpa using h.self)
  · rfl

theorem tame_write (h : p.Tame s) (hw : s.lastWrite v = some w) : w.step = s.id ∧
    ((∃ d, s.action = .declare d ∧ v = .localVar d.var ∧ w.site = .declaration d ∧ p.Quiet d.init) ∨
      ∃ n op lhs rhs i, s.action = .run (.binary n op lhs rhs) ∧ v = .param i ∧
        w.site = .assignment (.binary n op lhs rhs) ∧ op.isAssignment = true ∧
        lhs.root = some (.var (.param i)) ∧ p.isDeviceOutput i = true ∧ p.Quiet rhs) := by
  obtain ⟨hstep, ⟨d, hd, hv, hsite⟩ | ⟨x, hsite, hx, e, he, hxe⟩⟩ := Step.lastWrite_cases hw
  · refine ⟨hstep, .inl ⟨d, hd, hv, hsite, ?_⟩⟩
    simpa [Tame, hd] using h
  · unfold Step.exprs at he
    split at he
    · rename_i d hd
      have hq : p.Quiet d.init := by simpa [Tame, hd] using h
      obtain rfl := List.mem_singleton.1 he
      exact absurd hx (hq.not_writes hxe)
    · rename_i e' he'
      obtain rfl := List.mem_singleton.1 he
      have hcase : p.Stores e ∨ p.Quiet e := by simpa [Tame, he'] using h
      rcases hcase with hs | hq
      · obtain ⟨n, op, lhs, rhs, i, rfl, hop, hroot, hi, hq⟩ := hs.cases
        rw [Expr.subterms, List.mem_cons, List.mem_append] at hxe
        rcases hxe with rfl | hxe | hxe
        · obtain ⟨_, _, _, _, heq, -, hin⟩ := hx
          cases heq
          exact ⟨hstep,
            .inr ⟨n, op, lhs, rhs, i, he', Expr.eq_of_root hroot hin, hsite, hop, hroot, hi, hq⟩⟩
        · -- Nothing is assigned below the left side.
          obtain ⟨_, _, _, _, rfl, -⟩ := hx
          cases Expr.root_subterms hroot hxe
        · exact absurd hx (hq.not_writes hxe)
      · exact absurd hx (hq.not_writes hxe)
    · cases he

theorem tame_exec_field {a b : Stage} {i : Nat} (h : p.Tame s) :
    s.exec I m (.field a b i) = m (.field a b i) := by
  obtain ⟨id, action⟩ := s
  cases action with
  | declare d =>
    have hne : Cell.field a b i ≠ .var (.localVar d.var) := nofun
    exact Function.update_of_ne hne _ _
  | run e =>
    rcases (h : p.Stores e ∨ p.Quiet e) with hs | hq
    · obtain ⟨n, op, lhs, rhs, j, rfl, hop, hroot, -⟩ := hs.cases
      simp [Step.exec, Expr.effect, hop, hroot]
    · simp [Step.exec, hq.effect]
  | skip => rfl

namespace LocalsOnce

variable (h : p.LocalsOnce) {o : NodeId} {v : LocalId}
include h

theorem find_local {sc : Scope} (hsc : sc ⊆ p.scope) (hw : sc.find (.localVar v) = some w) :
    ∃ s ∈ sc, ∃ d, s.action = .declare d ∧ d.var = v ∧ w = ⟨.declaration d, s.id⟩ ∧
    p.Quiet d.init := by
  obtain ⟨s, hs, hl⟩ := Scope.find_mem hw
  obtain ⟨hstep, ⟨d, hd, hv, hsite, hq⟩ | ⟨_, _, _, _, _, _, hv, -⟩⟩ :=
    tame_write (h.tame s (hsc hs)) hl
  · cases hv
    exact ⟨s, hs, d, hd, rfl, by rw [← hsite, ← hstep], hq⟩
  · cases hv

theorem find_param {sc : Scope} {i : Nat} (hsc : sc ⊆ p.scope) (hw : sc.find (.param i) = some w) :
    p.isDeviceOutput i = true ∧ ∃ s ∈ sc, ∃ n op lhs rhs, s.action = .run (.binary n op lhs rhs) ∧
      w = ⟨.assignment (.binary n op lhs rhs), s.id⟩ ∧ op.isAssignment = true ∧
      lhs.root = some (.var (.param i)) ∧ p.Quiet rhs := by
  obtain ⟨s, hs, hl⟩ := Scope.find_mem hw
  obtain ⟨hstep, ⟨d, hd, hv, -⟩ | ⟨n, op, lhs, rhs, j, hrun, hv, hsite, hop, hroot, hout, hq⟩⟩ :=
    tame_write (h.tame s (hsc hs)) hl
  · cases hv
  · cases hv
    exact ⟨hout, s, hs, n, op, lhs, rhs, hrun, by rw [← hsite, ← hstep], hop, hroot, hq⟩

theorem find_scope (hw : (p.scope.upTo o).find (.localVar v) = some w) :
    p.scope.find (.localVar v) = some w := by
  have hsplit : p.scope.upTo o ++ p.scope.dropWhile (·.id != o) = p.scope :=
    List.takeWhile_append_dropWhile
  have hrest : Scope.find (.localVar v) (p.scope.dropWhile (·.id != o)) = none := by
    cases hr : Scope.find (.localVar v) (p.scope.dropWhile (·.id != o)) with
    | none => rfl
    | some w' =>
      have hl := h.locals
      rw [← hsplit, List.filterMap_append, List.nodup_append] at hl
      obtain ⟨s, hs, d, hd, hv, -⟩ := h.find_local (fun _ => Scope.upTo_subset) hw
      obtain ⟨t, ht, d', hd', hv', -⟩ := h.find_local (List.dropWhile_sublist _).subset hr
      have hsv : v ∈ (p.scope.upTo o).filterMap Step.declared? :=
        List.mem_filterMap.2 ⟨s, hs, by simp [Step.declared?, hd, hv]⟩
      have htv : v ∈ (p.scope.dropWhile (·.id != o)).filterMap Step.declared? :=
        List.mem_filterMap.2 ⟨t, ht, by simp [Step.declared?, hd', hv']⟩
      exact absurd rfl (hl.2.2 v hsv v htv)
  rw [← hsplit, Scope.find_append, hrest]
  exact hw

theorem run_field {sc : Scope} {a b : Stage} {i : Nat} (hsc : sc ⊆ p.scope) :
    sc.run I m (.field a b i) = m (.field a b i) := by
  induction sc generalizing m with
  | nil => rfl
  | cons s rest ih =>
    have hs := h.tame s (hsc (by simp))
    exact (ih fun t ht => hsc (by simp [ht])).trans (tame_exec_field hs)

theorem run_input {i : Nat} {sc : Scope} (hsc : sc ⊆ p.scope) (hi : p.isOutput i = false) :
    sc.run I m (.var (.param i)) = m (.var (.param i)) := by
  cases hf : sc.find (.param i) with
  | none => exact Scope.run_frame hf
  | some w =>
    have hout := isOutput_of_device (h.find_param hsc hf).1
    exact absurd (hi.symm.trans hout) (by simp)

/-- A cell that is defined while the body runs, and is no output, has that value at the end. -/
theorem run_mono {x : Nat → V} {c : Cell} {y : V}
    (hc : ∀ i, c = .var (.param i) → p.isOutput i = false)
    (hy : (p.scope.upTo o).run I (.input x) c = some y) : p.scope.run I (.input x) c = some y := by
  match c with
  | .field a b i =>
    rw [h.run_field fun _ => Scope.upTo_subset] at hy
    cases hy
  | .var (.param i) =>
    rw [h.run_input (fun _ => Scope.upTo_subset) (hc i rfl)] at hy
    rw [h.run_input (fun _ hs => hs) (hc i rfl), hy]
  | .var (.localVar v) =>
    cases hw : (p.scope.upTo o).find (.localVar v) with
    | none =>
      rw [Scope.run_frame hw] at hy
      cases hy
    | some w =>
      obtain ⟨s, -, d, -, -, rfl, -⟩ := h.find_local (fun _ => Scope.upTo_subset) hw
      rw [Scope.run_declared (Scope.nodup_upTo h.steps o) hw,
        Scope.upTo_upTo (Scope.find_step_mem hw)] at hy
      rw [Scope.run_declared h.steps (h.find_scope hw), hy]

end LocalsOnce
end Pipeline
end ShaderSplit
