import ShaderSplit.Proofs.Meaning.SingleAssignment

namespace ShaderSplit

universe u

namespace Scope

/-- How many steps stand before the first one called `o`. -/
def rank (sc : Scope) (o : NodeId) : Nat := sc.findIdx (·.id == o)

variable {sc : Scope} {s t : Step} {o : NodeId} {v : Var}

theorem eq_of_id (hids : (sc.map (·.id)).Nodup) (hs : s ∈ sc) (ht : t ∈ sc)
    (h : s.id = t.id) : s = t :=
  List.inj_on_of_nodup_map hids hs ht h

theorem eq_of_key {α : Type} {f : Step → Option α} {k : α} (hkeys : (sc.filterMap f).Nodup)
    (hs : s ∈ sc) (ht : t ∈ sc) (hks : f s = some k) (hkt : f t = some k) : s = t := by
  induction sc with
  | nil => cases hs
  | cons x rest ih =>
    have later {y : Step} (hy : y ∈ rest) (hky : f y = some k) : f x ≠ some k := by
      intro hkx
      rw [List.filterMap_cons_some hkx, List.nodup_cons] at hkeys
      exact hkeys.1 (List.mem_filterMap.2 ⟨y, hy, hky⟩)
    rcases List.mem_cons.1 hs with rfl | hs'
    · rcases List.mem_cons.1 ht with rfl | ht'
      · rfl
      · exact absurd hks (later ht' hkt)
    · rcases List.mem_cons.1 ht with rfl | ht'
      · exact absurd hkt (later hs' hks)
      · exact ih (hkeys.sublist ((List.sublist_cons_self x rest).filterMap f)) hs' ht'

theorem getElem_rank (hids : (sc.map (·.id)).Nodup) (hs : s ∈ sc) :
    ∃ h : sc.rank s.id < sc.length, sc[sc.rank s.id] = s := by
  have hlt : sc.rank s.id < sc.length := List.findIdx_lt_length_of_exists ⟨s, hs, by simp⟩
  have hid : (sc[sc.rank s.id].id == s.id) = true :=
    List.findIdx_getElem (p := fun t : Step => t.id == s.id) (w := hlt)
  exact ⟨hlt, eq_of_id hids (List.getElem_mem hlt) hs (by simpa using hid)⟩

theorem rank_of_getElem? {k : Nat} (hids : (sc.map (·.id)).Nodup) (hs : sc[k]? = some s) :
    sc.rank s.id = k := by
  obtain ⟨hlt, hget⟩ := getElem_rank hids (List.mem_of_getElem? hs)
  refine (List.getElem?_inj (by simpa using hlt) hids).1 ?_
  rw [List.getElem?_map, List.getElem?_map, hs, List.getElem?_eq_getElem hlt, hget]

theorem rank_inj (hids : (sc.map (·.id)).Nodup) (hs : s ∈ sc) (ht : t ∈ sc)
    (h : sc.rank s.id = sc.rank t.id) : s = t := by
  obtain ⟨h₁, hs'⟩ := getElem_rank hids hs
  obtain ⟨h₂, ht'⟩ := getElem_rank hids ht
  rw [← hs', ← ht']
  congr 1

theorem upTo_eq_take (sc : Scope) (o : NodeId) : sc.upTo o = sc.take (sc.rank o) := by
  rw [upTo, List.takeWhile_eq_take_findIdx_not, rank]
  simp [bne]

/-- The steps before `o` are those of lower rank. -/
theorem mem_upTo_iff (hids : (sc.map (·.id)).Nodup) (hs : s ∈ sc) :
    s ∈ sc.upTo o ↔ sc.rank s.id < sc.rank o := by
  rw [upTo_eq_take]
  constructor
  · intro h
    obtain ⟨i, hi, rfl⟩ := List.mem_take_iff_getElem.1 h
    have hle : sc.rank sc[i].id ≤ i := by
      refine Nat.le_of_not_lt fun hlt => ?_
      have hne := List.not_of_lt_findIdx hlt
      simp at hne
    omega
  · intro h
    obtain ⟨hlt, hget⟩ := getElem_rank hids hs
    exact List.mem_take_iff_getElem.2 ⟨sc.rank s.id, by omega, hget⟩

theorem findIdx_key {α : Type} [DecidableEq α] {f : Step → Option α} {k : α}
    (hids : (sc.map (·.id)).Nodup) (hkeys : (sc.filterMap f).Nodup) (hs : s ∈ sc)
    (hk : f s = some k) :
    sc.findIdx (fun t => f t == some k) = sc.rank s.id := by
  apply Nat.le_antisymm
  · apply List.findIdx_le_findIdx
    intro t ht hid
    obtain rfl := eq_of_id hids ht hs (by simpa using hid)
    simpa using hk
  · apply List.findIdx_le_findIdx
    intro t ht hkt
    obtain rfl := eq_of_key hkeys ht hs (by simpa using hkt) hk
    simp

theorem pairwise_rank {R : Step → Step → Prop} (h : sc.Pairwise R) (hids : (sc.map (·.id)).Nodup)
    (hs : s ∈ sc) (ht : t ∈ sc) (hst : sc.rank s.id < sc.rank t.id) : R s t := by
  obtain ⟨hi, hsi⟩ := getElem_rank hids hs
  obtain ⟨hj, htj⟩ := getElem_rank hids ht
  have hR := List.pairwise_iff_getElem.1 h _ _ hi hj hst
  rwa [hsi, htj] at hR

end Scope

namespace Step

variable {V : Type u} {I : Interp V} {m : Memory V} {s : Step} {v : Var} {e : Expr}

/-- The variable that a step gives a value, and the value. -/
def gives (s : Step) : Option (Var × Expr) :=
  match s.action with
  | .declare d => some (.localVar d.var, d.init)
  | .run (.binary _ .assign (.localVar _ v _) rhs) => some (.localVar v, rhs)
  | .run (.binary _ .assign (.param _ i) rhs) => some (.param i, rhs)
  | _ => none

theorem gives_cases (h : s.gives = some (v, e)) :
    (∃ d, s.action = .declare d ∧ v = .localVar d.var ∧ e = d.init) ∨
      ∃ n lhs, s.action = .run (.binary n .assign lhs e) ∧
        ((∃ n' i, lhs = .param n' i ∧ v = .param i) ∨ ∃ n' i name, lhs = .localVar n' i name ∧
          v = .localVar i) := by
  unfold gives at h
  split at h
  · rename_i d hd
    cases h
    exact .inl ⟨d, hd, rfl, rfl⟩
  · rename_i n n' i name rhs hrun
    cases h
    exact .inr ⟨n, _, hrun, .inr ⟨n', i, name, rfl, rfl⟩⟩
  · rename_i n n' i rhs hrun
    cases h
    exact .inr ⟨n, _, hrun, .inl ⟨n', i, rfl, rfl⟩⟩
  · cases h

theorem exec_gives (h : s.gives = some (v, e)) :
    s.exec I m = Function.update m (.var v) (e.eval I m) := by
  rcases gives_cases h with ⟨d, hd, rfl, rfl⟩
    | ⟨n, lhs, hrun, ⟨n', i, rfl, rfl⟩ | ⟨n', i, name, rfl, rfl⟩⟩
  · simp [exec, hd]
  · simp [exec, hrun, Expr.effect, Expr.root, Expr.assigned, Expr.stored, BinaryOp.isAssignment]
  · simp [exec, hrun, Expr.effect, Expr.root, Expr.assigned, Expr.stored, BinaryOp.isAssignment]

theorem lastWrite_of_gives (h : s.gives = some (v, e)) : s.lastWrite v ≠ none := by
  rcases gives_cases h with ⟨d, hd, rfl, rfl⟩
    | ⟨n, lhs, hrun, ⟨n', i, rfl, rfl⟩ | ⟨n', i, name, rfl, rfl⟩⟩
  · simp [lastWrite, hd]
  · cases he : e.lastWrite (.param i) none <;>
      simp [lastWrite, hrun, Expr.lastWrite, BinaryOp.isAssignment, he]
  · cases he : e.lastWrite (.localVar i) none <;>
      simp [lastWrite, hrun, Expr.lastWrite, BinaryOp.isAssignment, he]

end Step

def Step.isSkip (s : Step) : Bool :=
  match s.action with
  | .skip => true
  | _ => false

def Step.runs? (s : Step) : Option NodeId :=
  match s.action with
  | .run e => some e.node.id
  | _ => none

namespace Pipeline

variable (p : Pipeline)

def writable : Var → Bool
  | .localVar _ => true
  | .param i => p.isDeviceOutput i

/-- Gives a variable a value in which nothing is assigned and no output is read, or does nothing. -/
def Straight (s : Step) : Prop :=
  (s.gives.isSome || s.isSkip) = true ∧ ∀ g ∈ s.gives, p.writable g.1 = true ∧ p.Quiet g.2

/-- Declarations and plain assignments in a row, with names and identities of their own. -/
structure StraightLine : Prop where
  steps : (p.scope.map (·.id)).Nodup
  locals : (p.scope.filterMap Step.declared?).Nodup
  exprs : (p.scope.filterMap Step.runs?).Nodup
  straight : ∀ s ∈ p.scope, p.Straight s

instance (s : Step) : Decidable (p.Straight s) := inferInstanceAs (Decidable (_ ∧ ∀ g ∈ s.gives, _))

variable {p} {V : Type u} {I : Interp V} {m : Memory V} {s t : Step} {v : Var} {e : Expr}
  {w : Write} {o : NodeId}

theorem Straight.quiet (h : p.Straight s) (hs : s.gives = some (v, e)) : p.Quiet e := (h.2 _ hs).2

theorem Straight.output {i : Nat} (h : p.Straight s) (hs : s.gives = some (.param i, e)) :
    p.isDeviceOutput i = true := (h.2 _ hs).1

theorem Straight.lastWrite (h : p.Straight s) (hw : s.lastWrite v = some w) : w.step = s.id ∧
    ∃ e, s.gives = some (v, e) ∧ match w.site with
      | .declaration d => s.action = .declare d
      | .assignment x => s.action = .run x := by
  obtain ⟨hstep, ⟨d, hd, rfl, hsite⟩ | ⟨x, hsite, hx, e, he, hxe⟩⟩ := Step.lastWrite_cases hw
  · refine ⟨hstep, d.init, by simp [Step.gives, hd], ?_⟩
    rw [hsite]
    exact hd
  · refine ⟨hstep, ?_⟩
    rw [hsite]
    cases hg : s.gives with
    | none =>
      -- Nothing is written by a step that gives nothing.
      have hskip : s.isSkip = true := by simpa [hg] using h.1
      unfold Step.isSkip at hskip
      split at hskip
      · rename_i ha
        simp [Step.lastWrite, ha] at hw
      · cases hskip
    | some g =>
      obtain ⟨u, value⟩ := g
      have hq := h.quiet hg
      rcases Step.gives_cases hg with ⟨d, hd, -, rfl⟩ | ⟨n, lhs, hrun, hlhs⟩
      · obtain rfl : e = d.init := by simpa [Step.exprs, hd] using he
        exact absurd hx (hq.not_writes hxe)
      · obtain rfl : e = .binary n .assign lhs value := by simpa [Step.exprs, hrun] using he
        rw [Expr.subterms, List.mem_cons, List.mem_append] at hxe
        rcases hxe with rfl | hxe | hxe
        · obtain ⟨_, _, _, _, heq, -, hin⟩ := hx
          cases heq
          refine ⟨value, ?_, hrun⟩
          rcases hlhs with ⟨n', i, rfl, rfl⟩ | ⟨n', i, name, rfl, rfl⟩
          · rw [Expr.eq_of_root rfl hin]
          · rw [Expr.eq_of_root rfl hin]
        · obtain ⟨_, _, _, _, rfl, -⟩ := hx
          rcases hlhs with ⟨n', i, rfl, rfl⟩ | ⟨n', i, name, rfl, rfl⟩ <;> simp at hxe
        · exact absurd hx (hq.not_writes hxe)

namespace StraightLine

variable (h : p.StraightLine)
include h

theorem declared_once {d d' : LocalDecl} (hs : s ∈ p.scope) (ht : t ∈ p.scope)
    (hd : s.action = .declare d) (hd' : t.action = .declare d') (hv : d.var = d'.var) : s = t := by
  have hks : s.declared? = some d'.var := by simp [Step.declared?, hd, hv]
  have hkt : t.declared? = some d'.var := by simp [Step.declared?, hd']
  exact Scope.eq_of_key h.locals hs ht hks hkt

/-- The write that reaches a use is the last step before it that gives the variable a value. -/
theorem find_last (hw : (p.scope.upTo o).find v = some w) :
    ∃ s ∈ p.scope.upTo o, ∃ e, s.gives = some (v, e) ∧
    s.id = w.step ∧ ∀ t ∈ p.scope.upTo o, ∀ e', t.gives = some (v, e') →
    p.scope.rank t.id ≤ p.scope.rank s.id := by
  obtain ⟨l, s, r, heq, hl, hnone⟩ := Scope.find_split hw
  have hs : s ∈ p.scope.upTo o := by simp [heq]
  obtain ⟨hstep, e, hg, -⟩ := (h.straight s (Scope.upTo_subset hs)).lastWrite hl
  refine ⟨s, hs, e, hg, hstep.symm, fun t ht e' ht' => ?_⟩
  have hbefore : p.scope.upTo s.id = l := by
    rw [← Scope.upTo_upTo ⟨s, hs, rfl⟩, heq]
    exact Scope.upTo_of_nodup (heq ▸ Scope.nodup_upTo h.steps o)
  have htscope := Scope.upTo_subset ht
  rw [heq, List.mem_append, List.mem_cons] at ht
  rcases ht with ht | rfl | ht
  · rw [← hbefore] at ht
    exact Nat.le_of_lt ((Scope.mem_upTo_iff h.steps htscope).1 ht)
  · exact Nat.le_refl _
  · exact absurd (Scope.find_eq_none.1 hnone t ht) (Step.lastWrite_of_gives ht')

theorem run_reached (hw : (p.scope.upTo o).find v = some w) (hs : s ∈ p.scope) (hid : s.id = w.step)
    (hg : s.gives = some (v, e)) :
    (p.scope.upTo o).run I m (.var v) = e.eval I ((p.scope.upTo s.id).run I m) := by
  obtain ⟨t, ht, hl, hrun⟩ := Scope.run_find (I := I) (m := m) (Scope.nodup_upTo h.steps o) hw
  obtain rfl : t = s :=
    Scope.eq_of_id h.steps (Scope.upTo_subset ht) hs ((Scope.lastWrite_step hl).symm.trans hid.symm)
  rw [hrun, Step.exec_gives hg, Scope.before_upTo hw, hid]
  exact Function.update_self ..

/-- The last write to an output, and what the output is left with. -/
theorem find_output {x : Expr} {i : Nat} (hw : p.scope.find (.param i) = some ⟨.assignment x, o⟩) :
    ∃ s ∈ p.scope, s.id = o ∧ s.action = .run x ∧ ∃ e, s.gives = some (.param i, e) ∧
      p.scope.run I m (.var (.param i)) = e.eval I ((p.scope.upTo o).run I m) := by
  obtain ⟨s, hs, hl, hrun⟩ := Scope.run_find (I := I) (m := m) h.steps hw
  obtain ⟨hstep, e, hg, haction⟩ := (h.straight s hs).lastWrite hl
  refine ⟨s, hs, hstep.symm, haction, e, hg, ?_⟩
  rw [hrun, Step.exec_gives hg]
  exact Function.update_self ..

theorem output_param {i : Nat} (hw : p.scope.find (.param i) = some w) :
    ∃ q, p.fn.params[i]? = some q ∧ q.role.isOutput = true := by
  obtain ⟨s, hs, hl⟩ := Scope.find_mem hw
  obtain ⟨-, e, hg, -⟩ := (h.straight s hs).lastWrite hl
  exact (Option.any_eq_true _ _).1 (isOutput_of_device ((h.straight s hs).output hg))

theorem run_input {i : Nat} (hi : p.isOutput i = false) :
    (p.scope.upTo o).run I m (.var (.param i)) = m (.var (.param i)) := by
  refine Scope.run_frame (Scope.find_eq_none.2 fun s hs => ?_)
  cases hl : s.lastWrite (.param i) with
  | none => rfl
  | some w =>
    have hstraight := h.straight s (Scope.upTo_subset hs)
    obtain ⟨-, e, hg, -⟩ := hstraight.lastWrite hl
    exact absurd (hi.symm.trans (isOutput_of_device (hstraight.output hg))) (by simp)

end StraightLine
end Pipeline
end ShaderSplit
