import ShaderSplit.Proofs.Meaning.Faithful
import ShaderSplit.Proofs.Meaning.Issue

namespace ShaderSplit

universe u

variable {V : Type u} {I : Interp V} {view : Memory V → Memory V} {m : Memory V}

def StageStmt.reads : StageStmt → List LocalId
  | decl d => d.init.locals
  | expr (.binary _ _ _ rhs) => rhs.locals
  | _ => []

namespace Step

def reads (s : Step) : List LocalId :=
  match s.gives with
  | some (_, e) => e.locals
  | none => []

def local? (s : Step) : Option LocalId :=
  match s.gives with
  | some (.localVar v, _) => some v
  | _ => none

variable {s : Step} {st : StageStmt} {v : Var} {e : Expr}

theorem Makes.reads (h : s.Makes st) (hs : s.gives = some (v, e)) : st.reads = e.locals := by
  rcases h.cases hs with ⟨d, -, rfl, -, rfl⟩ | ⟨n, lhs, -, rfl, -⟩
  · rfl
  · rfl

theorem Makes.exec (h : s.Makes st) (hs : s.gives = some (v, e)) :
    st.exec I view m = (e.eval I (view m)).map fun y => Function.update m (.var v) (some y) := by
  rcases h.cases hs with ⟨d, -, rfl, rfl, rfl⟩
    | ⟨n, lhs, -, rfl, ⟨n', i, rfl, rfl⟩ | ⟨n', i, name, rfl, rfl⟩⟩
  · rfl
  · simp [StageStmt.exec, Expr.effect, Expr.root, Expr.assigned, Expr.stored, BinaryOp.isAssignment]
  · simp [StageStmt.exec, Expr.effect, Expr.root, Expr.assigned, Expr.stored, BinaryOp.isAssignment]

theorem all_value {P : Expr → Prop} (hs : s.gives = some (v, e)) (h : ∀ x ∈ s.exprs, x.All P) :
    e.All P := by
  rcases gives_cases hs with ⟨d, hd, -, rfl⟩ | ⟨n, lhs, hrun, -⟩
  · exact h _ (by simp [exprs, hd])
  · exact (Expr.all_binary.1 (h (.binary n .assign lhs e) (by simp [exprs, hrun]))).2.2

end Step

namespace Pipeline

variable (p : Pipeline)

def position (st : StageStmt) : Nat := p.scope.findIdx fun s =>
  match st with
  | .decl d => s.declared? == some d.var
  | .expr e => s.runs? == some e.node.id
  | _ => false

/-- No statement comes behind a write, to a local that it reads, which the body has after it. -/
def KeepsReads (b : List StageStmt) : Prop := b.Pairwise fun st' st =>
  ∀ v ∈ st.reads, st'.target = some (.var (.localVar v)) → p.position st' < p.position st

/-- A local that is written again has been read by its writes alone. -/
def Accumulates : Prop :=
  p.scope.Pairwise fun s t => ∀ v ∈ s.reads, t.local? = some v → s.local? = some v

/-- The statements of a block are steps of the body. Writes to one local stand in the order of the
body, and a read comes behind the write that reaches it there: the last one before it. -/
structure InOrder (b : List StageStmt) : Prop where
  steps : ∀ st ∈ b, ∃ s, p.scope[p.position st]? = some s ∧ s.Makes st
  writes : b.Pairwise fun st' st => ∀ v, st'.target = some (.var (.localVar v)) →
    st.target = some (.var (.localVar v)) → p.position st' < p.position st
  reads : ∀ l st r, b = l ++ st :: r → ∀ v ∈ st.reads, ∃ st' ∈ l,
    st'.target = some (.var (.localVar v)) ∧ p.position st' < p.position st ∧
    ∀ k s, p.position st' < k → k < p.position st → p.scope[k]? = some s → s.local? ≠ some v

instance (b : List StageStmt) : Decidable (p.KeepsReads b) :=
  inferInstanceAs (Decidable (b.Pairwise _))

instance : Decidable p.Accumulates := inferInstanceAs (Decidable (p.scope.Pairwise _))

structure Sees (view : Memory V → Memory V) : Prop where
  params : ∀ m i, i < p.fn.params.length → view m (.var (.param i)) = m (.var (.param i))
  locals : ∀ m v, view m (.var (.localVar v)) = m (.var (.localVar v))

variable {p} {sc : Scope} {os : List NodeId} {q : List (StageStmt × Option NodeId)} {s t : Step}
  {st : StageStmt} {v : Var} {e : Expr} {x : Nat → V}

theorem Sees.eval (hview : p.Sees view) (he : e.All (p.Available sc os)) :
    e.eval I (view m) = e.eval I m := by
  refine Expr.eval_congr (he.mono fun z hz c hc => ?_)
  cases z with
  | param n i =>
    cases hc
    exact hview.params m i hz
  | localVar n v name =>
    cases hc
    exact hview.locals m v
  | interface => exact hz.elim
  | _ => cases hc

namespace Issued

theorem mem_cases {tag : StageStmt × Option NodeId} (hq : p.Issued q) (ht : tag ∈ q) :
    (∃ s ∈ p.scope, ∃ v e, tag.2 = some s.id ∧ s.Makes tag.1 ∧ s.gives = some (.localVar v, e)) ∨
      ∃ i x o, tag = (.expr x, none) ∧ p.scope.find (.param i) = some ⟨.assignment x, o⟩ := by
  induction hq with
  | nil => cases ht
  | @write q s st v e _ hs hst hg _ _ ih =>
    rcases List.mem_append.1 ht with ht | ht
    · exact ih ht
    · obtain rfl := List.mem_singleton.1 ht
      exact .inl ⟨s, hs, v, e, rfl, hst, hg⟩
  | @output q i x o _ hw _ ih =>
    rcases List.mem_append.1 ht with ht | ht
    · exact ih ht
    · exact .inr ⟨i, x, o, List.mem_singleton.1 ht, hw⟩

theorem made (hq : p.Issued q) (h : p.StraightLine) (hs : s ∈ p.scope) (ho : s.id ∈ origins q) :
    ∃ st ∈ q.map (·.1), s.Makes st := by
  obtain ⟨tag, htag, hid⟩ := List.mem_filterMap.1 ho
  rcases hq.mem_cases htag with ⟨t, ht, v, e, hid', hmakes, -⟩ | ⟨i, x, o, rfl, -⟩
  · obtain rfl := Scope.eq_of_id h.steps hs ht (Option.some.inj (hid.symm.trans hid'))
    exact ⟨tag.1, List.mem_map_of_mem htag, hmakes⟩
  · cases hid

theorem of_local {v : LocalId} (hq : p.Issued q) (h : p.StraightLine) (hst : st ∈ q.map (·.1))
    (ht : st.target = some (.var (.localVar v))) :
    ∃ s ∈ p.scope, s.id ∈ origins q ∧ s.Makes st ∧ ∃ e, s.gives = some (.localVar v, e) := by
  obtain ⟨tag, htag, rfl⟩ := List.mem_map.1 hst
  rcases hq.mem_cases htag with ⟨s, hs, u, e, hid, hmakes, hg⟩ | ⟨i, x, o, rfl, hw⟩
  · cases (hmakes.target hg).symm.trans ht
    exact ⟨s, hs, List.mem_filterMap.2 ⟨tag, htag, hid⟩, hmakes, e, hg⟩
  · obtain ⟨_, -, -, hmakes, -, _, hg⟩ := h.makes_output hw
    cases (hmakes.target hg).symm.trans ht

theorem of_output {i : Nat} (hq : p.Issued q) (h : p.StraightLine) (hst : st ∈ q.map (·.1))
    (ht : st.target = some (.var (.param i))) :
    ∃ x o, st = .expr x ∧ p.scope.find (.param i) = some ⟨.assignment x, o⟩ := by
  obtain ⟨tag, htag, rfl⟩ := List.mem_map.1 hst
  rcases hq.mem_cases htag with ⟨s, hs, u, e, -, hmakes, hg⟩ | ⟨j, x, o, rfl, hw⟩
  · cases (hmakes.target hg).symm.trans ht
  · obtain ⟨_, -, -, hmakes, -, _, hg⟩ := h.makes_output hw
    cases (hmakes.target hg).symm.trans ht
    exact ⟨x, o, rfl, hw⟩

theorem target_ne_input {i : Nat} (hq : p.Issued q) (h : p.StraightLine) (hi : p.isOutput i = false)
    (hst : st ∈ q.map (·.1)) : st.target ≠ some (.var (.param i)) := by
  intro ht
  obtain ⟨x, o, -, hw⟩ := hq.of_output h hst ht
  obtain ⟨s, hs, -, -, -, e, hg⟩ := h.makes_output hw
  have hout := isOutput_of_device ((h.straight s hs).output hg)
  exact absurd (hi.symm.trans hout) (by simp)

end Issued

theorem StraightLine.position_eq (h : p.StraightLine) (hs : s ∈ p.scope) (hst : s.Makes st)
    (hg : s.gives = some (v, e)) : p.position st = p.scope.rank s.id := by
  rcases hst.cases hg with ⟨d, hd, rfl, -, -⟩ | ⟨n, lhs, hn, rfl, -⟩
  · exact Scope.findIdx_key h.steps h.locals hs hd
  · exact Scope.findIdx_key h.steps h.exprs hs hn

theorem StraightLine.getElem?_position (h : p.StraightLine) (hs : s ∈ p.scope) (hst : s.Makes st)
    (hg : s.gives = some (v, e)) : p.scope[p.position st]? = some s := by
  obtain ⟨hlt, hget⟩ := Scope.getElem_rank h.steps hs
  rw [h.position_eq hs hst hg, List.getElem?_eq_getElem hlt, hget]

/-- The write that reaches a read has been issued. -/
theorem Issued.reached (hq : p.Issued q) (h : p.StraightLine) (hs : s ∈ p.scope) (hst : s.Makes st)
    (hg : s.gives = some (v, e)) (hr : e.All (p.Available (p.scope.upTo s.id) (origins q)))
    {u : LocalId} (hu : u ∈ st.reads) : ∃ st' ∈ q.map (·.1),
      st'.target = some (.var (.localVar u)) ∧ p.position st' < p.position st ∧
      ∀ k t, p.position st' < k → k < p.position st → p.scope[k]? = some t → t.local? ≠ some u := by
  rw [hst.reads hg] at hu
  obtain ⟨n, name, hz⟩ := Expr.mem_locals.1 hu
  obtain ⟨w, hw, ho⟩ := hr _ hz
  obtain ⟨t, ht, e', ht', hid, hlast⟩ := h.find_last hw
  have htscope := Scope.upTo_subset ht
  obtain ⟨st', hst', hmakes⟩ := hq.made h htscope (hid ▸ ho)
  refine ⟨st', hst', hmakes.target ht', ?_⟩
  rw [h.position_eq htscope hmakes ht', h.position_eq hs hst hg]
  refine ⟨(Scope.mem_upTo_iff h.steps htscope).1 ht, fun k y htk hks hy hl => ?_⟩
  -- a write in between would be the last one before the read
  have hrank := Scope.rank_of_getElem? h.steps hy
  have hyscope := List.mem_of_getElem? hy
  obtain ⟨e'', hy'⟩ : ∃ e'', y.gives = some (.localVar u, e'') := by
    unfold Step.local? at hl
    split at hl
    · cases hl
      exact ⟨_, ‹_›⟩
    · cases hl
  have hle := hlast y ((Scope.mem_upTo_iff h.steps hyscope).2 (hrank ▸ hks)) e'' hy'
  omega

theorem InOrder.snoc {b : List StageStmt} (hb : p.InOrder b)
    (hstep : ∃ s, p.scope[p.position st]? = some s ∧ s.Makes st)
    (hwrites : ∀ st' ∈ b, ∀ v, st'.target = some (.var (.localVar v)) →
      st.target = some (.var (.localVar v)) → p.position st' < p.position st)
    (hreads : ∀ v ∈ st.reads, ∃ st' ∈ b,
      st'.target = some (.var (.localVar v)) ∧ p.position st' < p.position st ∧
      ∀ k s, p.position st' < k → k < p.position st → p.scope[k]? = some s → s.local? ≠ some v) :
    p.InOrder (b ++ [st]) := by
  refine ⟨fun st₁ hst₁ => ?_, ?_, fun l st₁ r heq => ?_⟩
  · rcases List.mem_append.1 hst₁ with hst₁ | hst₁
    · exact hb.steps st₁ hst₁
    · exact List.mem_singleton.1 hst₁ ▸ hstep
  · refine List.pairwise_append.2 ⟨hb.writes, List.pairwise_singleton _ _,
      fun st' hst' st₁ hst₁ => ?_⟩
    exact List.mem_singleton.1 hst₁ ▸ hwrites st' hst'
  · rcases List.eq_nil_or_concat r with rfl | ⟨r, y, rfl⟩
    · obtain ⟨rfl, hst⟩ := List.append_inj' heq rfl
      cases hst
      exact hreads
    · have hsplit : b ++ [st] = (l ++ st₁ :: r) ++ [y] := by simpa using heq
      exact hb.reads l st₁ r (List.append_inj' hsplit rfl).1

theorem Issued.inOrder (hq : p.Issued q) (h : p.StraightLine) : p.InOrder (q.map (·.1)) := by
  induction hq with
  | nil => exact ⟨by simp, List.Pairwise.nil, by simp⟩
  | @write q s st v e hq hs hst hg hnew hr ih =>
    rw [List.map_append]
    refine ih.snoc ⟨s, h.getElem?_position hs hst hg, hst⟩ (fun st' hst' u ht' ht => ?_)
      fun u => hq.reached h hs hst hg (Step.all_value hg hr)
    cases (hst.target hg).symm.trans ht
    obtain ⟨t, hts, ho, hmakes, e', hg'⟩ := hq.of_local h hst' ht'
    rw [h.position_eq hts hmakes hg', h.position_eq hs hst hg]
    exact h.issued_in_order hq hs hg hnew hr hts ho hg'
  | @output q i x o hq hw hr ih =>
    obtain ⟨s, hs, rfl, hst, hexprs, e, hg⟩ := h.makes_output hw
    rw [List.map_append]
    refine ih.snoc ⟨s, h.getElem?_position hs hst hg, hst⟩ (fun st' hst' u ht' ht => ?_)
      fun u => hq.reached h hs hst hg (Step.all_value hg (by simpa [hexprs] using hr))
    cases (hst.target hg).symm.trans ht

/-- A step comes behind no write that the body has after it, if its own writes are
issued in order. -/
theorem Issued.behind (hq : p.Issued q) (h : p.StraightLine) (hacc : p.Accumulates)
    (hs : s ∈ p.scope) (hst : s.Makes st) (hg : s.gives = some (v, e))
    (horder : ∀ u, v = .localVar u → ∀ t ∈ p.scope, t.id ∈ origins q →
      ∀ e', t.gives = some (.localVar u, e') → p.scope.rank t.id < p.scope.rank s.id) :
    ∀ st' ∈ q.map (·.1), ∀ u ∈ st.reads, st'.target = some (.var (.localVar u)) →
    p.position st' < p.position st := by
  intro st' hst' u hu ht
  obtain ⟨t, hts, ho, hmakes, e', ht'⟩ := hq.of_local h hst' ht
  rw [h.position_eq hts hmakes ht', h.position_eq hs hst hg]
  by_contra hnot
  -- Were the write behind the read in the body, the read would be a write too, and
  -- issued before it.
  have hwrites : s.local? = some u ∨ s = t := by
    rcases Nat.lt_or_eq_of_le (Nat.le_of_not_lt hnot) with hlt | heq
    · have hR := Scope.pairwise_rank hacc h.steps hs hts hlt
      refine .inl (hR u ?_ ?_)
      · simpa [Step.reads, hg, hst.reads hg] using hu
      · simp [Step.local?, ht']
    · exact .inr (Scope.rank_inj h.steps hs hts heq)
  have hv : v = .localVar u := by
    rcases hwrites with hl | rfl
    · unfold Step.local? at hl
      rw [hg] at hl
      cases v with
      | param => cases hl
      | localVar => simpa using hl
    · exact congrArg Prod.fst (Option.some.inj (hg.symm.trans ht'))
  exact hnot (horder u hv t hts ho e' ht')

/-- If a local that is written again is read by its writes alone, no read is overtaken. -/
theorem Issued.keepsReads (hq : p.Issued q) (h : p.StraightLine) (hacc : p.Accumulates) :
    p.KeepsReads (q.map (·.1)) := by
  induction hq with
  | nil => exact List.Pairwise.nil
  | @write q s st v e hq hs hst hg hnew hr ih =>
    rw [List.map_append]
    refine List.pairwise_append.2 ⟨ih, List.pairwise_singleton _ _, fun st' hst' st₁ hst₁ => ?_⟩
    obtain rfl : st₁ = st := by simpa using hst₁
    refine hq.behind h hacc hs hst hg (fun u hu t ht ho e' ht' => ?_) st' hst'
    cases hu
    exact h.issued_in_order hq hs hg hnew hr ht ho ht'
  | @output q i x o hq hw hr ih =>
    obtain ⟨s, hs, -, hst, -, e, hg⟩ := h.makes_output hw
    rw [List.map_append]
    refine List.pairwise_append.2 ⟨ih, List.pairwise_singleton _ _, fun st' hst' st₁ hst₁ => ?_⟩
    obtain rfl : st₁ = .expr x := by simpa using hst₁
    exact hq.behind h hacc hs hst hg (fun u hu => by cases hu) st' hst'

structure Filled (p : Pipeline) (q : List (StageStmt × Option NodeId)) (m : Memory V) : Prop where
  params : ∀ i, ∃ y, m (.var (.param i)) = some y
  locals : ∀ s ∈ p.scope, s.id ∈ origins q → ∀ v e, s.gives = some (.localVar v, e) →
    ∃ y, m (.var (.localVar v)) = some y

theorem Filled.exec (hm : p.Filled q m) (h : p.StraightLine) (hview : p.Sees view)
    (hs : s ∈ p.scope) (hst : s.Makes st) (hg : s.gives = some (v, e))
    (hr : e.All (p.Available (p.scope.upTo s.id) (origins q))) :
    ∃ y, e.eval I m = some y ∧ st.exec I view m = some (Function.update m (.var v) (some y)) := by
  have hq := (h.straight s hs).quiet hg
  have hdefined : e.All (Expr.Defined m) := by
    intro z hz
    have havailable := hr z hz
    cases z with
    | binary => exact hq _ hz
    | param n i => exact hm.params i
    | localVar n u name =>
      obtain ⟨w, hw, ho⟩ := havailable
      obtain ⟨t, ht, e', ht', hid, -⟩ := h.find_last hw
      exact hm.locals t (Scope.upTo_subset ht) (hid ▸ ho) u e' ht'
    | interface | unsupported => exact havailable
    | _ => trivial
  obtain ⟨y, hy⟩ := Expr.eval_defined (I := I) hdefined
  refine ⟨y, hy, ?_⟩
  rw [hst.exec hg, hview.eval hr, hy]
  rfl

theorem Filled.update (hm : p.Filled q m) {q' : List (StageStmt × Option NodeId)} {y : V}
    (hq : ∀ s ∈ p.scope, s.id ∈ origins q' → s.id ∈ origins q ∨ ∃ e, s.gives = some (v, e)) :
    p.Filled q' (Function.update m (.var v) (some y)) := by
  have kept {u : Var} (hu : ∃ y, m (.var u) = some y) :
      ∃ z, Function.update m (.var v) (some y) (.var u) = some z := by
    by_cases huv : u = v
    · exact ⟨y, by rw [huv]; exact Function.update_self ..⟩
    · rw [Function.update_of_ne (by simpa using huv)]
      exact hu
  refine ⟨fun i => kept (hm.params i), fun s hs ho u e hu => ?_⟩
  rcases hq s hs ho with ho | ⟨e', hv⟩
  · exact kept (hm.locals s hs ho u e hu)
  · cases hv.symm.trans hu
    exact ⟨y, Function.update_self ..⟩

theorem Issued.run (hq : p.Issued q) (h : p.StraightLine) (hview : p.Sees view) (I : Interp V)
    (x : Nat → V) :
    ∃ m, (q.map (·.1)).foldlM (StageStmt.exec I view) (.input x) = some m ∧ p.Filled q m := by
  induction hq with
  | nil => exact ⟨.input x, rfl, fun i => ⟨x i, rfl⟩, by simp⟩
  | @write q s st v e _ hs hst hg _ hr ih =>
    obtain ⟨m, hrun, hm⟩ := ih
    obtain ⟨y, -, hexec⟩ := hm.exec (I := I) h hview hs hst hg (Step.all_value hg hr)
    refine ⟨Function.update m (.var (.localVar v)) (some y), ?_, hm.update fun t ht ho => ?_⟩
    · rw [List.map_append, List.foldlM_append, hrun]
      simpa using hexec
    · rw [origins_some, List.mem_append, List.mem_singleton] at ho
      refine ho.imp_right fun ho => ?_
      obtain rfl := Scope.eq_of_id h.steps ht hs ho
      exact ⟨e, hg⟩
  | @output q i z o _ hw hr ih =>
    obtain ⟨m, hrun, hm⟩ := ih
    obtain ⟨s, hs, rfl, hst, hexprs, e, hg⟩ := h.makes_output hw
    obtain ⟨y, -, hexec⟩ :=
      hm.exec (I := I) h hview hs hst hg (Step.all_value hg (by simpa [hexprs] using hr))
    refine ⟨Function.update m (.var (.param i)) (some y), ?_, hm.update
      fun t ht ho => .inl (by simpa using ho)⟩
    rw [List.map_append, List.foldlM_append, hrun]
    simpa using hexec

/-- A memory agrees with the body: a local has the value that the last of its issued writes
gives it there. -/
structure Agrees (p : Pipeline) (I : Interp V) (x : Nat → V) (q : List (StageStmt × Option NodeId))
    (m : Memory V) : Prop where
  locals : ∀ s ∈ p.scope, s.id ∈ origins q → ∀ v e, s.gives = some (.localVar v, e) →
    (∀ t ∈ p.scope, t.id ∈ origins q → ∀ e', t.gives = some (.localVar v, e') →
      p.scope.rank t.id ≤ p.scope.rank s.id) →
    m (.var (.localVar v)) = e.eval I ((p.scope.upTo s.id).run I (.input x))
  inputs : ∀ i, (∀ st ∈ q.map (·.1), st.target ≠ some (.var (.param i))) →
    m (.var (.param i)) = some (x i)
  outputs : ∀ i, ∀ st ∈ q.map (·.1), st.target = some (.var (.param i)) →
    m (.var (.param i)) = p.scope.run I (.input x) (.var (.param i))

/-- A step gives the body's value if no write that it comes behind stands behind it in the body. -/
theorem Agrees.eval (hm : p.Agrees I x q m) (h : p.StraightLine) (hq : p.Issued q)
    (hs : s ∈ p.scope) (hst : s.Makes st) (hg : s.gives = some (v, e))
    (hr : e.All (p.Available (p.scope.upTo s.id) (origins q)))
    (hkeeps : ∀ st' ∈ q.map (·.1), ∀ u ∈ st.reads, st'.target = some (.var (.localVar u)) →
      p.position st' < p.position st) :
    e.eval I m = e.eval I ((p.scope.upTo s.id).run I (.input x)) := by
  have hquiet := (h.straight s hs).quiet hg
  refine Expr.eval_congr fun z hz c hc => ?_
  have havailable := hr z hz
  cases z with
  | param n i =>
    cases hc
    have hi : p.isOutput i = false := hquiet _ hz
    rw [hm.inputs i fun st' hst' => hq.target_ne_input h hi hst', h.run_input hi]
    rfl
  | localVar n u name =>
    cases hc
    obtain ⟨w, hw, ho⟩ := havailable
    obtain ⟨t, ht, e', ht', hid, hlast⟩ := h.find_last hw
    have htscope := Scope.upTo_subset ht
    rw [h.run_reached hw htscope hid ht']
    refine hm.locals t htscope (hid ▸ ho) u e' ht' fun t₁ ht₁ ho₁ e₁ hg₁ => ?_
    -- The write that reaches the step in the body is the last one that it comes behind.
    obtain ⟨st₁, hst₁, hmakes⟩ := hq.made h ht₁ ho₁
    have hread : u ∈ st.reads := by
      rw [hst.reads hg]
      exact Expr.mem_locals.2 ⟨n, name, hz⟩
    have hlt := hkeeps st₁ hst₁ u hread (hmakes.target hg₁)
    rw [h.position_eq ht₁ hmakes hg₁, h.position_eq hs hst hg] at hlt
    exact hlast t₁ ((Scope.mem_upTo_iff h.steps ht₁).2 hlt) e₁ hg₁
  | interface => exact havailable.elim
  | _ => cases hc

theorem Agrees.write {v : LocalId} {y : V} (hm : p.Agrees I x q m) (h : p.StraightLine)
    (hq : p.Issued q) (hs : s ∈ p.scope) (hst : s.Makes st) (hg : s.gives = some (.localVar v, e))
    (hnew : s.id ∉ origins q)
    (hr : ∀ z ∈ s.exprs, z.All (p.Available (p.scope.upTo s.id) (origins q)))
    (hy : e.eval I ((p.scope.upTo s.id).run I (.input x)) = some y) :
    p.Agrees I x (q ++ [(st, some s.id)]) (Function.update m (.var (.localVar v)) (some y)) := by
  refine ⟨fun t ht ho u e' hu hmax => ?_, fun i hi => ?_, fun i st' hst' ht' => ?_⟩
  · rw [origins_some, List.mem_append, List.mem_singleton] at ho
    by_cases huv : u = v
    · subst huv
      -- All writes issued before stand before this one, so none of them is the last.
      obtain rfl : t = s := by
        rcases ho with ho | ho
        · have hlt := h.issued_in_order hq hs hg hnew hr ht ho hu
          have hle := hmax s hs (by simp) e hg
          omega
        · exact Scope.eq_of_id h.steps ht hs ho
      cases hg.symm.trans hu
      rw [Function.update_self, hy]
    · have hne : t.id ≠ s.id := by
        intro hid
        obtain rfl := Scope.eq_of_id h.steps ht hs hid
        cases hg.symm.trans hu
        exact huv rfl
      rw [Function.update_of_ne (by simpa using huv)]
      refine hm.locals t ht (ho.resolve_right hne) u e' hu fun t₁ ht₁ ho₁ => ?_
      exact hmax t₁ ht₁ (by simp [ho₁])
  · rw [Function.update_of_ne (by simp)]
    exact hm.inputs i fun st' hst' => hi st' (by simp [List.mem_map.1 hst'])
  · rw [Function.update_of_ne (by simp)]
    rw [List.map_append, List.mem_append] at hst'
    rcases hst' with hst' | hst'
    · exact hm.outputs i st' hst' ht'
    · obtain rfl : st' = st := by simpa using hst'
      cases (hst.target hg).symm.trans ht'

theorem Agrees.output {i : Nat} {y : V} (hm : p.Agrees I x q m)
    (ht : st.target = some (.var (.param i)))
    (hy : p.scope.run I (.input x) (.var (.param i)) = some y) :
    p.Agrees I x (q ++ [(st, none)]) (Function.update m (.var (.param i)) (some y)) := by
  refine ⟨fun s hs ho u e hu hmax => ?_, fun j hj => ?_, fun j st' hst' ht' => ?_⟩
  · rw [Function.update_of_ne (by simp)]
    exact hm.locals s hs (by simpa using ho) u e hu (by simpa using hmax)
  · have hne : j ≠ i := by
      rintro rfl
      exact hj st (by simp) ht
    rw [Function.update_of_ne (by simpa using hne)]
    exact hm.inputs j fun st' hst' => hj st' (by simp [List.mem_map.1 hst'])
  · by_cases hji : j = i
    · rw [hji, Function.update_self, hy]
    · rw [Function.update_of_ne (by simpa using hji)]
      rw [List.map_append, List.mem_append] at hst'
      rcases hst' with hst' | hst'
      · exact hm.outputs j st' hst' ht'
      · obtain rfl : st' = st := by simpa using hst'
        cases ht.symm.trans ht'
        exact absurd rfl hji

theorem run_issued {tag : StageStmt × Option NodeId} {m' : Memory V}
    (hm' : ((q ++ [tag]).map (·.1)).foldlM (StageStmt.exec I view) m = some m') :
    ∃ m₀, (q.map (·.1)).foldlM (StageStmt.exec I view) m = some m₀ ∧
    tag.1.exec I view m₀ = some m' := by
  rw [List.map_append, List.foldlM_append] at hm'
  obtain ⟨m₀, hrun, hexec⟩ := Option.bind_eq_some_iff.1 hm'
  exact ⟨m₀, hrun, by simpa using hexec⟩

/-- If no read is overtaken, running what has been issued agrees with the body. -/
theorem Issued.agrees (hq : p.Issued q) (h : p.StraightLine) (hview : p.Sees view)
    (hkeeps : p.KeepsReads (q.map (·.1)))
    (hm : (q.map (·.1)).foldlM (StageStmt.exec I view) (.input x) = some m) : p.Agrees I x q m := by
  induction hq generalizing m with
  | nil =>
    cases hm
    exact ⟨by simp, fun i _ => rfl, by simp⟩
  | @write q s st v e hq hs hst hg hnew hr ih =>
    obtain ⟨m₀, hrun, hexec⟩ := run_issued hm
    rw [List.map_append] at hkeeps
    obtain ⟨hbefore, -, hlast⟩ := List.pairwise_append.1 hkeeps
    have hm₀ := ih hbefore hrun
    have havailable := Step.all_value hg hr
    -- what the statement reads was not overwritten since, so it has the value that the
    -- body gives it
    have heval := hm₀.eval h hq hs hst hg havailable fun st' hst' => hlast st' hst' st (by simp)
    rw [hst.exec hg, hview.eval havailable] at hexec
    obtain ⟨y, hy, rfl⟩ := Option.map_eq_some_iff.1 hexec
    exact hm₀.write h hq hs hst hg hnew hr (heval ▸ hy)
  | @output q i z o hq hw hr ih =>
    obtain ⟨m₀, hrun, hexec⟩ := run_issued hm
    rw [List.map_append] at hkeeps
    obtain ⟨hbefore, -, hlast⟩ := List.pairwise_append.1 hkeeps
    have hm₀ := ih hbefore hrun
    obtain ⟨s, hs, rfl, haction, e, hg, hbody⟩ := h.find_output (I := I) (m := .input x) hw
    have hst : s.Makes (.expr z) := by simp [Step.Makes, haction]
    have havailable : e.All (p.Available (p.scope.upTo s.id) (origins q)) :=
      Step.all_value hg (by simpa [Step.exprs, haction] using hr)
    have heval :=
      hm₀.eval h hq hs hst hg havailable fun st' hst' => hlast st' hst' (.expr z) (by simp)
    rw [hst.exec hg, hview.eval havailable] at hexec
    obtain ⟨y, hy, rfl⟩ := Option.map_eq_some_iff.1 hexec
    exact hm₀.output (hst.target hg) (by rw [hbody, ← heval, hy])

theorem VertexOnly.sees (hv : p.VertexOnly) (d : Draft) :
    p.Sees ((d.finish p).view (V := V) .vertex) := by
  refine ⟨fun m i hi => if_pos ?_, fun _ _ => rfl⟩
  have hq : p.fn.params[i]? = some p.fn.params[i] := List.getElem?_eq_getElem hi
  have hrole := hv p.fn.params[i] (List.getElem_mem hi)
  show p.fn.params[i]?.map _ = _
  rw [hq, Option.map_some, Role.stage_of_onVertex hrole]

theorem input_enter (x : Nat → V) : (Memory.input x).enter = Memory.input x := by
  funext c
  cases c with
  | var v => cases v <;> rfl
  | field => rfl

variable {c : Catalog} {d : DeclIndex} {f : PipelineFn} {prog : Program} {notices : List String}

/-- A straight-line function of the vertex stage, in which locals are assigned again and again. Its
block keeps writes in order and reads behind what reaches them, and runs to the end. Every output
has the body's value if no read is overtaken by a later write to what it reads, and none is if a
local that is written again is read by its writes alone. -/
theorem split_reassigned (hcheck : Pipeline.check c d f = .ok p) (hvertex : p.VertexOnly)
    (hbody : p.StraightLine) (h : p.split = (.ok prog, notices)) (I : Interp V) (x : Nat → V) :
    p.InOrder (prog.blocks.get .vertex) ∧
    ∃ m, prog.runBlock I .vertex (.input x) = some m ∧
      (p.Accumulates → p.KeepsReads (prog.blocks.get .vertex)) ∧
      (p.KeepsReads (prog.blocks.get .vertex) →
        ∀ i, m (.var (.param i)) = p.scope.run I (.input x) (.var (.param i))) := by
  obtain ⟨d, hrun, rfl⟩ := split_runs h
  have hstart : p.Issued ((Draft.start p).queue .vertex).tags := .nil
  obtain ⟨hissued, -, houtputs⟩ := hrun.issued hbody hvertex (fun _ hz => hz) hstart
  -- nothing is lifted, so the block is the queue without its counts
  have hblock : (d.finish p).blocks.get .vertex = (d.queue .vertex).tags.map (·.1) :=
    (Draft.finish_block d p .vertex).trans (Queue.statements_eq _)
  have hsees := hvertex.sees (V := V) d
  obtain ⟨m, hm, -⟩ := hissued.run hbody hsees I x
  refine ⟨hblock ▸ hissued.inOrder hbody, m, ?_, fun hacc => ?_, fun hkeeps i => ?_⟩
  · rw [Program.runBlock, hblock, input_enter]
    exact hm
  · rw [hblock]
    exact hissued.keepsReads hbody hacc
  · rw [hblock] at hkeeps
    have hagrees := hissued.agrees hbody hsees hkeeps hm
    cases hw : p.scope.find (.param i) with
    | none =>
      rw [Scope.run_frame hw]
      refine hagrees.inputs i fun st hst ht => ?_
      obtain ⟨_, _, -, hfind⟩ := hissued.of_output hbody hst ht
      cases hw.symm.trans hfind
    | some w =>
      obtain ⟨q, hq, hout⟩ := hbody.output_param hw
      have hrole := Role.stage_of_onVertex (hvertex q (List.mem_of_getElem? hq))
      have hmem : (.vertex, q, i) ∈ p.allOutputs := by
        refine mem_allOutputs_of (StageSet.mem_devices.2 ⟨?_, by simp⟩) hq hout hrole
        exact (check_stages hcheck).2 (.inr (.inl rfl))
      obtain ⟨t, ht, htarget⟩ := houtputs .vertex q i w hmem hw
      exact hagrees.outputs i t.1 (List.mem_map_of_mem ht) htarget

end Pipeline

namespace Sample

open Workbench

def vert : Declaration :=
  ⟨0, [], .record "Vert" [⟨"a", .float, .dummy⟩, ⟨"b", .float, .dummy⟩], .dummy⟩

def vertexFn (name : String) (params : List Param) (body : Building (List Stmt)) : PipelineFn :=
  ⟨name, params, (body { Workbench.empty with declarations := [vert] }).1, .dummy⟩

def vertexPipeline (f : PipelineFn) : Pipeline :=
  ⟨bare, ⟨[vert]⟩, f, .ofParams bare ⟨[vert]⟩ f.params⟩

theorem check_vertexPipeline {f : PipelineFn}
    (h : (Signature.diagnostics bare ⟨[vert]⟩ f).isEmpty = true) :
    Pipeline.check bare ⟨[vert]⟩ f = .ok (vertexPipeline f) :=
  Pipeline.check_of_isEmpty h

/-- Sums, in which the two members of a record differ. -/
def records : Interp Nat :=
  { sums with member := fun _ field y => if field = "b" then y + 10 else y }

def vertexParams : List Param :=
  [⟨"v", .decl 0, .vertexBuffer 0, .dummy⟩, param "g" (.varyingOutput .vertex),
    param "o" (.varyingOutput .vertex)]

/-- A local is added to before it is read elsewhere. -/
def summed : PipelineFn :=
  let ps := vertexParams
  vertexFn "summed" ps do
    let (dc, c) ← declare "c" .float (← member (← arg ps 0) "a")
    let c' ← assign .assign (← useLocal c)
        (← binary .add (← useLocal c) (← member (← arg ps 0) "b"))
    let (dx, x) ← declare "x" .float (← binary .mul (← useLocal c) (← member (← arg ps 0) "a"))
    let g ← assign .assign (← arg ps 1) (← useLocal x)
    let o ← assign .assign (← arg ps 2) (← binary .add (← useLocal c) (← useLocal x))
    return [dc, c', dx, g, o]

/-- A copy of a local is kept while the local is assigned anew. -/
def staled : PipelineFn :=
  let ps := vertexParams
  vertexFn "staled" ps do
    let (dc, c) ← declare "c" .float (← member (← arg ps 0) "a")
    let (dx, x) ← declare "x" .float (← useLocal c)
    let c' ← assign .assign (← useLocal c) (← member (← arg ps 0) "b")
    let o ← assign .assign (← arg ps 2) (← binary .add (← useLocal c) (← useLocal x))
    return [dc, dx, c', o]

end Sample

open Sample in
theorem Pipeline.split_reassigned_summed : ∃ prog notices,
    Pipeline.check bare ⟨[vert]⟩ summed = .ok (vertexPipeline summed) ∧
    (vertexPipeline summed).VertexOnly ∧
    (vertexPipeline summed).StraightLine ∧ (vertexPipeline summed).split = (.ok prog, notices) ∧
    (vertexPipeline summed).InOrder (prog.blocks.get .vertex) ∧
    (vertexPipeline summed).KeepsReads (prog.blocks.get .vertex) ∧
    ∃ m, prog.runBlock records .vertex (.input (· + 1)) = some m ∧ m (.var (.param 1)) = some 13 ∧
      m (.var (.param 2)) = some 25 := by
  have hcheck := check_vertexPipeline (f := summed) (by decide +kernel)
  have hv : (vertexPipeline summed).VertexOnly := by decide +kernel
  have hs : (vertexPipeline summed).StraightLine :=
    ⟨by decide +kernel, by decide +kernel, by decide +kernel, by decide +kernel⟩
  have hacc : (vertexPipeline summed).Accumulates := by decide +kernel
  obtain ⟨prog, notices, h, -⟩ := exists_of_splits (vertexPipeline summed) (fun _ => true)
    (by decide +kernel)
  obtain ⟨horder, m, hrun, hkeeps, hvalues⟩ :=
    Pipeline.split_reassigned hcheck hv hs h records (· + 1)
  have value (i k : Nat)
      (hk : (vertexPipeline summed).scope.run records (.input (· + 1)) (.var (.param i)) = some k) :
      m (.var (.param i)) = some k := (hvalues (hkeeps hacc) i).trans hk
  exact ⟨prog, notices, hcheck, hv, hs, h, horder, hkeeps hacc, m, hrun,
    value 1 13 (by decide +kernel), value 2 25 (by decide +kernel)⟩

open Sample in
/-- The copy is made behind the new assignment. -/
theorem Pipeline.split_reassigned_staled : ∃ prog notices,
    Pipeline.check bare ⟨[vert]⟩ staled = .ok (vertexPipeline staled) ∧
    (vertexPipeline staled).VertexOnly ∧
    (vertexPipeline staled).StraightLine ∧ (vertexPipeline staled).split = (.ok prog, notices) ∧
    (vertexPipeline staled).scope.run records (.input (· + 1)) (.var (.param 2)) = some 12 ∧
    ∃ m, prog.runBlock records .vertex (.input (· + 1)) = some m ∧
    m (.var (.param 2)) = some 22 := by
  obtain ⟨prog, notices, h, hrun⟩ := exists_of_splits (vertexPipeline staled)
    (fun prog => (prog.runBlock records .vertex (.input (· + 1))).any
      fun m => m (.var (.param 2)) == some 22)
    (by decide +kernel)
  obtain ⟨m, hm, hvalue⟩ := (Option.any_eq_true _ _).1 hrun
  exact ⟨prog, notices, check_vertexPipeline (by decide +kernel), by decide +kernel,
    ⟨by decide +kernel, by decide +kernel, by decide +kernel, by decide +kernel⟩, h,
    by decide +kernel, m, hm,
    by simpa using hvalue⟩

end ShaderSplit
