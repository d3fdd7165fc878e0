import ShaderSplit.Proofs.Meaning.Sense
import ShaderSplit.Proofs.Partition.Closed

namespace ShaderSplit

universe u

def StageStmt.target : StageStmt → Option Cell
  | decl d => some (.var (.localVar d.var))
  | expr (.binary _ op lhs _) => if op.isAssignment then lhs.root else none
  | _ => none

def StageStmt.output? (st : StageStmt) : Option Nat :=
  match st.target with
  | some (.var (.param i)) => some i
  | _ => none

theorem StageStmt.output?_eq_some {st : StageStmt} {i : Nat} :
    st.output? = some i ↔ st.target = some (.var (.param i)) := by
  unfold output?
  split
  · rename_i j hj
    simp [hj]
  · rename_i hne
    simpa using fun h => hne i h

theorem Expr.root_sameValue {e e' : Expr} (h : e.sameValue e' = true) : e.root = e'.root := by
  induction e using ind generalizing e' <;> cases e' <;>
    simp only [sameValue, Bool.and_eq_true, beq_iff_eq] at h
  case param.param | localVar.localVar | interface.interface => simp [root, h]
  case member.member ih _ _ _ =>
    have hbase := ih h.2
    exact hbase
  case methodCall.methodCall args ih _ _ _ _ args' =>
    have hobject := ih h.1.2
    cases args <;> cases args' <;> simp only [allSame] at h
    · exact hobject
    · simp at h
    · simp at h
    · rfl
  all_goals first | rfl | exact absurd h (by simp)

theorem StageStmt.target_same {st st' : StageStmt} (h : st.same st' = true) :
    st.target = st'.target := by
  cases st <;> cases st' <;> simp only [StageStmt.same] at h
  case expr.expr e e' =>
    cases e <;> cases e' <;> simp only [Expr.sameValue, Bool.and_eq_true, beq_iff_eq] at h
    case binary.binary => simp [target, h, Expr.root_sameValue h.1.2]
    all_goals first | rfl | exact absurd h (by simp)
  all_goals first | rfl | exact absurd h (by simp)

namespace Draft

/-- The outputs that the statements of a stage write, those of statements without an origin. -/
def outputs (d : Draft) (s : Stage) : List Nat :=
  (d.queue s).tags.filterMap fun e => if e.2 = none then e.1.output? else none

variable {d d' : Draft}

theorem mem_outputs {s : Stage} {i : Nat} :
    i ∈ d.outputs s ↔ ∃ st, (st, none) ∈ (d.queue s).tags ∧ st.target = some (.var (.param i)) := by
  simp only [outputs, List.mem_filterMap, Prod.exists, Option.ite_none_right_eq_some,
    StageStmt.output?_eq_some]
  constructor
  · rintro ⟨st, o, hmem, rfl, hst⟩
    exact ⟨st, hmem, hst⟩
  · rintro ⟨st, hmem, hst⟩
    exact ⟨st, none, hmem, rfl, hst⟩

theorem Move.outputs (h : Move d d') (s : Stage) : d'.outputs s = d.outputs s := by
  unfold Draft.outputs
  cases h with
  | agree h => rw [h.queue]
  | setRebuilt => rfl
  | @openField a b r value reaching hr =>
    rw [openField_queue]
    split
    · rename_i hs
      subst hs
      obtain ⟨l, k, hq, hins, -⟩ := Queue.insertReached_cases reaching
        (.expr ((d.setRecord a b (r.push value reaching)).producer a b r.fields.length value))
          (d.queue a)
      -- the new statement assigns a field, which is no output
      rw [hins, hq]
      simp [Queue.tags, StageStmt.output?, StageStmt.target, producer, endAt, Expr.root,
        BinaryOp.isAssignment]
    · rfl
  | add x st o =>
    rw [Draft.add, onQueue_queue]
    split
    · rename_i hs
      subst hs
      rcases Queue.tags_add (d.queue x) st (some o) with h | h <;> simp [h]
    · rfl
  | release x o =>
    rw [onQueue_queue]
    split
    · rename_i hs
      subst hs
      rcases Queue.tags_release (d.queue x) o with h | ⟨l, st, r, hl, h⟩
      · rw [h]
      · simp [h, hl]
    · rfl

theorem outputs_add {s : Stage} {st : StageStmt} {i : Nat}
    (hst : st.target = some (.var (.param i))) (t : Stage) :
    (d.add s st none).outputs t = d.outputs t ∧ (s = t → i ∈ d.outputs t) ∨
      s = t ∧ (d.add s st none).outputs t = d.outputs t ++ [i] := by
  unfold Draft.outputs
  rw [Draft.add, onQueue_queue]
  split
  · rename_i hs
    subst hs
    rcases Queue.addOnce_cases (d.queue s) st with ⟨h, e, he, ho, hsame⟩ | h
    · refine .inl ⟨by rw [Queue.add, h], fun _ => ?_⟩
      have hmem : (e.stmt, none) ∈ (d.queue s).tags := List.mem_map.2 ⟨e, he, by rw [ho]⟩
      exact mem_outputs.2 ⟨e.stmt, hmem, (StageStmt.target_same hsame).trans hst⟩
    · refine .inr ⟨rfl, ?_⟩
      simp [Queue.add, h, Queue.tags, StageStmt.output?_eq_some.2 hst]
  · rename_i hs
    exact .inl ⟨rfl, fun h => absurd h hs⟩

theorem outputs_add_new {s t : Stage} {st : StageStmt} {i : Nat}
    (hst : st.target = some (.var (.param i))) (hnew : s = t → i ∉ d.outputs t) :
    (d.add s st none).outputs t = if s = t then d.outputs t ++ [i] else d.outputs t := by
  rcases outputs_add (d := d) hst t with ⟨hsame, hmem⟩ | ⟨heq, hadd⟩
  · rw [if_neg fun heq => hnew heq (hmem heq), hsame]
  · rw [if_pos heq, hadd]

/-- Carrying, lifting and tracing leave the statements of outputs alone. -/
theorem Moves.outputs (h : Moves d d') (s : Stage) : d'.outputs s = d.outputs s := by
  induction h with
  | refl => rfl
  | tail _ hm ih => exact (hm.outputs s).trans ih

end Draft

namespace Aim

variable {a : Aim} {sc : Scope} {d d' : Draft}

/-- The left side of an assignment to an output stays as it is, in the output's stage. -/
theorem Traces.root {m : Bool} {es : List Expr} {ts : List Traced} {i : Nat}
    (h : a.Traces sc m es d ts d') :
    ∀ e t, es = [e] → ts = [t] → e.root = some (.var (.param i)) →
      t.expr = e ∧ d.Agrees d' ∧ t.stage = a.pipeline.fn.params[i]?.map (·.role.stage) := by
  -- only the output itself, its members and its swizzles have a root
  induction h with
  | cons _ hs ih _ =>
    rintro e t hes hts hroot
    cases hes
    cases hts
    cases hs
    exact ih _ _ rfl rfl hroot
  | @param sc m n j q d d' hq _ _ hd =>
    rintro e t hes hts hroot
    cases hes
    cases hts
    cases hroot
    subst hd
    exact ⟨rfl, Draft.agrees_capture .., by rw [hq]; rfl⟩
  | member _ _ ih =>
    rintro e t hes hts hroot
    cases hes
    cases hts
    obtain ⟨he, hd, hs⟩ := ih _ _ rfl rfl hroot
    exact ⟨by rw [he], hd, hs⟩
  | @method sc m n method f object args t ts d d₁ d₂ _ _ _ ha ih _ =>
    rintro e t hes hts hroot
    cases hes
    cases hts
    cases args with
    | nil =>
      cases ha
      obtain ⟨he, hd, hs⟩ := ih _ _ rfl rfl hroot
      exact ⟨by simp [he], hd, hs⟩
    | cons => cases hroot
  | _ =>
    rintro e t hes hts hroot
    cases hes
    all_goals cases hroot

theorem traces_binary {m : Bool} {es : List Expr} {ts : List Traced}
    (h : a.Traces sc m es d ts d') :
    ∀ n op lhs rhs t, es = [.binary n op lhs rhs] → ts = [t] → ∃ l r lhs' rhs' d₁ d₂ d₃,
      a.Traces sc false [lhs] d [l] d₁ ∧ a.Traces sc false [rhs] d₁ [r] d₂ ∧
      t.expr = .binary n op lhs' rhs' ∧
      t.stage = a.wait (a.waits op l.stage r.stage) (l.stage.later r.stage) ∧
      Draft.Promotes a.pipeline.stages sc l.stage t.stage l.expr d₂ lhs' d₃ ∧
      Draft.Promotes a.pipeline.stages sc r.stage t.stage r.expr d₃ rhs' d' := by
  induction h with
  | cons _ hs ih _ =>
    rintro n op lhs rhs t hes hts
    cases hes
    cases hts
    cases hs
    exact ih _ _ _ _ _ rfl rfl
  | @binary sc m n op lhs rhs lhs' rhs' l r pl d d₁ d₂ d₃ d₄ hl hr hp pl' pr =>
    rintro n op lhs rhs t hes hts
    cases hes
    cases hts
    exact ⟨l, r, lhs', rhs', d₁, d₂, d₃, hl, hr, rfl, hp.symm, pl', pr⟩
  | _ =>
    rintro n op lhs rhs t hes hts
    cases hes

/-- With the target's own value, nothing can be placed before the target. -/
theorem wait_later_eq {w : Bool} {p q : Placement} (hp : p = some a.target)
    (h : (a.wait w (p.later q)).Upto a.target) :
    a.wait w (p.later q) = some a.target := by
  have hlater : (p.later q).Upto a.target → p.later q = some a.target := by
    subst hp
    cases q with
    | none => exact fun _ => rfl
    | some t =>
      intro hup
      have hle : t ≤ a.target := Placement.upto_some.1 (Placement.later_upto.1 hup).2
      rw [Placement.later]
      split
      · rename_i hge
        rw [le_antisymm hle hge]
      · rfl
  rcases wait_cases a w (p.later q) with hc | hc
  · rw [hc] at h ⊢
    exact hlater h
  · exact hc

end Aim

namespace Pipeline.LocalsOnce

variable {p : Pipeline} {s : Stage} {q : Param} {i : Nat} {z e : Expr} {o : NodeId} {t : Traced}
  {d d₁ d₂ : Draft}

/-- Tracing an output is tracing the right side of its last write for the output's stage. -/
theorem traces_output (hp : p.LocalsOnce) (hq : p.fn.params[i]? = some q) (hrole : q.role.stage = s)
    (hw : p.scope.find (.param i) = some ⟨.assignment z, o⟩)
    (ht : Aim.Traces ⟨p, s⟩ (p.scope.upTo o) false [z] d [t] d₁)
    (hs : ∀ s', t.stage = some s' → s' ≤ s)
    (hpr : Draft.Promotes p.stages (p.scope.upTo o) t.stage (some s) t.expr d₁ e d₂) :
    ∃ n op lhs rhs rhs' r dₗ dᵣ, z = .binary n op lhs rhs ∧ e = .binary n op lhs rhs' ∧
    op.isAssignment = true ∧
      lhs.root = some (.var (.param i)) ∧ p.Plain rhs ∧ d.Agrees dₗ ∧
      Aim.Traces ⟨p, s⟩ (p.scope.upTo o) false [rhs] dₗ [r] dᵣ ∧
      Draft.Promotes p.stages (p.scope.upTo o) r.stage (some s) r.expr dᵣ rhs' d₂ := by
  have hmem : z ∈ p.scope.terms := Scope.find_value_mem hw
  obtain ⟨-, st, -, n, op, lhs, rhs, -, hsite, hop, hroot, hquiet⟩ :=
    hp.find_param (fun _ hs => hs) hw
  cases hsite
  have hplain : p.Plain rhs := ⟨Scope.terms_trans (by simp [Expr.self_mem_subterms]) hmem, hquiet⟩
  obtain ⟨l, r, lhs', rhs', dₗ, dᵣ, d₃, hl, hr, htexpr, htstage, pl, pr⟩ :=
    Aim.traces_binary ht n op lhs rhs t rfl rfl
  obtain ⟨hlhs, hagree, hstage⟩ := hl.root lhs l rfl rfl hroot
  have hstage : l.stage = some s := by rw [hstage, hq]; exact congrArg some hrole
  have htarget : t.stage = some s := by
    rw [htstage]
    exact Aim.wait_later_eq (a := ⟨p, s⟩) hstage (htstage ▸ hs)
  -- Nothing is left to promote but the right side.
  have hkeep {x x' : Expr} {d d' : Draft}
      (h : Draft.Promotes p.stages (p.scope.upTo st.id) (some s) (some s) x d x' d') :
      x' = x ∧ d' = d := by
    cases h with
    | keep => exact ⟨rfl, rfl⟩
    | lift hst => exact absurd hst (lt_irrefl s)
  rw [htarget] at pl pr hpr
  rw [hstage] at pl
  obtain ⟨rfl, rfl⟩ := hkeep pl
  obtain ⟨rfl, rfl⟩ := hkeep hpr
  exact ⟨n, op, lhs, rhs, rhs', r, dₗ, _, rfl,
    by rw [htexpr, hlhs], hop, hroot, hplain, hagree, hr, pr⟩

theorem outputs_written (hp : p.LocalsOnce) (hq : p.fn.params[i]? = some q)
    (hrole : q.role.stage = s) (hw : p.scope.find (.param i) = some ⟨.assignment z, o⟩)
    (ht : Aim.Traces ⟨p, s⟩ (p.scope.upTo o) false [z] d [t] d₁)
    (hs : ∀ s', t.stage = some s' → s' ≤ s)
    (hpr : Draft.Promotes p.stages (p.scope.upTo o) t.stage (some s) t.expr d₁ e d₂)
    (hnew : ∀ s', i ∉ d.outputs s') (s' : Stage) :
    (d₂.add s (.expr e) none).outputs s' = if s = s' then d.outputs s' ++
      [i] else d.outputs s' := by
  obtain ⟨n, op, lhs, rhs, rhs', r, dₗ, dᵣ, rfl, rfl, hop, hroot, -, -, -, -⟩ :=
    hp.traces_output hq hrole hw ht hs hpr
  have htarget : (StageStmt.expr (.binary n op lhs rhs')).target = some (.var (.param i)) := by
    simpa [StageStmt.target, hop] using hroot
  have hsame : d₂.outputs s' = d.outputs s' := Draft.Moves.outputs (ht.moves.trans hpr.moves) s'
  rw [← hsame]
  exact Draft.outputs_add_new htarget fun _ => hsame ▸ hnew s'

end Pipeline.LocalsOnce

namespace Pipeline

variable {V : Type u} {p : Pipeline} {I : Interp V} {x : Nat → V} {N : Memory V}
  {todo : List (Stage × Param × Nat)} {d d' : Draft}

theorem Quiet.eval_opened {e : Expr} {m : Memory V} {i : Nat} (h : p.Quiet e)
    (hi : p.isOutput i = true) :
    e.eval I (m.opened x (.var (.param i))) = e.eval I m := by
  refine Expr.eval_congr fun z hz c hc => Function.update_of_ne ?_ _ _
  rintro rfl
  cases z with
  | param n j =>
    cases hc
    exact absurd (hi.symm.trans (h _ hz)) (by simp)
  | interface n r =>
    rw [Expr.cell] at hc
    split at hc <;> cases hc
  | _ => cases hc

theorem holds_output {i : Nat} {n : Node} {op : BinaryOp} {lhs rhs rhs' : Expr} {o : NodeId} {y : V}
    (hN : p.Leaves I x N) (hi : p.isOutput i = true)
    (hw : p.scope.find (.param i) = some ⟨.assignment (.binary n op lhs rhs), o⟩)
    (hop : op.isAssignment = true) (hroot : lhs.root = some (.var (.param i))) (hq : p.Quiet rhs)
    (hy : rhs.eval I ((p.scope.upTo o).run I (.input x)) = some y) (hy' : rhs'.eval I N = some y) :
    p.Holds I x N (.expr (.binary n op lhs rhs')) := by
  have hbelow : N.Below (N.opened x (.var (.param i))) := by
    intro c z hz
    refine (Function.update_of_ne ?_ _ _).trans hz
    rintro rfl
    rw [hN.params, hi] at hz
    cases hz
  have hopen (m : Memory V) : m.opened x (.var (.param i)) (.var (.param i)) = some (x i) :=
    Function.update_self ..
  have hrhs : rhs.eval I (((p.scope.upTo o).run I (.input x)).opened x (.var (.param i))) =
        some y :=
    (hq.eval_opened hi).trans hy
  obtain ⟨z, hz⟩ := Expr.effect_of_var (n := n) hop hroot (hopen _) hrhs
  refine ⟨.var (.param i), z, ?_, ?_⟩
  · rw [← hz]
    exact Expr.effect_congr hroot ((hopen _).trans (hopen _).symm)
      ((Expr.eval_below hbelow hy').trans hrhs.symm)
  · simp [given, outcome, hw, hz]

theorem Runs.sense (h : p.Runs todo d d') (hp : p.LocalsOnce) (hbare : p.BareSwizzles)
    (htodo : ∀ z ∈ todo, z ∈ p.allOutputs) (hN : d.Sense p I x N) : ∃ N', d'.Sense p I x N' := by
  induction h generalizing N with
  | nil => exact ⟨N, hN⟩
  | unwritten _ _ ih =>
    exact ih (fun z hz => htodo z (by simp [hz])) (hN.agree ⟨rfl, rfl, rfl, rfl⟩)
  | @written s q i rest z e o t d d₁ d₂ d' hw ht hs hpr _ ih =>
    obtain ⟨-, hq, hout, hrole⟩ := mem_allOutputs (htodo (s, q, i) (by simp))
    obtain ⟨n, op, lhs, rhs, rhs', r, dₗ, dᵣ, rfl, rfl, hop, hroot, hplain, hagree, hr, pr⟩ :=
      hp.traces_output hq hrole hw ht hs hpr
    obtain ⟨N₁, y, -, hN₁, hy, hr₁⟩ :=
      Aim.renders_one.1 (hr.renders hp hbare ⟨o, rfl⟩ (by simpa using hplain) (hN.agree hagree))
    obtain ⟨N₂, -, hN₂, hr₂⟩ := pr.sense hp ⟨o, rfl⟩ hN₁ hr₁
    have hi : p.isOutput i = true := (Option.any_eq_true _ _).2 ⟨q, hq, hout⟩
    exact ih (fun z hz => htodo z (by simp [hz]))
      (hN₂.add (holds_output hN₂.leaves hi hw hop hroot hplain.2 hy hr₂))

/-- Each output that is written gets one statement in the queue of its stage. -/
theorem Runs.outputs (h : p.Runs todo d d') (hp : p.LocalsOnce)
    (htodo : ∀ z ∈ todo, z ∈ p.allOutputs) (hnodup : (todo.map (·.2.2)).Nodup)
    (hd : ∀ s, (d.outputs s).Nodup) (hfresh : ∀ s, ∀ i ∈ d.outputs s, i ∉ todo.map (·.2.2)) :
    (∀ s, (d'.outputs s).Nodup) ∧ (∀ s, d.outputs s ⊆ d'.outputs s) ∧
      ∀ s q i, (s, q, i) ∈ todo → p.scope.find (.param i) ≠ none → i ∈ d'.outputs s := by
  induction h with
  | nil => exact ⟨hd, fun _ _ hi => hi, by simp⟩
  | @unwritten s q i rest d d' message hw _ ih =>
    rw [List.map_cons, List.nodup_cons] at hnodup
    obtain ⟨hn, hsub, hmem⟩ := ih (fun z hz => htodo z (by simp [hz])) hnodup.2 hd
      fun s j hj hrest => hfresh s j hj (by simp [hrest])
    refine ⟨hn, hsub, fun s' q' j hj hne => ?_⟩
    rcases List.mem_cons.1 hj with heq | hj
    · cases heq
      exact absurd hw hne
    · exact hmem s' q' j hj hne
  | @written s q i rest z e o t d d₁ d₂ d' hw ht hs hpr _ ih =>
    rw [List.map_cons, List.nodup_cons] at hnodup
    obtain ⟨-, hq, hout, hrole⟩ := mem_allOutputs (htodo (s, q, i) (by simp))
    -- each output is traced once, so no stage has it yet
    have hnew (s' : Stage) : i ∉ d.outputs s' := fun hmem => hfresh s' i hmem (by simp)
    have hadd := hp.outputs_written hq hrole hw ht hs hpr hnew
    have hd₂ : ∀ s', ((d₂.add s (.expr e) none).outputs s').Nodup := by
      intro s'
      rw [hadd]
      split
      · rw [← List.concat_eq_append]
        exact (hd s').concat (hnew s')
      · exact hd s'
    have hfresh₂ : ∀ s', ∀ j ∈ (d₂.add s (.expr e) none).outputs s', j ∉ rest.map (·.2.2) := by
      intro s' j hj hrest
      have hj : j ∈ d.outputs s' ∨ j = i := by
        rw [hadd] at hj
        split at hj
        · simpa using hj
        · exact .inl hj
      rcases hj with hj | rfl
      · exact hfresh s' j hj (by simp [hrest])
      · exact hnodup.1 hrest
    obtain ⟨hn, hsub, hmem⟩ := ih (fun z hz => htodo z (by simp [hz])) hnodup.2 hd₂ hfresh₂
    refine ⟨hn, fun s' j hj => hsub s' ?_, fun s' q' j hj hne => ?_⟩
    · rw [hadd]
      split
      · exact List.mem_append_left _ hj
      · exact hj
    · rcases List.mem_cons.1 hj with heq | hj
      · cases heq
        exact hsub s (by simp [hadd])
      · exact hmem s' q' j hj hne

theorem mem_allOutputs_of {s : Stage} {q : Param} {i : Nat} (hs : s ∈ p.stages.devices)
    (hq : p.fn.params[i]? = some q) (hout : q.role.isOutput = true) (hrole : q.role.stage = s) :
    (s, q, i) ∈ p.allOutputs := by
  have hz : (q, i) ∈ p.fn.params.zipIdx := List.mem_zipIdx_iff_getElem?.2 (by simpa using hq)
  refine List.mem_flatMap.2 ⟨s, hs, List.mem_map.2 ⟨(q, i), List.mem_filter.2 ⟨hz, ?_⟩, rfl⟩⟩
  simp [hout, hrole]

theorem allOutputs_nodup (p : Pipeline) : (p.allOutputs.map (·.2.2)).Nodup := by
  rw [allOutputs, List.map_flatMap, List.nodup_flatMap]
  constructor
  · intro s _
    have hsub : ((p.outputs s).map (·.2)).Sublist (p.fn.params.zipIdx.map (·.2)) :=
      List.filter_sublist.map _
    rw [List.map_map]
    refine List.Nodup.sublist hsub ?_
    rw [List.zipIdx_map_snd]
    exact List.nodup_range'
  · refine (StageSet.devices_sorted p.stages).imp_of_mem fun {s t} hs ht hst => ?_
    have stage {s : Stage} {i : Nat} (hs : s ∈ p.stages.devices)
        (hi : i ∈ ((p.outputs s).map (s, ·)).map (·.2.2)) :
        p.fn.params[i]?.map (·.role.stage) = some s := by
      obtain ⟨⟨s', q, j⟩, hmem, rfl⟩ := List.mem_map.1 hi
      obtain ⟨-, hq, -, hrole⟩ := mem_allOutputs (List.mem_flatMap.2 ⟨s, hs, hmem⟩)
      obtain ⟨_, _, heq⟩ := List.mem_map.1 hmem
      rw [hq, Option.map_some, hrole]
      exact congrArg some (congrArg Prod.fst heq).symm
    intro i hi hj
    have heq : s = t := Option.some.inj ((stage hs hi).symm.trans (stage ht hj))
    exact lt_irrefl t (heq ▸ hst)

theorem Runs.placed (h : p.Runs todo d d') (hbare : p.BareSwizzles)
    (htodo : ∀ z ∈ todo, z ∈ p.allOutputs) :
    ∀ s q i, (s, q, i) ∈ todo → ∀ z o, p.scope.find (.param i) = some ⟨.assignment z, o⟩ →
      ((⟨p, s⟩ : Aim).place (p.scope.upTo o) z).Upto s := by
  induction h with
  | nil => simp
  | unwritten hw _ ih =>
    intro s q i hmem z o hz
    rcases List.mem_cons.1 hmem with heq | hmem
    · cases heq
      cases hw.symm.trans hz
    · exact ih (fun z hz => htodo z (by simp [hz])) s q i hmem z o hz
  | @written s q i rest z e o t d d₁ d₂ d' hw ht hs _ _ ih =>
    intro s' q' i' hmem z' o' hz'
    rcases List.mem_cons.1 hmem with heq | hmem
    · cases heq
      cases hw.symm.trans hz'
      obtain ⟨-, hq, hout, hrole⟩ := mem_allOutputs (htodo (s, q, i) (by simp))
      have hr : (⟨p, s⟩ : Aim).Reached (p.scope.upTo o) z := .output hq hout hrole hw
      have hb : (⟨p, s⟩ : Aim).Rebuilds (p.scope.upTo o) z t := by
        simpa using ht.rebuilds hbare (by simpa using hr)
      exact fun s' hs' => hs s' (hb.stage.trans hs')
    · exact ih (fun z hz => htodo z (by simp [hz])) s' q' i' hmem z' o' hz'

end Pipeline

namespace Aim

variable {a : Aim} {sc : Scope} {e : Expr} {i : Nat}

theorem place_root (h : e.root = some (.var (.param i))) :
    a.place sc e = a.pipeline.fn.params[i]?.map (·.role.stage) := by
  fun_induction Expr.root e with
  | case1 n j =>
    cases h
    exact place_param
  | case2 | case3 | case4 | case7 => cases h
  | case5 n e f ih => rw [place_member, ih h]
  | case6 n f e ih =>
    rw [place_methodCall, ih h]
    rfl

theorem isPlace_of_root {v : Var} (h : e.root = some (.var v)) : e.isPlace = true := by
  fun_induction Expr.root e with
  | case1 | case2 => rfl
  | case3 | case4 | case7 => cases h
  | case5 n e f ih | case6 n f e ih => exact ih h

/-- The only assignments that the trace comes to are the last writes to the target's outputs. -/
theorem Reached.quiet_or (h : a.Reached sc e) (hp : a.pipeline.LocalsOnce) : a.pipeline.Quiet e ∨
    ∃ i q o n op lhs rhs, a.pipeline.fn.params[i]? = some q ∧ q.role.isOutput = true ∧
    q.role.stage = a.target ∧
      a.pipeline.scope.find (.param i) = some ⟨.assignment (.binary n op lhs rhs), o⟩ ∧
      lhs.root = some (.var (.param i)) ∧ a.pipeline.Quiet rhs ∧ sc = a.pipeline.scope.upTo o ∧
      (e = .binary n op lhs rhs ∨ e ∈ lhs.subterms) := by
  induction h with
  | @output q i z o hq hr hs hw =>
    obtain ⟨-, st, -, n, op, lhs, rhs, -, hsite, -, hroot, hquiet⟩ :=
      hp.find_param (fun _ hs => hs) hw
    cases hsite
    exact .inr ⟨i, q, _, n, op, lhs, rhs, hq, hr, hs, hw, hroot, hquiet, rfl, .inl rfl⟩
  | part _ hz ih =>
    rcases ih with hquiet
      | ⟨i, q, o, n, op, lhs, rhs, hq, hr, hs, hw, hroot, hquiet, hsc, rfl | hin⟩
    · exact .inl fun y hy => hquiet y (Expr.subterms_trans hy hz)
    · rw [Expr.subterms, List.mem_cons, List.mem_append] at hz
      rcases hz with rfl | hz | hz
      · exact .inr ⟨i, q, o, n, op, lhs, rhs, hq, hr, hs, hw, hroot, hquiet, hsc, .inl rfl⟩
      · exact .inr ⟨i, q, o, n, op, lhs, rhs, hq, hr, hs, hw, hroot, hquiet, hsc, .inr hz⟩
      · exact .inl fun y hy => hquiet y (Expr.subterms_trans hy hz)
    · exact .inr ⟨i, q, o, n, op, lhs, rhs, hq, hr, hs, hw, hroot, hquiet, hsc,
        .inr (Expr.subterms_trans hz hin)⟩
  | write h hw _ =>
    obtain ⟨o, rfl⟩ := h.scope
    obtain ⟨_, _, d, -, -, rfl, hquiet⟩ := hp.find_local (fun _ => Scope.upTo_subset) hw
    exact .inl hquiet

end Aim

namespace Pipeline.LocalsOnce

variable {p : Pipeline}

theorem singleWrites (hp : p.LocalsOnce) : p.SingleWrites := by
  intro s hs s' hs' hid v v' w w' hw hw'
  obtain rfl : s = s' := List.inj_on_of_nodup_map hp.steps hs hs' hid
  obtain ⟨-, ⟨d, hd, -, hsite, -⟩ | ⟨_, _, _, _, _, _, hv, -⟩⟩ := tame_write (hp.tame s hs) hw
  · obtain ⟨-, ⟨d', hd', -, hsite', -⟩ | ⟨_, _, _, _, _, _, hv', -⟩⟩ :=
      tame_write (hp.tame s hs) hw'
    · cases hd.symm.trans hd'
      rw [hsite, hsite']
    · cases hv'
  · cases hv

/-- In a run that succeeds, no assignment leaves the stage of its output. -/
theorem anchors (hp : p.LocalsOnce) (hbare : p.BareSwizzles) {d d' : Draft}
    (h : p.Runs p.allOutputs d d') {s : Stage} (hs : s ∈ p.stages.devices) :
    (⟨p, s⟩ : Aim).Anchors := by
  intro sc n op lhs rhs hr hop
  rcases hr.quiet_or hp with hquiet
    | ⟨i, q, o, n', op', lhs', rhs', hq, hout, hrole, hw, hroot, -, rfl, heq | hin⟩
  · exact absurd (hop.symm.trans hquiet.self) (by simp)
  · cases heq
    refine ⟨Aim.isPlace_of_root hroot, .inl ?_⟩
    have hup := h.placed hbare (fun _ hz => hz) s q i (mem_allOutputs_of hs hq hout hrole) _ o hw
    have hlhs : (⟨p, s⟩ : Aim).place (p.scope.upTo o) lhs = some s := by
      rw [Aim.place_root hroot, hq]
      exact congrArg some hrole
    generalize (⟨p, s⟩ : Aim).place (p.scope.upTo o) (.binary n op lhs rhs) = pl at hup
    rw [hlhs]
    cases pl with
    | none => rfl
    | some t =>
      have hle : ¬ s < t := not_lt.2 (Placement.upto_some.1 hup)
      simpa [Placement.before] using hle
  · cases Expr.root_subterms hroot hin

end Pipeline.LocalsOnce
end ShaderSplit
