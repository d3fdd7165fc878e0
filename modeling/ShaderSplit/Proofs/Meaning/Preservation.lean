import ShaderSplit.Proofs.Meaning.Outputs

namespace ShaderSplit

universe u

variable {V : Type u}

namespace Memory

/-- The memory after statements that give their cells the values in `F`. -/
def after (F m : Memory V) (l : List StageStmt) : Memory V := fun c =>
  if some c ∈ l.map StageStmt.target then F c else m c

variable {F m : Memory V} {l : List StageStmt} {c : Cell}

theorem after_of_mem {st : StageStmt} (hst : st ∈ l) (hc : st.target = some c) :
    after F m l c = F c :=
  if_pos (List.mem_map.2 ⟨st, hst, hc⟩)

theorem after_of_not_mem (h : ∀ st ∈ l, st.target ≠ some c) : after F m l c = m c := by
  refine if_neg fun hmem => ?_
  obtain ⟨st, hst, hc⟩ := List.mem_map.1 hmem
  exact h st hst hc

theorem after_append {r : List StageStmt} : after F (after F m l) r = after F m (l ++ r) := by
  funext c
  by_cases hr : some c ∈ r.map StageStmt.target <;> simp [after, hr]

theorem after_one {st : StageStmt} (hc : st.target = some c) :
    after F m [st] = Function.update m c (F c) := by
  funext c'
  by_cases h : c' = c
  · subst h
    simp [after, hc]
  · rw [Function.update_of_ne h, after_of_not_mem]
    simp [hc, Ne.symm h]

theorem after_none {st : StageStmt} (h : st.target = none) : after F m [st] = m :=
  funext fun _ => after_of_not_mem (by simp [h])

/-- What a statement reads: a memory with its own output as it came in. -/
def seenBy (x : Nat → V) (N : Memory V) (st : StageStmt) : Memory V :=
  match st.target with
  | some c => N.opened x c
  | none => N

theorem seenBy_self {x : Nat → V} {N : Memory V} {st : StageStmt} {i : Nat}
    (h : st.target = some (.var (.param i))) :
    N.seenBy x st (.var (.param i)) = some (x i) := by
  rw [seenBy, h]
  exact Function.update_self ..

theorem seenBy_of_ne {x : Nat → V} {N : Memory V} {st : StageStmt}
    (h : ∀ i, c = .var (.param i) → st.target ≠ some c) : N.seenBy x st c = N c := by
  unfold seenBy
  cases ht : st.target with
  | none => rfl
  | some c' =>
    cases c' with
    | field => rfl
    | var v =>
      cases v with
      | localVar => rfl
      | param i =>
        refine Function.update_of_ne ?_ _ _
        rintro rfl
        exact h i rfl ht

theorem enter_after : (after F m.enter l).enter = (after F m l).enter := by
  funext c
  cases c with
  | var v =>
    cases v with
    | param i => rfl
    | localVar v => rfl
  | field a b i => rfl

end Memory

open Memory

namespace Pipeline

variable {p : Pipeline} {I : Interp V} {x : Nat → V} {N : Memory V}

theorem target_of_effect {e : Expr} {m : Memory V} {c : Cell} {y : Option V}
    (h : e.effect I m = some (c, y)) :
    (StageStmt.expr e).target = some c := by
  unfold Expr.effect at h
  split at h
  · split at h
    · rename_i hop
      obtain ⟨c', hc, heq⟩ := Option.map_eq_some_iff.1 h
      rw [StageStmt.target, if_pos hop, hc]
      exact congrArg some (congrArg Prod.fst heq)
    · cases h
  · cases h

/-- A statement that finds what it reads gives its cell what the cell is to be given. -/
theorem Holds.exec {st : StageStmt} {view : Memory V → Memory V} {m : Memory V}
    (h : p.Holds I x N st) (hread : ∀ e ∈ st.exprs, e.All (Expr.Copied (N.seenBy x st) (view m))) :
    st.exec I view m = some (after (p.given I x N) m [st]) := by
  cases st with
  | decl d =>
    obtain ⟨y, hy, hgiven⟩ := h
    have hinit : d.init.eval I (view m) = some y :=
      Expr.eval_mono (hread d.init (by simp [StageStmt.exprs])) hy
    rw [StageStmt.exec, hinit, after_one rfl, hgiven]
    rfl
  | expr e =>
    obtain ⟨c, y, hy, hgiven⟩ := h
    have htarget := target_of_effect hy
    have hseen : N.seenBy x (.expr e) = N.opened x c := by rw [seenBy, htarget]
    have heffect := Expr.effect_mono (hread e (by simp [StageStmt.exprs])) (hseen ▸ hy)
    rw [StageStmt.exec, heffect, after_one htarget, hgiven]
    rfl
  | bindingDecl | pushUniform => exact congrArg some (after_none rfl).symm

theorem exec_block {view : Memory V → Memory V} {b : List StageStmt} {m : Memory V}
    (hb : ∀ st ∈ b, p.Holds I x N st)
    (hread : ∀ l st r, b = l ++ st :: r →
      ∀ e ∈ st.exprs, e.All (Expr.Copied (N.seenBy x st) (view (after (p.given I x N) m l)))) :
    b.foldlM (StageStmt.exec I view) m = some (after (p.given I x N) m b) := by
  induction b generalizing m with
  | nil => exact congrArg some (funext fun c => (after_of_not_mem (by simp)).symm)
  | cons st b ih =>
    have hfirst : after (p.given I x N) m [] = m := funext fun c => after_of_not_mem (by simp)
    have hst : st.exec I view m = some (after (p.given I x N) m [st]) :=
      (hb st (by simp)).exec fun e he => hfirst ▸ hread [] st b rfl e he
    rw [List.foldlM_cons, hst]
    refine (ih (fun st' hst' => hb st' (by simp [hst'])) fun l st' r heq e he => ?_).trans ?_
    · rw [after_append]
      exact hread (st :: l) st' r (by rw [heq]; rfl) e he
    · rw [after_append]
      rfl

end Pipeline

namespace Draft

variable {p : Pipeline} {I : Interp V} {x : Nat → V} {N : Memory V} {d : Draft} {s t : Stage}

theorem Wired.exists_producer {r : InterfaceRecord} {i : Nat} {f : InterfaceField} (h : d.Wired p)
    (hr : d.record? s t = some r) (hs : r.source = s) (hf : r.fields[i]? = some f) :
    ∃ st ∈ d.block p.stages s, st.target = some (.field s t i) := by
  have hone := h.produced s t r i hr hs
  rw [hf] at hone
  have hmem : (.assign, f.key) ∈ assignments ⟨s, t, .producer, i⟩ (d.queue s).statements := by
    simp [hone]
  obtain ⟨st, hst, hassigned⟩ := List.mem_flatMap.1 hmem
  obtain ⟨origin, htag⟩ := Queue.mem_statements.1 hst
  refine ⟨st, mem_block_of_queued htag, ?_⟩
  have hin : (.assign, f.key) ∈ assignments ⟨s, t, .producer, i⟩ [st] := by
    simpa [assignments] using hassigned
  -- what stays in its stage assigns no field, so the statement was made for the field
  rcases h.queued s _ htag with hstay | ⟨-, n, n', t', i', value, hprod, hfits⟩
  · rw [hstay.assignments_nil rfl] at hin
    cases hin
  · obtain rfl : st = _ := hprod
    obtain ⟨z, hz, hassigned⟩ := List.mem_filterMap.1 hassigned
    rw [StageStmt.terms, StageStmt.exprs, List.flatMap_singleton, Expr.subterms, List.mem_cons,
      List.mem_append] at hz
    rcases hz with rfl | hz | hz
    · obtain ⟨⟨-, rfl, rfl⟩, -⟩ : (_ ∧ _) ∧ _ := by simpa [Expr.assigned?] using hassigned
      rfl
    · obtain rfl : z = .interface n' _ := by simpa using hz
      cases hassigned
    · rw [hfits.assigned_none rfl z hz] at hassigned
      cases hassigned

/-- A draft at the end of a run, and the memory in which it makes sense. -/
structure Complete (p : Pipeline) (I : Interp V) (x : Nat → V) (N : Memory V)
    (d : Draft) : Prop where
  sense : d.Sense p I x N
  wired : d.Wired p
  closed : ∀ s, (d.finish p).Closed s
  distinct : ∀ s, ((d.block p.stages s).filterMap StageStmt.output?).Nodup

namespace Complete

variable (h : d.Complete p I x N) {st : StageStmt} {l r : List StageStmt} {i : Nat}
  {done rest : List Stage}
include h

theorem holds (hst : st ∈ d.block p.stages s) : p.Holds I x N st := by
  have queued (hexprs : st.exprs ≠ []) : p.Holds I x N st := by
    obtain ⟨origin, htag⟩ := queued_of_block hst hexprs
    exact h.sense.queued s (st, origin) htag
  cases st with
  | decl | expr => exact queued (by simp [StageStmt.exprs])
  | bindingDecl | pushUniform => trivial

theorem outcome_of_target (hst : st ∈ d.block p.stages s)
    (ht : st.target = some (.var (.param i))) : ∃ y, p.outcome I x i = some y := by
  have hholds := h.holds hst
  cases st with
  | decl | bindingDecl | pushUniform => cases ht
  | expr e =>
    obtain ⟨c, y, hy, hgiven⟩ := hholds
    obtain rfl : c = .var (.param i) :=
      Option.some.inj ((Pipeline.target_of_effect hy).symm.trans ht)
    exact ⟨y, hgiven⟩

theorem isDeviceOutput (hp : p.LocalsOnce) (hst : st ∈ d.block p.stages s)
    (ht : st.target = some (.var (.param i))) : p.isDeviceOutput i = true := by
  obtain ⟨y, hy⟩ := h.outcome_of_target hst ht
  cases hw : p.scope.find (.param i) with
  | none => simp [Pipeline.outcome, hw] at hy
  | some w => exact (hp.find_param (fun _ hs => hs) hw).1

theorem stage_of_target (hst : st ∈ d.block p.stages s) (ht : st.target = some (.var (.param i))) :
    ∃ q, p.fn.params[i]? = some q ∧ q.role.stage = s := by
  have hmem : ∃ n, .param n i ∈ st.terms := by
    cases st with
    | decl | bindingDecl | pushUniform => cases ht
    | expr e =>
      unfold StageStmt.target at ht
      split at ht
      · cases ‹_›
      · rename_i n op lhs rhs heq
        cases heq
        split at ht
        · obtain ⟨n, hn⟩ := Expr.param_of_root ht
          exact ⟨n, by simp [StageStmt.terms, StageStmt.exprs, hn]⟩
        · cases ht
      · cases ht
  obtain ⟨n, hn⟩ := hmem
  exact (h.closed s).params st (by rwa [finish_block]) n i hn

theorem reads_param {y : V} (hp : p.LocalsOnce)
    (hstages : .host :: p.stages.devices = done ++ s :: rest)
    (hb : d.block p.stages s = l ++ st :: r) (hseen : N.seenBy x st (.var (.param i)) = some y)
    (hi : ∃ q, p.fn.params[i]? = some q ∧ q.role.stage = s) :
    y = x i ∧ ∀ st' ∈ done.flatMap (d.block p.stages) ++ l, st'.target ≠
      some (.var (.param i)) := by
  -- The statement writes the parameter itself, or it is an input.
  have hcases : y = x i ∧ (st.target = some (.var (.param i)) ∨ p.isOutput i = false) := by
    by_cases ht : st.target = some (.var (.param i))
    · rw [seenBy_self ht] at hseen
      exact ⟨(Option.some.inj hseen).symm, .inl ht⟩
    · rw [seenBy_of_ne fun _ _ => ht, h.sense.leaves.params] at hseen
      split at hseen
      · cases hseen
      · rename_i hout
        exact ⟨(Option.some.inj hseen).symm, .inr (by simpa using hout)⟩
  refine ⟨hcases.1, fun st' hst' ht' => ?_⟩
  rcases hcases.2 with ht | hin
  · rw [List.mem_append] at hst'
    rcases hst' with hst' | hst'
    · obtain ⟨s', hs', hst'⟩ := List.mem_flatMap.1 hst'
      obtain ⟨q, hq, rfl⟩ := hi
      obtain ⟨q', hq', rfl⟩ := h.stage_of_target hst' ht'
      cases hq.symm.trans hq'
      have hsorted := StageSet.stages_sorted p.stages
      rw [hstages, List.pairwise_append] at hsorted
      exact lt_irrefl _ (hsorted.2.2 _ hs' _ (by simp))
    · have hdistinct := h.distinct s
      rw [hb, List.filterMap_append, List.filterMap_cons_some (StageStmt.output?_eq_some.2 ht),
        List.nodup_append] at hdistinct
      exact hdistinct.2.2 i (List.mem_filterMap.2 ⟨st', hst', StageStmt.output?_eq_some.2 ht'⟩)
        i (by simp) rfl
  · have hout : ∃ s', st' ∈ d.block p.stages s' := by
      rcases List.mem_append.1 hst' with hst' | hst'
      · obtain ⟨s', -, hst'⟩ := List.mem_flatMap.1 hst'
        exact ⟨s', hst'⟩
      · exact ⟨s, by simp [hb, hst']⟩
    obtain ⟨s', hst'⟩ := hout
    have hdevice := Pipeline.isOutput_of_device (h.isDeviceOutput hp hst' ht')
    exact absurd (hin.symm.trans hdevice) (by simp)

/-- The producer of a field that a stage reads is in a block that has run. -/
theorem reads_field {n : Node} {ref : InterfaceRef}
    (hstages : .host :: p.stages.devices = done ++ s :: rest) (hst : st ∈ d.block p.stages s)
    (href : .interface n ref ∈ st.terms) (hside : ref.side = .consumer) :
    ref.dest = s ∧ ∃ st' ∈ done.flatMap (d.block p.stages), st'.target =
      some (.field ref.source ref.dest ref.field) := by
  have hreads : d.Reads p s (.interface n ref) := by
    refine (h.wired.reads_block hst href).resolve_right ?_
    rintro ⟨n', ref', heq, hproducer⟩
    cases heq
    cases hside.symm.trans hproducer
  obtain ⟨-, rfl, rec, f, hrec, hsource, hf, -⟩ := hreads
  refine ⟨rfl, ?_⟩
  obtain ⟨st', hst', ht'⟩ := h.wired.exists_producer hrec hsource hf
  refine ⟨st', List.mem_flatMap.2 ⟨ref.source, ?_, hst'⟩, ht'⟩
  obtain ⟨-, hdest, hlink⟩ := h.wired.linked _ _ _ hrec
  -- a record comes from an earlier stage, and the stages run in order
  have hbefore : ref.source ∈ .host :: p.stages.devices ∧ ref.source < ref.dest := by
    split at hlink
    · rename_i hhost
      rw [hhost]
      exact ⟨by simp, StageSet.host_lt (StageSet.mem_devices.1 hdest).2⟩
    · rw [hsource] at hlink
      exact ⟨by simp [StageSet.previousActive_mem hlink], StageSet.previousActive_lt hlink⟩
  have hsorted := StageSet.stages_sorted p.stages
  rw [hstages, List.pairwise_append, List.pairwise_cons] at hsorted
  rw [hstages, List.mem_append, List.mem_cons] at hbefore
  rcases hbefore.1 with hmem | hmem | hmem
  · exact hmem
  · exact absurd (hmem ▸ hbefore.2) (lt_irrefl _)
  · exact absurd (hsorted.2.1.1 _ hmem) (not_lt.2 (le_of_lt hbefore.2))

theorem reads (hp : p.LocalsOnce) (hstages : .host :: p.stages.devices = done ++ s :: rest)
    (hb : d.block p.stages s = l ++ st :: r) :
    ∀ e ∈ st.exprs,
      e.All (Expr.Copied (N.seenBy x st)
      ((d.finish p).view s
      (after (p.given I x N)
      (after (p.given I x N) (.input x) (done.flatMap (d.block p.stages))).enter l))) := by
  intro e he z hz c hc y hy
  have hst : st ∈ d.block p.stages s := by simp [hb]
  have hterm : z ∈ st.terms := List.mem_flatMap.2 ⟨e, he, hz⟩
  cases z with
  | param n i =>
    cases hc
    obtain ⟨q, hq, hrole⟩ := (h.closed s).params st (by rwa [finish_block]) n i hterm
    obtain ⟨rfl, hunwritten⟩ := h.reads_param hp hstages hb hy ⟨q, hq, hrole⟩
    have hstage : (d.finish p).params[i]?.map (·.role.stage) = some s := by
      rw [hq]
      exact congrArg some hrole
    rw [Program.view, if_pos hstage, after_of_not_mem
      fun st' hst' => hunwritten st' (List.mem_append_right _ hst')]
    exact after_of_not_mem fun st' hst' => hunwritten st' (List.mem_append_left _ hst')
  | localVar n v name =>
    cases hc
    have hv : v ∈ st.locals := by
      rw [StageStmt.locals, Expr.localsOf_eq]
      exact List.mem_flatMap.2 ⟨e, he, Expr.mem_locals.2 ⟨n, name, hz⟩⟩
    -- the block declares the local before it is read
    obtain ⟨decl, hdecl, rfl⟩ := (h.closed s).locals l st r (by rwa [finish_block]) v hv
    rw [seenBy_of_ne (by simp)] at hy
    rw [Program.view, after_of_mem hdecl rfl]
    exact hy
  | interface n ref =>
    rw [Expr.cell] at hc
    split at hc
    · rename_i hside
      cases hc
      obtain ⟨hdest, st', hst', ht'⟩ := h.reads_field hstages hst hterm hside
      rw [seenBy_of_ne (by simp)] at hy
      -- the field was assigned in the block of an earlier stage
      have hdone : (after (p.given I x N) (.input x) (done.flatMap (d.block p.stages))).enter
          (.field ref.source ref.dest ref.field) = some y := (after_of_mem hst' ht').trans hy
      rw [Program.view, if_pos hdest, after]
      split
      · exact hy
      · exact hdone
    · cases hc
  | _ => cases hc

/-- Running the stages that are left, each from what the earlier ones have written. -/
theorem run_stages (hp : p.LocalsOnce) (todo : List Stage) : ∀ (done : List Stage) {m : Memory V},
    .host :: p.stages.devices = done ++ todo →
    m.enter = (after (p.given I x N) (.input x) (done.flatMap (d.block p.stages))).enter →
    ∃ m', todo.foldlM (fun m s => (d.finish p).runBlock I s m) m = some m' ∧
      m'.enter = (after (p.given I x N) (.input x)
        ((done ++ todo).flatMap (d.block p.stages))).enter := by
  induction todo with
  | nil =>
    intro done m _ hm
    exact ⟨m, rfl, by rw [List.append_nil, hm]⟩
  | cons s rest ih =>
    intro done m hstages hm
    have hblock :
        (d.finish p).runBlock I s m =
          some (after (p.given I x N) m.enter (d.block p.stages s)) := by
      rw [Program.runBlock, finish_block, hm]
      exact Pipeline.exec_block (fun st hst => h.holds hst) fun l st r hb => h.reads hp hstages hb
    have hnext : .host :: p.stages.devices = (done ++ [s]) ++ rest := by simpa using hstages
    obtain ⟨m', hrun, hm'⟩ :=
        ih (done ++ [s]) (m := after (p.given I x N) m.enter (d.block p.stages s)) hnext (by
      rw [hm, enter_after, after_append, List.flatMap_append, List.flatMap_singleton])
    refine ⟨m', ?_, by simpa using hm'⟩
    rw [List.foldlM_cons, hblock]
    exact hrun

/-- The program runs to its end, and leaves in each output that it writes what the output is to be
given. What the body does not write stays as it came in. -/
theorem run (hp : p.LocalsOnce) : ∃ m, (d.finish p).run I x = some m ∧
    (∀ i, ∀ s ∈ p.stages.devices, ∀ st ∈ d.block p.stages s, st.target = some (.var (.param i)) →
      ∃ y, m (.var (.param i)) = some y ∧ p.outcome I x i = some y) ∧
    ∀ i, p.scope.find (.param i) = none → m (.var (.param i)) = some (x i) := by
  have hstart : (Memory.input x).enter = (after (p.given I x N) (.input x) []).enter :=
    congrArg enter (funext fun c => (after_of_not_mem (by simp)).symm)
  obtain ⟨m, hrun, hm⟩ := h.run_stages hp (.host :: p.stages.devices) [] rfl hstart
  refine ⟨m, hrun, fun i s hs st hst ht => ?_, fun i hnone => ?_⟩
  · have hmem : st ∈ (.host :: p.stages.devices).flatMap (d.block p.stages) :=
      List.mem_flatMap.2 ⟨s, List.mem_cons_of_mem _ hs, hst⟩
    have hvalue : m (.var (.param i)) = p.outcome I x i :=
      (congrFun hm (.var (.param i))).trans (after_of_mem hmem ht)
    obtain ⟨y, hy⟩ := h.outcome_of_target hst ht
    exact ⟨y, hvalue.trans hy, hy⟩
  · refine (congrFun hm (.var (.param i))).trans (after_of_not_mem fun st hst ht => ?_)
    obtain ⟨s, -, hst⟩ := List.mem_flatMap.1 hst
    obtain ⟨y, hy⟩ := h.outcome_of_target hst ht
    simp [Pipeline.outcome, hnone] at hy

end Complete

def uncarried (p : Pipeline) (I : Interp V) (x : Nat → V) : Memory V
  | .var (.param i) => if p.isOutput i then none else some (x i)
  | .var (.localVar v) => p.scope.run I (.input x) (.var (.localVar v))
  | .field .. => none

theorem start_sense (p : Pipeline) (I : Interp V) (x : Nat → V) :
    (Draft.start p).Sense p I x (uncarried p I x) := by
  have hqueue : ∀ s, (Draft.start p).queue s = [] := PerStage.get_const []
  refine ⟨⟨fun _ => rfl, fun _ => rfl⟩, fun s t r i f hr hf => ?_, fun _ _ _ _ _ _ => rfl,
    fun _ _ _ _ _ _ hd => ?_, fun s st hst => ?_⟩
  · rw [(start_record hr).1] at hf
    cases hf
  · cases hd
  · rw [hqueue] at hst
    cases hst

theorem Supplied.block_outputs {due : Stage → NodeId → Nat} (hd : d.Supplied p due)
    (hp : p.LocalsOnce) :
    (d.block p.stages s).filterMap StageStmt.output? = d.outputs s := by
  obtain ⟨pins, hs⟩ := hd.queues s
  obtain ⟨l, r, hb, hlr⟩ := block_cases d p.stages s
  have other {b : List StageStmt} (h : ∀ st ∈ b, st.exprs = []) :
      b.filterMap StageStmt.output? = [] := by
    refine List.filterMap_eq_nil_iff.2 fun st hst => ?_
    have hexprs := h st hst
    cases st with
    | decl | expr => cases hexprs
    | bindingDecl | pushUniform => rfl
  rw [hb, List.filterMap_append, List.filterMap_append, other fun st h => hlr st (.inl h), other
    fun st h => hlr st (.inr h), List.nil_append, List.append_nil, Queue.statements_eq,
    List.filterMap_map]
  refine List.filterMap_congr fun e he => ?_
  have hkind := hs.kinds e he
  cases hkind with
  | decl => rfl
  | assign hw =>
    obtain ⟨v, o, hw⟩ := hw
    obtain ⟨_, _, _, _, _, hsite, -⟩ := hp.find_local (fun _ => Scope.upTo_subset) hw
    cases hsite
  | loose => rfl

end Draft

namespace Pipeline

variable {p : Pipeline}

/-- A split that succeeds ends in a complete draft, with a statement for each output
that is written. -/
theorem LocalsOnce.complete {c : Catalog} {decls : DeclIndex} {f : PipelineFn} {prog : Program}
    {notices : List String} (hp : p.LocalsOnce) (hcheck : Pipeline.check c decls f = .ok p)
    (hvaryings : p.VaryingsActive) (hswizzles : p.BareSwizzles) (h : p.split = (.ok prog, notices))
    (I : Interp V) (x : Nat → V) :
    ∃ (d : Draft) (N : Memory V), prog = d.finish p ∧ d.Complete p I x N ∧
    ∀ i w, p.scope.find (.param i) = some w →
      ∃ s ∈ p.stages.devices, ∃ st ∈ d.block p.stages s, st.target = some (.var (.param i)) := by
  obtain ⟨d, hrun, rfl⟩ := split_runs h
  have hdev : ∀ z ∈ p.allOutputs, z.1 ∈ p.stages.devices := fun z hz => (mem_allOutputs hz).1
  have hw := hrun.wired (check_rolesStand hcheck hvaryings) hswizzles hdev (Draft.start_wired p)
  have hd := hrun.supplied hswizzles hp.singleWrites (fun s hs => hp.anchors hswizzles hrun hs)
    (fun _ hz => hz) (start_supplied p)
  obtain ⟨N, hN⟩ := hrun.sense hp hswizzles (fun _ hz => hz) (Draft.start_sense p I x)
  -- the queues start without outputs, and each output is traced once
  have hnone (s : Stage) : (Draft.start p).outputs s = [] := by
    have hqueue : (Draft.start p).queue s = [] := PerStage.get_const [] s
    simp [Draft.outputs, hqueue, Queue.tags]
  obtain ⟨hnodup, -, hmem⟩ :=
    hrun.outputs hp (fun _ hz => hz) p.allOutputs_nodup (fun s => by simp [hnone])
    (fun s i hi => by simp [hnone] at hi)
  refine ⟨d, N, rfl, ⟨hN, hw, fun s => Draft.finish_closed hw hp.singleWrites hd s, fun s => ?_⟩,
    fun i w hfind => ?_⟩
  · rw [hd.block_outputs hp]
    exact hnodup s
  · obtain ⟨q, hq, hrole⟩ := (Option.any_eq_true _ _).1 (hp.find_param (fun _ hs => hs) hfind).1
    rw [Bool.and_eq_true, bne_iff_ne] at hrole
    have hs : q.role.stage ∈ p.stages.devices := by
      refine StageSet.mem_devices.2
        ⟨(check_stages hcheck).2 (.inr (.inr ⟨q, ?_, hrole.1, rfl⟩)), hrole.2⟩
      exact List.mem_of_getElem? hq
    have hout := hmem _ q i (mem_allOutputs_of hs hq hrole.1 rfl) (by simp [hfind])
    rw [← hd.block_outputs hp, List.mem_filterMap] at hout
    obtain ⟨st, hst, ht⟩ := hout
    exact ⟨_, hs, st, hst, StageStmt.output?_eq_some.1 ht⟩

end Pipeline
end ShaderSplit
