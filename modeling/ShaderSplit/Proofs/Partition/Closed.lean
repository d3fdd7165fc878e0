import Mathlib.Data.List.Nodup
import ShaderSplit.Proofs.Partition.Fields
import ShaderSplit.Proofs.Partition.Supply

namespace ShaderSplit

def StageStmt.binds : StageStmt → List LocalId
  | decl d => [d.var]
  | _ => []

/-- Each local in a block is declared before, by the block or among `vs`. -/
def localsClosed (vs : List LocalId) : List StageStmt → Bool
  | [] => true
  | st :: rest => st.locals.all vs.contains && localsClosed (st.binds ++ vs) rest

theorem localsClosed_iff {vs : List LocalId} {b : List StageStmt} : localsClosed vs b = true ↔
    ∀ l st r, b = l ++ st :: r → ∀ v ∈ st.locals, v ∈ vs ∨ ∃ d, .decl d ∈ l ∧ d.var = v := by
  induction b generalizing vs with
  | nil => simp [localsClosed]
  | cons st b ih =>
    rw [localsClosed, Bool.and_eq_true, ih, List.all_eq_true]
    have hbinds (v : LocalId) : v ∈ st.binds ↔ ∃ d, .decl d = st ∧ d.var = v := by
      cases st <;> simp [StageStmt.binds, eq_comm]
    constructor
    · rintro ⟨hst, hb⟩ l st' r heq v hv
      cases l with
      | nil =>
        obtain ⟨rfl, -⟩ := List.cons.inj heq
        exact .inl (by simpa using hst v hv)
      | cons x l =>
        obtain ⟨rfl, rfl⟩ := List.cons.inj heq
        rcases hb l st' r rfl v hv with hmem | ⟨d, hd, hvar⟩
        · rw [List.mem_append, hbinds] at hmem
          exact hmem.symm.imp_right fun ⟨d, hd, hvar⟩ => ⟨d, by simp [hd], hvar⟩
        · exact .inr ⟨d, by simp [hd], hvar⟩
    · intro h
      refine ⟨fun v hv => by simpa using h [] st b rfl v hv, fun l st' r heq v hv => ?_⟩
      rcases h (st :: l) st' r (by simp [heq]) v hv with hmem | ⟨d, hd, hvar⟩
      · exact .inl (by simp [hmem])
      · rcases List.mem_cons.1 hd with hd | hd
        · exact .inl (List.mem_append_left _ ((hbinds v).2 ⟨d, hd, hvar⟩))
        · exact .inr ⟨d, hd, hvar⟩

namespace Queue

variable {p : Pipeline} {s : Stage} {pins due : NodeId → Nat} {q : Queue}

/-- In a sound queue, a local has its declaration before any statement that names it. -/
theorem Sound.declared_before (hsw : p.SingleWrites) (h : q.Sound p s pins due) :
    ∀ {l r : List Tag} {e : Tag}, q.tags = l ++ e :: r → ∀ v ∈ e.1.locals, ∃ d o, (.decl d, o) ∈ l ∧
    d.var = v := by
  intro l
  -- What reaches the local is its declaration, or an assignment further to the front that names it.
  induction hn : l.length using Nat.strongRecOn generalizing l with
  | ind n ih =>
    intro r e heq v hv
    have hordered := h.ordered
    rw [heq] at hordered
    obtain ⟨x, -, hfound⟩ := (ordered_append.1 hordered).2.1
    obtain ⟨w, hw, hmem, -⟩ := hfound v hv
    rw [List.nil_append] at hmem
    obtain ⟨⟨st, origin⟩, he', ho⟩ := List.mem_map.1 hmem
    obtain rfl : origin = some w.step := ho
    have hkind := h.kinds (st, some w.step) (by rw [heq]; simp [he'])
    have hshow : p.Shows w := ⟨v, x, hw⟩
    obtain ⟨site, step⟩ := w
    cases hkind with
    | @decl written decl _ hw' hvar _ =>
      obtain rfl : Site.declaration written = site := hsw.site hw' hshow rfl
      exact ⟨decl, _, he', hvar.trans (Scope.find_declaration_var hw)⟩
    | @assign y y' _ hw' hy =>
      obtain rfl : Site.assignment y = site := hsw.site hw' hshow rfl
      have hv' : v ∈ (StageStmt.expr y').locals := by
        simpa [StageStmt.locals, StageStmt.exprs] using hy v (Scope.find_assignment_writes hw)
      obtain ⟨l₁, l₂, rfl⟩ := List.append_of_mem he'
      have hlen : l₁.length < n := by simp [← hn]
      obtain ⟨d, o, hd, hvar⟩ := ih l₁.length hlen rfl (by simpa using heq) v hv'
      exact ⟨d, o, by simp [hd], hvar⟩

theorem Sound.localsClosed (hsw : p.SingleWrites) (h : q.Sound p s pins due) :
    localsClosed [] q.statements = true := by
  refine localsClosed_iff.2 fun l st r heq v hv => .inr ?_
  rw [statements_eq] at heq
  obtain ⟨l', rest, htags, rfl, hrest⟩ := List.map_eq_append_iff.1 heq
  obtain ⟨e, r', rfl, rfl, -⟩ := List.map_eq_cons_iff.1 hrest
  obtain ⟨d, o, hd, hvar⟩ := h.declared_before hsw htags v hv
  exact ⟨d, List.mem_map.2 ⟨_, hd, rfl⟩, hvar⟩

end Queue

theorem localsClosed_append {vs : List LocalId} {l b r : List StageStmt}
    (h : ∀ st, st ∈ l ∨ st ∈ r → st.exprs = []) (hb : localsClosed vs b = true) :
    localsClosed vs (l ++ b ++ r) = true := by
  have none (st : StageStmt) (hst : st.exprs = []) : st.locals = [] ∧ st.binds = [] := by
    cases st <;> simp_all [StageStmt.exprs, StageStmt.locals, StageStmt.binds]
  have after (vs : List LocalId) (r : List StageStmt) (hr : ∀ st ∈ r, st.exprs = []) :
      localsClosed vs r = true := by
    induction r generalizing vs with
    | nil => rfl
    | cons st r ih =>
      simp [localsClosed, none st (hr st (by simp)), ih vs fun x hx => hr x (by simp [hx])]
  induction l with
  | nil =>
    rw [List.nil_append]
    induction b generalizing vs with
    | nil => exact after vs r fun st hst => h st (.inr hst)
    | cons st b ih =>
      rw [localsClosed, Bool.and_eq_true] at hb
      rw [List.cons_append, localsClosed, Bool.and_eq_true]
      exact ⟨hb.1, ih hb.2⟩
  | cons st l ih =>
    rw [List.cons_append, List.cons_append, localsClosed]
    have hrest := ih fun x hx => h x (hx.imp_left fun hl => by simp [hl])
    simpa [none st (h st (by simp))] using hrest

def Program.OwnParams (prog : Program) (s : Stage) : Prop :=
  ∀ st ∈ prog.blocks.get s, ∀ n i, .param n i ∈ st.terms →
    ∃ q, prog.params[i]? = some q ∧ q.role.stage = s

/-- The block of a stage stands on its own. -/
structure Program.Closed (prog : Program) (s : Stage) : Prop where
  locals : ∀ l st r, prog.blocks.get s = l ++ st :: r →
    ∀ v ∈ st.locals, ∃ d, .decl d ∈ l ∧ d.var = v
  params : prog.OwnParams s
  targets : ∀ st ∈ prog.blocks.get s, ∀ n op n' r rhs, .binary n op (.interface n' r)
    rhs ∈ st.terms →
    op.isAssignment = true → r.side = .producer

theorem Draft.Wired.ownParams {d : Draft} {p : Pipeline} (hw : d.Wired p) (s : Stage) :
    (d.finish p).OwnParams s := by
  intro st hst n i hi
  rw [finish_block] at hst
  exact (hw.reads_block hst hi).resolve_right (by simp)

theorem Draft.finish_closed {d : Draft} {p : Pipeline} {due : Stage → NodeId → Nat} (hw : d.Wired p)
    (hsw : p.SingleWrites) (hd : d.Supplied p due) (s : Stage) : (d.finish p).Closed s := by
  obtain ⟨pins, hs⟩ := hd.queues s
  obtain ⟨l, k, hb, hlk⟩ := block_cases d p.stages s
  have hclosed : localsClosed [] (d.block p.stages s) = true :=
    hb ▸ localsClosed_append hlk (hs.localsClosed hsw)
  refine ⟨fun l st r heq v hv => ?_, hw.ownParams s, fun st hst n op n' r rhs hx hop => ?_⟩
  · rw [finish_block] at heq
    exact (localsClosed_iff.1 hclosed l st r heq v hv).resolve_left (by simp)
  · rw [finish_block] at hst
    obtain ⟨e, he, hxe⟩ := List.mem_flatMap.1 hx
    obtain ⟨origin, htag⟩ := queued_of_block hst (List.ne_nil_of_mem he)
    exact hs.directed (st, origin) htag e he _ hxe hop

/-- A stage of an accepted function that is split has no parameters but its own. It is closed if
assignments to locals are told apart by their steps and stay in the stages of what they write. -/
theorem Pipeline.split_closed {c : Catalog} {d : DeclIndex} {f : PipelineFn} {p : Pipeline}
    {prog : Program} {notices : List String} (hcheck : Pipeline.check c d f = .ok p)
    (hvaryings : p.VaryingsActive) (hswizzles : p.BareSwizzles)
    (h : p.split = (.ok prog, notices)) (s : Stage) :
    prog.OwnParams s ∧
      (p.SingleWrites → (∀ s ∈ p.stages.devices, (⟨p, s⟩ : Aim).Anchors) → prog.Closed s) := by
  obtain ⟨d, hrun, rfl⟩ := split_runs h
  have hdev : ∀ x ∈ p.allOutputs, x.1 ∈ p.stages.devices := fun x hx => (mem_allOutputs hx).1
  have hw := hrun.wired (check_rolesStand hcheck hvaryings) hswizzles hdev (Draft.start_wired p)
  refine ⟨hw.ownParams s, fun hsingle hanchors => ?_⟩
  have hd := hrun.supplied hswizzles hsingle hanchors (fun _ hx => hx) (start_supplied p)
  exact Draft.finish_closed hw hsingle hd s

namespace Step

/-- The assignments in a step, inner ones included. -/
def assignments (s : Step) : List Expr := (s.exprs.flatMap Expr.subterms).filter fun
  | .binary _ op _ _ => op.isAssignment
  | _ => false

/-- A declaration that assigns nothing, or a statement with one assignment at most. -/
def isSimple (s : Step) : Bool :=
  match s.action with
  | .declare _ => s.assignments.isEmpty
  | .run _ => s.assignments.length ≤ 1
  | .skip => true

theorem mem_assignments {s : Step} {v : Var} {x e : Expr} (he : e ∈ s.exprs) (hx : x ∈ e.subterms)
    (hw : x.Writes v) : x ∈ s.assignments := by
  obtain ⟨n, op, lhs, rhs, rfl, hop, -⟩ := hw
  exact List.mem_filter.2 ⟨List.mem_flatMap.2 ⟨e, he, hx⟩, hop⟩

theorem isSimple_site {s : Step} {v v' : Var} {w w' : Write} (h : s.isSimple = true)
    (hw : s.lastWrite v = some w) (hw' : s.lastWrite v' = some w') : w.site = w'.site := by
  unfold isSimple at h
  rcases (lastWrite_cases hw).2 with ⟨d, hd, -, hs⟩ | ⟨x, hs, hx, e, he, hxe⟩
  · rw [hd] at h
    rcases (lastWrite_cases hw').2 with ⟨d', hd', -, hs'⟩ | ⟨x', -, hx', e', he', hxe'⟩
    · cases hd.symm.trans hd'
      rw [hs, hs']
    · have hmem := mem_assignments he' hxe' hx'
      rw [List.isEmpty_iff.1 h] at hmem
      cases hmem
  · have hmem := mem_assignments he hxe hx
    rcases (lastWrite_cases hw').2 with ⟨d', hd', -, -⟩ | ⟨x', hs', hx', e', he', hxe'⟩
    · rw [hd'] at h
      rw [List.isEmpty_iff.1 h] at hmem
      cases hmem
    · have hmem' := mem_assignments he' hxe' hx'
      -- a simple step has one assignment at most, so both writes are by that one
      have hlen : s.assignments.length ≤ 1 := by
        split at h
        · rw [List.isEmpty_iff.1 h]
          exact Nat.zero_le 1
        · simpa using h
        · rename_i hskip
          simp [assignments, exprs, hskip]
      match hl : s.assignments, hlen with
      | [], _ => rw [hl] at hmem; cases hmem
      | [y], _ =>
        rw [hl, List.mem_singleton] at hmem hmem'
        rw [hs, hs', hmem, hmem']

end Step

theorem Pipeline.singleWrites_of_simple {p : Pipeline} (hids : (p.scope.map (·.id)).Nodup)
    (hsimple : ∀ s ∈ p.scope, s.isSimple = true) : p.SingleWrites := by
  intro s hs s' hs' hid v v' w w' hw hw'
  obtain rfl : s = s' := List.inj_on_of_nodup_map hids hs hs' hid
  exact Step.isSimple_site (hsimple s hs) hw hw'

namespace Aim

theorem Reached.step {a : Aim} {sc : Scope} {x : Expr} (h : a.Reached sc x) :
    ∃ s ∈ a.pipeline.scope, sc = a.pipeline.scope.upTo s.id ∧ ∃ e ∈ s.exprs, x ∈ e.subterms := by
  have site {v : Var} {w : Write} {s : Step} (hs : s ∈ a.pipeline.scope)
      (hw : s.lastWrite v = some w) :
      ∃ s ∈ a.pipeline.scope, a.pipeline.scope.upTo w.step = a.pipeline.scope.upTo s.id ∧
        ∃ e ∈ s.exprs, w.site.value ∈ e.subterms := by
    obtain ⟨hid, ⟨d, hd, -, hsite⟩ | ⟨x, hsite, -, e, he, hx⟩⟩ := Step.lastWrite_cases hw
    · refine ⟨s, hs, by rw [hid], d.init, by simp [Step.exprs, hd], ?_⟩
      rw [hsite]
      exact Expr.self_mem_subterms _
    · refine ⟨s, hs, by rw [hid], e, he, ?_⟩
      rw [hsite]
      exact hx
  induction h with
  | output _ _ _ hw =>
    obtain ⟨s, hs, hl⟩ := Scope.find_mem hw
    exact site hs hl
  | part _ hx ih =>
    obtain ⟨s, hs, hsc, e, he, hxe⟩ := ih
    exact ⟨s, hs, hsc, e, he, Expr.subterms_trans hx hxe⟩
  | write h hw _ =>
    obtain ⟨x, rfl⟩ := h.scope
    obtain ⟨s, hs, hl⟩ := Scope.find_mem hw
    rw [Scope.before_upTo hw]
    exact site (Scope.upTo_subset hs) hl

def anchorsAll (a : Aim) : Bool :=
  a.pipeline.scope.all fun s => s.exprs.all fun e => e.subterms.all fun
  | .binary n op lhs rhs =>
    !op.isAssignment || decide (a.Anchored (a.pipeline.scope.upTo s.id) lhs (.binary n op lhs rhs))
  | _ => true

theorem anchors_of_all {a : Aim} (h : a.anchorsAll = true) : a.Anchors := by
  intro sc n op lhs rhs hr hop
  obtain ⟨s, hs, rfl, e, he, hx⟩ := hr.step
  have hall := List.all_eq_true.1 (List.all_eq_true.1 (List.all_eq_true.1 h s hs) e he) _ hx
  simpa [hop] using hall

end Aim

namespace Sample

open Workbench

/-- Locals are assigned again in the stages that they are in: one of the vertex stage by a compound
assignment and carried to two stages, one of the fragment stage, and one of the host that is
declared again in the fragment stage for its assignment. -/
def brushed : PipelineFn :=
  let ps := [param "tint" .captured, param "v" (.varyingInput .vertex),
      param "w" (.varyingInput .vertex),
    param "f" (.varyingInput .fragment), param "g" (.varyingOutput .geometry),
      param "o" (.varyingOutput .fragment)]
  fn "brushed" ps do
    let (da, a) ← declare "a" .float (← binary .add (← arg ps 1) (← arg ps 0))
    let sa ← assign .addAssign (← useLocal a) (← arg ps 2)
    let g ← assign .assign (← arg ps 4) (← useLocal a)
    let (dc, c) ← declare "c" .float (← arg ps 3)
    let sc ← assign .mulAssign (← useLocal c) (← useLocal a)
    let (de, e) ← declare "e" .float (← arg ps 0)
    let se ← assign .subAssign (← useLocal e) (← arg ps 3)
    let o ← assign .assign (← arg ps 5) (← binary .add (← useLocal c) (← useLocal e))
    return [da, sa, g, dc, sc, de, se, o]

/-- A local of the vertex stage, assigned there again, is added to in the fragment stage. -/
def smudged : PipelineFn :=
  let ps := [param "a" (.varyingInput .vertex), param "b" (.varyingInput .vertex),
      param "f" (.varyingInput .fragment),
    param "o" (.varyingOutput .fragment)]
  fn "smudged" ps do
    let (dc, c) ← declare "c" .float (← arg ps 0)
    let s ← assign .assign (← useLocal c) (← arg ps 1)
    let t ← assign .addAssign (← useLocal c) (← arg ps 2)
    let o ← assign .assign (← arg ps 3) (← useLocal c)
    return [dc, s, t, o]

end Sample

open Sample in
theorem Pipeline.split_closed_brushed :
    ∃ prog notices, Pipeline.check bare ⟨[]⟩ brushed = .ok (pipeline brushed) ∧
    (pipeline brushed).VaryingsActive ∧ (pipeline brushed).BareSwizzles ∧
    (pipeline brushed).SingleWrites ∧
    (∀ s ∈ (pipeline brushed).stages.devices, (⟨pipeline brushed, s⟩ : Aim).Anchors) ∧
    (pipeline brushed).split = (.ok prog, notices) ∧ (∀ s, prog.Closed s) ∧
    (prog.blocks.get .fragment).length = 5 := by
  have hcheck : Pipeline.check bare ⟨[]⟩ brushed = .ok (pipeline brushed) :=
    check_pipeline (by decide +kernel)
  have hv : (pipeline brushed).VaryingsActive := by decide +kernel
  have hb := pipeline_bareSwizzles brushed
  have hsw : (pipeline brushed).SingleWrites :=
    singleWrites_of_simple (by decide +kernel) (by decide +kernel)
  have ha : ∀ s ∈ (pipeline brushed).stages.devices, (⟨pipeline brushed, s⟩ : Aim).Anchors := by
    have hall : ((pipeline brushed).stages.devices.all
          fun s => (⟨pipeline brushed, s⟩ : Aim).anchorsAll) = true := by
      decide +kernel
    exact fun s hs => Aim.anchors_of_all (List.all_eq_true.1 hall s hs)
  obtain ⟨prog, notices, h, hf⟩ := exists_of_splits (pipeline brushed)
    (fun prog => (prog.blocks.get .fragment).length == 5) (by decide +kernel)
  exact ⟨prog, notices, hcheck, hv, hb, hsw, ha, h,
    fun s => (Pipeline.split_closed hcheck hv hb h s).2 hsw ha, by simpa using hf⟩

open Sample in
/-- A local that is assigned again in a later stage is not declared there. -/
theorem Pipeline.split_open_smudged :
    ∃ prog notices, Pipeline.check bare ⟨[]⟩ smudged = .ok (pipeline smudged) ∧
    (pipeline smudged).VaryingsActive ∧ (pipeline smudged).BareSwizzles ∧
    (pipeline smudged).split = (.ok prog, notices) ∧ .fragment ∈ prog.devices ∧
    ¬ prog.Closed .fragment := by
  obtain ⟨prog, notices, h, hf⟩ := exists_of_splits (pipeline smudged)
    (fun prog => prog.devices.contains .fragment && !localsClosed [] (prog.blocks.get .fragment))
      (by decide +kernel)
  rw [Bool.and_eq_true] at hf
  refine ⟨prog, notices, check_pipeline (by decide +kernel),
    by decide +kernel, pipeline_bareSwizzles smudged, h,
    by simpa using hf.1, fun hc => ?_⟩
  have hlocals : localsClosed [] (prog.blocks.get .fragment) = true :=
    localsClosed_iff.2 fun l st r heq v hv => .inr (hc.locals l st r heq v hv)
  rw [hlocals] at hf
  exact absurd hf.2 (by simp)

end ShaderSplit
