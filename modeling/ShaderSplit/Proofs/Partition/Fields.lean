import ShaderSplit.Proofs.Partition.WiredTrace
import ShaderSplit.Workbench.Tree

namespace ShaderSplit

mutual
theorem ConstValue.same_self : ∀ v : ConstValue, v.same v = true
  | .int _ | .float _ | .bool _ => by simp [ConstValue.same]
  | .aggregate vs => by simp [ConstValue.same, ConstValue.allSame_self vs]
theorem ConstValue.allSame_self : ∀ vs : List ConstValue, ConstValue.allSame vs vs = true
  | [] => rfl
  | v :: vs => by simp [ConstValue.allSame, ConstValue.same_self v, ConstValue.allSame_self vs]
end

namespace Expr

theorem allSame_self {es : List Expr} (h : ∀ e ∈ es, e.sameValue e = true) :
    allSame es es = true := by
  induction es with
  | nil => rfl
  | cons e es ih => simp [allSame, h e, ih fun x hx => h x (by simp [hx])]

theorem sameValue_self {e : Expr} (h : e.All fun x => ∀ n what, x ≠ .unsupported n what) :
    e.sameValue e = true := by
  induction e using ind <;>
    simp_all [sameValue, ConstValue.same_self, allSame_self]
  case unsupported n what =>
    exact absurd rfl (h.self n what)

end Expr

namespace Draft

variable {p : Pipeline} {d d' : Draft}

theorem foldl_set_get {α : Type} (f : Stage → α) (l : List Stage) (init : PerStage α) (t : Stage) :
    (l.foldl (fun r s => r.set s (f s)) init).get t = if t ∈ l then f t else init.get t := by
  induction l generalizing init with
  | nil => simp
  | cons s l ih =>
    rw [List.foldl_cons, ih, PerStage.get_set]
    by_cases ht : t ∈ l
    · simp [ht]
    · by_cases hs : s = t
      · simp [ht, hs]
      · simp [ht, hs, Ne.symm hs]

theorem start_uniforms (p : Pipeline) (t : Stage) : (Draft.start p).uniforms.get t =
    if t ∈ p.stages.devices then some (.new .host t) else none :=
  (foldl_set_get ..).trans (by simp)

theorem start_varyings (p : Pipeline) (t : Stage) : (Draft.start p).varyings.get t =
    if t ∈ p.stages.devices then (p.stages.previousActive t).map (.new · t) else none :=
  (foldl_set_get ..).trans (by simp)

theorem start_record {p : Pipeline} {s t : Stage} {r : InterfaceRecord}
    (hr : (Draft.start p).record? s t = some r) :
    r.fields = [] ∧ r.dest = t ∧ t ∈ p.stages.devices ∧
      if s = .host then r.source = .host else p.stages.previousActive t = some r.source := by
  unfold record? at hr
  split at hr
  · rename_i hs
    rw [start_uniforms] at hr
    split at hr
    · rename_i ht
      cases hr
      exact ⟨rfl, rfl, ht, by rw [if_pos hs]; rfl⟩
    · cases hr
  · rename_i hs
    rw [start_varyings] at hr
    split at hr
    · rename_i ht
      obtain ⟨x, hx, rfl⟩ := Option.map_eq_some_iff.1 hr
      exact ⟨rfl, rfl, ht, by rw [if_neg hs, hx]; rfl⟩
    · cases hr

theorem start_wired (p : Pipeline) : (Draft.start p).Wired p := by
  have hqueue : ∀ s, (Draft.start p).queue s = [] := PerStage.get_const []
  refine ⟨fun s t r hr => (start_record hr).2, fun s t r i hr _ => ?_, fun s e he => ?_,
    fun s t r hr f hf => ?_, fun o s decl ho => ?_⟩
  · rw [hqueue, (start_record hr).1]
    rfl
  · rw [hqueue] at he
    cases he
  · rw [(start_record hr).1] at hf
    cases hf
  · cases ho

end Draft

namespace Pipeline

variable {p : Pipeline}

theorem contains_foldl {l : List Param} {m : StageSet} {s : Stage} :
    (l.foldl (fun m q => m.insert q.role.stage) m).contains s = true ↔
      m.contains s = true ∨ ∃ q ∈ l, q.role.stage = s := by
  induction l generalizing m with
  | nil => simp
  | cons q l ih =>
    rw [List.foldl_cons, ih, StageSet.contains_insert]
    simp [or_assoc]

theorem check_eq_ok {c : Catalog} {d : DeclIndex} {f : PipelineFn} : check c d f = .ok p ↔
    Signature.diagnostics c d f = [] ∧ p = ⟨c, d, f, .ofParams c d f.params⟩ := by
  unfold check Signature.check
  split
  next h => simp [h, Except.map, eq_comm]
  next h =>
    simp only [Except.map, reduceCtorEq, false_iff, not_and]
    exact fun hnil => (h hnil).elim

theorem check_of_isEmpty {c : Catalog} {d : DeclIndex} {f : PipelineFn}
    (h : (Signature.diagnostics c d f).isEmpty = true) :
    check c d f = .ok ⟨c, d, f, .ofParams c d f.params⟩ :=
  check_eq_ok.2 ⟨List.isEmpty_iff.1 h, rfl⟩

theorem check_catalog {c : Catalog} {d : DeclIndex} {f : PipelineFn} (h : check c d f = .ok p) :
    p.catalog = c := by
  obtain ⟨-, rfl⟩ := check_eq_ok.1 h
  rfl

theorem check_fn {c : Catalog} {d : DeclIndex} {f : PipelineFn} (h : check c d f = .ok p) :
    p.fn = f ∧ p.signature = Signature.ofParams c d f.params := by
  obtain ⟨-, rfl⟩ := check_eq_ok.1 h
  exact ⟨rfl, rfl⟩

/-- An accepted function has the host, the vertex stage and the stages of its outputs. -/
theorem check_stages {c : Catalog} {d : DeclIndex} {f : PipelineFn}
    (h : check c d f = .ok p) {s : Stage} :
    p.stages.contains s = true ↔
      s = .host ∨ s = .vertex ∨ ∃ q ∈ p.fn.params, q.role.isOutput = true ∧ q.role.stage = s := by
  obtain ⟨hf, hs⟩ := check_fn h
  rw [stages, hs, Signature.ofParams, Signature.stagesOf, contains_foldl, hf]
  cases s <;> simp [StageSet.hostAndVertex, and_assoc]

theorem check_rolesStand {c : Catalog} {d : DeclIndex} {f : PipelineFn} (h : check c d f = .ok p)
    (hv : p.VaryingsActive) : p.RolesStand := by
  have active (s : Stage) (hs : p.stages.contains s = true) : p.Stands s := by
    by_cases hh : s = .host
    · exact .inl hh
    · exact .inr (.inl (StageSet.mem_devices.2 ⟨hs, hh⟩))
  have vertex : p.Stands .vertex := active _ ((check_stages h).2 (by simp))
  intro q hq
  have output (hout : q.role.isOutput = true) : p.Stands q.role.stage :=
    active _ ((check_stages h).2 (.inr (.inr ⟨q, hq, hout, rfl⟩)))
  cases hr : q.role with
  | captured => exact .inl rfl
  | vertexBuffer | instanceBuffer | vertexTexture => exact vertex
  | fragmentTexture => exact .inr (.inr rfl)
  | varyingInput s => exact active s (hv q hq s hr)
  | position | colorTarget | varyingOutput => exact hr ▸ output (by rw [hr]; rfl)

theorem Runs.wired {todo : List (Stage × Param × Nat)} {d d' : Draft} (h : Runs p todo d d')
    (hroles : p.RolesStand) (hbare : p.BareSwizzles) (htodo : ∀ x ∈ todo, x.1 ∈ p.stages.devices)
    (hw : d.Wired p) : d'.Wired p := by
  induction h with
  | nil => exact hw
  | unwritten _ _ ih =>
    exact ih (fun x hx => htodo x (by simp [hx])) (hw.agree ⟨rfl, rfl, rfl, rfl⟩)
  | @written s q i rest x e o t d d₁ d₂ d' hfind ht hs hp _ ih =>
    have hstands : p.Stands s := .inr (.inl (htodo (s, q, i) (by simp)))
    have hx : x ∈ p.scope.terms := Scope.find_value_mem hfind
    obtain ⟨hw₁, -, ht₁⟩ := ht.wired hroles hbare hstands hw ⟨o, rfl⟩ (by simpa using hx)
    obtain ⟨hw₂, -, he₂⟩ :=
      hp.wired hw₁ ⟨o, rfl⟩ (by simp) (fun s' hs' => (Option.some.inj hs') ▸ hstands)
      (ht₁ t (by simp))
    refine ih (fun x hx => htodo x (by simp [hx])) (hw₂.add ?_)
    simpa [Draft.Stays, StageStmt.exprs] using (he₂.2 s (.inr rfl)).1

theorem split_wired {c : Catalog} {d : DeclIndex} {f : PipelineFn} {prog : Program}
    {notices : List String} (hcheck : check c d f = .ok p) (hv : p.VaryingsActive)
    (hbare : p.BareSwizzles) (h : p.split = (.ok prog, notices)) :
    ∃ d : Draft, d.Wired p ∧ prog = d.finish p := by
  obtain ⟨d, hrun, hprog⟩ := split_runs h
  have hdev : ∀ x ∈ p.allOutputs, x.1 ∈ p.stages.devices := fun x hx => (mem_allOutputs hx).1
  exact ⟨d, hrun.wired (check_rolesStand hcheck hv) hbare hdev (Draft.start_wired p), hprog⟩

end Pipeline

namespace Draft

variable {p : Pipeline} {d : Draft}

theorem finish_block (d : Draft) (p : Pipeline) (s : Stage) :
    (d.finish p).blocks.get s = d.block p.stages s := by
  cases s <;> rfl

theorem finish_uniform? (d : Draft) (p : Pipeline) (t : Stage) :
    (d.finish p).uniform? t = (d.uniforms.get t).map InterfaceRecord.freeze := by
  cases t <;> rfl

theorem finish_input? (d : Draft) (p : Pipeline) (t : Stage) :
    (d.finish p).input? t = (d.varyings.get t).map InterfaceRecord.freeze := by
  cases t <;> rfl

/-- The statements that a block has besides those of its queue hold no expressions. -/
theorem block_cases (d : Draft) (m : StageSet) (s : Stage) :
    ∃ l r, d.block m s = l ++ (d.queue s).statements ++ r ∧ ∀ st, st ∈ l ∨ st ∈ r →
    st.exprs = [] := by
  cases s with
  | host =>
    refine ⟨_, _, rfl, fun st hst => ?_⟩
    rcases hst with h | h <;>
    · obtain ⟨_, _, rfl⟩ := List.mem_map.1 h
      rfl
  | _ => exact ⟨[], [], by simp [block], by simp⟩

theorem queued_of_block {m : StageSet} {s : Stage} {st : StageStmt} (hst : st ∈ d.block m s)
    (hexprs : st.exprs ≠ []) : ∃ origin, (st, origin) ∈ (d.queue s).tags := by
  obtain ⟨l, r, hb, hlr⟩ := block_cases d m s
  rw [hb, List.mem_append, List.mem_append] at hst
  rcases hst with (hst | hst) | hst
  · exact absurd (hlr st (.inl hst)) hexprs
  · exact Queue.mem_statements.1 hst
  · exact absurd (hlr st (.inr hst)) hexprs

theorem mem_block_of_queued {m : StageSet} {s : Stage} {e : StageStmt × Option NodeId}
    (h : e ∈ (d.queue s).tags) : e.1 ∈ d.block m s := by
  obtain ⟨l, r, hb, -⟩ := block_cases d m s
  have hst : e.1 ∈ (d.queue s).statements := Queue.mem_statements.2 ⟨e.2, h⟩
  simp [hb, hst]

theorem assignments_block (r : InterfaceRef) (d : Draft) (m : StageSet) (s : Stage) :
    assignments r (d.block m s) = assignments r (d.queue s).statements := by
  have hnil (l : List StageStmt) (h : ∀ st ∈ l, st.exprs = []) : assignments r l = [] := by
    refine List.flatMap_eq_nil_iff.2 fun st hst => ?_
    simp [StageStmt.terms, h st hst]
  obtain ⟨l, k, hb, hlk⟩ := block_cases d m s
  rw [hb, assignments_append, assignments_append, hnil l fun st h => hlk st (.inl h),
    hnil k fun st h => hlk st (.inr h), List.nil_append, List.append_nil]

/-- The one producer of a field assigns the value that the field is known by. -/
theorem Wired.producer_unique {s t : Stage} {r : InterfaceRecord} {i : Nat} {f : InterfaceField}
    (h : d.Wired p) (hr : d.record? s t = some r) (hs : r.source = s) (hf : r.fields[i]? = some f) :
    ∃ e, assignments ⟨r.source, t, .producer, i⟩ (d.block p.stages r.source) = [(.assign, e)] ∧
      e.sameValue f.key = true := by
  refine ⟨f.key, ?_, Expr.sameValue_self ?_⟩
  · rw [assignments_block, hs, h.produced s t r i hr hs, hf]
    rfl
  · refine (h.keys s t r hr f (List.mem_of_getElem? hf)).mono fun x hx n what hu => ?_
    subst hu
    exact hx

/-- Whatever stands in a block may be read there, or is a producing end. -/
theorem Wired.reads_block {s : Stage} {st : StageStmt} {x : Expr} (h : d.Wired p)
    (hst : st ∈ d.block p.stages s) (hx : x ∈ st.terms) :
    d.Reads p s x ∨ ∃ n r, x = .interface n r ∧ r.side = .producer := by
  obtain ⟨e, he, hxe⟩ := List.mem_flatMap.1 hx
  obtain ⟨origin, htag⟩ := queued_of_block hst (List.ne_nil_of_mem he)
  rcases h.queued s _ htag with hstay | ⟨-, n₁, n₂, t, i, value, hprod, hv⟩
  · exact .inl (hstay e he x hxe)
  · obtain rfl : st = _ := hprod
    obtain rfl := List.mem_singleton.1 he
    rw [Expr.subterms, List.mem_cons, List.mem_append] at hxe
    rcases hxe with rfl | hxe | hxe
    · exact .inl trivial
    · obtain rfl : x = .interface n₂ ⟨s, t, .producer, i⟩ := by simpa using hxe
      exact .inr ⟨n₂, _, rfl, rfl⟩
    · exact .inl (hv x hxe)

end Draft

/-- Records and their uses match. -/
structure Program.Matched (prog : Program) : Prop where
  /-- Each field has exactly one assignment to its producing end. It stands in the block of the
  record's source and assigns the value that the field is known by. -/
  fields : ∀ t r, prog.uniform? t = some r ∨ prog.input? t = some r → r.dest = t ∧
    ∀ i field, r.fields[i]? = some field →
      ∃ e, assignments ⟨r.source, t, .producer, i⟩ (prog.blocks.get r.source) = [(.assign, e)] ∧
        e.sameValue field.key = true
  /-- Each consuming end stands in the block of its destination. It names a field, of its own type,
  of the record that leads there from the host or from the active stage just before. -/
  uses : ∀ s, ∀ st ∈ prog.blocks.get s, ∀ n r, .interface n r ∈ st.terms →
    r.side = .consumer → r.dest = s ∧
    ∃ rec field, (r.source = .host ∧ prog.uniform? s = some rec ∨
        prog.stages.previousActive s = some r.source ∧ prog.input? s = some rec) ∧
      rec.source = r.source ∧ rec.fields[r.field]? = some field ∧ n.ty = field.ty

/-- The program of every accepted function that is split has matching records and uses. -/
theorem Pipeline.split_matched {c : Catalog} {d : DeclIndex} {f : PipelineFn} {p : Pipeline}
    {prog : Program} {notices : List String} (hcheck : Pipeline.check c d f = .ok p)
    (hvaryings : p.VaryingsActive) (hswizzles : p.BareSwizzles)
    (h : p.split = (.ok prog, notices)) : prog.Matched := by
  obtain ⟨d, hw, rfl⟩ := split_wired hcheck hvaryings hswizzles h
  refine ⟨fun t r hr => ?_, fun s st hst n r hr hside => ?_⟩
  · -- a record is filed under its destination, and its link tells its source
    rw [Draft.finish_uniform?, Draft.finish_input?] at hr
    obtain ⟨rec, hrec, rfl⟩ : ∃ rec, d.record? rec.source t = some rec ∧ rec.freeze = r := by
      rcases hr with hr | hr
      · obtain ⟨rec, hrec, rfl⟩ := Option.map_eq_some_iff.1 hr
        have hh : d.record? .host t = some rec := hrec
        have hs : rec.source = .host := by simpa using (hw.linked _ _ _ hh).2.2
        exact ⟨rec, by rw [hs]; exact hh, rfl⟩
      · obtain ⟨rec, hrec, rfl⟩ := Option.map_eq_some_iff.1 hr
        have hv : d.record? .vertex t = some rec := hrec
        have hp : p.stages.previousActive t = some rec.source := by
          simpa using (hw.linked _ _ _ hv).2.2
        have hne : rec.source ≠ .host := (StageSet.mem_devices.1 (StageSet.previousActive_mem hp)).2
        exact ⟨rec, (if_neg hne).trans hrec, rfl⟩
    refine ⟨(hw.linked _ _ _ hrec).1, fun i field hf => ?_⟩
    rw [Draft.finish_block]
    have hone := hw.producer_unique hrec rfl (show rec.fields[i]? = some field from hf)
    exact hone
  · -- a consuming end is no producing one, so it is what the stage may read
    rw [Draft.finish_block] at hst
    have hreads : d.Reads p s (.interface n r) := by
      refine (hw.reads_block hst hr).resolve_right ?_
      rintro ⟨n', r', hr', hproducer⟩
      cases hr'
      cases hside.symm.trans hproducer
    obtain ⟨-, rfl, rec, field, hrec, hs, hf, hty⟩ := hreads
    refine ⟨rfl, rec.freeze, field, ?_, hs, hf, hty.symm⟩
    rw [Draft.finish_uniform?, Draft.finish_input?]
    obtain ⟨-, -, hsource⟩ := hw.linked _ _ _ hrec
    unfold Draft.record? at hrec
    split at hrec
    · rename_i hh
      exact .inl ⟨hh, by rw [hrec]; rfl⟩
    · rename_i hh
      rw [if_neg hh, hs] at hsource
      exact .inr ⟨hsource, by rw [hrec]; rfl⟩

namespace Sample

open Workbench

def param (name : String) (role : Role) : Param := ⟨name, .float, role, .dummy⟩

def fn (name : String) (params : List Param) (body : Building (List Stmt)) : PipelineFn :=
  ⟨name, params, (body .empty).1, .dummy⟩

def bare : Catalog := ⟨[], [], [], [], []⟩

def pipeline (f : PipelineFn) : Pipeline := ⟨bare, ⟨[]⟩, f, .ofParams bare ⟨[]⟩ f.params⟩

theorem check_pipeline {f : PipelineFn} (h : (Signature.diagnostics bare ⟨[]⟩ f).isEmpty = true) :
    Pipeline.check bare ⟨[]⟩ f = .ok (pipeline f) :=
  Pipeline.check_of_isEmpty h

theorem pipeline_bareSwizzles (f : PipelineFn) : (pipeline f).BareSwizzles := by
  intro n m object args f _ hm
  cases hm

def splits (p : Pipeline) (test : Program → Bool) : Bool :=
  match p.split.1 with
  | .ok prog => test prog
  | .error _ => false

theorem exists_of_splits (p : Pipeline) (test : Program → Bool) (h : splits p test = true) :
    ∃ prog notices, p.split = (.ok prog, notices) ∧ test prog = true := by
  unfold splits at h
  split at h
  · rename_i prog hp
    exact ⟨prog, p.split.2, Prod.ext hp rfl, h⟩
  · cases h

/-- A local of the vertex stage is declared again for geometry, and feeds a product that is passed
on over two records to the fragment stage. -/
def tinted : PipelineFn :=
  let ps := [param "tint" .captured, param "v" (.varyingInput .vertex),
      param "g" (.varyingOutput .geometry),
    param "o" (.varyingOutput .fragment)]
  fn "tinted" ps do
    let (da, a) ← declare "a" .float (← binary .add (← arg ps 1) (← arg ps 0))
    let g ← assign .assign (← arg ps 2) (← useLocal a)
    let o ← assign .assign (← arg ps 3) (← binary .mul (← useLocal a) (← arg ps 0))
    return [da, g, o]

end Sample

open Sample in
theorem Pipeline.split_matched_tinted :
    ∃ prog notices, Pipeline.check bare ⟨[]⟩ tinted = .ok (pipeline tinted) ∧
    (pipeline tinted).VaryingsActive ∧ (pipeline tinted).BareSwizzles ∧
    (pipeline tinted).split = (.ok prog, notices) ∧ prog.Matched ∧
    (prog.input? .geometry).map (·.fields.length) = some 2 := by
  have hcheck : Pipeline.check bare ⟨[]⟩ tinted = .ok (pipeline tinted) :=
    check_pipeline (by decide +kernel)
  have hv : (pipeline tinted).VaryingsActive := by decide +kernel
  have hb := pipeline_bareSwizzles tinted
  obtain ⟨prog, notices, h, hf⟩ := exists_of_splits (pipeline tinted)
    (fun prog => (prog.input? .geometry).map (·.fields.length) == some 2) (by decide +kernel)
  exact ⟨prog, notices, hcheck, hv, hb, h, Pipeline.split_matched hcheck hv hb h, by simpa using hf⟩

end ShaderSplit
