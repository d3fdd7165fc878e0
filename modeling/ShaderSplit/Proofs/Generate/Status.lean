import ShaderSplit.Proofs.Header.Tables

namespace ShaderSplit

/-- A report of a function: stages are told exactly if it was emitted, and are those that
were checked. -/
structure Report.Tells (c : Catalog) (d : DeclIndex) (f : PipelineFn) (r : Report) : Prop where
  name : r.name = f.name
  active : r.stages ≠ .empty ↔ r.emitted = true
  stages : r.emitted = true → ∃ p, Pipeline.check c d f = .ok p ∧ r.stages = p.stages

/-- The class of an emitted function: it holds the function's split, under the name and with the
stages of the report. -/
structure PipelineClass.Declares (c : Catalog) (d : DeclIndex) (f : PipelineFn) (r : Report)
    (k : PipelineClass) : Prop where
  program : ∃ p notices, Pipeline.check c d f = .ok p ∧ p.split = (.ok k.program, notices)
  name : k.program.name = f.name
  stages : k.program.stages = r.stages
  opens : (k.lines c d).head? =
    some ("class " ++ f.name ++ " : public " ++ c.runtimeName "_HshBase" ++ "<" ++
      f.name ++ "> \x7b")

theorem Pipeline.split_name {p : Pipeline} {prog : Program} {notices : List String}
    (h : p.split = (.ok prog, notices)) : prog.name = p.fn.name ∧ prog.stages = p.stages := by
  obtain ⟨d, -, rfl⟩ := split_runs h
  exact ⟨rfl, rfl⟩

theorem Pipeline.check_stages_ne_empty {c : Catalog} {d : DeclIndex} {f : PipelineFn} {p : Pipeline}
    (h : check c d f = .ok p) : p.stages ≠ .empty := by
  intro hempty
  have hhost := (check_stages h (s := .host)).2 (.inl rfl)
  rw [hempty] at hhost
  simp at hhost

namespace PipelineFn

variable (f : PipelineFn) (c : Catalog) (d : DeclIndex) (targets : List Target)
  (compiler : Option ShaderCompiler)

theorem generate_tells : ((f.generate c d targets compiler).report f.name).Tells c d f := by
  unfold FunctionRun.report
  split
  next prog os ds hresult =>
    obtain ⟨⟨p, notices, hp, hsplit⟩, -⟩ := generate_serves hresult
    have hstages := (Pipeline.split_name hsplit).2
    refine ⟨rfl, ?_, fun _ => ⟨p, hp, hstages⟩⟩
    simpa [hstages] using Pipeline.check_stages_ne_empty hp
  · exact ⟨rfl, by simp, nofun⟩

/-- A function is dropped exactly if its diagnostics have an error among them. -/
theorem generate_hasErrors :
    Diagnostic.hasErrors (f.generate c d targets compiler).diagnostics = true ↔
      (f.generate c d targets compiler).emitted = false := by
  unfold Diagnostic.hasErrors
  rw [List.any_eq_true]
  constructor
  · rintro ⟨x, hx, herror⟩
    -- an emitted function has warnings of the backend only
    by_contra hemitted
    rw [Bool.not_eq_false] at hemitted
    rw [Diagnostic.not_isError_of_isBackendWarning (f.generate_emitted hemitted x hx)] at herror
    cases herror
  · intro hdropped
    obtain ⟨hne, herrors⟩ := f.generate_dropped hdropped
    obtain ⟨x, hx⟩ := List.exists_mem_of_ne_nil _ hne
    exact ⟨x, hx, herrors x hx⟩

theorem generate_declares {prog : Program} {os : List TargetOutput} {ds : List Diagnostic}
    (h : (f.generate c d targets compiler).result = .ok (prog, os, ds)) :
    (PipelineClass.of prog os).Declares c d f
      ((f.generate c d targets compiler).report f.name) := by
  obtain ⟨⟨p, notices, hp, hsplit⟩, -⟩ := generate_serves h
  obtain ⟨hname, -⟩ := Pipeline.split_name hsplit
  rw [(Pipeline.check_fn hp).1] at hname
  refine ⟨⟨p, notices, hp, hsplit⟩, hname, ?_, ?_⟩
  · simp [FunctionRun.report, h, PipelineClass.of]
  · rw [← hname]
    rfl

end PipelineFn

/-- Emitted functions have their classes, one each, and the others have none. -/
theorem FunctionRun.classes_forall₂ {run : PipelineFn → FunctionRun}
    {R : PipelineFn → Report → PipelineClass → Prop}
    (h : ∀ f prog os ds, (run f).result = .ok (prog, os, ds) →
      R f ((run f).report f.name) (.of prog os)) (fs : List PipelineFn) :
    List.Forall₂ (fun (x : PipelineFn × Report) k => R x.1 x.2 k)
      ((fs.zip (fs.map fun f => (run f).report f.name)).filter (·.2.emitted))
        (fs.flatMap fun f => (run f).classes) := by
  induction fs with
  | nil => exact .nil
  | cons f fs ih =>
    rw [List.map_cons, List.zip_cons_cons, List.flatMap_cons]
    cases hr : (run f).result with
    | error ds =>
      rw [List.filter_cons_of_neg (by simp [report, hr])]
      simpa [classes, hr] using ih
    | ok x =>
      obtain ⟨prog, os, ds⟩ := x
      rw [List.filter_cons_of_pos (by simp [report, hr])]
      have hclass : (run f).classes = [.of prog os] := by simp [classes, hr]
      rw [hclass]
      exact .cons (h f prog os ds hr) ih

namespace TranslationUnit

structure Status (u : TranslationUnit) (c : Catalog) (g : Generated) : Prop where
  reports : List.Forall₂ (Report.Tells c ⟨u.declarations⟩) u.pipelines g.reports
  errors : Diagnostic.hasErrors g.diagnostics = true ↔ ∃ r ∈ g.reports, r.emitted = false
  classes : List.Forall₂ (fun (x : PipelineFn × Report) k => k.Declares c ⟨u.declarations⟩ x.1 x.2)
    ((u.pipelines.zip g.reports).filter (·.2.emitted)) g.header.classes
  text : g.text = "\n".intercalate ([s!"/* Auto-generated hshhead for {u.fileName} */", ""]
    ++ g.header.store.blobs.flatMap (Blob.lines c) ++ ["namespace \x7b", ""]
    ++ g.header.classes.flatMap (PipelineClass.lines c ⟨u.declarations⟩) ++ ["\x7d"]) ++ "\n"

section

variable (u : TranslationUnit) (c : Catalog) (targets : List Target)
  (compiler : Option ShaderCompiler)

theorem result_hasErrors : Diagnostic.hasErrors (u.result c targets compiler).diagnostics = true ↔
    ∃ r ∈ (u.result c targets compiler).reports, r.emitted = false := by
  have hrun : ∀ f, (u.runOf c targets compiler f).diagnostics.any Diagnostic.isError = true ↔
      (u.runOf c targets compiler f).emitted = false := fun f =>
    f.generate_hasErrors c ⟨u.declarations⟩ (Target.select targets) compiler
  rw [result_diagnostics, result_reports, Diagnostic.hasErrors, List.any_flatMap, List.any_eq_true]
  simp only [hrun, List.mem_map, exists_exists_and_eq_and, FunctionRun.report_emitted]

end

/-- A run has errors if and only if it dropped a function, and its header declares the functions it
reports as emitted. -/
theorem generate_status {u : TranslationUnit} {targets : List Target}
    {compiler : Option ShaderCompiler} {g : Generated} (h : u.generate targets compiler = .ok g) :
    ∃ c, Catalog.build u.declarations = .ok c ∧ u.Status c g := by
  obtain ⟨-, c, hc, rfl⟩ := generate_ok.1 h
  refine ⟨c, hc, ?_, u.result_hasErrors c targets compiler, ?_, rfl⟩
  · rw [result_reports, List.forall₂_map_right_iff, List.forall₂_same]
    intro f _
    exact f.generate_tells c ⟨u.declarations⟩ (Target.select targets) compiler
  · rw [result_reports, result_classes]
    apply FunctionRun.classes_forall₂
    intro f prog os ds hf
    exact f.generate_declares c ⟨u.declarations⟩ (Target.select targets) compiler hf

end TranslationUnit

open Sample in
theorem TranslationUnit.generate_status_scene : ∃ g c, scene.generate [.glsl, .metal] none = .ok g ∧
    g.reports.map (fun r => (r.name, r.emitted)) = [("tinted", false), ("passed", true)] ∧
    g.header.classes.length = 1 ∧ Catalog.build scene.declarations = .ok c ∧ scene.Status c g := by
  obtain ⟨g, hg, htest⟩ := exists_of_generates scene [.glsl, .metal] (fun g =>
    g.reports.map (fun r => (r.name, r.emitted)) == [("tinted", false), ("passed", true)] &&
      g.header.classes.length == 1) (by decide +kernel)
  simp only [Bool.and_eq_true, beq_iff_eq] at htest
  obtain ⟨c, hc, h⟩ := generate_status hg
  exact ⟨g, c, hg, htest.1, htest.2, hc, h⟩

end ShaderSplit
