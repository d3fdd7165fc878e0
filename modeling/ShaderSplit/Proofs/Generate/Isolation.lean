import ShaderSplit.Proofs.Generate.Outputs
import ShaderSplit.Proofs.Partition.Fields
import ShaderSplit.Workbench.Prelude

namespace ShaderSplit

namespace FunctionRun

def emitted (r : FunctionRun) : Bool := r.result.isOk

/-- Errors of a function that is dropped, warnings of one that is emitted. -/
def diagnostics (r : FunctionRun) : List Diagnostic :=
  match r.result with
  | .ok (_, _, warnings) => warnings
  | .error errors => errors

def report (r : FunctionRun) (name : String) : Report :=
  match r.result with
  | .ok (program, _, _) => ⟨name, program.stages, true⟩
  | .error _ => ⟨name, .empty, false⟩

@[simp] theorem report_emitted (r : FunctionRun) (name : String) :
    (r.report name).emitted = r.emitted := by
  rcases r with ⟨_ | ⟨_, _, _⟩, _, _⟩ <;> rfl

end FunctionRun

def Header.addRun (h : Header) (r : FunctionRun) : Header :=
  match r.result with
  | .ok (program, outputs, _) => h.add program outputs
  | .error _ => h

theorem Header.addRun_of_dropped (h : Header) {r : FunctionRun} (hr : r.emitted = false) :
    h.addRun r = h := by
  rcases r with ⟨_ | _, _, _⟩
  · rfl
  · simp [FunctionRun.emitted, Except.isOk, Except.toBool] at hr

/-- Functions that are dropped can be left out of the run. -/
theorem Header.addRun_emitted (run : PipelineFn → FunctionRun) (fs : List PipelineFn) (h : Header) :
    ((fs.filter fun f => (run f).emitted).map run).foldl addRun h =
      (fs.map run).foldl addRun h := by
  induction fs generalizing h with
  | nil => rfl
  | cons f fs ih =>
    cases hf : (run f).emitted
    · simp [hf, addRun_of_dropped h hf, ih]
    · simp [hf, ih]

namespace Generated

variable (g : Generated) (name : String) (r : FunctionRun)

@[simp] theorem add_header : (g.add name r).header = g.header.addRun r := by
  rcases r with ⟨_ | ⟨_, _, _⟩, _, _⟩ <;> rfl

@[simp] theorem add_reports : (g.add name r).reports = g.reports ++ [r.report name] := by
  rcases r with ⟨_ | ⟨_, _, _⟩, _, _⟩ <;> rfl

@[simp] theorem add_diagnostics : (g.add name r).diagnostics = g.diagnostics ++ r.diagnostics := by
  rcases r with ⟨_ | ⟨_, _, _⟩, _, _⟩ <;> rfl

/-- A run over functions, where `run` tells what comes of each. -/
def addAll (run : PipelineFn → FunctionRun) (fs : List PipelineFn) : Generated :=
  fs.foldl (fun g f => g.add f.name (run f)) g

variable (run : PipelineFn → FunctionRun) (fs : List PipelineFn)

theorem addAll_header : (g.addAll run fs).header = (fs.map run).foldl Header.addRun g.header := by
  induction fs generalizing g with
  | nil => rfl
  | cons f fs ih => exact (ih _).trans (by simp)

theorem addAll_reports :
    (g.addAll run fs).reports = g.reports ++ fs.map fun f => (run f).report f.name := by
  induction fs generalizing g with
  | nil => simp [addAll]
  | cons f fs ih => exact (ih _).trans (by simp)

theorem addAll_diagnostics :
    (g.addAll run fs).diagnostics = g.diagnostics ++ fs.flatMap fun f => (run f).diagnostics := by
  induction fs generalizing g with
  | nil => simp [addAll]
  | cons f fs ih => exact (ih _).trans (by simp)

end Generated

theorem BodyFault.diagnostic_isError (f : BodyFault) : f.diagnostic.isError := by cases f <;> rfl

theorem ParamFault.diagnostic_isError (p : Param) (f : ParamFault) : (f.diagnostic p).isError := by
  cases f <;> rfl

theorem Param.diagnostics_isError {c : Catalog} {d : DeclIndex} {x : Diagnostic}
    {earlier ps : List Param} (hx : x ∈ Param.diagnostics c d earlier ps) : x.isError := by
  induction ps generalizing earlier with
  | nil => simp [Param.diagnostics] at hx
  | cons p ps ih =>
    rcases List.mem_append.1 hx with hx | hx
    · obtain ⟨f, -, rfl⟩ := List.mem_map.1 hx
      exact f.diagnostic_isError p
    · exact ih hx

theorem Signature.diagnostics_isError {c : Catalog} {d : DeclIndex} {f : PipelineFn}
    {x : Diagnostic} (hx : x ∈ Signature.diagnostics c d f) : x.isError := by
  rcases List.mem_append.1 hx with hx | hx
  · exact Param.diagnostics_isError hx
  · obtain ⟨b, -, rfl⟩ := List.mem_map.1 hx
    exact b.diagnostic_isError

theorem Pipeline.check_error {c : Catalog} {d : DeclIndex} {f : PipelineFn} {ds : List Diagnostic}
    (h : Pipeline.check c d f = .error ds) : ds ≠ [] ∧ ∀ x ∈ ds, x.isError := by
  unfold Pipeline.check Signature.check at h
  split at h
  · cases h
  next hs =>
    cases h
    exact ⟨hs, fun x => Signature.diagnostics_isError⟩

theorem FunctionRun.dropped_iff {r : FunctionRun} :
    r.emitted = false ↔ ∃ ds, r.result = .error ds := by
  rcases r with ⟨_ | _, _, _⟩ <;> simp [FunctionRun.emitted, Except.isOk, Except.toBool]

theorem FunctionRun.emitted_iff {r : FunctionRun} : r.emitted = true ↔ ∃ x, r.result = .ok x := by
  rcases r with ⟨_ | _, _, _⟩ <;> simp [FunctionRun.emitted, Except.isOk, Except.toBool]

/-- A function is dropped with at least one error and nothing but errors, wherever it failed. -/
theorem PipelineFn.generate_dropped (f : PipelineFn) {c : Catalog} {d : DeclIndex}
    {targets : List Target} {compiler : Option ShaderCompiler}
    (h : (f.generate c d targets compiler).emitted = false) :
    (f.generate c d targets compiler).diagnostics ≠ [] ∧
      ∀ x ∈ (f.generate c d targets compiler).diagnostics, x.isError := by
  obtain ⟨ds, hds⟩ := FunctionRun.dropped_iff.1 h
  rw [show (f.generate c d targets compiler).diagnostics =
    ds by simp [FunctionRun.diagnostics, hds]]
  unfold PipelineFn.generate at hds
  split at hds
  next hcheck =>
    cases hds
    exact Pipeline.check_error hcheck
  · split at hds
    · cases hds
      exact ⟨by simp, by simp [TraceError.diagnostic, Diagnostic.error, Diagnostic.isError]⟩
    next program _ _ =>
      cases hrun : (program.outputs c compiler targets).result with
      | ok _ =>
        dsimp only at hds
        rw [hrun] at hds
        cases hds
      | error x =>
        dsimp only at hds
        rw [hrun] at hds
        cases hds
        exact ⟨by simp, by simpa using Program.outputs_error hrun⟩

theorem PipelineFn.generate_emitted (f : PipelineFn) {c : Catalog} {d : DeclIndex}
    {targets : List Target} {compiler : Option ShaderCompiler}
    (h : (f.generate c d targets compiler).emitted = true) :
    ∀ x ∈ (f.generate c d targets compiler).diagnostics, x.isBackendWarning := by
  obtain ⟨⟨program, os, ds⟩, hds⟩ := FunctionRun.emitted_iff.1 h
  rw [show (f.generate c d targets compiler).diagnostics =
    ds by simp [FunctionRun.diagnostics, hds]]
  exact (generate_serves hds).2.2

namespace TranslationUnit

/-- What comes of one function of a unit, whatever else the unit holds. -/
def runOf (u : TranslationUnit) (c : Catalog) (targets : List Target)
    (compiler : Option ShaderCompiler) (f : PipelineFn) : FunctionRun :=
  f.generate c ⟨u.declarations⟩ (Target.select targets) compiler

/-- The unit without the functions that the reports, one for each function, call dropped. -/
def withEmitted (u : TranslationUnit) (reports : List Report) : TranslationUnit :=
  { u with pipelines := ((u.pipelines.zip reports).filter (·.2.emitted)).map (·.1) }

def result (u : TranslationUnit) (c : Catalog) (targets : List Target)
    (compiler : Option ShaderCompiler) : Generated :=
  let g := Generated.start.addAll (u.runOf c targets compiler) u.pipelines
  { g with text := g.header.text c ⟨u.declarations⟩ u.fileName }

theorem generate_ok {u : TranslationUnit} {targets : List Target} {compiler : Option ShaderCompiler}
    {g : Generated} : u.generate targets compiler = .ok g ↔
      targets.isEmpty = false ∧ ∃ c, Catalog.build u.declarations = .ok c ∧
      u.result c targets compiler = g := by
  unfold generate
  cases targets.isEmpty
  · cases Catalog.build u.declarations with
    | error ms => simp
    | ok c =>
      simp only [Bool.false_eq_true, if_false, Except.ok.injEq, true_and, exists_eq_left']
      rfl
  · simp

section

variable (u : TranslationUnit) (c : Catalog) (targets : List Target)
  (compiler : Option ShaderCompiler)

theorem result_header : (u.result c targets compiler).header =
    (u.pipelines.map (u.runOf c targets compiler)).foldl Header.addRun .empty :=
  Generated.addAll_header .start _ _

theorem result_reports : (u.result c targets compiler).reports =
    u.pipelines.map fun f => (u.runOf c targets compiler f).report f.name :=
  Generated.addAll_reports .start _ _

theorem result_diagnostics : (u.result c targets compiler).diagnostics =
    u.pipelines.flatMap fun f => (u.runOf c targets compiler f).diagnostics :=
  Generated.addAll_diagnostics .start _ _

theorem withEmitted_pipelines : (u.withEmitted (u.result c targets compiler).reports).pipelines =
    u.pipelines.filter fun f => (u.runOf c targets compiler f).emitted := by
  rw [result_reports]
  unfold withEmitted
  generalize u.runOf c targets compiler = run
  induction u.pipelines with
  | nil => rfl
  | cons f fs ih => cases hf : (run f).emitted <;> simp_all

theorem result_withEmitted_header :
    ((u.withEmitted (u.result c targets compiler).reports).result c targets compiler).header =
      (u.result c targets compiler).header := by
  rw [result_header, withEmitted_pipelines, result_header]
  exact Header.addRun_emitted (u.runOf c targets compiler) u.pipelines .empty

end

/-- What a run over a unit owes to each of its functions. -/
structure Isolated (u : TranslationUnit) (targets : List Target) (compiler : Option ShaderCompiler)
    (c : Catalog) (g : Generated) : Prop where
  reports : g.reports = u.pipelines.map fun f => (u.runOf c targets compiler f).report f.name
  diagnostics : g.diagnostics = u.pipelines.flatMap fun f =>
    (u.runOf c targets compiler f).diagnostics
  dropped : ∀ f ∈ u.pipelines, (u.runOf c targets compiler f).emitted = false →
    (u.runOf c targets compiler f).diagnostics ≠ [] ∧
      ∀ x ∈ (u.runOf c targets compiler f).diagnostics, x.isError
  emitted : ∀ f ∈ u.pipelines, (u.runOf c targets compiler f).emitted = true →
    ∀ x ∈ (u.runOf c targets compiler f).diagnostics, x.isBackendWarning
  alone : ∃ g', (u.withEmitted g.reports).generate targets compiler = .ok g' ∧ g'.text = g.text ∧
    g'.header.store.blobs.length = g.header.store.blobs.length ∧
    Diagnostic.hasErrors g'.diagnostics = false ∧ g'.reports = g.reports.filter (·.emitted)

/-- Functions that fail do not influence the others: without them the header is the same text over
the same blobs. -/
theorem generate_isolated {u : TranslationUnit} {targets : List Target}
    {compiler : Option ShaderCompiler} {g : Generated} (h : u.generate targets compiler = .ok g) :
    ∃ c, Catalog.build u.declarations = .ok c ∧ u.Isolated targets compiler c g := by
  obtain ⟨ht, c, hc, rfl⟩ := generate_ok.1 h
  have hkept := u.withEmitted_pipelines c targets compiler
  have hheader := u.result_withEmitted_header c targets compiler
  refine ⟨c, hc, u.result_reports c targets compiler, u.result_diagnostics c targets compiler,
    fun f _ => f.generate_dropped, fun f _ => f.generate_emitted, _, generate_ok.2 ⟨ht, c, hc, rfl⟩,
    ?_, ?_, ?_, ?_⟩
  · exact congrArg (Header.text c ⟨u.declarations⟩ u.fileName) hheader
  · rw [hheader]
  · rw [result_diagnostics, hkept]
    refine List.any_eq_false.2 fun x hx => ?_
    obtain ⟨f, hf, hx⟩ := List.mem_flatMap.1 hx
    rw [Diagnostic.not_isError_of_isBackendWarning
      (f.generate_emitted (List.mem_filter.1 hf).2 x hx)]
    exact Bool.false_ne_true
  · rw [result_reports, hkept, result_reports, List.filter_map]
    refine congrArg _ (List.filter_congr fun f _ => ?_)
    simp

end TranslationUnit

namespace Sample

open Workbench

def passed : PipelineFn :=
  let ps := [param "v" (.varyingInput .vertex), param "o" (.varyingOutput .vertex)]
  fn "passed" ps do return [← assign .assign (← arg ps 1) (← arg ps 0)]

/-- The first function has a geometry stage, which Metal lacks: it fails after it was
printed in GLSL. -/
def scene : TranslationUnit := withRuntime.unit "scene.cpp" [tinted, passed]

def runtime : Catalog :=
  .collect (withRuntime.declarations.filter fun d => d.scope.contains runtimeNamespace)

theorem build_runtime : Catalog.build withRuntime.declarations = .ok runtime := by
  have hmissing : (Catalog.missing (withRuntime.declarations.filter fun d =>
      d.scope.contains runtimeNamespace)).isEmpty = true := by decide +kernel
  unfold Catalog.build
  dsimp only
  rw [List.isEmpty_iff.1 hmissing]
  rfl

def generates (u : TranslationUnit) (targets : List Target) (test : Generated → Bool) : Bool :=
  match u.generate targets none with
  | .ok g => test g
  | .error _ => false

theorem exists_of_generates (u : TranslationUnit) (targets : List Target) (test : Generated → Bool)
    (h : generates u targets test = true) :
    ∃ g, u.generate targets none = .ok g ∧ test g = true := by
  unfold generates at h
  split at h
  next g hg => exact ⟨g, hg, h⟩
  · cases h

end Sample

open Sample in
theorem TranslationUnit.generate_isolated_scene :
    ∃ g c, scene.generate [.glsl, .metal] none = .ok g ∧
    g.reports.map (·.emitted) = [false, true] ∧ Catalog.build scene.declarations = .ok c ∧
    scene.Isolated [.glsl, .metal] none c g := by
  obtain ⟨g, hg, hreports⟩ := exists_of_generates scene [.glsl, .metal]
    (fun g => g.reports.map (·.emitted) == [false, true]) (by decide +kernel)
  obtain ⟨c, hc, h⟩ := generate_isolated hg
  exact ⟨g, c, hg, by simpa using hreports, hc, h⟩

end ShaderSplit
