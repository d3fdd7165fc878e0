import Mathlib.Data.List.Forall2
import ShaderSplit.Generate

namespace ShaderSplit

def Diagnostic.isBackendWarning (d : Diagnostic) : Bool :=
  d.severity == .warning && d.kind == some .backend

theorem Diagnostic.not_isError_of_isBackendWarning {d : Diagnostic} (h : d.isBackendWarning) :
    d.isError = false := by
  simp only [isBackendWarning, Bool.and_eq_true, beq_iff_eq] at h
  simp [isError, h.1]

theorem CompileFault.diagnostic_isError (f : CompileFault) : f.diagnostic.isError := by
  cases f <;> rfl

/-- The data of a stage's binary: the text with a zero byte behind, or what the shader compiler
makes of it. -/
def Target.Assembles (t : Target) (compiler : Option ShaderCompiler) (s : StageSource)
    (data : List UInt8) : Prop :=
  if t.isText then data = s.text.toUTF8.toList ++ [0]
  else ∃ ask profile output, compiler = some ask ∧ t.profile s.stage = some profile ∧
    ask ⟨s.text, profile, t.emitsSpirv⟩ = .ok output ∧ output.object = data ∧ data ≠ []

theorem Target.Assembles.ne_nil {t : Target} {compiler : Option ShaderCompiler} {s : StageSource}
    {data : List UInt8} (h : t.Assembles compiler s data) : data ≠ [] := by
  unfold Target.Assembles at h
  split at h
  · simp [h]
  · obtain ⟨_, _, _, -, -, -, -, hne⟩ := h
    exact hne

theorem CompileRun.prepend_ok {pipeline : String} {t : Target} {s : Stage}
    {request : CompileRequest} {object : List UInt8} {messages : String} {run : CompileRun}
    {bs : List StageBinary} {ds : List Diagnostic}
    (h : (run.prepend pipeline t s request object messages).result = .ok (bs, ds)) :
    ∃ bs' ds', run.result = .ok (bs', ds') ∧ bs = ⟨s, object⟩ :: bs' ∧
      ∀ x ∈ ds, x ∈ ds' ∨ x.isBackendWarning := by
  obtain ⟨_ | ⟨bs', ds'⟩, _, _⟩ := run
  · unfold CompileRun.prepend at h
    split at h <;> cases h
  · unfold CompileRun.prepend at h
    split at h <;> cases h
    · exact ⟨bs', _, rfl, rfl, fun x => .inl⟩
    · refine ⟨bs', _, rfl, rfl, fun x hx => ?_⟩
      rcases List.mem_cons.1 hx with rfl | hx
      · exact .inr rfl
      · exact .inl hx

/-- Stage by stage, the compiler is asked for the binary and gives one that is not empty. What it
has to say besides is a warning. -/
theorem Target.compileWith_ok {t : Target} {pipeline : String} {compiler : ShaderCompiler}
    (ht : t.isText = false) {sources : List StageSource} {bs : List StageBinary}
    {ds : List Diagnostic} (h : (t.compileWith pipeline compiler sources).result = .ok (bs, ds)) :
    List.Forall₂ (fun s b => t.Assembles (some compiler) s b.data) sources bs ∧
      ∀ x ∈ ds, x.isBackendWarning := by
  induction sources generalizing bs ds with
  | nil =>
    cases h
    exact ⟨.nil, by simp⟩
  | cons s rest ih =>
    unfold Target.compileWith at h
    split at h
    · cases h
    next profile hprofile =>
      dsimp only at h
      split at h
      · cases h
      next output houtput =>
        split at h
        · cases h
        next hobject =>
          obtain ⟨bs', ds', hrest, rfl, hds⟩ := CompileRun.prepend_ok h
          obtain ⟨hbs', hds'⟩ := ih hrest
          refine ⟨.cons ?_ hbs', fun x hx => (hds x hx).elim (hds' x) id⟩
          rw [Target.Assembles, ht]
          exact ⟨compiler, profile, output, rfl, hprofile, houtput, rfl, by simpa using hobject⟩

theorem Target.compile_ok {t : Target} {pipeline : String} {sources : List StageSource}
    {compiler : Option ShaderCompiler} {bs : List StageBinary} {ds : List Diagnostic}
    (h : (t.compile pipeline sources compiler).result = .ok (bs, ds)) :
    List.Forall₂ (fun s b => t.Assembles compiler s b.data) sources bs ∧
      ∀ x ∈ ds, x.isBackendWarning := by
  unfold Target.compile at h
  split at h
  next ht =>
    cases h
    rw [List.forall₂_map_right_iff]
    refine ⟨List.forall₂_same.2 fun s _ => ?_, by simp⟩
    simp [Target.Assembles, ht, Target.textBinary]
  next ht =>
    split at h
    · cases h
    · exact Target.compileWith_ok (by simpa using ht) h

namespace Program

variable {p : Program} {c : Catalog} {compiler : Option ShaderCompiler}

theorem sources_ok {t : Target} {sources : List StageSource} (h : p.sources c t = .ok sources) :
    sources = p.devices.map fun s => ⟨s, p.stageText c t s⟩ := by
  unfold Program.sources at h
  split at h
  · cases h
  · exact (Except.ok.inj h).symm

/-- The output of a program for a target: the text and a binary of each device stage. -/
structure Serves (p : Program) (c : Catalog) (compiler : Option ShaderCompiler) (t : Target)
    (o : TargetOutput) : Prop where
  target : o.target = t
  sources : o.sources = p.devices.map fun s => ⟨s, p.stageText c t s⟩
  binaries : List.Forall₂ (fun s b => t.Assembles compiler s b.data) o.sources o.binaries

theorem outputs_ok {ts : List Target} {os : List TargetOutput} {ds : List Diagnostic}
    (h : (p.outputs c compiler ts).result = .ok (os, ds)) :
    List.Forall₂ (p.Serves c compiler) ts os ∧ ∀ x ∈ ds, x.isBackendWarning := by
  induction ts generalizing os ds with
  | nil =>
    cases h
    exact ⟨.nil, by simp⟩
  | cons t rest ih =>
    unfold Program.outputs at h
    dsimp only at h
    split at h
    · cases h
    next sources hsources =>
      split at h
      · cases h
      next binaries warnings hrun =>
        cases hnext : (p.outputs c compiler rest).result with
        | error x => simp [hnext, Except.map] at h
        | ok next =>
          simp only [hnext, Except.map, Except.ok.injEq, Prod.mk.injEq] at h
          obtain ⟨rfl, rfl⟩ := h
          obtain ⟨hbinaries, hwarnings⟩ := Target.compile_ok hrun
          obtain ⟨hos, hds⟩ := ih hnext
          refine ⟨.cons ⟨rfl, sources_ok hsources, hbinaries⟩ hos, fun x hx => ?_⟩
          exact (List.mem_append.1 hx).elim (hwarnings x) (hds x)

theorem outputs_error {ts : List Target} {x : Diagnostic}
    (h : (p.outputs c compiler ts).result = .error x) : x.isError := by
  induction ts generalizing x with
  | nil => cases h
  | cons t rest ih =>
    unfold Program.outputs at h
    dsimp only at h
    split at h
    · cases h
      rfl
    · split at h
      next fault _ =>
        cases h
        exact fault.diagnostic_isError
      · cases hnext : (p.outputs c compiler rest).result with
        | error y =>
          simp only [hnext, Except.map, Except.error.injEq] at h
          exact h ▸ ih hnext
        | ok next => simp [hnext, Except.map] at h

theorem serves_of_mem {ts : List Target} {os : List TargetOutput}
    (h : List.Forall₂ (p.Serves c compiler) ts os) {o : TargetOutput} (ho : o ∈ os) :
    p.Serves c compiler o.target o := by
  induction h with
  | nil => cases ho
  | cons ho' _ ih =>
    rcases List.mem_cons.1 ho with rfl | ho
    · exact ho'.target.symm ▸ ho'
    · exact ih ho

theorem map_target {ts : List Target} {os : List TargetOutput}
    (h : List.Forall₂ (p.Serves c compiler) ts os) : os.map (·.target) = ts := by
  induction h with
  | nil => rfl
  | cons ho _ ih => rw [List.map_cons, ho.target, ih]

end Program

/-- An emitted function was accepted and split, and has an output for each target. -/
theorem PipelineFn.generate_serves {f : PipelineFn} {c : Catalog} {d : DeclIndex}
    {targets : List Target} {compiler : Option ShaderCompiler} {prog : Program}
    {os : List TargetOutput} {ds : List Diagnostic}
    (h : (f.generate c d targets compiler).result = .ok (prog, os, ds)) :
    (∃ p notices, Pipeline.check c d f = .ok p ∧ p.split = (.ok prog, notices)) ∧
      List.Forall₂ (prog.Serves c compiler) targets os ∧ ∀ x ∈ ds, x.isBackendWarning := by
  unfold PipelineFn.generate at h
  split at h
  · cases h
  next p hp =>
    split at h
    · cases h
    next program notices hsplit =>
      cases hrun : (program.outputs c compiler targets).result with
      | error _ =>
        dsimp only at h
        rw [hrun] at h
        cases h
      | ok x =>
        obtain ⟨os', ds'⟩ := x
        dsimp only at h
        rw [hrun] at h
        cases h
        exact ⟨⟨p, notices, hp, hsplit⟩, Program.outputs_ok hrun⟩

end ShaderSplit
