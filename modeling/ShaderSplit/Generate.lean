import ShaderSplit.Header.Text

namespace ShaderSplit

/-- What became of a function; the stages of one that was dropped are not told. -/
structure Report where
  name : String
  stages : StageSet
  emitted : Bool
  deriving DecidableEq, Repr

structure Generated where
  header : Header
  text : String
  reports : List Report
  diagnostics : List Diagnostic
  requests : List CompileRequest
  notices : List String

structure FunctionRun where
  result : Except (List Diagnostic) (Program × List TargetOutput × List Diagnostic)
  requests : List CompileRequest
  notices : List String

namespace FunctionRun

def fail (ds : List Diagnostic) (notices : List String) : FunctionRun := ⟨.error ds, [], notices⟩

end FunctionRun

/-- Outputs for targets in turn, until one fails. -/
structure OutputRun where
  result : Except Diagnostic (List TargetOutput × List Diagnostic)
  requests : List CompileRequest
  notices : List String

def Program.outputs (p : Program) (c : Catalog) (compiler : Option ShaderCompiler) :
    List Target → OutputRun
  | [] => ⟨.ok ([], []), [], []⟩
  | t :: rest =>
    let notices := p.sourceNotices c t
    match p.sources c t with
    | .error lack => ⟨.error lack.diagnostic, [], notices⟩
    | .ok sources =>
      let run := t.compile p.name sources compiler
      match run.result with
      | .error fault => ⟨.error fault.diagnostic, run.requests, notices ++ run.notices⟩
      | .ok (binaries, warnings) =>
        let next := p.outputs c compiler rest
        ⟨next.result.map fun (os, ds) => (⟨t, sources, binaries⟩ :: os, warnings ++ ds),
          run.requests ++ next.requests, notices ++ run.notices ++ next.notices⟩

def PipelineFn.generate (f : PipelineFn) (c : Catalog) (d : DeclIndex) (targets : List Target)
    (compiler : Option ShaderCompiler) : FunctionRun :=
  match Pipeline.check c d f with
  | .error ds => .fail ds []
  | .ok p =>
    match p.split with
    | (.error e, notices) => .fail [e.diagnostic] notices
    | (.ok program, notices) =>
      let run := program.outputs c compiler targets
      ⟨(run.result.map fun (os, ds) => (program, os, ds)).mapError ([·]), run.requests,
        notices ++ run.notices⟩

namespace Generated

def start : Generated := ⟨.empty, "", [], [], [], []⟩

def add (g : Generated) (name : String) (run : FunctionRun) : Generated :=
  match run.result with
  | .ok (program, outputs, warnings) =>
    { g with
      header := g.header.add program outputs
      reports := g.reports ++ [⟨name, program.stages, true⟩]
      diagnostics := g.diagnostics ++ warnings
      requests := g.requests ++ run.requests
      notices := g.notices ++ run.notices }
  | .error ds =>
    { g with
      reports := g.reports ++ [⟨name, .empty, false⟩]
      diagnostics := g.diagnostics ++ ds
      requests := g.requests ++ run.requests
      notices := g.notices ++ run.notices }

end Generated

def noTargets : String := "No hsh targets specified!"

/-- Fails when there is no target or the runtime's declarations are incomplete. A function with
errors is left out of the header, and the others are written. -/
def TranslationUnit.generate (u : TranslationUnit) (targets : List Target)
    (compiler : Option ShaderCompiler) : Except (List Diagnostic) Generated :=
  if targets.isEmpty then .error [.error noTargets .dummy none]
  else
    match Catalog.build u.declarations with
    | .error missing => .error (missing.map Missing.diagnostic)
    | .ok c =>
      let d : DeclIndex := ⟨u.declarations⟩
      let g := u.pipelines.foldl
        (fun g f => g.add f.name (f.generate c d (Target.select targets) compiler)) Generated.start
      .ok { g with text := g.header.text c d u.fileName }

end ShaderSplit
