import ShaderSplit.Artifact.ContentHash
import ShaderSplit.Shading.Source
import ShaderSplit.Text.Blank

namespace ShaderSplit

structure StageBinary where
  stage : Stage
  data : List UInt8
  deriving DecidableEq, Repr

/-- Nothing is addressed when there are no data. -/
def StageBinary.hash (b : StageBinary) : Option ContentHash :=
  if b.data.isEmpty then none else some (.of b.data)

structure CompileRequest where
  source : String
  profile : String
  spirv : Bool
  deriving DecidableEq, Repr

structure CompilerOutput where
  object : List UInt8
  messages : String
  deriving DecidableEq, Repr

inductive CompilerFault where
  | spawn (program cause : String)
  | scratch (cause : String)
  deriving DecidableEq, Repr

def CompilerFault.message : CompilerFault → String
  | spawn program cause => s!"failed to run shader compiler `{program}`: {cause}"
  | scratch cause => s!"shader compiler scratch file: {cause}"

abbrev ShaderCompiler := CompileRequest → Except CompilerFault CompilerOutput

inductive CompileFault where
  | noCompiler (target : Target)
  | noProfile (target : Target) (stage : Stage)
  | compiler (fault : CompilerFault)
  | rejected (pipeline : String) (target : Target) (source : StageSource) (messages : String)
  deriving DecidableEq, Repr

def CompileFault.diagnostic : CompileFault → Diagnostic
  | noCompiler t => .error s!"target {t} requires a shader compiler but none is configured" .dummy
    (some .backend)
  | noProfile t s => .error s!"target {t} has no profile for the {s} stage" .dummy (some .backend)
  | compiler fault => .error fault.message .dummy (some .backend)
  | rejected pipeline t source messages =>
    { Diagnostic.error s!"{pipeline}: {source.stage} stage failed to compile for {t}" .dummy
        (some .backend) with
      notes := (if messages.isEmpty then [] else [messages]) ++ ["stage source:\n" ++ source.text] }

structure CompileRun where
  result : Except CompileFault (List StageBinary × List Diagnostic)
  requests : List CompileRequest
  notices : List String

namespace CompileRun

def fail (fault : CompileFault) (requests : List CompileRequest) : CompileRun :=
  ⟨.error fault, requests, []⟩

def prepend (pipeline : String) (t : Target) (s : Stage) (request : CompileRequest)
    (object : List UInt8) (messages : String) (run : CompileRun) : CompileRun :=
  if messages.isEmpty then
    ⟨run.result.map fun (bs, ds) => (⟨s, object⟩ :: bs, ds), request :: run.requests, run.notices⟩
  else
    let warning :=
      (Diagnostic.warning s!"{pipeline}: {s} stage compiled with warnings for {t}" .dummy
        (some .backend)).withNote
        messages
    ⟨run.result.map fun (bs, ds) => (⟨s, object⟩ :: bs, warning :: ds), request :: run.requests,
      s!"{pipeline}: {t} {s} compiler output: {messages}" :: run.notices⟩

end CompileRun

namespace Target

/-- The text of a stage, ended by a zero byte. -/
def textBinary (s : StageSource) : StageBinary := ⟨s.stage, s.text.toUTF8.toList ++ [0]⟩

def compileWith (t : Target) (pipeline : String) (compiler : ShaderCompiler) :
    List StageSource → CompileRun
  | [] => ⟨.ok ([], []), [], []⟩
  | s :: rest =>
    match t.profile s.stage with
    | none => .fail (.noProfile t s.stage) []
    | some profile =>
      let request : CompileRequest := ⟨s.text, profile, t.emitsSpirv⟩
      match compiler request with
      | .error fault => .fail (.compiler fault) [request]
      | .ok output =>
        let messages := Text.trim output.messages
        if output.object.isEmpty then .fail (.rejected pipeline t s messages) [request]
        else (t.compileWith pipeline compiler rest).prepend pipeline t s.stage request
          output.object messages

/-- Text targets take the source as it is; others ask a shader compiler, stage by stage, until one
fails. -/
def compile (t : Target) (pipeline : String) (sources : List StageSource)
    (compiler : Option ShaderCompiler) : CompileRun :=
  if t.isText then ⟨.ok (sources.map textBinary, []), [], []⟩
  else
    match compiler with
    | none => .fail (.noCompiler t) []
    | some compiler => t.compileWith pipeline compiler sources

end Target
end ShaderSplit
