import ShaderSplit.Artifact.Compile

namespace ShaderSplit

structure ToolOutcome where
  success : Bool
  stdout : String
  stderr : String
  /-- Contents of the file it was told to write. -/
  object : List UInt8

structure ShaderTool where
  program : String
  args : List String
  deriving DecidableEq, Repr

namespace ShaderTool

def arguments (t : ShaderTool) (r : CompileRequest) (input output : String) : List String :=
  ["-T", r.profile] ++ (if r.spirv then ["-spirv"] else []) ++ ["-E", "main", "-Fo", output] ++
    t.args ++ [input]

/-- The compiler, given how programs run; a failed run leaves no object. -/
def compiler (t : ShaderTool) (run : String → List String → Except String ToolOutcome) :
    ShaderCompiler := fun r =>
  match run t.program (t.arguments r "stage.hlsl" "stage.bin") with
  | .error cause => .error (.spawn t.program cause)
  | .ok o => .ok ⟨if o.success then o.object else [], o.stderr ++ o.stdout⟩

end ShaderTool
end ShaderSplit
