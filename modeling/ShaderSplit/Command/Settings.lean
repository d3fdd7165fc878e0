import ShaderSplit.Artifact.Tool
import ShaderSplit.Text.Toml

namespace ShaderSplit

structure ToolSettings where
  program : Option String
  args : List String
  deriving DecidableEq, Repr

structure Settings where
  targets : List Target
  compiler : ToolSettings
  frontend : ToolSettings
  deriving DecidableEq, Repr

namespace ToolSettings

def default : ToolSettings := ⟨none, []⟩

end ToolSettings

namespace Settings

def defaultPath : String := "./hshgen.toml"

def default : Settings := ⟨[], .default, .default⟩

def text? : Toml → Option String
  | .string s => some s
  | _ => none

def texts? : Toml → Option (List String)
  | .array items => items.mapM text?
  | _ => none

def items? : Toml → Option (List Toml)
  | .array items | .tables items => some items
  | _ => none

/-- A target by name, or as the only key over nothing. -/
def target? : Toml → Option Target
  | .string s => Target.ofName? s
  | .table _ [(s, .array [])] | .table _ [(s, .table _ [])] => Target.ofName? s
  | _ => none

def onlyKeys (names : List String) (es : Toml.Entries) : Bool := es.all fun e => names.contains e.1

/-- A program under `key` and its arguments, as a table or in order. -/
def tool? (key : String) : Toml → Option ToolSettings
  | .table _ es => do
    if !onlyKeys [key, "args"] es then none
    let program ← match es.lookup key with
      | none => some none
      | some v => (text? v).map some
    let args ← match es.lookup "args" with
      | none => some []
      | some v => texts? v
    return ⟨program, args⟩
  | .array (program :: rest) => do
    let args ← match rest with
      | [] => some []
      | v :: _ => texts? v
    return ⟨some (← text? program), args⟩
  | _ => none

def ofEntries? (es : Toml.Entries) : Option Settings := do
  if !onlyKeys ["targets", "compiler", "frontend"] es then none
  let targets ← match es.lookup "targets" with
    | none => some []
    | some v => do (← items? v).mapM target?
  let compiler ← match es.lookup "compiler" with
    | none => some .default
    | some v => tool? "dxc" v
  let frontend ← match es.lookup "frontend" with
    | none => some .default
    | some v => tool? "command" v
  return ⟨targets, compiler, frontend⟩

def parse? (text : String) : Option Settings := do ofEntries? (← Toml.parse? text)

/-- Targets of the command line come before those of the file. -/
def resolve (s : Settings) (given : List Target) : List Target :=
  if given.isEmpty then s.targets else given

/-- The shader compiler, `dxc` when none is named. -/
def shaderTool (s : Settings) : ShaderTool := ⟨s.compiler.program.getD "dxc", s.compiler.args⟩

end Settings
end ShaderSplit
