import ShaderSplit.Command.Dependency
import ShaderSplit.Command.Frontend
import ShaderSplit.Command.Options
import ShaderSplit.Generate

namespace ShaderSplit.Command

/-- What a command did: its exit code, its messages, the files it wrote, and its warnings. -/
structure Outcome where
  exit : Nat
  stderr : String
  files : List (String × String)
  notices : List String

def Outcome.fail (message : String) : Outcome := ⟨1, "error: " ++ message ++ "\n", [], []⟩

/-- An explicit settings file has to be there; the default one may be missing. -/
def settings (env : Environment) (explicit : Option String) : Except String Settings :=
  let load (path : String) : Except String Settings :=
    match env.read path with
    | .error cause => .error s!"cannot read '{path}': {cause}"
    | .ok text =>
      match Settings.parse? text with
      | some s => .ok s
      | none => .error s!"invalid config '{path}'"
  match explicit with
  | some path => load path
  | none => if env.isFile Settings.defaultPath then load Settings.defaultPath else .ok .default

/-- Writes files in order, up to one that cannot be written. -/
def write (env : Environment) (o : Outcome) : List (String × String) → Outcome
  | [] => o
  | (path, text) :: rest =>
    match env.writeFault o.files path with
    | some cause =>
      { o with exit := 1, stderr := o.stderr ++ s!"error: cannot write '{path}': {cause}\n" }
    | none => write env { o with files := o.files ++ [(path, text)] } rest

def rule (o : Options) (dependencies : List String) : String × String :=
  (o.ruleFile.getD (Dependency.defaultPath o.output),
    Dependency.rule (o.ruleTarget.getD o.output) o.input dependencies)

def generate (env : Environment) (s : Settings) (o : Options) (u : TranslationUnit) : Outcome :=
  let source := u.source.getD ""
  match u.generate (s.resolve o.targets) (some (s.shaderTool.compiler env.run)) with
  | .error ds => ⟨1, Diagnostic.renderAll u.fileName source ds, [], []⟩
  | .ok g =>
    let exit := if Diagnostic.hasErrors g.diagnostics then 1 else 0
    let rules := if o.writesRule then [rule o u.dependencies] else []
    write env ⟨exit, Diagnostic.renderAll u.fileName source g.diagnostics, [], g.notices⟩
      ((o.output, g.text) :: rules)

def run (env : Environment) (o : Options) : Outcome :=
  match settings env o.config with
  | .error message => .fail message
  | .ok s =>
    if (s.resolve o.targets).isEmpty then .fail noTargets
    else
      match Frontend.load env s.frontend o.includes o.macros o.input with
      | .error fault => .fail fault.message
      | .ok u => generate env s o u

end ShaderSplit.Command
