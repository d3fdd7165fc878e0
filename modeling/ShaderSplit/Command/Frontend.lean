import ShaderSplit.Command.Settings
import ShaderSplit.Syntax.Decode

namespace ShaderSplit

/-- Files and programs that a command can use. Causes of failure are texts. -/
structure Environment where
  isFile : String → Bool
  read : String → Except String String
  run : String → List String → Except String ToolOutcome
  /-- Why a file cannot be written after some others. -/
  writeFault : List (String × String) → String → Option String

namespace Frontend

/-- A macro that concerns profiling only. -/
def droppedMacro : String := "HSH_PROFILE_MODE"

def keepsMacro (definition : String) : Bool :=
  String.ofList (definition.toList.takeWhile (· ≠ '=')) ≠ droppedMacro

def arguments (args includes macros : List String) (input : String) : List String :=
  args ++ includes.map ("-I" ++ ·) ++ (macros.filter keepsMacro).map ("-D" ++ ·) ++ [input]

def components (cs : List Char) : List (List Char) :=
  (split cs).filter fun part => part ≠ [] && part ≠ ['.']
where
  split : List Char → List (List Char)
    | [] => [[]]
    | c :: cs =>
      match split cs with
      | part :: parts => if c = '/' then [] :: part :: parts else (c :: part) :: parts
      | [] => [[c]]

/-- What follows the last dot of a path's last part, if the dot is not in front. -/
def extension? (path : String) : Option String := do
  let name ← (components path.toList).getLast?
  if name = ['.', '.'] then none
  let back := name.reverse
  match back.dropWhile (· ≠ '.') with
  | _ :: _ :: _ => some (String.ofList ((back.takeWhile (· ≠ '.')).reverse))
  | _ => none

inductive Fault where
  | unreadable (path cause : String)
  | notUnit (path : String)
  | notConfigured (path : String)
  | notRun (program cause : String)
  | failed (path stderr : String)
  deriving DecidableEq, Repr

def Fault.message : Fault → String
  | unreadable path cause => s!"cannot read '{path}': {cause}"
  | notUnit path => s!"'{path}' is not a JSON translation unit"
  | notConfigured path =>
    s!"no front end configured for '{path}'; set [frontend] command in hshgen.toml " ++
      "or pass a .json translation unit"
  | notRun program cause => s!"failed to run front end `{program}`: {cause}"
  | failed path stderr => s!"front end failed on '{path}' (exit status: 1):\n{stderr}"

def text (env : Environment) (s : ToolSettings) (includes macros : List String) (input : String) :
    Except Fault String :=
  if extension? input = some "json" then (env.read input).mapError (.unreadable input)
  else
    match s.program with
    | none => .error (.notConfigured input)
    | some program =>
      match env.run program (arguments s.args includes macros input) with
      | .error cause => .error (.notRun program cause)
      | .ok o => if o.success then .ok o.stdout else .error (.failed input o.stderr)

def load (env : Environment) (s : ToolSettings) (includes macros : List String) (input : String) :
    Except Fault TranslationUnit :=
  match text env s includes macros input with
  | .error fault => .error fault
  | .ok json =>
    match TranslationUnit.parse? json with
    | some unit => .ok unit
    | none => .error (.notUnit input)

end Frontend
end ShaderSplit
