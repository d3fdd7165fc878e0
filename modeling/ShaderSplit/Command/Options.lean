import ShaderSplit.Target

namespace ShaderSplit

inductive Flag where
  | verbose
  | rule
  | target (t : Target)
  deriving DecidableEq, Repr

inductive OptionName where
  | includeDir | macroDef | ruleFile | ruleTarget | config
  deriving DecidableEq, Repr

/-- Paths may not be empty; macros and rule targets may. -/
def OptionName.isPath : OptionName → Bool
  | includeDir | ruleFile | config => true
  | macroDef | ruleTarget => false

def OptionName.repeats : OptionName → Bool
  | includeDir | macroDef => true
  | ruleFile | ruleTarget | config => false

/-- Why a command line is not run: it asks for a text about the program, or it is wrong. -/
inductive Refusal where
  | information
  | usage
  deriving DecidableEq, Repr

def Refusal.exitCode : Refusal → Nat
  | information => 0
  | usage => 2

structure Arguments where
  flags : List Flag
  options : List (OptionName × String)
  paths : List String

namespace Arguments

def empty : Arguments := ⟨[], [], []⟩

def addFlag (a : Arguments) (f : Flag) : Except Refusal Arguments :=
  if a.flags.contains f then .error .usage else .ok { a with flags := a.flags ++ [f] }

def addOption (a : Arguments) (o : OptionName) (value : String) : Except Refusal Arguments :=
  if (o.isPath && value.isEmpty) || (!o.repeats && a.options.any (·.1 == o)) then .error .usage
  else .ok { a with options := a.options ++ [(o, value)] }

def addPath (a : Arguments) (path : String) : Except Refusal Arguments :=
  if path.isEmpty || 2 ≤ a.paths.length then .error .usage
  else .ok { a with paths := a.paths ++ [path] }

def values (a : Arguments) (o : OptionName) : List String := (a.options.filter (·.1 == o)).map (·.2)

end Arguments

namespace Command

def longFlag? (name : String) : Option Flag :=
  if name = "verbose" then some .verbose
  else if name = "MD" then some .rule
  else (Target.ofName? name).map .target

def longOption? (name : String) : Option OptionName :=
  if name = "MF" then some .ruleFile
  else if name = "MT" then some .ruleTarget
  else if name = "config" then some .config
  else none

inductive Reading where
  | done (a : Arguments)
  | pending (a : Arguments) (o : OptionName)
  | refused (r : Refusal)

def Reading.ofExcept : Except Refusal Arguments → Reading
  | .ok a => .done a
  | .error r => .refused r

def long (a : Arguments) (cs : List Char) : Reading :=
  let name := String.ofList (cs.takeWhile (· ≠ '='))
  match cs.dropWhile (· ≠ '=') with
  | [] =>
    if name = "help" || name = "version" then .refused .information
    else
      match longFlag? name, longOption? name with
      | some f, _ => .ofExcept (a.addFlag f)
      | none, some o => .pending a o
      | none, none => .refused .usage
  | _ :: value =>
    match longOption? name with
    | some o => .ofExcept (a.addOption o (String.ofList value))
    | none => .refused .usage

/-- Letters after one dash; the first that takes a value takes the rest. -/
def shorts (a : Arguments) : List Char → Reading
  | [] => .done a
  | 'h' :: _ | 'V' :: _ => .refused .information
  | 'v' :: cs =>
    match a.addFlag .verbose with
    | .ok a => shorts a cs
    | .error r => .refused r
  | 'I' :: cs => valued a .includeDir cs
  | 'D' :: cs => valued a .macroDef cs
  | _ => .refused .usage
where
  valued (a : Arguments) (o : OptionName) : List Char → Reading
    | [] => .pending a o
    | '=' :: value => .ofExcept (a.addOption o (String.ofList value))
    | value => .ofExcept (a.addOption o (String.ofList value))

/-- A single dash is a value, not a flag. -/
def isDashed (arg : String) : Bool :=
  match arg.toList with
  | '-' :: _ :: _ => true
  | _ => false

def read (a : Arguments) (arg : String) : Reading :=
  match arg.toList with
  | '-' :: '-' :: cs => long a cs
  | '-' :: c :: cs => shorts a (c :: cs)
  | _ => .ofExcept (a.addPath arg)

/-- Reads arguments in order; after `--` all are paths. -/
def arguments : Bool → Arguments → List String → Except Refusal Arguments
  | _, a, [] => .ok a
  | true, a, arg :: rest =>
    match a.addPath arg with
    | .ok a => arguments true a rest
    | .error r => .error r
  | false, a, arg :: rest =>
    if arg = "--" then arguments true a rest
    else
      match read a arg with
      | .done a => arguments false a rest
      | .refused r => .error r
      | .pending a o =>
        match rest with
        | [] => .error .usage
        | value :: rest =>
          if isDashed value then .error .usage
          else
            match a.addOption o value with
            | .ok a => arguments false a rest
            | .error r => .error r

end Command

structure Options where
  verbose : Bool
  includes : List String
  macros : List String
  writesRule : Bool
  ruleFile : Option String
  ruleTarget : Option String
  config : Option String
  targets : List Target
  input : String
  output : String
  deriving DecidableEq, Repr

def Options.parse (args : List String) : Except Refusal Options :=
  match Command.arguments false .empty args with
  | .error r => .error r
  | .ok a =>
    match a.paths with
    | [input, output] =>
      .ok {
        verbose := a.flags.contains .verbose
        includes := a.values .includeDir
        macros := a.values .macroDef
        writesRule := a.flags.contains .rule
        ruleFile := (a.values .ruleFile).head?
        ruleTarget := (a.values .ruleTarget).head?
        config := (a.values .config).head?
        targets := Target.all.filter fun t => a.flags.contains (.target t)
        input, output }
    | _ => .error .usage

end ShaderSplit
