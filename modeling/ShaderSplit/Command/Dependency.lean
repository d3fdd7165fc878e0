namespace ShaderSplit.Dependency

def defaultPath (output : String) : String := output ++ ".d"

/-- Blanks, `#` and `$` have a meaning in rules. -/
def escapeChars : List Char → List Char
  | [] => []
  | c :: cs =>
    (if c = ' ' then ['\\', ' ']
      else if c = '#' then ['\\', '#']
      else if c = '$' then ['$', '$']
      else [c])
      ++ escapeChars cs

def escape (path : String) : String := String.ofList (escapeChars path.toList)

/-- Keeps the first occurrence of each path that is not in `seen`. -/
def firsts (seen : List String) : List String → List String
  | [] => []
  | p :: ps => if seen.contains p then firsts seen ps else p :: firsts (p :: seen) ps

/-- The input and then every other dependency, each once. -/
def prerequisites (input : String) (dependencies : List String) : List String :=
  firsts [] (input :: dependencies)

def rule (target input : String) (dependencies : List String) : String :=
  escape target ++ ": " ++ " \\\n  ".intercalate
    ((prerequisites input dependencies).map escape) ++ "\n"

end ShaderSplit.Dependency
