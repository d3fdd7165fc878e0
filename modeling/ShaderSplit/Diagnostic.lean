namespace ShaderSplit

/-- A byte range of the main source file; both ends zero means no location. -/
structure Span where
  start : Nat
  stop : Nat
  deriving DecidableEq, Repr, Inhabited

namespace Span

def dummy : Span := ⟨0, 0⟩

def isDummy (s : Span) : Bool := s.start == 0 && s.stop == 0

/-- The smallest span over both; one without a location does not count. -/
def merge (s t : Span) : Span :=
  if s.isDummy then t
  else if t.isDummy then s
  else ⟨min s.start t.start, max s.stop t.stop⟩

def within (s : Span) (size : Nat) : Bool := !s.isDummy && s.stop ≤ size

end Span

inductive Severity where
  | error | warning
  deriving DecidableEq, Repr

def Severity.name : Severity → String
  | error => "error" | warning => "warning"

inductive ErrorKind where
  | structural | type | resourceBinding | sampler | backend | catalog
  deriving DecidableEq, Repr

structure Diagnostic where
  severity : Severity
  kind : Option ErrorKind
  message : String
  span : Span
  labels : List (Span × String)
  notes : List String
  help : Option String
  deriving DecidableEq, Repr

namespace Diagnostic

def error (message : String) (span : Span) (kind : Option ErrorKind) : Diagnostic :=
  ⟨.error, kind, message, span, [], [], none⟩

def warning (message : String) (span : Span) (kind : Option ErrorKind) : Diagnostic :=
  ⟨.warning, kind, message, span, [], [], none⟩

def withLabel (d : Diagnostic) (span : Span) (text : String) : Diagnostic :=
  { d with labels := d.labels ++ [(span, text)] }

def withNote (d : Diagnostic) (note : String) : Diagnostic := { d with notes := d.notes ++ [note] }

def isError (d : Diagnostic) : Bool := d.severity == .error

def trailer (labels : List String) (d : Diagnostic) : String :=
  String.join ((labels ++ d.notes).map fun n => "  note: " ++ n ++ "\n")
    ++ (d.help.map fun h => "  help: " ++ h ++ "\n").getD ""

def plain (filename : String) (d : Diagnostic) : String :=
  filename ++ ": " ++ d.severity.name ++ ": " ++ d.message ++ "\n"
    ++ d.trailer (d.labels.map (·.2))

def position (source : String) (offset : Nat) : Nat × Nat :=
  let before := source.toUTF8.toList.take offset
  (before.count 10 + 1, (before.reverse.takeWhile (· != 10)).length + 1)

/-- As `plain`, led by line and column; labels outside the source are left out. -/
def located (filename source : String) (d : Diagnostic) : String :=
  let (line, column) := position source d.span.start
  s!"{filename}:{line}:{column}: " ++ d.severity.name ++ ": " ++ d.message ++ "\n"
    ++ d.trailer ((d.labels.filter fun l => l.1.within source.utf8ByteSize).map (·.2))

def render (filename source : String) (d : Diagnostic) : String :=
  if d.span.within source.utf8ByteSize then d.located filename source else d.plain filename

def renderAll (filename source : String) (ds : List Diagnostic) : String :=
  String.join (ds.map (render filename source))

def hasErrors (ds : List Diagnostic) : Bool := ds.any isError

end Diagnostic
end ShaderSplit
