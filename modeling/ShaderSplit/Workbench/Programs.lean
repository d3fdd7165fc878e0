import ShaderSplit.Artifact.Tool
import ShaderSplit.Text.Hex

-- Small programs as functions of their arguments and of the files that they read, for trying out
-- a command that calls other programs.

namespace ShaderSplit

-- Every byte sequence is read: the longest start of a character that goes no further becomes one
-- replacement character, and so does a byte that starts none.
namespace Utf8

def replacement : Char := '\ufffd'

/-- A character begun: its value so far, the range of the next byte, and how many bytes
come after that. -/
structure Begun where
  value : Nat
  low : UInt8
  high : UInt8
  more : Nat
  deriving DecidableEq, Repr

/-- The first byte of a character. The ranges leave out longer forms than needed, surrogates, and
values above the last character. -/
def start (b : UInt8) : List Char × Option Begun :=
  if b < 0x80 then ([Char.ofNat b.toNat], none)
  else if b < 0xC2 then ([replacement], none)
  else if b < 0xE0 then ([], some ⟨b.toNat - 0xC0, 0x80, 0xBF, 0⟩)
  else if b < 0xF0 then
    ([], some ⟨b.toNat - 0xE0, if b = 0xE0 then 0xA0 else 0x80, if b = 0xED then 0x9F else 0xBF, 1⟩)
  else if b < 0xF5 then
    ([], some ⟨b.toNat - 0xF0, if b = 0xF0 then 0x90 else 0x80, if b = 0xF4 then 0x8F else 0xBF, 2⟩)
  else ([replacement], none)

def Begun.next (s : Begun) (b : UInt8) : List Char × Option Begun :=
  if s.low ≤ b && b ≤ s.high then
    let value := 64 * s.value + (b.toNat - 0x80)
    match s.more with
    | 0 => ([Char.ofNat value], none)
    | more + 1 => ([], some ⟨value, 0x80, 0xBF, more⟩)
  else
    let (cs, s) := start b
    (replacement :: cs, s)

def decodeFrom : Option Begun → List UInt8 → List Char
  | none, [] => []
  | some _, [] => [replacement]
  | s, b :: bs =>
    let (cs, s) := match s with
      | none => start b
      | some s => s.next b
    cs ++ decodeFrom s bs

def decode (bytes : List UInt8) : String := String.ofList (decodeFrom none bytes)

end Utf8

-- A name that a shell takes as it is stays so, and every other one is quoted. Bytes that cannot be
-- printed are escaped, and only ASCII can.
namespace ShellWord

def isPrintable (c : Char) : Bool := ' ' ≤ c && c ≤ '~'

/-- Characters that need quotes wherever they stand. A colon would seem to end the name. -/
def special : List Char := "!\"$&()*;<=>[^`|?\\ ':".toList

def isMild (c : Char) : Bool := c.isAlphanum || "%+,-./:]_@ '".toList.contains c

def isLeading (c : Char) : Bool := c = '#' || c = '~'

def needsQuotes (cs : List Char) : Bool :=
  cs.any (fun c => special.contains c || !isPrintable c) || (cs.take 1).any isLeading ||
    [[], ['\x7b'], ['\x7d']].contains cs

def letters : List (UInt8 × Char) :=
  [(0x07, 'a'), (0x08, 'b'), (0x09, 't'), (0x0a, 'n'), (0x0b, 'v'), (0x0c, 'f'), (0x0d, 'r')]

def escape (b : UInt8) : List Char :=
  let digit (n : Nat) : Char := Char.ofNat ('0'.toNat + n)
  '\\' :: match letters.lookup b with
    | some c => [c]
    | none => [digit (b.toNat / 64), digit (b.toNat / 8 % 8), digit (b.toNat % 8)]

/-- What follows an opening single quote, with the closing one. Escapes stand between quotes with a
dollar sign; `escaping` says whether these are the open ones. -/
def singleQuoted (escaping : Bool) : List Char → List Char
  | [] => ['\'']
  | c :: cs =>
    if c = '\'' then ['\'', '\\', '\'', '\''] ++ singleQuoted false cs
    else if isPrintable c then (if escaping then ['\'', '\''] else []) ++ c :: singleQuoted false cs
    else (if escaping then [] else ['\'', '$', '\'']) ++ c.toString.toUTF8.toList.flatMap escape ++
      singleQuoted true cs

/-- Double quotes are taken for the sake of a single quote, if nothing else matters to them. -/
def prefersDouble (cs : List Char) : Bool :=
  cs.contains '\'' && (cs.take 1).all (fun c => isMild c || isLeading c) && (cs.drop 1).all isMild

/-- A name with a single quote is gone through twice, and the second time starts in the state that
the first one ended in. -/
def startsEscaping (cs : List Char) : Bool :=
  cs.contains '\'' && cs.getLast?.any fun c => !isPrintable c

def quote (name : String) : String :=
  let cs := name.toList
  if !needsQuotes cs then name
  else if prefersDouble cs then "\"" ++ name ++ "\""
  else String.ofList ('\'' :: singleQuoted (startsEscaping cs) cs)

end ShellWord

inductive Executable where
  | succeed | fail
  | echo
  | cat
  deriving DecidableEq, Repr

namespace Executable

def isOctal (c : Char) : Bool := '0' ≤ c && c ≤ '7'

def byteOf (base : Nat) (ds : List Char) : UInt8 :=
  (ds.foldl (fun n c => base * n + (Hex.value? c).getD 0) 0).toUInt8

def utf8 (cs : List Char) : List UInt8 := (String.ofList cs).toUTF8.toList

def escapes : List (Char × UInt8) :=
  [('\\', 0x5c), ('a', 0x07), ('b', 0x08), ('e', 0x1b), ('f', 0x0c), ('n', 0x0a),
    ('r', 0x0d), ('t', 0x09),
    ('v', 0x0b)]

/-- Expands escapes; a `c` after a backslash ends the text. -/
def unescape : Nat → List Char → List UInt8
  | 0, _ => []
  | fuel + 1, cs =>
    match cs with
    | '\\' :: 'c' :: _ => []
    | '\\' :: 'x' :: cs =>
      let ds := (cs.take 2).takeWhile fun c => (Hex.value? c).isSome
      if ds.isEmpty then utf8 ['\\', 'x'] ++ unescape fuel cs
      else byteOf 16 ds :: unescape fuel (cs.drop ds.length)
    | '\\' :: c :: cs =>
      if isOctal c then
        let ds := if c = '0' then (cs.take 3).takeWhile isOctal else (cs.take 2).takeWhile isOctal
        byteOf 8 (c :: ds) :: unescape fuel (cs.drop ds.length)
      else
        match escapes.lookup c with
        | some b => b :: unescape fuel cs
        | none => utf8 ['\\', c] ++ unescape fuel cs
    | c :: cs => utf8 [c] ++ unescape fuel cs
    | [] => []

def isEchoOption (a : String) : Bool :=
  match a.toList with
  | '-' :: c :: cs => (c :: cs).all ['n', 'e', 'E'].contains
  | _ => false

def echoText (args : List String) : String :=
  let options := (args.takeWhile isEchoOption).flatMap fun a => a.toList.drop 1
  let text := " ".intercalate (args.dropWhile isEchoOption) ++
      (if options.contains 'n' then "" else "\n")
  if (options.filter (· ≠ 'n')).getLast? =
    some 'e' then Utf8.decode (unescape (text.length + 1) text.toList) else text

def visible (b : UInt8) : List Char :=
  let low (b : UInt8) : List Char :=
    if b < 32 then ['^', Char.ofNat (b.toNat + 64)] else if b = 127 then ['^', '?']
    else [Char.ofNat b.toNat]
  if b < 128 then low b else ['M', '-'] ++ low (b - 128)

def showLine (options : List Char) (line : String) : String :=
  let tabs := options.any ['A', 't', 'T'].contains
  let hidden := options.any ['A', 'e', 't', 'v'].contains
  String.ofList (line.toList.flatMap fun c =>
    if c = '\t' then if tabs then ['^', 'I'] else [c]
    else if hidden then (utf8 [c]).flatMap visible else [c])

def squeeze (afterBlank : Bool) : List String → List String
  | [] => []
  | l :: ls => if afterBlank && l.isEmpty then squeeze true ls else l :: squeeze l.isEmpty ls

def number (passBlank : Bool) (n : Nat) : List String → List String
  | [] => []
  | l :: ls =>
    if passBlank && l.isEmpty then l :: number passBlank n ls
    else
      let ds := toString n
      (String.ofList (List.replicate (6 - ds.length) ' ') ++ ds ++ "\t" ++ l) :: number
        passBlank (n + 1) ls

/-- Text under the options of `cat`. The last line may lack its end. -/
def showText (options : List Char) (text : String) : String :=
  let lines := text.splitOn "\n"
  let isOpen := lines.getLast? ≠ some ""
  let lines := if isOpen then lines else lines.dropLast
  let lines := if options.contains 's' then squeeze false lines else lines
  let lines := lines.map (showLine options)
  let lines :=
    if options.contains 'b' then number true 1 lines
    else if options.contains 'n' then number false 1 lines else lines
  let stop := if options.any ['A', 'e', 'E'].contains then "$\n" else "\n"
  stop.intercalate lines ++ (if isOpen || lines.isEmpty then "" else stop)

def longOptions : List (String × Char) :=
  [("number-nonblank", 'b'), ("number", 'n'), ("squeeze-blank", 's'), ("show-nonprinting", 'v'),
    ("show-ends", 'E'),
    ("show-tabs", 'T'), ("show-all", 'A'), ("help", 'h'), ("version", 'V')]

/-- The letters of an option, or why it is refused. A long one may be cut short and
takes no value. -/
def catOption (a : String) : Except String (List Char) :=
  match a.toList with
  | '-' :: '-' :: cs =>
    let name := String.ofList (cs.takeWhile (· ≠ '='))
    match longOptions.find? (·.1 = name), longOptions.filter fun o => o.1.startsWith name with
    | some o, _ | none, [o] =>
      if cs.contains '=' then .error s!"option '--{o.1}' doesn't allow an argument" else .ok [o.2]
    | none, [] => .error s!"unrecognized option '{a}'"
    | none, several =>
      .error (s!"option '{a}' is ambiguous; possibilities:" ++
        String.join (several.map fun o => s!" '--{o.1}'"))
  | cs =>
    match (cs.drop 1).find? fun c => !"AbeEnstTuv".toList.contains c with
    | some c => .error s!"invalid option -- '{Utf8.decode ((utf8 [c]).take 1)}'"
    | none => .ok (cs.drop 1)

def isNotice (c : Char) : Bool := c = 'h' || c = 'V'

def catOptions : List String → Except String (List Char)
  | [] => .ok []
  | a :: rest => do
    let cs ← catOption a
    if cs.any isNotice then return cs
    return cs ++ (← catOptions rest)

def isOption (a : String) : Bool := 1 < a.length && a.startsWith "-"

/-- Prints files, or what kept it from doing so. No input stands behind a single dash. -/
def catFiles (name : String) (read : String → Except String String) (args : List String) :
    ToolOutcome :=
  let early := args.takeWhile (· ≠ "--")
  match catOptions (early.filter isOption) with
  | .error cause =>
    ⟨false, "", s!"{name}: {cause}\nTry '{name} --help' for more information.\n", []⟩
  | .ok options =>
    if options.any isNotice then ⟨true, s!"Usage: {name} [OPTION]... [FILE]...\n", "", []⟩
    else
      let paths := early.filter (fun a => !isOption a) ++ (args.dropWhile (· ≠ "--")).drop 1
      let results := paths.map fun path => (path, if path = "-" then .ok "" else read path)
      let text := String.join (results.map fun r => r.2.toOption.getD "")
      let faults := String.join (results.map fun r =>
        match r.2 with
        | .ok _ => ""
        | .error cause => s!"{name}: {ShellWord.quote r.1}: {cause}\n")
      ⟨faults.isEmpty, showText options text, faults, []⟩

def run (p : Executable) (name : String) (read : String → Except String String)
    (args : List String) : ToolOutcome :=
  match p with
  | succeed => ⟨true, "", "", []⟩
  | fail => ⟨false, "", "", []⟩
  | echo => ⟨true, echoText args, "", []⟩
  | cat => catFiles name read args

end Executable
end ShaderSplit
