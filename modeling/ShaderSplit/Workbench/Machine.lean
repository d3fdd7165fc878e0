import ShaderSplit.Command.Frontend
import ShaderSplit.Workbench.Programs

-- A machine that a command works on, as data: its files, and the directory where the command
-- stands. Paths are followed part by part, and every part but the last has to be a directory.

namespace ShaderSplit

inductive PathFault where
  | missing | denied | notDirectory | isDirectory | noSpace | nameTooLong | zeroByte | notText
  deriving DecidableEq, Repr

namespace PathFault

def reason : PathFault → String
  | missing => "No such file or directory"
  | denied => "Permission denied"
  | notDirectory => "Not a directory"
  | isDirectory => "Is a directory"
  | noSpace => "No space left on device"
  | nameTooLong => "File name too long"
  | zeroByte => "file name contained an unexpected NUL byte"
  | notText => "stream did not contain valid UTF-8"

def number? : PathFault → Option Nat
  | missing => some 2
  | denied => some 13
  | notDirectory => some 20
  | isDirectory => some 21
  | noSpace => some 28
  | nameTooLong => some 36
  | zeroByte | notText => none

def message (f : PathFault) : String :=
  match f.number? with
  | some n => s!"{f.reason} (os error {n})"
  | none => f.reason

end PathFault

inductive FileContent where
  | text (s : String)
  | program (p : Executable)
  /-- Takes everything and holds nothing. -/
  | sink
  | full
  deriving DecidableEq, Repr

/-- Files under the names that lead to them from the top, and the place of the command. -/
structure FileTree where
  files : List (List String × FileContent)
  /-- Directories that need not hold a file. -/
  folders : List (List String)
  home : List String
  deriving DecidableEq, Repr

namespace FileTree

def leadsTo (names target : List String) : Bool :=
  names.length ≤ target.length && target.take names.length == names

def file? (t : FileTree) (names : List String) : Option FileContent := t.files.lookup names

def isDirectory (t : FileTree) (names : List String) : Bool :=
  (t.home :: t.folders).any (leadsTo names) || t.files.any fun f => names ≠ f.1 && leadsTo names f.1

def maxName : Nat := 255

def maxPath : Nat := 4095

/-- Follows the parts of a path from a place. Above the top is the top. -/
def follow (t : FileTree) : List String → List String → Except PathFault (List String)
  | names, [] => .ok names
  | names, part :: parts =>
    if !t.isDirectory names then .error (if (t.file? names).isSome then .notDirectory else .missing)
    else if part = "" || part = "." then t.follow names parts
    else if part = ".." then t.follow names.dropLast parts
    else if maxName < part.utf8ByteSize then .error .nameTooLong
    else t.follow (names ++ [part]) parts

def locate (t : FileTree) (path : String) (parts : List String) : Except PathFault (List String) :=
  if path.toList.contains '\x00' then .error .zeroByte
  else if maxPath < path.utf8ByteSize then .error .nameTooLong
  else if path.isEmpty then .error .missing
  else t.follow (if path.startsWith "/" then [] else t.home) parts

def content (t : FileTree) (path : String) : Except PathFault FileContent :=
  match t.locate path (path.splitOn "/") with
  | .error fault => .error fault
  | .ok names =>
    match t.file? names with
    | some c => .ok c
    | none => .error (if t.isDirectory names then .isDirectory else .missing)

def read (t : FileTree) (path : String) : Except PathFault String :=
  match t.content path with
  | .error fault => .error fault
  | .ok (.text s) => .ok s
  | .ok (.program _) => .error .notText
  | .ok .sink | .ok .full => .ok ""

def dump (t : FileTree) (path : String) : Except String String :=
  match t.read path with
  | .ok s => .ok s
  | .error .notText => .ok "\ufffd"
  | .error fault => .error fault.reason

def set (t : FileTree) (names : List String) (text : String) : FileTree :=
  { t with files := t.files.filter (·.1 ≠ names) ++ [(names, .text text)] }

/-- Writes a file. A path that ends in a slash can only be a directory, if there is a
place for it. -/
def write (t : FileTree) (path text : String) : Except PathFault FileTree :=
  let parts := ((path.splitOn "/").reverse.dropWhile (· = "")).reverse
  if path.endsWith "/" then
    match t.locate path (parts.dropLast ++ ["."]) with
    | .error fault => .error fault
    | .ok _ => .error .isDirectory
  else
    match t.locate path parts with
    | .error fault => .error fault
    | .ok names =>
      match t.file? names with
      | some .sink => .ok t
      | some .full => .error .noSpace
      | _ => if t.isDirectory names then .error .isDirectory else .ok (t.set names text)

def makeDirectories (t : FileTree) : List String → List String → Except PathFault FileTree
  | _, [] => .ok t
  | names, part :: parts =>
    if part = "" || part = "." then t.makeDirectories names parts
    else if part = ".." then t.makeDirectories names.dropLast parts
    else if maxName < part.utf8ByteSize then .error .nameTooLong
    else if (t.file? (names ++ [part])).isSome then .error .notDirectory
    else makeDirectories { t with folders := (names ++ [part]) :: t.folders }
      (names ++ [part]) parts

def install (t : FileTree) (path text : String) : Except PathFault FileTree :=
  let parts := (path.splitOn "/").filter fun part => part ≠ "" && part ≠ "."
  match t.makeDirectories (if path.startsWith "/" then [] else t.home) parts.dropLast with
  | .error fault => .error fault
  | .ok t => t.write path text

def writeAll (t : FileTree) (files : List (String × String)) : FileTree :=
  files.foldl (fun t f => match t.write f.1 f.2 with
    | .ok t => t
    | .error _ => t) t

/-- Texts below the command's place that are new or different since `t`, by their
names from there. -/
def changedSince (t later : FileTree) : List (List String × String) :=
  later.files.filterMap fun f =>
    match f.2 with
    | .text s =>
      if leadsTo t.home f.1 && t.file? f.1 ≠ some (.text s) then some (f.1.drop t.home.length, s)
      else none
    | _ => none

def searchPath : String := "/bin/"

def program (t : FileTree) (name : String) : Except PathFault Executable :=
  if name.isEmpty then .error .missing
  else
    match t.content (if name.toList.contains '/' then name else searchPath ++ name) with
    | .ok (.program p) => .ok p
    | .ok _ | .error .isDirectory => .error .denied
    | .error fault => .error fault

def run (t : FileTree) (name : String) (args : List String) : Except String ToolOutcome :=
  if (name :: args).any (·.toList.contains '\x00') then .error "nul byte found in provided data"
  else
    match t.program name with
    | .error fault => .error fault.message
    | .ok p => .ok (p.run name t.dump args)

def environment (t : FileTree) : Environment where
  isFile path :=
    match t.content path with
    | .ok (.text _) | .ok (.program _) => true
    | _ => false
  read path := (t.read path).mapError PathFault.message
  run := t.run
  writeFault earlier path :=
    match (t.writeAll earlier).write path "" with
    | .ok _ => none
    | .error fault => some fault.message

end FileTree
end ShaderSplit
