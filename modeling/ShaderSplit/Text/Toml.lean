import ShaderSplit.Text.Toml.Plain
import ShaderSplit.Text.Toml.Quoted
import ShaderSplit.Text.Toml.Tree

namespace ShaderSplit.Toml

/-- How deep arrays and inline tables may go, and how many parts a key may have. -/
def maxDepth : Nat := 80

def isBare (c : Char) : Bool := c.isAlphanum || c == '_' || c == '-'

def simpleKey? (cs : List Char) : Option (String × List Char) :=
  match cs with
  | '"' :: cs => basic? (cs.length + 1) [] cs
  | '\'' :: cs => literal? [] cs
  | cs =>
    let key := cs.takeWhile isBare
    if key.isEmpty then none else some (String.ofList key, cs.dropWhile isBare)

/-- A key with dots, of at most so many parts: the path and the last part. -/
def keyWith? : Nat → List Char → Option (List String × String × List Char)
  | 0, _ => none
  | parts + 1, cs => do
    let (k, cs) ← simpleKey? (skipBlank cs)
    match skipBlank cs with
    | '.' :: cs => (keyWith? parts cs).map fun (path, last, cs) => (k :: path, last, cs)
    | cs => some ([], k, cs)

def key? : List Char → Option (List String × String × List Char) := keyWith? maxDepth

def endsPlain (c : Char) : Bool := ['=', ',', '[', ']', '\x7b', '\x7d', '#', '\r', '\n'].contains c

/-- Splits off a value without quotes, and the blanks after it. A quote after a blank starts a
string. -/
def spanPlain (afterBlank : Bool) : List Char → List Char × List Char
  | [] => ([], [])
  | c :: cs =>
    if endsPlain c || (afterBlank && (c = '"' || c = '\'')) then ([], c :: cs)
    else
      let (text, rest) := spanPlain (isBlank c) cs
      (c :: text, rest)

def plain? (cs : List Char) : Option (Toml × List Char) :=
  let (text, rest) := spanPlain false cs
  let text := (text.reverse.dropWhile isBlank).reverse
  if isPlain text then some (.plain (String.ofList text), rest) else none

def space? (cs : List Char) : Option (List Char) := skipLines? cs.length cs

mutual
/-- A value with at most `depth` containers inside each other. -/
def valueFrom? : Nat → Nat → List Char → Option (Toml × List Char)
  | 0, _, _ => none
  | fuel + 1, depth, cs =>
    match cs with
    | '[' :: cs =>
      if depth = 0 then none
      else (itemsFrom? fuel (depth - 1) cs).map fun (vs, cs) => (.array vs, cs)
    | '\x7b' :: cs =>
      if depth = 0 then none
      else (entriesFrom? fuel (depth - 1) [] cs).map fun (es, cs) => (.table .inline es, cs)
    | '"' :: _ | '\'' :: _ => (string? cs).map fun (s, cs) => (.string s, cs)
    | cs => plain? cs
def itemsFrom? : Nat → Nat → List Char → Option (List Toml × List Char)
  | 0, _, _ => none
  | fuel + 1, depth, cs => do
    match ← space? cs with
    | ']' :: cs => some ([], cs)
    | cs =>
      let (v, cs) ← valueFrom? fuel depth cs
      match ← space? cs with
      | ',' :: cs => (itemsFrom? fuel depth cs).map fun (vs, cs) => (v :: vs, cs)
      | ']' :: cs => some ([v], cs)
      | _ => none
def entriesFrom? : Nat → Nat → Entries → List Char → Option (Entries × List Char)
  | 0, _, _, _ => none
  | fuel + 1, depth, es, cs => do
    match ← space? cs with
    | '\x7d' :: cs => some (es, cs)
    | cs =>
      let (path, last, cs) ← key? cs
      match ← space? cs with
      | '=' :: cs =>
        let (v, cs) ← valueFrom? fuel depth (← space? cs)
        let es ← define path last v .inline es
        match ← space? cs with
        | ',' :: cs => entriesFrom? fuel depth es cs
        | '\x7d' :: cs => some (es, cs)
        | _ => none
      | _ => none
end

structure Document where
  entries : Entries
  current : List String

/-- One line, or a value that goes over several. -/
def statement? (d : Document) (cs : List Char) : Option (Document × List Char) :=
  match skipBlank cs with
  | '[' :: '[' :: cs => do
    let (path, last, cs) ← key? cs
    match cs with
    | ']' :: ']' :: cs =>
      some (⟨← descend false (appendTable last) path .header d.entries, path ++ [last]⟩,
        ← endLine? cs)
    | _ => none
  | '[' :: cs => do
    let (path, last, cs) ← key? cs
    match cs with
    | ']' :: cs =>
      some (⟨← descend false (openTable last) path .header d.entries, path ++ [last]⟩,
        ← endLine? cs)
    | _ => none
  | cs => do
    let (path, last, cs) ← key? cs
    match cs with
    | '=' :: cs =>
      let cs := skipBlank cs
      let (v, cs) ← valueFrom? (2 * cs.length + 2) maxDepth cs
      some ({ d with entries := ← descend false (define path last v) d.current .header d.entries },
        ← endLine? cs)
    | _ => none

def statements? : Nat → Document → List Char → Option Document
  | 0, _, _ => none
  | fuel + 1, d, cs => do
    match ← space? cs with
    | [] => some d
    | cs =>
      let (d, cs) ← statement? d cs
      statements? fuel d cs

/-- The root table of a document; a byte order mark is passed over. -/
def parse? (text : String) : Option Entries :=
  let cs := match text.toList with
    | '\ufeff' :: cs => cs
    | cs => cs
  (statements? (cs.length + 1) ⟨[], []⟩ cs).map (·.entries)

end ShaderSplit.Toml
