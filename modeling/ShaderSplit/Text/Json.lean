import ShaderSplit.Decimal.Numeral
import ShaderSplit.Text.Hex

namespace ShaderSplit

inductive Json where
  | null
  | bool (b : Bool)
  | number (n : Numeral)
  | string (s : Option String)
  | array (items : List Json)
  | object (members : List (Option String × Json))

namespace Json

def isSpace (c : Char) : Bool := c == ' ' || c == '\n' || c == '\t' || c == '\r'

def skip (cs : List Char) : List Char := cs.dropWhile isSpace

def expect? : List Char → List Char → Option (List Char)
  | [], cs => some cs
  | p :: ps, c :: cs => if p = c then expect? ps cs else none
  | _ :: _, [] => none

def hex4? (a b c d : Char) : Option Nat := do
  return 4096 * (← Hex.value? a) + 256 * (← Hex.value? b) + 16 * (← Hex.value? c) + (← Hex.value? d)

def escape? : Char → Option Char
  | '"' => some '"' | '\\' => some '\\' | '/' => some '/'
  | 'b' => some '\x08' | 'f' => some '\x0c' | 'n' => some '\n' | 'r' => some '\r' | 't' => some '\t'
  | _ => none

def isHigh (n : Nat) : Bool := 0xD800 ≤ n && n < 0xDC00
def isLow (n : Nat) : Bool := 0xDC00 ≤ n && n < 0xE000

/-- A piece of a string: a character or a code unit of sixteen bits. -/
inductive Unit16 where
  | char (c : Char)
  | unit (n : Nat)

/-- Joins surrogate pairs; half a pair has no text. -/
def join : List Unit16 → Option (List Char)
  | [] => some []
  | .char c :: us => (join us).map (c :: ·)
  | .unit h :: .unit l :: us =>
    if isHigh h && isLow l then
      (join us).map (Char.ofNat (0x10000 + 0x400 * (h - 0xD800) + (l - 0xDC00)) :: ·)
    else if isHigh h || isLow h then none
    else (join (.unit l :: us)).map (Char.ofNat h :: ·)
  | .unit h :: us => if isHigh h || isLow h then none else (join us).map (Char.ofNat h :: ·)

def units? (acc : List Unit16) : List Char → Option (List Unit16 × List Char)
  | '"' :: cs => some (acc.reverse, cs)
  | '\\' :: 'u' :: a :: b :: c :: d :: cs =>
    match hex4? a b c d with
    | some n => units? (.unit n :: acc) cs
    | none => none
  | '\\' :: e :: cs =>
    match escape? e with
    | some c => units? (.char c :: acc) cs
    | none => none
  | c :: cs => if c.toNat < 0x20 || c == '\\' then none else units? (.char c :: acc) cs
  | [] => none

def string? (cs : List Char) : Option (Option String × List Char) :=
  (units? [] cs).map fun (us, rest) => ((join us).map String.ofList, rest)

def exponent? (cs : List Char) : Option (Int × List Char) :=
  let (negative, cs) := match cs with
    | '-' :: cs => (true, cs)
    | '+' :: cs => (false, cs)
    | cs => (false, cs)
  let ds := cs.takeWhile Char.isDigit
  if ds.isEmpty then none
  else
    let n : Int := Numeral.ofDigits ds
    some (if negative then -n else n, cs.dropWhile Char.isDigit)

def fraction? : List Char → Option (Option (List Char) × List Char)
  | '.' :: cs =>
    let ds := cs.takeWhile Char.isDigit
    if ds.isEmpty then none else some (some ds, cs.dropWhile Char.isDigit)
  | cs => some (none, cs)

/-- A whole number does not begin with a zero, unless it is zero. -/
def whole? : List Char → Option (List Char × List Char)
  | '0' :: cs => if (cs.head?.any Char.isDigit) then none else some (['0'], cs)
  | cs =>
    let ds := cs.takeWhile Char.isDigit
    if ds.isEmpty then none else some (ds, cs.dropWhile Char.isDigit)

def number? (cs : List Char) : Option (Numeral × List Char) := do
  let (negative, cs) := match cs with
    | '-' :: cs => (true, cs)
    | cs => (false, cs)
  let (whole, cs) ← whole? cs
  let (fraction, cs) ← fraction? cs
  match cs with
  | 'e' :: cs | 'E' :: cs =>
    let (e, cs) ← exponent? cs
    return (⟨negative, whole, fraction, some e⟩, cs)
  | cs => return (⟨negative, whole, fraction, none⟩, cs)

mutual
/-- A value and what follows it. Each step takes a character or enters a list, so twice the length
of the text is enough fuel. -/
def valueFrom? : Nat → List Char → Option (Json × List Char)
  | 0, _ => none
  | fuel + 1, cs =>
    match skip cs with
    | '"' :: cs => (string? cs).map fun (s, cs) => (.string s, cs)
    | '[' :: cs =>
      match skip cs with
      | ']' :: cs => some (.array [], cs)
      | cs => (itemsFrom? fuel cs).map fun (js, cs) => (.array js, cs)
    | '\x7b' :: cs =>
      match skip cs with
      | '\x7d' :: cs => some (.object [], cs)
      | cs => (membersFrom? fuel cs).map fun (ms, cs) => (.object ms, cs)
    | 't' :: cs => (expect? ['r', 'u', 'e'] cs).map (.bool true, ·)
    | 'f' :: cs => (expect? ['a', 'l', 's', 'e'] cs).map (.bool false, ·)
    | 'n' :: cs => (expect? ['u', 'l', 'l'] cs).map (.null, ·)
    | cs => (number? cs).map fun (n, cs) => (.number n, cs)
def itemsFrom? : Nat → List Char → Option (List Json × List Char)
  | 0, _ => none
  | fuel + 1, cs => do
    let (j, cs) ← valueFrom? fuel cs
    match skip cs with
    | ',' :: cs => (itemsFrom? fuel cs).map fun (js, cs) => (j :: js, cs)
    | ']' :: cs => some ([j], cs)
    | _ => none
def membersFrom? : Nat → List Char → Option (List (Option String × Json) × List Char)
  | 0, _ => none
  | fuel + 1, cs =>
    match skip cs with
    | '"' :: cs => do
      let (name, cs) ← string? cs
      let cs ← expect? [':'] (skip cs)
      let (j, cs) ← valueFrom? fuel cs
      match skip cs with
      | ',' :: cs => (membersFrom? fuel cs).map fun (ms, cs) => ((name, j) :: ms, cs)
      | '\x7d' :: cs => some ([(name, j)], cs)
      | _ => none
    | _ => none
end

def parse? (text : String) : Option Json := do
  let cs := text.toList
  let (j, rest) ← valueFrom? (2 * cs.length + 2) cs
  if (skip rest).isEmpty then some j else none

end Json
end ShaderSplit
