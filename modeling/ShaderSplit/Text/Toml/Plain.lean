import ShaderSplit.Text.Hex
import ShaderSplit.Text.Toml.Moment

namespace ShaderSplit.Toml

def isHexDigit (c : Char) : Bool := (Hex.value? c).isSome

/-- Every `_` stands between two digits. -/
def grouped (isDigit : Char → Bool) : List Char → Bool
  | a :: '_' :: b :: cs => isDigit a && isDigit b && grouped isDigit (b :: cs)
  | c :: cs => c ≠ '_' && grouped isDigit cs
  | [] => true

def digitsWith (isDigit : Char → Bool) (cs : List Char) : Bool :=
  cs.all (fun c => isDigit c || c = '_') && grouped isDigit cs

/-- An integer in base 16, 8 or 2; there may be no digits. -/
def isRadix : List Char → Bool
  | '0' :: 'x' :: ds => digitsWith isHexDigit ds
  | '0' :: 'o' :: ds => digitsWith (fun c => '0' ≤ c && c ≤ '7') ds
  | '0' :: 'b' :: ds => digitsWith (fun c => c = '0' || c = '1') ds
  | _ => false

def isGroupedDigit (c : Char) : Bool := c.isDigit || c = '_'

def digits? (cs : List Char) : Option (List Char) :=
  if (cs.takeWhile isGroupedDigit).any Char.isDigit then some (cs.dropWhile isGroupedDigit)
  else none

def zeroLed (cs : List Char) : Bool :=
  cs.head? = some '0' && 1 < ((cs.takeWhile isGroupedDigit).filter Char.isDigit).length

def unsign : List Char → List Char
  | '+' :: cs | '-' :: cs => cs
  | cs => cs

def fraction? : List Char → Option (List Char)
  | '.' :: cs => digits? cs
  | cs => some cs

def exponent? : List Char → Option (List Char)
  | 'e' :: cs | 'E' :: cs => digits? (unsign cs)
  | cs => some cs

def isDecimal (cs : List Char) : Bool :=
  !zeroLed cs && (((digits? cs).bind fraction?).bind exponent?) == some []

def isForeign (c : Char) : Bool := ['.', 'e', 'E', ' '].contains c

/-- An integer in groups. Past the first group only the characters beside each `_` are looked at. -/
def isGrouped (cs : List Char) : Bool :=
  match cs.dropWhile Char.isDigit with
  | '_' :: rest => cs.head? ≠ some '0' && !rest.any isForeign
  | _ => false

def isNumber (cs : List Char) : Bool :=
  let size := unsign cs
  size == "inf".toList || size == "nan".toList || isRadix cs ||
    (isDecimal size && grouped Char.isDigit cs) || (isGrouped size && grouped isHexDigit cs)

def isPlain (cs : List Char) : Bool :=
  cs == "true".toList || cs == "false".toList || isNumber cs || isMoment cs

end ShaderSplit.Toml
