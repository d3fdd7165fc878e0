import ShaderSplit.Decimal.Binary64

namespace ShaderSplit

/-- A decimal numeral. `fraction` and `exponent` are absent when nothing is written for them. -/
structure Numeral where
  negative : Bool
  whole : List Char
  fraction : Option (List Char)
  exponent : Option Int
  deriving DecidableEq, Repr

namespace Numeral

def digit (c : Char) : Nat := c.toNat - '0'.toNat

def ofInt (i : Int) : Numeral := ⟨i < 0, Nat.toDigits 10 i.natAbs, none, none⟩

def text (n : Numeral) : String :=
  (if n.negative then "-" else "") ++ String.ofList n.whole
    ++ (n.fraction.elim "" fun ds => "." ++ String.ofList ds) ++
      (n.exponent.elim "" fun e => "e" ++ toString e)

def ofDigits (ds : List Char) : Nat := ds.foldl (fun n c => 10 * n + digit c) 0

/-- The integer written, if it is a whole number of 64 bits. Negative zero is no integer. -/
def int? (n : Numeral) : Option Int :=
  if n.fraction.isSome || n.exponent.isSome then none
  else
    let v := ofDigits n.whole
    if n.negative then if 0 < v && v ≤ Nat.pow 2 63 then some (-v) else none
    else if v < Nat.pow 2 64 then some v else none

/-- Appends digits while the number stays below `2 ^ 64`; gives the digits left over. -/
def appendFitting : Nat → List Char → Nat × List Char
  | s, [] => (s, [])
  | s, c :: cs =>
    if 10 * s + digit c < Nat.pow 2 64 then appendFitting (10 * s + digit c) cs else (s, c :: cs)

/-- Leading digits that fit into 64 bits, and the power of ten that they are to be scaled by. -/
def parts (n : Numeral) : Nat × Int :=
  let (s, unread) := appendFitting 0 n.whole
  let fraction := n.fraction.getD []
  let (s, left) := appendFitting s fraction
  (s, unread.length - (fraction.length - left.length : Nat) + n.exponent.getD 0)

def powerOfTen (e : Nat) : Float := Float.ofScientific 1 false e

/-- `s * 10 ^ e` by one multiplication or division, or two divisions below `10 ^ -308`. There is
none when it is too large. -/
def scale (s : Nat) (e : Int) : Option Float :=
  let f := s.toUInt64.toFloat
  if s = 0 then some f
  else if 308 < e then none
  else if 0 ≤ e then
    let r := f * powerOfTen e.toNat
    if r.isInf then none else some r
  else if -308 ≤ e then some (f / powerOfTen (-e).toNat)
  else if -616 ≤ e then some (f / powerOfTen 308 / powerOfTen (-e - 308).toNat)
  else some 0

def float? (n : Numeral) : Option Binary64 := do
  let f ←
    match n.int? with
    | some i => some i.natAbs.toUInt64.toFloat
    | none => scale n.parts.1 n.parts.2
  return .ofFloat (if n.negative then -f else f)

end Numeral
end ShaderSplit
