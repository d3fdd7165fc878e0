import ShaderSplit.Decimal.Binary64

namespace ShaderSplit

structure Decimal where
  digits : Nat
  exponent : Int
  deriving DecidableEq, Repr

namespace Decimal

/-- Decimal digits of `n`; zero has none. -/
def digitCount (n : Nat) : Nat := if n = 0 then 0 else (Nat.toDigits 10 n).length

/-- The number `k` with `10 ^ (k - 1) ≤ num / den < 10 ^ k`. -/
def magnitude (num den : Nat) : Int :=
  if den ≤ num then digitCount (num / den) else 1 - digitCount ((den - 1) / num)

def trim : Nat → Decimal → Decimal
  | 0, d => d
  | fuel + 1, d => if d.digits % 10 = 0 then trim fuel ⟨d.digits / 10, d.exponent + 1⟩ else d

/-- The reals that round to one binary number: all parts are over `den`. -/
structure Interval where
  low : Nat
  value : Nat
  high : Nat
  den : Nat
  closed : Bool

/-- Multiplied by a power of two, which for a negative exponent moves into the denominator. -/
def Interval.scale (low value high : Nat) (closed : Bool) (exponent : Int) : Interval :=
  let up := Nat.pow 2 exponent.toNat
  ⟨low * up, value * up, high * up, Nat.pow 2 (-exponent).toNat, closed⟩

def Interval.contains (i : Interval) (c : Nat) (e : Int) : Bool :=
  let x := c * Nat.pow 10 e.toNat * i.den
  let s := Nat.pow 10 (-e).toNat
  if i.closed then i.low * s ≤ x && x ≤ i.high * s else i.low * s < x && x < i.high * s

/-- Which of two neighbours stands for a number half way between them. -/
inductive Tie where
  | up | even
  deriving DecidableEq, Repr

def Tie.choose (t : Tie) (n : Nat) : Nat := if t = .even && n % 2 = 0 then n else n + 1

def Interval.onGrid? (i : Interval) (t : Tie) (e : Int) : Option Nat :=
  let num := i.value * Nat.pow 10 (-e).toNat
  let den := i.den * Nat.pow 10 e.toNat
  let below := num / den
  let above := below + 1
  match i.contains below e && 0 < below, i.contains above e with
  | true, true =>
    match compare (num - below * den) (above * den - num) with
    | .lt => some below
    | .eq => some (t.choose below)
    | .gt => some above
  | true, false => some below
  | false, true => some above
  | false, false => none

/-- Grids of ever more digits, until one has a point in the interval. -/
def Interval.search (i : Interval) (t : Tie) (k : Int) : Nat → Nat → Decimal
  | 0, n => ⟨i.value * Nat.pow 10 (n - k).toNat / (i.den * Nat.pow 10 (k - n).toNat), k - n⟩
  | fuel + 1, n =>
    match i.onGrid? t (k - n) with
    | some c => ⟨c, k - n⟩
    | none => i.search t k fuel (n + 1)

/-- Shortest decimal of `m * 2 ^ q`; `narrow` says that the number below is half as far away. -/
def shortest (t : Tie) (m : Nat) (q : Int) (narrow : Bool) : Decimal :=
  let i := Interval.scale (4 * m - if narrow then 1 else 2) (4 * m) (4 * m + 2) (m % 2 = 0) (q - 2)
  trim 17 (i.search t (magnitude i.value i.den) 17 1)

end Decimal
end ShaderSplit
