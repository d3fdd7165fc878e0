namespace ShaderSplit

/-- Two numbers are equal when their bits are. -/
structure Binary64 where
  bits : UInt64
  deriving DecidableEq, Repr, Inhabited

namespace Binary64

def ofFloat (x : Float) : Binary64 := ⟨x.toBits⟩

def negative (x : Binary64) : Bool := x.bits.toNat.testBit 63

def exponentField (x : Binary64) : Nat := x.bits.toNat / Nat.pow 2 52 % Nat.pow 2 11

def fractionField (x : Binary64) : Nat := x.bits.toNat % Nat.pow 2 52

inductive Magnitude where
  | nan
  | infinite
  | finite (significand : Nat) (exponent : Int)

/-- A finite magnitude is `significand * 2 ^ exponent`. -/
def magnitude (x : Binary64) : Magnitude :=
  if x.exponentField = 2047 then
    if x.fractionField = 0 then .infinite else .nan
  else if x.exponentField = 0 then .finite x.fractionField (-1074)
  else .finite (Nat.pow 2 52 + x.fractionField) (x.exponentField - 1075)

end Binary64
end ShaderSplit
