import ShaderSplit.Decimal.Shortest

namespace ShaderSplit.Decimal

def zeros (n : Nat) : String := String.ofList (List.replicate n '0')

/-- Digits `ds` with the point after the first `k` of them. -/
def positional (ds : List Char) (k : Int) : String :=
  if k ≤ 0 then "0." ++ zeros (-k).toNat ++ String.ofList ds
  else
    let whole := ds.take k.toNat
    let fraction := ds.drop k.toNat
    String.ofList whole ++ zeros (k.toNat - ds.length) ++ "."
      ++ (if fraction.isEmpty then "0" else String.ofList fraction)

/-- One digit before the point, and the exponent without a plus sign. -/
def scientific (ds : List Char) (k : Int) : String :=
  String.ofList (ds.take 1)
    ++ (if ds.length ≤ 1 then "" else "." ++ String.ofList (ds.drop 1)) ++ "e" ++ toString (k - 1)

def text (d : Decimal) : String :=
  let ds := Nat.toDigits 10 d.digits
  let k := ds.length + d.exponent
  if -4 < k && k ≤ 16 then positional ds k else scientific ds k

end ShaderSplit.Decimal

namespace ShaderSplit.Binary64

/-- Positional with at least one fraction digit from `10 ^ -4` up to `10 ^ 16`, in scientific
notation outside. What is not a number has no sign. -/
def textWith (t : Decimal.Tie) (x : Binary64) : String :=
  let sign := if x.negative then "-" else ""
  match x.magnitude with
  | .nan => "NaN"
  | .infinite => sign ++ "inf"
  | .finite 0 _ => sign ++ "0.0"
  | .finite m q =>
    sign ++ (Decimal.shortest t m q (x.fractionField = 0 && 1 < x.exponentField)).text

/-- Generated source takes the larger of two decimals that are as near. -/
def text (x : Binary64) : String := x.textWith .up

/-- JSON takes the one with an even last digit. -/
def jsonText (x : Binary64) : String := x.textWith .even

end ShaderSplit.Binary64
