namespace ShaderSplit.Hex

def lower : List Char :=
  ['0', '1', '2', '3', '4', '5', '6', '7', '8', '9', 'a', 'b', 'c', 'd', 'e', 'f']
def upper : List Char :=
  ['0', '1', '2', '3', '4', '5', '6', '7', '8', '9', 'A', 'B', 'C', 'D', 'E', 'F']

def byte (digits : List Char) (b : UInt8) : List Char :=
  [digits.getD (b.toNat / 16) '0', digits.getD (b.toNat % 16) '0']

def encode (digits : List Char) (bytes : List UInt8) : String :=
  String.ofList (bytes.flatMap (byte digits))

def value? (c : Char) : Option Nat := (lower.idxOf? c).or (upper.idxOf? c)

def decode? : List Char → Option (List UInt8)
  | [] => some []
  | [_] => none
  | h :: l :: rest => do
    let h ← value? h
    let l ← value? l
    return (16 * h + l).toUInt8 :: (← decode? rest)

end ShaderSplit.Hex
