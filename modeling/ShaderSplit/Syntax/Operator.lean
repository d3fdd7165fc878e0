namespace ShaderSplit

inductive BinaryOp where
  | assign | addAssign | subAssign | mulAssign | divAssign
  | add | sub | mul | div | rem
  | eq | ne | lt | le | gt | ge
  | bitAnd | bitOr | bitXor | shl | shr
  | logicalAnd | logicalOr
  deriving DecidableEq, Repr

namespace BinaryOp

def all : List BinaryOp :=
  [assign, addAssign, subAssign, mulAssign, divAssign, add, sub, mul, div, rem,
    eq, ne, lt, le, gt, ge, bitAnd, bitOr, bitXor, shl, shr, logicalAnd, logicalOr]

def spelling : BinaryOp → String
  | assign => "=" | addAssign => "+=" | subAssign => "-=" | mulAssign => "*=" | divAssign => "/="
  | add => "+" | sub => "-" | mul => "*" | div => "/" | rem => "%"
  | eq => "==" | ne => "!=" | lt => "<" | le => "<=" | gt => ">" | ge => ">="
  | bitAnd => "&" | bitOr => "|" | bitXor => "^" | shl => "<<" | shr => ">>"
  | logicalAnd => "&&" | logicalOr => "||"

def name : BinaryOp → String
  | assign => "Assign" | addAssign => "AddAssign" | subAssign => "SubAssign"
  | mulAssign => "MulAssign" | divAssign => "DivAssign"
  | add => "Add" | sub => "Sub" | mul => "Mul" | div => "Div" | rem => "Rem"
  | eq => "Eq" | ne => "Ne" | lt => "Lt" | le => "Le" | gt => "Gt" | ge => "Ge"
  | bitAnd => "BitAnd" | bitOr => "BitOr" | bitXor => "BitXor" | shl => "Shl" | shr => "Shr"
  | logicalAnd => "LogicalAnd" | logicalOr => "LogicalOr"

def ofName? (s : String) : Option BinaryOp := all.find? (·.name == s)

def isAssignment : BinaryOp → Bool
  | assign | addAssign | subAssign | mulAssign | divAssign => true
  | _ => false

def isComparison : BinaryOp → Bool
  | eq | ne | lt | le | gt | ge | logicalAnd | logicalOr => true
  | _ => false

end BinaryOp

inductive UnaryOp where
  | neg | plus | not | bitNot
  deriving DecidableEq, Repr

namespace UnaryOp

def all : List UnaryOp := [neg, plus, not, bitNot]

def spelling : UnaryOp → String
  | neg => "-" | plus => "+" | not => "!" | bitNot => "~"

def name : UnaryOp → String
  | neg => "Neg" | plus => "Plus" | not => "Not" | bitNot => "BitNot"

def ofName? (s : String) : Option UnaryOp := all.find? (·.name == s)

end UnaryOp
end ShaderSplit
