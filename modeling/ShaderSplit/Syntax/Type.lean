namespace ShaderSplit

abbrev NodeId := Nat
abbrev DeclId := Nat
abbrev LocalId := Nat

inductive ScalarType where
  | bool
  | int (width : Nat)
  | uint (width : Nat)
  | float
  | double
  deriving DecidableEq, Repr

def ScalarType.hostName : ScalarType → String
  | bool => "bool"
  | int 8 => "int8_t"
  | int 16 => "int16_t"
  | int 64 => "int64_t"
  | int _ => "int"
  | uint 8 => "uint8_t"
  | uint 16 => "uint16_t"
  | uint 64 => "uint64_t"
  | uint _ => "unsigned int"
  | float => "float"
  | double => "double"

inductive Ty where
  | void
  | scalar (s : ScalarType)
  | decl (id : DeclId)
  deriving DecidableEq, Repr

namespace Ty

def float : Ty := .scalar .float
def int : Ty := .scalar (.int 32)
def uint : Ty := .scalar (.uint 32)
def bool : Ty := .scalar .bool

def isScalar : Ty → Bool
  | .scalar _ => true
  | _ => false

end Ty
end ShaderSplit
