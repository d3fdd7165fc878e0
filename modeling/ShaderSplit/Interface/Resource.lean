import ShaderSplit.Builtin.Table
import ShaderSplit.Syntax.Unit

namespace ShaderSplit

inductive InputRate where
  | perVertex | perInstance
  deriving DecidableEq, Repr

namespace InputRate

def all : List InputRate := [perVertex, perInstance]

def name : InputRate → String
  | perVertex => "PerVertex" | perInstance => "PerInstance"

def runtimeValue : InputRate → Nat
  | perVertex => 0 | perInstance => 1

end InputRate

/-- Formats of vertex attributes; widths run from one to four. -/
inductive VertexFormat where
  | packed (elem : ElemKind) (width : Fin 4)
  | double
  deriving DecidableEq, Repr

namespace VertexFormat

def all : List VertexFormat :=
  ([ElemKind.float, .int, .uint].flatMap fun e => ([0, 1, 2, 3] : List (Fin 4)).map (packed e)) ++
    [double]

def channels (width : Fin 4) : String := String.ofList (['R', 'G', 'B', 'A'].take (width.val + 1))

def suffix : ElemKind → String
  | .float => "SFLOAT" | .int => "SINT" | .uint => "UINT"

def name : VertexFormat → String
  | packed e w => channels w ++ "32_" ++ suffix e
  | double => "R64_SFLOAT"

def runtimeValue : VertexFormat → Nat
  | packed .float w => w.val
  | packed .int w => 4 + w.val
  | packed .uint w => 8 + w.val
  | double => 12

def single (elem : ElemKind) : VertexFormat := packed elem 0

/-- Format of a vector or a matrix column; widths out of range are brought into it. -/
def vector (elem : ElemKind) (width : Nat) : VertexFormat :=
  packed elem ⟨min (width - 1) 3, by omega⟩

def size : VertexFormat → Nat
  | packed _ w => 4 * (w.val + 1)
  | double => 8

end VertexFormat

structure AttributeRecord where
  param : Nat
  name : String
  fields : List FieldDecl
  rate : InputRate
  binding : Nat
  deriving DecidableEq, Repr

structure TextureRecord where
  param : Nat
  name : String
  ty : Ty
  shape : TypeClass
  index : Nat
  stages : StageSet
  deriving DecidableEq, Repr

def TextureRecord.elem (t : TextureRecord) : ElemKind :=
  match t.shape with
  | .texture e _ => e
  | _ => .float

structure ColorTarget where
  param : Nat
  name : String
  ty : Ty
  index : Nat
  deriving DecidableEq, Repr

structure SamplerConfig where
  filter : Nat
  wrap : Nat
  deriving DecidableEq, Repr

inductive SamplerFault where
  | notConstant
  | malformed
  deriving DecidableEq, Repr

def SamplerConfig.word? : ConstValue → Option Nat
  | .int i => if 0 ≤ i ∧ i < Nat.pow 2 32 then some i.toNat else none
  | _ => none

/-- A sampler argument is a folded pair of 32-bit words. -/
def SamplerConfig.ofExpr : Expr → Except SamplerFault SamplerConfig
  | .constant _ (.aggregate [f, w]) =>
    match word? f, word? w with
    | some filter, some wrap => .ok ⟨filter, wrap⟩
    | _, _ => .error .malformed
  | .constant .. => .error .malformed
  | _ => .error .notConstant

structure SamplerRecord where
  config : SamplerConfig
  stages : StageSet
  deriving DecidableEq, Repr

structure SampleCall where
  expr : NodeId
  texture : Nat
  sampler : Nat
  stage : Stage
  deriving DecidableEq, Repr

end ShaderSplit
