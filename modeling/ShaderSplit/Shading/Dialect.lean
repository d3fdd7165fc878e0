import ShaderSplit.Decimal.Notation
import ShaderSplit.Partition.Program

namespace ShaderSplit

inductive Dialect where
  | glsl | hlsl | metal | host
  deriving DecidableEq, Repr

namespace Dialect

def ofLanguage : Language → Dialect
  | .glsl => glsl | .hlsl => hlsl | .metal => metal

/-- Builtins are qualified on the host. -/
def builtinType (d : Dialect) (t : BuiltinType) : String :=
  match d with
  | glsl => t.spellings.glsl | hlsl => t.spellings.hlsl | metal => t.spellings.metal
  | host => runtimeNamespace ++ "::" ++ t.name

def function (d : Dialect) (f : BuiltinFunction) : String :=
  match d with
  | glsl => f.spellings.glsl | hlsl => f.spellings.hlsl | metal => f.spellings.metal
  | host => runtimeNamespace ++ "::" ++ f.name

/-- Shading languages do not tell integer widths apart, and Metal has no double precision. -/
def scalar (d : Dialect) (s : ScalarType) : String :=
  match d, s with
  | host, s => s.hostName
  | metal, .double => "float"
  | _, .bool => "bool"
  | _, .int _ => "int"
  | _, .uint _ => "uint"
  | _, .float => "float"
  | _, .double => "double"

def literal (d : Dialect) : Literal → String
  | .int v => toString v
  | .uint v => toString v ++ "u"
  | .float v => v.text ++ (if d = host then "f" else "")
  | .bool v => toString v

end Dialect

mutual
def ConstValue.text : ConstValue → String
  | .int v => toString v
  | .float v => v.text
  | .bool v => toString v
  | .aggregate fields => "\x7b" ++ ", ".intercalate (ConstValue.texts fields) ++ "\x7d"
def ConstValue.texts : List ConstValue → List String
  | [] => []
  | v :: vs => v.text :: ConstValue.texts vs
end

def InterfaceRef.access (r : InterfaceRef) : String :=
  match r.side with
  | .producer => "_to_" ++ r.dest.name ++ "." ++ r.fieldName
  | .consumer => "_from_" ++ r.source.name ++ "." ++ r.fieldName

def AttributeRecord.fieldName (a : AttributeRecord) (field : String) : String :=
  a.name ++ "_" ++ field

/-- Host uniforms of GLSL and HLSL are read without a variable. -/
def Dialect.interface (d : Dialect) (r : InterfaceRef) : String :=
  if (d = .glsl || d = .hlsl) && r.source = .host && r.side = .consumer then r.fieldName
  else r.access

namespace Program

def outputNames (p : Program) (s : Stage) : String × String :=
  match p.output? s with
  | some r => (r.name, r.producerVar)
  | none => (s.name ++ "_out", "_out")

def paramName (p : Program) (d : Dialect) (s : Stage) (index : Nat) : String :=
  match p.params[index]? with
  | none => "__param" ++ toString index
  | some q =>
    match d, q.role with
    | .glsl, .position => "gl_Position"
    | .hlsl, .position | .metal, .position => (p.outputNames s).2 ++ "._position"
    | .hlsl, .colorTarget _ | .metal, .colorTarget _ => "_targets_out." ++ q.name
    | _, _ => q.name

/-- Position of a stage's host uniforms among the active stages. -/
def uniformBinding (p : Program) (s : Stage) : Nat := (p.devices.takeWhile (· ≠ s)).length

def attributeLocations (p : Program) (c : Catalog) : List (AttributeRecord × FieldDecl × Nat) :=
  VertexLayout.locations c 0 (p.attributes.flatMap fun a => a.fields.map (a, ·))

end Program

namespace Catalog

def spellType (c : Catalog) (d : Dialect) (t : Ty) : String :=
  match t with
  | .void => "void"
  | .scalar s => d.scalar s
  | .decl id =>
    match c.type? t with
    | some b => d.builtinType b
    | none => "__decl" ++ toString id

/-- Integers are not interpolated. -/
def isInteger (c : Catalog) (t : Ty) : Bool :=
  match t with
  | .scalar (.int _) | .scalar (.uint _) => true
  | _ =>
    match (c.type? t).map BuiltinType.shape with
    | some (.vector .int _) | some (.vector .uint _) => true
    | _ => false

def matrixRows (c : Catalog) (t : Ty) : Option Nat := (c.type? t).bind BuiltinType.matrixRows

def column (c : Catalog) (t : Ty) : Option (String × Nat) :=
  (c.matrixRows t).map fun dim => (if dim = 3 then "float3" else "float4", dim)

def isTextureArray (c : Catalog) (t : Ty) : Bool :=
  match (c.type? t).map BuiltinType.shape with
  | some (.texture _ array) => array
  | _ => false

def stageEnumerator (c : Catalog) (s : Stage) : String :=
  (s.runtimeValue.bind fun v => c.enumerator "Stage" v).getD
    (c.runtimeName "Stage" ++ "::" ++ s.title)

end Catalog
end ShaderSplit
