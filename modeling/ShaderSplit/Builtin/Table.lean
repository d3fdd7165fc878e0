import ShaderSplit.Target

namespace ShaderSplit

structure Spellings where
  glsl : String
  hlsl : String
  metal : String
  deriving DecidableEq, Repr

def Spellings.get (s : Spellings) : Language → String
  | .glsl => s.glsl | .hlsl => s.hlsl | .metal => s.metal

inductive ElemKind where
  | float | int | uint
  deriving DecidableEq, Repr

def ElemKind.name : ElemKind → String
  | float => "float" | int => "int" | uint => "uint"

inductive TypeClass where
  | vector (elem : ElemKind) (width : Nat)
  | matrix (dim : Nat)
  | texture (elem : ElemKind) (array : Bool)
  deriving DecidableEq, Repr

/-- A vector or matrix record, or the texture template `name` at one element type. -/
structure BuiltinType where
  name : String
  shape : TypeClass
  spellings : Spellings
  deriving DecidableEq, Repr

structure BuiltinFunction where
  name : String
  /-- Applying it and interpolating may be exchanged. -/
  distributed : Bool
  spellings : Spellings
  deriving DecidableEq, Repr

structure BuiltinMethod where
  record : String
  name : String
  params : List String
  isSwizzle : Bool
  spellings : Spellings
  deriving DecidableEq, Repr

inductive RuntimeKind where
  | record
  | classTemplate
  | enum
  | method (record : String)
  deriving DecidableEq, Repr

structure RuntimeRow where
  name : String
  kind : RuntimeKind
  deriving DecidableEq, Repr

namespace BuiltinType

def isVector (t : BuiltinType) : Bool :=
  match t.shape with
  | .vector .. => true
  | _ => false

def isMatrix (t : BuiltinType) : Bool :=
  match t.shape with
  | .matrix _ => true
  | _ => false

def isTexture (t : BuiltinType) : Bool :=
  match t.shape with
  | .texture .. => true
  | _ => false

/-- Rows of a matrix; each is a vertex attribute of its own. -/
def matrixRows (t : BuiltinType) : Option Nat :=
  match t.shape with
  | .matrix dim => some dim
  | _ => none

def vector (glsl : String) (elem : ElemKind) (width : Nat) : BuiltinType :=
  let name := elem.name ++ toString width
  ⟨name, .vector elem width, ⟨glsl ++ toString width, name, name⟩⟩

def matrix (dim : Nat) : BuiltinType :=
  let name := s!"float{dim}x{dim}"
  ⟨name, .matrix dim, ⟨"mat" ++ toString dim, name, name⟩⟩

def texture (glsl : String) (elem : ElemKind) : BuiltinType :=
  ⟨"texture2d", .texture elem false,
    ⟨glsl ++ "2D", "Texture2D<" ++ elem.name ++ "4>", "texture2d<" ++ elem.name ++ ">"⟩⟩

def textureArray (glsl : String) (elem : ElemKind) : BuiltinType :=
  ⟨"texture2d_array", .texture elem true,
    ⟨glsl ++ "2DArray", "Texture2DArray<" ++ elem.name ++ "4>",
      "texture2d_array<" ++ elem.name ++ ">"⟩⟩

def rows : List BuiltinType :=
  [vector "vec" .float 2, vector "vec" .float 3, vector "vec" .float 4,
    vector "ivec" .int 2, vector "ivec" .int 3, vector "ivec" .int 4,
    vector "uvec" .uint 2, vector "uvec" .uint 3, vector "uvec" .uint 4,
    matrix 3, matrix 4,
    texture "sampler" .float, texture "isampler" .int, texture "usampler" .uint,
    textureArray "sampler" .float, textureArray "isampler" .int, textureArray "usampler" .uint]

def named (name : String) : Option BuiltinType := rows.find? fun t => t.name == name && !t.isTexture

def textureOf (template : String) (elem : ElemKind) : Option BuiltinType :=
  rows.find? fun t => t.name == template &&
    (t.shape == .texture elem true || t.shape == .texture elem false)

end BuiltinType

namespace BuiltinFunction

def plain (name : String) (distributed : Bool) : BuiltinFunction :=
  ⟨name, distributed, ⟨name, name, name⟩⟩

def rows : List BuiltinFunction :=
  ["dot", "cross", "normalize", "length", "distance", "reflect", "pow", "sqrt"].map (plain · false)
    ++ ["abs", "min", "max", "clamp"].map (plain · true)
    ++ [⟨"mix", true, ⟨"mix", "lerp", "mix"⟩⟩, plain "floor" true, plain "ceil" true,
      ⟨"fract", true, ⟨"fract", "frac", "fract"⟩⟩]

end BuiltinFunction

namespace BuiltinMethod

def isSample (m : BuiltinMethod) : Bool := !m.isSwizzle && m.name == "sample"

def sampleOf (record coordinate : String) : BuiltinMethod :=
  ⟨record, "sample", [coordinate, "sampler"], false, ⟨"texture", "Sample", "sample"⟩⟩

def swizzle (record name : String) : BuiltinMethod := ⟨record, name, [], true, ⟨name, name, name⟩⟩

def rows : List BuiltinMethod :=
  [sampleOf "texture2d" "float2", sampleOf "texture2d_array" "float3"]
    ++ ["xy", "xyz", "zw", "x", "y", "z", "w"].map (swizzle "float4")
    ++ ["xy", "x", "y", "z"].map (swizzle "float3")
    ++ ["x", "y"].map (swizzle "float2")

end BuiltinMethod

def RuntimeRow.rows : List RuntimeRow :=
  [⟨"_HshBase", .classTemplate⟩, ⟨"push_uniform", .method "_HshBase"⟩, ⟨"Target", .enum⟩,
    ⟨"Stage", .enum⟩, ⟨"_HshInputRate", .enum⟩, ⟨"_HshFormat", .enum⟩,
    ⟨"_HshShaderData", .classTemplate⟩, ⟨"_HshGlobalListNode", .record⟩]

end ShaderSplit
