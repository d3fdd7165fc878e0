import ShaderSplit.Stage

namespace ShaderSplit

inductive Language where
  | glsl | hlsl | metal
  deriving DecidableEq, Repr

def Language.name : Language → String
  | glsl => "glsl" | hlsl => "hlsl" | metal => "metal"

inductive Target where
  | glsl | hlsl | dxbc | dxil | vulkanSpirv | metal | metalBinMac | metalBinIos | metalBinTvos
  deriving DecidableEq, Repr

namespace Target

def all : List Target :=
  [glsl, hlsl, dxbc, dxil, vulkanSpirv, metal, metalBinMac, metalBinIos, metalBinTvos]

def name : Target → String
  | glsl => "glsl" | hlsl => "hlsl" | dxbc => "dxbc" | dxil => "dxil"
  | vulkanSpirv => "vulkan-spirv" | metal => "metal"
  | metalBinMac =>
    "metal-bin-mac" | metalBinIos => "metal-bin-ios" | metalBinTvos => "metal-bin-tvos"

instance : ToString Target := ⟨name⟩

def ofName? (s : String) : Option Target := all.find? (·.name == s)

def unknownName (s : String) : String := s!"unknown hsh target '{s}'"

def runtimeName : Target → String
  | glsl => "GLSL" | hlsl => "HLSL" | dxbc => "DXBC" | dxil => "DXIL"
  | vulkanSpirv => "VULKAN_SPIRV" | metal => "METAL"
  | metalBinMac =>
    "METAL_BIN_MAC" | metalBinIos => "METAL_BIN_IOS" | metalBinTvos => "METAL_BIN_TVOS"

/-- Position in the runtime's enumeration, which also orders targets. -/
def runtimeValue : Target → Nat
  | glsl => 0 | hlsl => 1 | dxbc => 2 | dxil => 3 | vulkanSpirv => 4
  | metal => 5 | metalBinMac => 6 | metalBinIos => 7 | metalBinTvos => 8

def language : Target → Language
  | glsl => .glsl
  | hlsl | dxbc | dxil | vulkanSpirv => .hlsl
  | metal | metalBinMac | metalBinIos | metalBinTvos => .metal

/-- The artifact is the text itself, not what a shader compiler makes of it. -/
def isText : Target → Bool
  | dxbc | dxil | vulkanSpirv => false
  | _ => true

def emitsSpirv (t : Target) : Bool := t == vulkanSpirv

def shaderModel : Target → Option String
  | dxbc => some "5_0"
  | dxil | vulkanSpirv => some "6_0"
  | _ => none

def profileStem : Stage → Option String
  | .host => none
  | .vertex => some "vs"
  | .control => some "hs"
  | .evaluation => some "ds"
  | .geometry => some "gs"
  | .fragment => some "ps"

def profile (t : Target) (s : Stage) : Option String := do
  let model ← t.shaderModel
  let stem ← profileStem s
  return stem ++ "_" ++ model

/-- Targets in order, each once. -/
def select (ts : List Target) : List Target := all.filter ts.contains

end Target
end ShaderSplit
