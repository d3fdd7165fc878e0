import ShaderSplit.Shading.Text

namespace ShaderSplit.Hlsl

/-- Cuts a 4x4 matrix down to 3x3. -/
def downcast : String :=
  "float3x3 float4x4_to_float3x3(float4x4 m) \x7b\n" ++
    "    return float3x3(m[0].xyz, m[1].xyz, m[2].xyz);\n\x7d"

variable (w : Writer)

def uniforms : List String :=
  match w.filledUniform? w.stage with
  | some r =>
    [s!"cbuffer {r.name} : register(b{w.program.uniformBinding w.stage}) \x7b"] ++
      w.members r ++ ["\x7d;"]
  | none => []

def hasVertexData : Bool := w.stage = .vertex && !w.program.attributes.isEmpty

def vertexData (vulkan : Bool) : List String :=
  if hasVertexData w then
    let members := (w.program.attributeLocations w.catalog).map fun (a, f, loc) =>
      let location := if vulkan then s!"[[vk::location({loc})]] " else ""
      s!"    {location}{w.typeName f.ty} {a.fieldName f.name} : ATTR{loc};"
    ["struct host_vert_data \x7b"] ++ members ++ ["\x7d;"]
  else []

def varyingStruct (name : String) (fields : List InterfaceField) : List String :=
  let members := fields.zipIdx.map fun (f, i) =>
    let flat := if w.catalog.isInteger f.ty then "nointerpolation " else ""
    s!"    {flat}{w.typeName f.ty} {f.name} : VAR{i};"
  [s!"struct {name} \x7b", "    float4 _position : SV_Position;"] ++ members ++ ["\x7d;"]

def inputs : List String :=
  match w.program.input? w.stage with
  | some r => varyingStruct w r.name r.fields
  | none => []

def colorTargets : List String :=
  let members := w.program.colorTargets.map fun t =>
    s!"    {w.typeName t.ty} {t.name} : SV_Target{t.index};"
  ["struct color_targets_out \x7b"] ++ members ++ ["\x7d;"]

def returns : String × String :=
  if w.stage = .fragment then ("color_targets_out", "_targets_out")
  else w.program.outputNames w.stage

def outputs : List String :=
  if w.stage = .fragment then colorTargets w
  else varyingStruct w (returns w).1 (((w.program.output? w.stage).map (·.fields)).getD [])

def resources : List String :=
  ((w.program.texturesOf w.stage).map
    fun (t, i) => s!"{w.typeName t.ty} {t.name} : register(t{i});")
    ++ (w.program.samplersOf w.stage).map fun (_, i) =>
      s!"SamplerState _sampler{i} : register(s{i});"

def arguments : List String :=
  (if hasVertexData w then ["in host_vert_data _vert_data"] else [])
    ++ ((w.program.input? w.stage).map fun r => s!"in {r.name} {r.consumerVar}").toList

def entry : List String :=
  let (type, var) := returns w
  [s!"{type} main({Writer.commas (arguments w)}) \x7b", s!"    {type} {var};"]
    ++ w.varyingLocals "    " ++ w.body "    " ++ [s!"    return {var};", "\x7d"]

def source (vulkan : Bool) (program : Program) (catalog : Catalog) (stage : Stage) : String :=
  let w : Writer := ⟨program, catalog, stage, .hlsl⟩
  "\n".intercalate <|
    [downcast] ++ uniforms w ++ vertexData w vulkan ++ inputs w ++ outputs w ++ resources w
      ++ entry w ++ [""]

end ShaderSplit.Hlsl
