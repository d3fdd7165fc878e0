import ShaderSplit.Shading.Text

namespace ShaderSplit.Metal

variable (w : Writer)

def hasVertexData : Bool := w.stage = .vertex && !w.program.attributes.isEmpty

/-- A matrix takes one attribute for each column. -/
def columns (a : AttributeRecord) (f : FieldDecl) (loc : Nat) : List String :=
  match w.catalog.column f.ty with
  | some (column, dim) =>
    (List.range dim).map fun k =>
      s!"    {column} {a.fieldName f.name}_{k} [[attribute({loc + k})]];"
  | none => [s!"    {w.typeName f.ty} {a.fieldName f.name} [[attribute({loc})]];"]

def vertexData : List String :=
  if hasVertexData w then
    let members :=
      (w.program.attributeLocations w.catalog).flatMap fun (a, f, loc) => columns w a f loc
    ["struct host_vert_data \x7b"] ++ members ++ ["\x7d;"]
  else []

def varyingStruct (name : String) (fields : List InterfaceField) : List String :=
  let members := fields.map fun f =>
    let flat := if w.catalog.isInteger f.ty then " [[flat]]" else ""
    s!"    {w.typeName f.ty} {f.name}{flat};"
  [s!"struct {name} \x7b", "    float4 _position [[position]];"] ++ members ++ ["\x7d;"]

def inputs : List String :=
  match w.program.input? w.stage with
  | some r => varyingStruct w r.name r.fields
  | none => []

def uniforms : List String :=
  match w.filledUniform? w.stage with
  | some r => [s!"struct {r.name} \x7b"] ++ w.members r ++ ["\x7d;"]
  | none => []

def colorTargets : List String :=
  let members := w.program.colorTargets.map fun t =>
    s!"    {w.typeName t.ty} {t.name} [[color({t.index})]];"
  ["struct color_targets_out \x7b"] ++ members ++ ["\x7d;"]

def returns : String × String :=
  if w.stage = .fragment then ("color_targets_out", "_targets_out")
  else w.program.outputNames w.stage

def outputs : List String :=
  if w.stage = .fragment then colorTargets w
  else varyingStruct w (returns w).1 (((w.program.output? w.stage).map (·.fields)).getD [])

def arguments : List String :=
  (if hasVertexData w then ["host_vert_data _vert_data [[stage_in]]"] else [])
    ++ ((w.program.input? w.stage).map fun r => s!"{r.name} {r.consumerVar} [[stage_in]]").toList
    ++ ((w.filledUniform? w.stage).map fun r =>
      s!"constant {r.name}& {r.consumerVar} [[buffer({w.program.uniformBinding w.stage})]]").toList
    ++ ((w.program.texturesOf w.stage).map
      fun (t, i) => s!"{w.typeName t.ty} {t.name} [[texture({i})]]")
    ++ (w.program.samplersOf w.stage).map fun (_, i) => s!"sampler _sampler{i} [[sampler({i})]]"

def entry : List String :=
  let (type, var) := returns w
  let qualifier := if w.stage = .vertex then "vertex" else "fragment"
  [s!"{qualifier} {type} main0({Writer.commas (arguments w)}) \x7b", s!"    {type} {var};"]
    ++ w.varyingLocals "    " ++ w.body "    " ++ [s!"    return {var};", "\x7d"]

def source (program : Program) (catalog : Catalog) (stage : Stage) : String :=
  let w : Writer := ⟨program, catalog, stage, .metal⟩
  "\n".intercalate <|
    ["#include <metal_stdlib>", "using namespace metal;"] ++ vertexData w ++ inputs w ++ uniforms w
      ++ outputs w ++ entry w ++ [""]

end ShaderSplit.Metal
