import ShaderSplit.Shading.Text

namespace ShaderSplit.Glsl

variable (w : Writer)

def uniforms : List String :=
  match w.filledUniform? w.stage with
  | some r =>
    [s!"layout(binding = {w.program.uniformBinding w.stage}) uniform {r.name} \x7b"] ++
      w.members r ++ ["\x7d;"]
  | none => []

def attributes : List String :=
  if w.stage = .vertex then
    (w.program.attributeLocations w.catalog).map fun (a, f, loc) =>
      s!"layout(location = {loc}) in {w.typeName f.ty} {a.fieldName f.name};"
  else []

def inputs : List String :=
  match (w.program.input? w.stage).filter (!·.isEmpty) with
  | some r =>
    let members := r.fields.map fun f =>
      let flat := if w.catalog.isInteger f.ty then "flat " else ""
      s!"    {flat}{w.typeName f.ty} {f.name};"
    [s!"in {r.name} \x7b"] ++ members ++ [s!"\x7d {r.consumerVar};"]
  | none => []

def outputs : List String :=
  match (w.program.output? w.stage).filter (!·.isEmpty) with
  | some r => [s!"out {r.name} \x7b"] ++ w.members r ++ [s!"\x7d {r.producerVar};"]
  | none => []

def textures : List String :=
  (w.program.texturesOf w.stage).map fun (t, i) =>
    s!"layout(binding = {i}) uniform {w.typeName t.ty} {t.name};"

def colorTargets : List String :=
  if w.stage = .fragment then
    w.program.colorTargets.map fun t =>
      s!"layout(location = {t.index}) out {w.typeName t.ty} {t.name};"
  else []

def entry : List String :=
  ["void main() \x7b"] ++ w.varyingLocals "    " ++ w.body "    " ++ ["\x7d"]

def source (program : Program) (catalog : Catalog) (stage : Stage) : String :=
  let w : Writer := ⟨program, catalog, stage, .glsl⟩
  "\n".intercalate <|
    ["#version 450 core"] ++ uniforms w ++ attributes w ++ inputs w ++ outputs w ++ textures w
      ++ colorTargets w ++ entry w ++ [""]

end ShaderSplit.Glsl
