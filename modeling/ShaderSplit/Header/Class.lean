import ShaderSplit.Header.Blob

namespace ShaderSplit

structure ShaderData where
  target : Target
  objects : List ContentHash
  bindings : List VertexBinding
  attributes : List VertexAttribute

structure PipelineClass where
  program : Program
  tables : List ShaderData

namespace PipelineClass

def table (p : Program) (o : TargetOutput) : ShaderData :=
  ⟨o.target, o.binaries.filterMap StageBinary.hash, p.vertexBindings, p.vertexAttributes⟩

def of (p : Program) (outputs : List TargetOutput) : PipelineClass := ⟨p, outputs.map (table p)⟩

def sizes (p : Program) : String :=
  s!"{p.devices.length}, {p.vertexBindings.length}, {p.vertexAttributes.length}"

def captured (p : Program) : List Param := p.captures.filterMap (p.params[·]?)

variable (c : Catalog) (d : DeclIndex)

/-- Values are captured by value, other types by reference. -/
def captureParam (p : Param) : String :=
  let ty := d.typeName p.ty
  if c.isValueType p.ty then s!"{ty} {p.name}" else s!"const {ty}& {p.name}"

def recordLines (r : InterfaceRecord) : List String :=
  [s!"  struct {r.name} \x7b"] ++
    (r.fields.map fun f => s!"    {d.typeName f.ty} {f.name};") ++ ["  \x7d;"]

def uniformRecords (p : Program) : List InterfaceRecord :=
  (Stage.all.filterMap p.uniform?).filter (!·.isEmpty)

def definition (p : Program) : List String :=
  let name := p.name
  let base := c.runtimeName "_HshBase"
  let node := c.runtimeName "_HshGlobalListNode"
  let target := c.runtimeName "Target"
  let data := c.runtimeName "_HshShaderData"
  let params := (captured p).map (captureParam c d)
  [s!"class {name} : public {base}<{name}> \x7b", "public:"]
    ++ (uniformRecords p).flatMap (recordLines d)
    ++ [s!"  static {node} global;", s!"  explicit {name}({Writer.commas params}) \x7b"]
    ++ p.hostBody c "    "
    ++ ["  \x7d", s!"  template <{target} T>",
      s!"  static const {data}<T, {sizes p}> data;", "\x7d;",
      s!"{node} {name}::global\x7b&{name}::global_build\x7d;", ""]

def bindingLine (b : VertexBinding) : String :=
  s!"  hsh::_HshVertexBinding\x7b{b.binding}, {b.stride}, {c.rateEnumerator b.rate}\x7d,"

def attributeLine (a : VertexAttribute) : String :=
  s!"  hsh::_HshVertexAttribute\x7b{a.binding}, {c.formatEnumerator a.format}, {a.offset}\x7d,"

def tableLines (p : Program) (t : ShaderData) : List String :=
  let target := c.targetEnumerator t.target
  let data := c.runtimeName "_HshShaderData"
  [s!"template <> const {data}<{target}, {sizes p}> {p.name}::data<{target}>\x7b"]
    ++ (t.objects.map fun h => s!"  _hsho_{h.short},")
    ++ t.bindings.map (bindingLine c) ++ t.attributes.map (attributeLine c) ++ ["\x7d;"]

def lines (k : PipelineClass) : List String :=
  let p := k.program
  definition c d p ++ k.tables.flatMap (tableLines c p)
    ++ [s!"#define {p.name} ::{p.name}({Writer.commas ((captured p).map (·.name))}); (void)", ""]

end PipelineClass
end ShaderSplit
