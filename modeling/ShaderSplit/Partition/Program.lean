import ShaderSplit.Interface.VertexLayout
import ShaderSplit.Partition.Trace

namespace ShaderSplit

structure Program where
  name : String
  params : List Param
  stages : StageSet
  uniforms : PerStage (Option InterfaceRecord)
  varyings : PerStage (Option InterfaceRecord)
  blocks : PerStage (List StageStmt)
  captures : List Nat
  attributes : List AttributeRecord
  textures : List TextureRecord
  samplers : List SamplerRecord
  colorTargets : List ColorTarget
  sampleCalls : List SampleCall
  vertexBindings : List VertexBinding
  vertexAttributes : List VertexAttribute

namespace Program

def devices (p : Program) : List Stage := p.stages.devices

def uniform? (p : Program) (s : Stage) : Option InterfaceRecord := p.uniforms.get s

def input? (p : Program) (s : Stage) : Option InterfaceRecord := p.varyings.get s

def output? (p : Program) (s : Stage) : Option InterfaceRecord :=
  (p.stages.nextActive s).bind p.varyings.get

def sampleCall? (p : Program) (id : NodeId) : Option SampleCall :=
  p.sampleCalls.find? (·.expr == id)

def texturesOf (p : Program) (s : Stage) : List (TextureRecord × Nat) :=
  p.textures.zipIdx.filter fun (t, _) => t.stages.contains s

def samplersOf (p : Program) (s : Stage) : List (SamplerRecord × Nat) :=
  p.samplers.zipIdx.filter fun (t, _) => t.stages.contains s

def attribute? (p : Program) (param : Nat) : Option AttributeRecord :=
  p.attributes.find? (·.param == param)

end Program

/-- The host declares a binding for each stage first, and pushes the uniforms last. -/
def Draft.block (d : Draft) (stages : StageSet) : Stage → List StageStmt
  | .host =>
    stages.devices.map .bindingDecl ++ (d.queue .host).statements ++ stages.devices.map .pushUniform
  | s => (d.queue s).statements

def Draft.finish (d : Draft) (p : Pipeline) : Program where
  name := p.fn.name
  params := p.fn.params
  stages := p.stages
  uniforms := freezeAll d.uniforms
  varyings := freezeAll d.varyings
  blocks := Stage.all.foldl (fun b s => b.set s (d.block p.stages s)) (.const [])
  captures := d.captures
  attributes := p.signature.attributes
  textures := d.textures
  samplers := d.samplers
  colorTargets := p.signature.colorTargets
  sampleCalls := d.sampleCalls
  vertexBindings := p.signature.attributes.map (VertexLayout.binding p.catalog)
  vertexAttributes := p.signature.attributes.flatMap (VertexLayout.attributes p.catalog)
where
  freezeAll (r : PerStage (Option InterfaceRecord)) : PerStage (Option InterfaceRecord) :=
    Stage.all.foldl (fun r s => r.set s ((r.get s).map InterfaceRecord.freeze)) r

def Pipeline.split (p : Pipeline) : Except TraceError Program × List String :=
  match p.traceOutputs (.start p) with
  | .ok _ d => (.ok (d.finish p), d.notices)
  | .error e d => (.error e, d.notices)

end ShaderSplit
