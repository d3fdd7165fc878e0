import ShaderSplit.Interface.Record
import ShaderSplit.Interface.Signature
import ShaderSplit.Partition.Fault
import ShaderSplit.Partition.Queue

namespace ShaderSplit

structure Pipeline where
  catalog : Catalog
  decls : DeclIndex
  fn : PipelineFn
  signature : Signature

namespace Pipeline

def stages (p : Pipeline) : StageSet := p.signature.stages

def check (c : Catalog) (d : DeclIndex) (f : PipelineFn) : Except (List Diagnostic) Pipeline :=
  (Signature.check c d f).map (⟨c, d, f, ·⟩)

def scope (p : Pipeline) : Scope := Stmt.stepsOf p.fn.body

/-- Some statement declares the local without a value. -/
def lacksValue (p : Pipeline) (v : LocalId) : Bool :=
  (Stmt.nestedOf p.fn.body).any fun
    | .decl _ _ w _ _ none => w == v
    | _ => false

end Pipeline

structure Rebuilt where
  step : NodeId
  stage : Stage
  decl : LocalDecl

structure Draft where
  /-- Record from the host to each active device stage. -/
  uniforms : PerStage (Option InterfaceRecord)
  /-- Record from the device stage before to each active device stage. -/
  varyings : PerStage (Option InterfaceRecord)
  queues : PerStage Queue
  /-- The latest comes first. -/
  rebuilt : List Rebuilt
  nextId : NodeId
  /-- Captured parameters that were read, increasing. -/
  captures : List Nat
  textures : List TextureRecord
  samplers : List SamplerRecord
  sampleCalls : List SampleCall
  notices : List String

/-- Steps that change a draft; a step that fails keeps what it has changed. -/
abbrev Drafting := EStateM TraceError Draft

/-- What tracing relies on. A run takes no notice of it, a guarded run stops where it fails. -/
class Guards (m : Type → Type) where
  /-- Has to hold of the draft. -/
  expect : Breach → (Draft → Bool) → m Unit
  /-- Has to fail with no such fault. -/
  bar {α : Type} : Breach → (TraceFault → Bool) → m α → m α

instance : Guards Drafting where
  expect _ _ := pure ()
  bar _ _ x := x

namespace Draft

def emptyUniforms (m : StageSet) : PerStage (Option InterfaceRecord) :=
  m.devices.foldl (fun r s => r.set s (some (.new .host s))) (.const none)

def emptyVaryings (m : StageSet) : PerStage (Option InterfaceRecord) :=
  m.devices.foldl (fun r s => r.set s ((m.previousActive s).map (.new · s))) (.const none)

/-- Fresh identities start above all of the body's. -/
def start (p : Pipeline) : Draft where
  uniforms := emptyUniforms p.stages
  varyings := emptyVaryings p.stages
  queues := .const []
  rebuilt := []
  nextId := Stmt.maxIds p.fn.body + 1
  captures := []
  textures := p.signature.textures
  samplers := []
  sampleCalls := []
  notices := []

def queue (d : Draft) (s : Stage) : Queue := d.queues.get s

def onQueue (d : Draft) (s : Stage) (f : Queue → Queue) : Draft :=
  { d with queues := d.queues.set s (f (d.queue s)) }

def add (d : Draft) (s : Stage) (stmt : StageStmt) (origin : Option NodeId) : Draft :=
  d.onQueue s (·.add stmt origin)

/-- Moves one use of a declaration to another stage. -/
def liftDeclaration (d : Draft) (decl : LocalDecl) (source dest : Stage)
    (origin : NodeId) : Draft :=
  (d.add dest (.decl decl) (some origin)).onQueue source (·.release origin)

def setRebuilt (d : Draft) (step : NodeId) (s : Stage) (decl : LocalDecl) : Draft :=
  { d with rebuilt := ⟨step, s, decl⟩ :: d.rebuilt }

def rebuilt? (d : Draft) (step : NodeId) (s : Stage) : Option LocalDecl :=
  (d.rebuilt.find? fun r => r.step == step && r.stage == s).map (·.decl)

def capture (d : Draft) (param : Nat) : Draft :=
  { d with captures := Scope.insertId param d.captures }

def notice (d : Draft) (message : String) : Draft := { d with notices := d.notices ++ [message] }

def record? (d : Draft) (source dest : Stage) : Option InterfaceRecord :=
  if source = .host then d.uniforms.get dest else d.varyings.get dest

def setRecord (d : Draft) (source dest : Stage) (r : InterfaceRecord) : Draft :=
  if source = .host then { d with uniforms := d.uniforms.set dest (some r) }
  else { d with varyings := d.varyings.set dest (some r) }

def fresh : Drafting NodeId :=
  modifyGet fun d => (d.nextId, { d with nextId := d.nextId + 1 })

end Draft
end ShaderSplit
