import ShaderSplit.Builtin.Catalog
import ShaderSplit.Syntax.Unit

namespace ShaderSplit

/-- Vertex and instance buffers share one table; textures have one for each stage. -/
inductive SlotTable where
  | buffer
  | texture (stage : Stage)
  | colorTarget
  deriving DecidableEq, Repr

namespace SlotTable

def limit : SlotTable → Nat
  | buffer | texture _ => 32
  | colorTarget => 8

def outOfRange (t : SlotTable) : String :=
  let noun := match t with
    | buffer => "vertex buffer" | texture _ => "texture" | colorTarget => "color target"
  s!"{noun} index must be in range [0,{t.limit})"

def repeated : SlotTable → String
  | buffer => "vertex buffer index must be unique"
  | texture _ => "texture index must be unique per stage"
  | colorTarget => "color target index must be unique"

def previousLabel : SlotTable → String
  | buffer => "previous buffer index here"
  | texture _ => "previous texture index here"
  | colorTarget => "previous color target index here"

end SlotTable

structure Slot where
  table : SlotTable
  index : Int
  deriving DecidableEq, Repr

def Slot.inRange (s : Slot) : Bool := 0 ≤ s.index && s.index < s.table.limit

def Role.slot : Role → Option Slot
  | vertexBuffer i | instanceBuffer i => some ⟨.buffer, i⟩
  | vertexTexture i => some ⟨.texture .vertex, i⟩
  | fragmentTexture i => some ⟨.texture .fragment, i⟩
  | colorTarget i => some ⟨.colorTarget, i⟩
  | captured | varyingInput _ | varyingOutput _ | position => none

inductive ParamFault where
  | notRecord
  | field (name : String) (span : Span) (fault : Catalog.FieldFault)
  | notTexture
  | positionType
  | targetType
  | outOfRange (table : SlotTable)
  | repeated (table : SlotTable) (previous : Span)
  deriving DecidableEq, Repr

def ParamFault.diagnostic (p : Param) : ParamFault → Diagnostic
  | notRecord => .error "vertex buffer must be a struct or class" p.span (some .resourceBinding)
  | field name span fault =>
    (Diagnostic.error fault.message (if span.isDummy then p.span else span) (some .type)).withNote
      s!"in field `{name}` of vertex buffer `{p.name}`"
  | notTexture => .error "texture must be a texture* type" p.span (some .resourceBinding)
  | positionType => .error "vertex position must be a float4" p.span (some .resourceBinding)
  | targetType => .error "fragment color target must be a float4" p.span (some .resourceBinding)
  | outOfRange t => .error t.outOfRange p.span (some .resourceBinding)
  | repeated t previous =>
    (Diagnostic.error t.repeated p.span (some .resourceBinding)).withLabel previous t.previousLabel

namespace Param

variable (c : Catalog) (d : DeclIndex)

def isFloat4 (p : Param) : Bool := c.type? p.ty == BuiltinType.named "float4"

def texture? (p : Param) : Option BuiltinType := (c.type? p.ty).filter BuiltinType.isTexture

/-- The slot that a parameter takes from those after it: one in range, under a type that
can be bound. -/
def taken (p : Param) : Option Slot := do
  let s ← p.role.slot
  let fits := match s.table with
    | .buffer => d.isRecord p.ty
    | .texture _ => (p.texture? c).isSome
    | .colorTarget => true
  if fits && s.inRange then some s else none

def slotFaults (earlier : List Param) (s : Slot) : List ParamFault :=
  if s.inRange then
    match earlier.find? fun q => q.taken c d == some s with
    | some q => [.repeated s.table q.span]
    | none => []
  else [.outOfRange s.table]

def fieldFaults (fields : List FieldDecl) : List ParamFault :=
  fields.filterMap fun f => (c.fieldFault f.ty).map (.field f.name f.span)

def faults (earlier : List Param) (p : Param) : List ParamFault :=
  match p.role with
  | .vertexBuffer i | .instanceBuffer i =>
    match d.recordFields? p.ty with
    | some fields => fieldFaults c fields ++ slotFaults c d earlier ⟨.buffer, i⟩
    | none => [.notRecord]
  | .vertexTexture i =>
    if (p.texture? c).isSome then slotFaults c d earlier ⟨.texture .vertex, i⟩ else [.notTexture]
  | .fragmentTexture i =>
    if (p.texture? c).isSome then slotFaults c d earlier ⟨.texture .fragment, i⟩ else [.notTexture]
  | .position => if p.isFloat4 c then [] else [.positionType]
  | .colorTarget i =>
    (if p.isFloat4 c then [] else [.targetType]) ++ slotFaults c d earlier ⟨.colorTarget, i⟩
  | .captured | .varyingInput _ | .varyingOutput _ => []

def diagnostics (earlier : List Param) : List Param → List Diagnostic
  | [] => []
  | p :: ps => (p.faults c d earlier).map (·.diagnostic p) ++ diagnostics (earlier ++ [p]) ps

end Param
end ShaderSplit
