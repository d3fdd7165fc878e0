import ShaderSplit.Syntax.Same

namespace ShaderSplit

/-- A field is known by the value it carries and by the writes reaching that value's locals. -/
structure InterfaceField where
  key : Expr
  reaching : List NodeId
  name : String

def InterfaceField.ty (f : InterfaceField) : Ty := f.key.ty

structure InterfaceRecord where
  source : Stage
  dest : Stage
  fields : List InterfaceField
  frozen : Bool

namespace InterfaceRecord

def new (source dest : Stage) : InterfaceRecord := ⟨source, dest, [], false⟩

def name (r : InterfaceRecord) : String := r.source.name ++ "_to_" ++ r.dest.name

def producerVar (r : InterfaceRecord) : String := "_to_" ++ r.dest.name

def consumerVar (r : InterfaceRecord) : String := "_from_" ++ r.source.name

def isEmpty (r : InterfaceRecord) : Bool := r.fields.isEmpty

def find? (r : InterfaceRecord) (e : Expr) (reaching : List NodeId) : Option Nat :=
  r.fields.findIdx? fun f => f.reaching == reaching && f.key.sameValue e

def push (r : InterfaceRecord) (e : Expr) (reaching : List NodeId) : InterfaceRecord :=
  { r with fields := r.fields ++ [⟨e, reaching, fieldName r.source r.dest r.fields.length⟩] }

/-- The position of the field carrying a value, and whether it is a new one. -/
def intern (r : InterfaceRecord) (e : Expr) (reaching : List NodeId) :
    Nat × Bool × InterfaceRecord :=
  match r.find? e reaching with
  | some i => (i, false, r)
  | none => (r.fields.length, true, r.push e reaching)

/-- As `intern`; a frozen record takes no new field. -/
def intern? (r : InterfaceRecord) (e : Expr) (reaching : List NodeId) :
    Option (Nat × Bool × InterfaceRecord) :=
  if r.frozen && (r.find? e reaching).isNone then none else some (r.intern e reaching)

def frozenMessage (r : InterfaceRecord) : String := r.name ++ " is already finalized"

def freeze (r : InterfaceRecord) : InterfaceRecord := { r with frozen := true }

end InterfaceRecord
end ShaderSplit
