import ShaderSplit.Partition.Draft

namespace ShaderSplit.Draft

def endpoint (source dest : Stage) (side : Side) (field : Nat) (value : Expr) : Drafting Expr := do
  return .interface ⟨← fresh, value.ty, value.span⟩ ⟨source, dest, side, field⟩

/-- Assigns a value to its field, once the writes that it reads are done. -/
def produce (source dest : Stage) (field : Nat) (value : Expr) (reaching : List NodeId) :
    Drafting Unit := do
  let producer ← endpoint source dest .producer field value
  let assign := Expr.binary ⟨← fresh, value.ty, value.span⟩ .assign producer value
  modify (·.onQueue source (·.insertReached reaching (.expr assign)))

/-- Carries a value over one record; a new field is assigned by the source stage. -/
def carry (sc : Scope) (source dest : Stage) (value : Expr) : Drafting Expr := do
  let reaching := sc.reaching value
  match (← get).record? source dest with
  | none => throw ⟨.noInterface source dest, value.span⟩
  | some record =>
    let (field, created, record) := record.intern value reaching
    modify (·.setRecord source dest record)
    if created then produce source dest field value reaching
    endpoint source dest .consumer field value

def relay (sc : Scope) : Stage → Expr → List Stage → Drafting Expr
  | _, value, [] => pure value
  | source, value, dest :: rest => do relay sc dest (← carry sc source dest value) rest

/-- From the host in one hop, between device stages over each active stage in turn. -/
def transfer (stages : StageSet) (sc : Scope) (source dest : Stage) (value : Expr) :
    Drafting Expr :=
  if source = .host then carry sc .host dest value
  else
    let hops := stages.devices.filter fun s => source < s ∧ s ≤ dest
    if hops.getLast? = some dest then relay sc source value hops
    else throw ⟨.noInterface source dest, value.span⟩

end ShaderSplit.Draft
