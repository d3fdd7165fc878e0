import ShaderSplit.Partition.Lift
import ShaderSplit.Partition.Sampler

namespace ShaderSplit

/-- A rebuilt expression and where it is computed. -/
structure Traced where
  expr : Expr
  stage : Placement

/-- The function being traced and the stage whose output is wanted. -/
structure Aim where
  pipeline : Pipeline
  target : Stage

namespace Aim

variable (a : Aim)

/-- Computed by a device stage before the target, hence interpolated on the way. -/
def interpolated : Placement → Bool
  | some s => s ≠ .host && decide (s < a.target)
  | none => false

/-- Operations that do not commute with interpolation have to wait for the target. -/
def waits (op : BinaryOp) (lhs rhs : Placement) : Bool :=
  match op with
  | .add | .sub | .mul | .assign | .addAssign | .subAssign | .mulAssign => false
  | .div | .divAssign => a.interpolated rhs
  | _ => a.interpolated lhs != a.interpolated rhs

def callWaits (f : BuiltinFunction) (args : List Traced) : Bool :=
  match args with
  | [x, y] => a.interpolated x.stage != a.interpolated y.stage && !f.distributed
  | _ => false

def wait (waits : Bool) (p : Placement) : Placement := if waits then p.later (some a.target) else p

def checkValue (n : Node) : Drafting Unit :=
  if a.pipeline.catalog.isValueType n.ty then pure () else throw ⟨.valueType, n.span⟩

def captureFault (p : Param) : Option Catalog.FieldFault :=
  match a.pipeline.decls.recordFields? p.ty with
  | some fields => fields.findSome? fun f => a.pipeline.catalog.fieldFault f.ty
  | none => a.pipeline.catalog.fieldFault p.ty

def visitParam (inMember : Bool) (n : Node) (index : Nat) : Drafting Traced := do
  match a.pipeline.fn.params[index]? with
  | none => throw ⟨.unknownParam index, n.span⟩
  | some p =>
    unless inMember do a.checkValue n
    if p.role = .captured then
      match a.captureFault p with
      | some fault => throw ⟨.capturedType p.name fault, p.span⟩
      | none => modify (·.capture index)
    return ⟨.param n index, some p.role.stage⟩

def sampledStage (object : Expr) : Except TraceFault (Nat × Stage) :=
  match object with
  | .param _ index =>
    match a.pipeline.fn.params[index]?.map Param.role with
    | some (.vertexTexture _) => .ok (index, .vertex)
    | some (.fragmentTexture _) => .ok (index, .fragment)
    | _ => .error .sampledRole
  | _ => .error .sampledObject

def placement (ts : List Traced) : Placement := ts.foldl (fun p t => p.later t.stage) none

section
variable {m : Type → Type} [Monad m] [MonadStateOf Draft m] [MonadExceptOf TraceError m]

def visitLocal (sc : Scope) (lower : (s : Scope) → s.length < sc.length → Expr → m Traced)
    (n : Node) (v : LocalId) (name : String) : m Traced :=
  match h : sc.find (.localVar v) with
  | none => throw ⟨.unreached name, n.span⟩
  | some ⟨.declaration written, step⟩ => do
    let t ← lower (sc.before ⟨.declaration written, step⟩) (Scope.length_declared_lt h) written.init
    let stage := t.stage.getD a.target
    let decl : LocalDecl := ⟨v, name, written.ty, t.expr⟩
    modify fun d => (d.setRebuilt step stage decl).add stage (.decl decl) (some step)
    return ⟨.localVar n v name, some stage⟩
  | some ⟨.assignment e, step⟩ => do
    let t ← lower (sc.before ⟨.assignment e, step⟩) (Scope.length_assigned_lt h) e
    let stage := t.stage.getD a.target
    modify (·.add stage (.expr t.expr) (some step))
    return ⟨.localVar n v name, some stage⟩

variable [MonadLiftT Drafting m] [Guards m]

def promoteAll (sc : Scope) (wanted : Placement) : List Traced → m (List Expr)
  | [] => pure []
  | t :: ts => do
    let e ← Draft.promoteM a.pipeline.stages sc t.stage wanted t.expr
    return e :: (← promoteAll sc wanted ts)

mutual
/-- Traces within a scope; `lower` traces within a shorter one. Below a member access a record
may be named without being a value. -/
def visitIn (sc : Scope) (lower : (s : Scope) → s.length < sc.length → Expr → m Traced) :
    Bool → Expr → m Traced
  | _, .literal n v => pure ⟨.literal n v, none⟩
  | _, .constant n v => pure ⟨.constant n v, none⟩
  | inMember, .param n index => a.visitParam inMember n index
  | inMember, .localVar n v name => do
    unless inMember do a.checkValue n
    Guards.expect .uninitialized fun _ => !a.pipeline.lacksValue v
    visitLocal a sc lower n v name
  | _, .binary n op lhs rhs => do
    let l ← visitIn sc lower false lhs
    let r ← visitIn sc lower false rhs
    let stage := a.wait (a.waits op l.stage r.stage) (l.stage.later r.stage)
    let lhs ← Draft.promoteM a.pipeline.stages sc l.stage stage l.expr
    let rhs ← Draft.promoteM a.pipeline.stages sc r.stage stage r.expr
    return ⟨.binary n op lhs rhs, stage⟩
  | _, .unary n op e => do
    let t ← visitIn sc lower false e
    return ⟨.unary n op t.expr, t.stage⟩
  | _, .cast n e => do
    if (a.pipeline.catalog.type? n.ty).isNone && !n.ty.isScalar then throw ⟨.castType, n.span⟩
    let t ← visitIn sc lower false e
    return ⟨.cast n t.expr, t.stage⟩
  | _, .construct n args => do
    if (a.pipeline.catalog.type? n.ty).isNone then throw ⟨.constructType, n.span⟩
    let ts ← visitAllIn sc lower args
    return ⟨.construct n (← a.promoteAll sc (placement ts) ts), placement ts⟩
  | _, .initList n items => do
    let ts ← visitAllIn sc lower items
    return ⟨.initList n (← a.promoteAll sc (placement ts) ts), placement ts⟩
  | _, .call n func args => do
    match a.pipeline.catalog.function? func with
    | none => throw ⟨.unknownFunction, n.span⟩
    | some f =>
      let ts ← visitAllIn sc lower args
      let stage := a.wait (a.callWaits f ts) (placement ts)
      return ⟨.call n func (← a.promoteAll sc stage ts), stage⟩
  | _, .methodCall n method object args => do
    match a.pipeline.catalog.method? method with
    | none => throw ⟨.unknownMethod, n.span⟩
    | some m =>
      if m.isSample then
        match a.sampledStage object with
        | .error fault => throw ⟨fault, object.span⟩
        | .ok (texture, stage) =>
          match args with
          | [uv, sampler] =>
            -- the texture is bound and the sampler folded, so only the coordinate is traced
            let t ← visitIn sc lower false uv
            let uv ← Draft.promoteM a.pipeline.stages sc t.stage (some stage) t.expr
            let id ← Draft.fresh
            let _ ← Guards.bar .unbound TraceFault.isUnbound (Draft.sample stage id texture sampler)
            return ⟨.methodCall ⟨id, n.ty, n.span⟩ method object [uv, sampler], some stage⟩
          | _ => throw ⟨.sampleArity, n.span⟩
      else
        let t ← visitIn sc lower false object
        let ts ← visitAllIn sc lower args
        return ⟨.methodCall n method t.expr (ts.map (·.expr)), t.stage⟩
  | inMember, .member n base field => do
    unless inMember do a.checkValue n
    let t ← visitIn sc lower true base
    return ⟨.member n t.expr field, t.stage⟩
  | _, .interface n _ => throw ⟨.unsupported "InterfaceReference", n.span⟩
  | _, .unsupported n what => do
    Guards.expect .unsupported fun _ => false
    throw ⟨.unsupported what, n.span⟩
def visitAllIn (sc : Scope) (lower : (s : Scope) → s.length < sc.length → Expr → m Traced) :
    List Expr → m (List Traced)
  | [] => pure []
  | e :: es => do return (← visitIn sc lower false e) :: (← visitAllIn sc lower es)
end

def visitBelow : (n : Nat) → (sc : Scope) → sc.length < n → Expr → m Traced
  | 0, _, h => (Scope.not_length_lt_zero h).elim
  | n + 1, sc, h =>
    a.visitIn sc (fun s hs => visitBelow n s (Scope.length_lt_of_lt hs h)) false

/-- Traces an expression of statement `step` and puts it into the target's queue. -/
def traceM (e : Expr) (step : NodeId) : m Unit := do
  let sc := a.pipeline.scope.upTo step
  let t ← a.visitBelow (sc.length + 1) sc sc.length_lt e
  if let some s := t.stage then
    if a.target < s then throw ⟨.lateValue s a.target, t.expr.span⟩
  let e ← Guards.bar .late TraceFault.isStageOrder
    (Draft.promoteM a.pipeline.stages sc t.stage (some a.target) t.expr)
  modify (·.add a.target (.expr e) none)

end

def visit (sc : Scope) (e : Expr) : Drafting Traced :=
  a.visitBelow (sc.length + 1) sc sc.length_lt e

abbrev trace (e : Expr) (step : NodeId) : Drafting Unit := a.traceM e step

end Aim

namespace Pipeline

def outputs (p : Pipeline) (stage : Stage) : List (Param × Nat) :=
  p.fn.params.zipIdx.filter fun (q, _) => q.role.isOutput && q.role.stage == stage

section
variable {m : Type → Type} [Monad m] [MonadStateOf Draft m] [MonadExceptOf TraceError m]
  [MonadLiftT Drafting m] [Guards m]

/-- Traces the last write to an output; one that is never written is only remarked on. -/
def traceOutputM (p : Pipeline) (stage : Stage) (param : Param) (index : Nat) : m Unit :=
  match p.scope.find (.param index) with
  | none => modify (·.notice s!"{p.fn.name}: output `{param.name}` is never written")
  | some ⟨.assignment e, step⟩ => Aim.traceM ⟨p, stage⟩ e step
  | some ⟨.declaration _, _⟩ => pure ()

def traceOutputsM (p : Pipeline) : m Unit :=
  p.stages.devices.forM fun stage =>
    (p.outputs stage).forM fun (param, i) => p.traceOutputM stage param i

end

abbrev traceOutput (p : Pipeline) (stage : Stage) (param : Param) (index : Nat) : Drafting Unit :=
  p.traceOutputM stage param index

abbrev traceOutputs (p : Pipeline) : Drafting Unit := p.traceOutputsM

end Pipeline
end ShaderSplit
