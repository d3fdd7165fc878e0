import ShaderSplit.Interface.Resource
import ShaderSplit.Workbench.Core

namespace ShaderSplit.Workbench

def declareTexture (name : String) : Building Unit := do
  if ((← get).types.lookup (name ++ "<float>")).isSome then return
  let args : List (ScalarType × String) := [(.float, "float"), (.int 32, "int"), (.uint 32, "uint")]
  let specs ← args.mapM fun (arg, spelled) => do
    let id ← freshDecl
    nameType (name ++ "<" ++ spelled ++ ">") id
    return (⟨arg, id⟩ : Specialization)
  let _ ← declareKind [runtimeNamespace] (.classTemplate name specs)

def declareType (t : BuiltinType) : Building Unit := do
  if t.isTexture then declareTexture t.name
  else nameType t.name (← declareKind [runtimeNamespace] (.record t.name []))

def declareSampler : Building Unit := do
  let fields : List FieldDecl := [⟨"filter", .int, .dummy⟩, ⟨"wrap", .int, .dummy⟩]
  nameType "sampler" (← declareKind [runtimeNamespace] (.record "sampler" fields))

def declareFunction (f : BuiltinFunction) : Building Unit := do
  let id ← declareKind [runtimeNamespace] (.function f.name)
  modify fun w => { w with functions := (f.name, id) :: w.functions }

def declareMethod (m : BuiltinMethod) : Building Unit := do
  let id ← declareKind [runtimeNamespace] (.method m.record m.name m.params)
  modify fun w => { w with methods := ((m.record, m.name), id) :: w.methods }

def enumeration (name : String) : Bool × List String :=
  if name = "Target" then (true, Target.all.map Target.runtimeName)
  else if name = "Stage" then (true, Stage.device.map Stage.title)
  else if name = "_HshInputRate" then (false, InputRate.all.map InputRate.name)
  else (false, VertexFormat.all.map VertexFormat.name)

def runtimeKind (row : RuntimeRow) : DeclKind :=
  match row.kind with
  | .record => .record row.name []
  | .classTemplate => .classTemplate row.name []
  | .method owner => .method owner row.name []
  | .enum =>
    let (isScoped, names) := enumeration row.name
    .enum row.name isScoped (names.zipIdx.map fun (n, i) => ⟨n, i⟩)

def declareRuntime : Building Unit := do
  BuiltinType.rows.forM declareType
  declareSampler
  BuiltinFunction.rows.forM declareFunction
  BuiltinMethod.rows.forM declareMethod
  RuntimeRow.rows.forM fun row => do
    let _ ← declareKind [runtimeNamespace] (runtimeKind row)

def withRuntime : Workbench := (declareRuntime.run empty).2

end ShaderSplit.Workbench
