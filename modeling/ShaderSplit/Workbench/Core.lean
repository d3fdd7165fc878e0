import ShaderSplit.Builtin.Catalog
import ShaderSplit.Syntax.Unit

namespace ShaderSplit

/-- Counters hold the identity given last; tables have the latest entry first. -/
structure Workbench where
  lastNode : NodeId
  lastDecl : DeclId
  lastLocal : LocalId
  declarations : List Declaration
  types : List (String × DeclId)
  functions : List (String × DeclId)
  methods : List ((String × String) × DeclId)

abbrev Building := StateM Workbench

namespace Workbench

def empty : Workbench := ⟨0, 0, 0, [], [], [], []⟩

def freshDecl : Building DeclId :=
  modifyGet fun w => (w.lastDecl + 1, { w with lastDecl := w.lastDecl + 1 })

def freshNode : Building NodeId :=
  modifyGet fun w => (w.lastNode + 1, { w with lastNode := w.lastNode + 1 })

def freshLocal : Building LocalId :=
  modifyGet fun w => (w.lastLocal + 1, { w with lastLocal := w.lastLocal + 1 })

def declareKind (scope : List String) (kind : DeclKind) : Building DeclId := do
  let id ← freshDecl
  modify fun w => { w with declarations := w.declarations ++ [⟨id, scope, kind, .dummy⟩] }
  return id

def nameType (spelling : String) (id : DeclId) : Building Unit :=
  modify fun w => { w with types := (spelling, id) :: w.types }

def record (name : String) (fields : List (String × Ty)) : Building Ty := do
  let id ← declareKind [] (.record name (fields.map fun (f, t) => ⟨f, t, .dummy⟩))
  nameType name id
  return .decl id

/-- The type of a spelling; an unknown one becomes an empty record. -/
def ty (name : String) : Building Ty := do
  match (← get).types.lookup name with
  | some id => return .decl id
  | none => record name []

def splitTemplate (name : String) : Option (String × String) :=
  let cs := name.toList
  match cs.dropWhile (· ≠ '<') with
  | [] => none
  | _ :: arg =>
    some (String.ofList (cs.takeWhile (· ≠ '<')),
      String.ofList ((arg.reverse.dropWhile (· = '>')).reverse))

def builtin (w : Workbench) : Ty → Option BuiltinType
  | .decl id => do
    let (name, _) ← w.types.find? (·.2 == id)
    match splitTemplate name with
    | some (template, arg) =>
      BuiltinType.textureOf template
        (if arg = "int" then .int else if arg = "uint" then .uint else .float)
    | none => BuiltinType.named name
  | _ => none

def vectorOf (elem : ElemKind) (width : Nat) : Building Ty :=
  if width = 1 then
    return match elem with
      | .float => .float
      | .int => .int
      | .uint => .uint
  else ty (elem.name ++ toString width)

def function (name : String) : Building DeclId := do
  match (← get).functions.lookup name with
  | some id => return id
  | none =>
    let id ← declareKind [] (.function name)
    modify fun w => { w with functions := (name, id) :: w.functions }
    return id

def method (owner name : String) : Building DeclId := do
  match (← get).methods.lookup (owner, name) with
  | some id => return id
  | none =>
    let id ← declareKind [] (.method owner name [])
    modify fun w => { w with methods := ((owner, name), id) :: w.methods }
    return id

def unit (w : Workbench) (fileName : String) (pipelines : List PipelineFn) : TranslationUnit :=
  ⟨fileName, none, [], w.declarations, pipelines⟩

end Workbench
end ShaderSplit
