import ShaderSplit.Diagnostic
import ShaderSplit.Syntax.Type

namespace ShaderSplit

structure FieldDecl where
  name : String
  ty : Ty
  span : Span
  deriving DecidableEq, Repr

structure Specialization where
  arg : ScalarType
  decl : DeclId
  deriving DecidableEq, Repr

structure Enumerator where
  name : String
  value : Int
  deriving DecidableEq, Repr

inductive DeclKind where
  | record (name : String) (fields : List FieldDecl)
  | classTemplate (name : String) (specializations : List Specialization)
  | enum (name : String) (isScoped : Bool) (enumerators : List Enumerator)
  | function (name : String)
  | method (record name : String) (params : List String)
  deriving DecidableEq, Repr

structure Declaration where
  id : DeclId
  scope : List String
  kind : DeclKind
  span : Span
  deriving DecidableEq, Repr

namespace Declaration

def name (d : Declaration) : String :=
  match d.kind with
  | .record n _ | .classTemplate n _ | .enum n .. | .function n | .method _ n _ => n

def qualifiedName (d : Declaration) : String := "::".intercalate (d.scope ++ [d.name])

def specializations (d : Declaration) : List Specialization :=
  match d.kind with
  | .classTemplate _ specs => specs
  | _ => []

end Declaration

/-- All declarations of a unit; of several with one identity the last counts. -/
structure DeclIndex where
  declarations : List Declaration

namespace DeclIndex

def get? (d : DeclIndex) (id : DeclId) : Option Declaration :=
  (d.declarations.filter (·.id == id)).getLast?

def template? (d : DeclIndex) (id : DeclId) : Option (Declaration × ScalarType) :=
  (d.declarations.flatMap fun t =>
    (t.specializations.filter (·.decl == id)).map fun s => (t, s.arg)).getLast?

def recordFields? (d : DeclIndex) : Ty → Option (List FieldDecl)
  | .decl id => do
    match (← d.get? id).kind with
    | .record _ fields => some fields
    | _ => none
  | _ => none

def isRecord (d : DeclIndex) (t : Ty) : Bool := (d.recordFields? t).isSome

def typeName (d : DeclIndex) : Ty → String
  | .void => "void"
  | .scalar s => s.hostName
  | .decl id =>
    match d.get? id, d.template? id with
    | some decl, _ => decl.qualifiedName
    | none, some (t, arg) => t.qualifiedName ++ "<" ++ arg.hostName ++ ">"
    | none, none => "__decl" ++ toString id

end DeclIndex
end ShaderSplit
