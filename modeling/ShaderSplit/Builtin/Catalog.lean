import ShaderSplit.Builtin.Table
import ShaderSplit.Syntax.Declaration

namespace ShaderSplit

def runtimeNamespace : String := "hsh"

structure Missing where
  sort : String
  name : String
  deriving DecidableEq, Repr

def Missing.diagnostic (m : Missing) : Diagnostic :=
  .error s!"unable to locate declaration of builtin {m.sort} {m.name}; is hsh.h included?" .dummy
    (some .catalog)

structure RuntimeEnum where
  qualifier : String
  enumerators : List Enumerator

/-- Builtins by identity, so that a user's type is never taken for a builtin of the same name. -/
structure Catalog where
  types : List (DeclId × BuiltinType)
  functions : List (DeclId × BuiltinFunction)
  methods : List (DeclId × BuiltinMethod)
  enums : List (String × RuntimeEnum)
  names : List (String × String)

def lookupLast {α β : Type} [BEq α] (key : α) (l : List (α × β)) : Option β :=
  (l.filter (·.1 == key)).getLast?.map (·.2)

namespace Catalog

def textureElem : ScalarType → Option ElemKind
  | .float => some .float
  | .int 32 => some .int
  | .uint 32 => some .uint
  | _ => none

/-- Identities that a type row stands for: the first record of its name, or the fitting
specializations of the first template of its name. -/
def typeIds (ds : List Declaration) (row : BuiltinType) : Option (List DeclId) :=
  match row.shape with
  | .texture elem _ => do
    let t ← ds.find? fun d =>
      match d.kind with
      | .classTemplate n _ => n == row.name
      | _ => false
    return (t.specializations.filter fun s => textureElem s.arg == some elem).map (·.decl)
  | _ => do
    let d ← ds.find? fun d =>
      match d.kind with
      | .record n _ => n == row.name
      | _ => false
    return [d.id]

def functionIds (ds : List Declaration) (row : BuiltinFunction) : List DeclId :=
  (ds.filter fun d => d.kind == .function row.name).map (·.id)

def methodId (ds : List Declaration) (row : BuiltinMethod) : Option DeclId :=
  (ds.find? fun d => d.kind == .method row.record row.name row.params).map (·.id)

def runtimeMatches (row : RuntimeRow) (d : Declaration) : Bool :=
  match d.kind, row.kind with
  | .record n _, .record | .classTemplate n _, .classTemplate | .enum n .., .enum => n == row.name
  | .method r n _, .method record => n == row.name && r == record
  | _, _ => false

def runtimeDecl (ds : List Declaration) (row : RuntimeRow) : Option Declaration :=
  ds.find? (runtimeMatches row)

/-- A missing texture template is reported once, for its float row. -/
def missingTypes (ds : List Declaration) : List Missing :=
  BuiltinType.rows.filterMap fun row =>
    match typeIds ds row, row.shape with
    | some _, _ => none
    | none, .texture .float _ => some ⟨"class template", row.name⟩
    | none, .texture .. => none
    | none, _ => some ⟨"class", row.name⟩

def missingFunctions (ds : List Declaration) : List Missing :=
  BuiltinFunction.rows.filterMap fun row =>
    if (functionIds ds row).isEmpty then some ⟨"function", row.name⟩ else none

def missingMethods (ds : List Declaration) : List Missing :=
  BuiltinMethod.rows.filterMap fun row =>
    match methodId ds row with
    | some _ => none
    | none => some ⟨"method", s!"{row.record}::{row.name}(" ++ ", ".intercalate row.params ++ ")"⟩

def runtimeSort : RuntimeKind → String
  | .record => "class"
  | .classTemplate => "class template"
  | .enum => "enum"
  | .method _ => "method"

def missingRuntime (ds : List Declaration) : List Missing :=
  RuntimeRow.rows.filterMap fun row =>
    match runtimeDecl ds row with
    | some _ => none
    | none => some ⟨runtimeSort row.kind, row.name⟩

def missing (ds : List Declaration) : List Missing :=
  missingTypes ds ++ missingFunctions ds ++ missingMethods ds ++ missingRuntime ds

/-- Enumerators of a scoped enumeration are qualified by its name, others by its namespace. -/
def runtimeEnum (d : Declaration) : Option RuntimeEnum :=
  match d.kind with
  | .enum _ isScoped es => some ⟨if isScoped then d.qualifiedName else "::".intercalate d.scope, es⟩
  | _ => none

def collect (ds : List Declaration) : Catalog where
  types := BuiltinType.rows.flatMap fun row => ((typeIds ds row).getD []).map (·, row)
  functions := BuiltinFunction.rows.flatMap fun row => (functionIds ds row).map (·, row)
  methods := BuiltinMethod.rows.filterMap fun row => (methodId ds row).map (·, row)
  enums := RuntimeRow.rows.filterMap fun row =>
    ((runtimeDecl ds row).bind runtimeEnum).map (row.name, ·)
  names := RuntimeRow.rows.filterMap fun row =>
    (runtimeDecl ds row).map fun d => (row.name, d.qualifiedName)

/-- Succeeds when every row has a declaration in the runtime's namespace. -/
def build (declarations : List Declaration) : Except (List Missing) Catalog :=
  let ds := declarations.filter fun d => d.scope.contains runtimeNamespace
  match missing ds with
  | [] => .ok (collect ds)
  | ms => .error ms

def type? (c : Catalog) : Ty → Option BuiltinType
  | .decl id => lookupLast id c.types
  | _ => none

def function? (c : Catalog) (id : DeclId) : Option BuiltinFunction := lookupLast id c.functions

def method? (c : Catalog) (id : DeclId) : Option BuiltinMethod := lookupLast id c.methods

def isMatrix (c : Catalog) (t : Ty) : Bool := (c.type? t).any BuiltinType.isMatrix

/-- Types that a traced reference may have. -/
def isValueType (c : Catalog) (t : Ty) : Bool :=
  match t with
  | .scalar (.int 32) | .scalar (.uint 32) | .scalar .float | .scalar .double => true
  | _ => (c.type? t).isSome

inductive FieldFault where
  | integerWidth
  | unsupported
  deriving DecidableEq, Repr

def FieldFault.message : FieldFault → String
  | integerWidth => "integers must be 32-bits in length"
  | unsupported =>
    "hsh record fields must be a builtin hsh vector or matrix, float, double, or 32-bit integer"

def fieldFault (c : Catalog) (t : Ty) : Option FieldFault :=
  match t with
  | .scalar (.int w) | .scalar (.uint w) => if w = 32 then none else some .integerWidth
  | .scalar .float | .scalar .double => none
  | _ => if (c.type? t).any (!·.isTexture) then none else some .unsupported

def enumerator (c : Catalog) (enum : String) (value : Int) : Option String := do
  let e ← lookupLast enum c.enums
  let x ← e.enumerators.find? (·.value == value)
  return if e.qualifier.isEmpty then x.name else e.qualifier ++ "::" ++ x.name

def runtimeName (c : Catalog) (name : String) : String :=
  (lookupLast name c.names).getD (runtimeNamespace ++ "::" ++ name)

end Catalog
end ShaderSplit
