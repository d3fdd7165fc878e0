import ShaderSplit.Syntax.Unit
import ShaderSplit.Text.Shape

namespace ShaderSplit

def Span.decode? (r : Json.Rules) (j : Json) : Option Span := do
  match ← j.fields? r ["start", "end"] with
  | [some start, some stop] => some ⟨← start.nat? 32, ← stop.nat? 32⟩
  | _ => none

def Span.decodeD? (r : Json.Rules) : Option Json → Option Span
  | none => some .dummy
  | some j => Span.decode? r j

def Stage.decode? (r : Json.Rules) (j : Json) : Option Stage := do Stage.ofName? (← j.choice? r)

def ScalarType.decode? (r : Json.Rules) (j : Json) : Option ScalarType := do
  match ← j.variant? r with
  | ("Bool", none) | ("Bool", some .null) => some .bool
  | ("Float", none) | ("Float", some .null) => some .float
  | ("Double", none) | ("Double", some .null) => some .double
  | ("Int", some w) => some (.int (← w.nat? 8))
  | ("UInt", some w) => some (.uint (← w.nat? 8))
  | _ => none

def Ty.decode? (r : Json.Rules) (j : Json) : Option Ty := do
  match ← j.variant? r with
  | ("Void", none) | ("Void", some .null) => some .void
  | ("Scalar", some s) => some (.scalar (← ScalarType.decode? r.inner s))
  | ("Decl", some id) => some (.decl (← id.nat? 32))
  | _ => none

def FieldDecl.decode? (r : Json.Rules) (j : Json) : Option FieldDecl := do
  match ← j.fields? r ["name", "ty", "span"] with
  | [some name, some ty, span] =>
    some ⟨← name.text?, ← Ty.decode? r.inner ty, ← Span.decodeD? r.inner span⟩
  | _ => none

def Specialization.decode? (r : Json.Rules) (j : Json) : Option Specialization := do
  match ← j.fields? r ["arg", "decl"] with
  | [some arg, some decl] => some ⟨← ScalarType.decode? r.inner arg, ← decl.nat? 32⟩
  | _ => none

def Enumerator.decode? (r : Json.Rules) (j : Json) : Option Enumerator := do
  match ← j.fields? r ["name", "value"] with
  | [some name, some value] => some ⟨← name.text?, ← value.int64?⟩
  | _ => none

def DeclKind.decode? (r : Json.Rules) (j : Json) : Option DeclKind := do
  let inner := r.inner
  match ← j.variant? r with
  | ("Record", some j) =>
    match ← j.choiceFields? inner ["name", "fields"] with
    | [some name, fields] =>
      some (.record (← name.text?)
        (← Json.listD? inner.inner (FieldDecl.decode? inner.inner.inner) fields))
    | _ => none
  | ("ClassTemplate", some j) =>
    match ← j.choiceFields? inner ["name", "specializations"] with
    | [some name, specs] =>
      some (.classTemplate (← name.text?)
        (← Json.listD? inner.inner (Specialization.decode? inner.inner.inner) specs))
    | _ => none
  | ("Enum", some j) =>
    match ← j.choiceFields? inner ["name", "scoped", "enumerators"] with
    | [some name, isScoped, enumerators] =>
      let isScoped ← match isScoped with
        | none => some false
        | some j => j.bool?
      some (.enum (← name.text?) isScoped
        (← Json.listD? inner.inner (Enumerator.decode? inner.inner.inner) enumerators))
    | _ => none
  | ("Function", some j) =>
    match ← j.choiceFields? inner ["name"] with
    | [some name] => some (.function (← name.text?))
    | _ => none
  | ("Method", some j) =>
    match ← j.choiceFields? inner ["record", "name", "params"] with
    | [some owner, some name, params] =>
      some (.method (← owner.text?) (← name.text?) (← Json.listD? inner.inner Json.text? params))
    | _ => none
  | _ => none

def Declaration.decode? (r : Json.Rules) (j : Json) : Option Declaration := do
  match ← j.fields? r ["id", "namespace", "kind", "span"] with
  | [some id, scope, some kind, span] =>
    some ⟨← id.nat? 32, ← Json.listD? r.inner Json.text? scope, ← DeclKind.decode? r.inner kind,
      ← Span.decodeD? r.inner span⟩
  | _ => none

def Role.decode? (r : Json.Rules) (j : Json) : Option Role := do
  let index (j : Json) : Option Int := do
    match ← j.choiceFields? r.inner ["index"] with
    | [some i] => i.int64?
    | _ => none
  let stage (j : Json) : Option Stage := do
    match ← j.choiceFields? r.inner ["stage"] with
    | [some s] => Stage.decode? r.inner.inner s
    | _ => none
  match ← j.variant? r with
  | ("captured", none) | ("captured", some .null) => some .captured
  | ("position", none) | ("position", some .null) => some .position
  | ("vertex_buffer", some j) => some (.vertexBuffer (← index j))
  | ("instance_buffer", some j) => some (.instanceBuffer (← index j))
  | ("vertex_texture", some j) => some (.vertexTexture (← index j))
  | ("fragment_texture", some j) => some (.fragmentTexture (← index j))
  | ("color_target", some j) => some (.colorTarget (← index j))
  | ("varying_input", some j) => some (.varyingInput (← stage j))
  | ("varying_output", some j) => some (.varyingOutput (← stage j))
  | _ => none

def Param.decode? (r : Json.Rules) (j : Json) : Option Param := do
  match ← j.fields? r ["name", "ty", "role", "span"] with
  | [some name, some ty, some role, span] =>
    some ⟨← name.text?, ← Ty.decode? r.inner ty, ← Role.decode? r.inner role,
      ← Span.decodeD? r.inner span⟩
  | _ => none

def Literal.decode? (r : Json.Rules) (j : Json) : Option Literal := do
  match ← j.variant? r with
  | ("Int", some v) => some (.int (← v.int64?))
  | ("UInt", some v) => some (.uint (← v.nat? 64))
  | ("Float", some v) => some (.float (← v.float?))
  | ("Bool", some v) => some (.bool (← v.bool?))
  | _ => none

/-- Each level of a value takes two containers, so the depth is enough fuel. -/
def ConstValue.decodeWith? : Nat → Json.Rules → Json → Option ConstValue
  | 0, _, _ => none
  | fuel + 1, r, j => do
    match ← j.variant? r with
    | ("Int", some v) => some (.int (← v.int64?))
    | ("Float", some v) => some (.float (← v.float?))
    | ("Bool", some v) => some (.bool (← v.bool?))
    | ("Struct", some j) =>
      some (.aggregate (← j.list? r.inner (ConstValue.decodeWith? fuel r.inner.inner)))
    | _ => none

def ConstValue.decode? (r : Json.Rules) (j : Json) : Option ConstValue :=
  ConstValue.decodeWith? (r.depth + 1) r j

def InterfaceRef.decode? (r : Json.Rules) (j : Json) : Option InterfaceRef := do
  match ← j.fields? r ["source", "dest", "side", "field"] with
  | [some source, some dest, some side, some field] =>
    let side ← match ← side.choice? r.inner with
      | "Producer" => some Side.producer
      | "Consumer" => some Side.consumer
      | _ => none
    some ⟨← Stage.decode? r.inner source, ← Stage.decode? r.inner dest, side, ← field.nat? 64⟩
  | _ => none

def decodeConstruct? (r : Json.Rules) (j : Json) : Option String := do
  match ← j.choiceFields? r ["construct"] with
  | [some name] => name.text?
  | _ => none

def Expr.decodeWith? : Nat → Json.Rules → Json → Option Expr
  | 0, _, _ => none
  | fuel + 1, r, j => do
    match ← j.fields? r ["id", "kind", "ty", "span"] with
    | [some id, some kind, some ty, span] =>
      let n : Node := ⟨← id.nat? 32, ← Ty.decode? r.inner ty, ← Span.decodeD? r.inner span⟩
      let inner := r.inner.inner
      match ← kind.variant? r.inner with
      | ("Literal", some j) => some (.literal n (← Literal.decode? inner j))
      | ("Constant", some j) => some (.constant n (← ConstValue.decode? inner j))
      | ("Param", some j) => some (.param n (← j.nat? 64))
      | ("Local", some j) =>
        match ← j.choiceFields? inner ["local", "name"] with
        | [some var, some name] => some (.localVar n (← var.nat? 32) (← name.text?))
        | _ => none
      | ("Binary", some j) =>
        match ← j.choiceFields? inner ["op", "lhs", "rhs"] with
        | [some op, some lhs, some rhs] =>
          some (.binary n (← BinaryOp.ofName? (← op.choice? inner.inner))
            (← Expr.decodeWith? fuel inner.inner lhs) (← Expr.decodeWith? fuel inner.inner rhs))
        | _ => none
      | ("Unary", some j) =>
        match ← j.choiceFields? inner ["op", "operand"] with
        | [some op, some e] =>
          some (.unary n (← UnaryOp.ofName? (← op.choice? inner.inner))
            (← Expr.decodeWith? fuel inner.inner e))
        | _ => none
      | ("Construct", some j) =>
        some (.construct n (← j.list? inner (Expr.decodeWith? fuel inner.inner)))
      | ("Cast", some j) => some (.cast n (← Expr.decodeWith? fuel inner j))
      | ("InitList", some j) =>
        some (.initList n (← j.list? inner (Expr.decodeWith? fuel inner.inner)))
      | ("Call", some j) =>
        match ← j.choiceFields? inner ["func", "args"] with
        | [some func, some args] =>
          some (.call n (← func.nat? 32)
            (← args.list? inner.inner (Expr.decodeWith? fuel inner.inner.inner)))
        | _ => none
      | ("MethodCall", some j) =>
        match ← j.choiceFields? inner ["method", "object", "args"] with
        | [some method, some object, some args] =>
          some (.methodCall n (← method.nat? 32) (← Expr.decodeWith? fuel inner.inner object)
            (← args.list? inner.inner (Expr.decodeWith? fuel inner.inner.inner)))
        | _ => none
      | ("Member", some j) =>
        match ← j.choiceFields? inner ["base", "field"] with
        | [some base, some field] =>
          some (.member n (← Expr.decodeWith? fuel inner.inner base) (← field.text?))
        | _ => none
      | ("Interface", some j) => some (.interface n (← InterfaceRef.decode? inner j))
      | ("Unsupported", some j) => some (.unsupported n (← decodeConstruct? inner j))
      | _ => none
    | _ => none

def Expr.decode? (r : Json.Rules) (j : Json) : Option Expr := Expr.decodeWith? (r.depth + 1) r j

/-- An initializer may be absent or null by name, but has its place in a list. -/
def decodeInit? (r : Json.Rules) (isList : Bool) : Option Json → Option (Option Expr)
  | none => if isList then none else some none
  | some .null => some none
  | some j => (Expr.decode? r j).map some

def Json.isArray : Json → Bool
  | .array _ => true
  | _ => false

def Stmt.decodeWith? : Nat → Json.Rules → Json → Option Stmt
  | 0, _, _ => none
  | fuel + 1, r, j => do
    match ← j.fields? r ["id", "kind", "span"] with
    | [some id, some kind, span] =>
      let id ← id.nat? 32
      let span ← Span.decodeD? r.inner span
      let inner := r.inner.inner
      match ← kind.variant? r.inner with
      | ("Null", none) | ("Null", some .null) => some (.null id span)
      | ("Decl", some j) =>
        match ← j.choiceFields? inner ["local", "name", "ty", "init"] with
        | [some var, some name, some ty, init] =>
          some (.decl id span (← var.nat? 32) (← name.text?) (← Ty.decode? inner.inner ty)
            (← decodeInit? inner.inner j.isArray init))
        | _ => none
      | ("Expr", some j) => some (.expr id span (← Expr.decode? inner j))
      | ("Block", some j) =>
        some (.block id span (← j.list? inner (Stmt.decodeWith? fuel inner.inner)))
      | ("Unsupported", some j) => some (.unsupported id span (← decodeConstruct? inner j))
      | _ => none
    | _ => none

def Stmt.decode? (r : Json.Rules) (j : Json) : Option Stmt := Stmt.decodeWith? (r.depth + 1) r j

def PipelineFn.decode? (r : Json.Rules) (j : Json) : Option PipelineFn := do
  match ← j.fields? r ["name", "params", "body", "span"] with
  | [some name, some params, some body, span] =>
    some ⟨← name.text?, ← params.list? r.inner (Param.decode? r.inner.inner),
      ← body.list? r.inner (Stmt.decode? r.inner.inner), ← Span.decodeD? r.inner span⟩
  | _ => none

def decodeSource? : Option Json → Option (Option String)
  | none | some .null => some none
  | some j => j.text?.map some

def TranslationUnit.decode? (r : Json.Rules) (j : Json) : Option TranslationUnit := do
  match ← j.fields? r ["file_name", "source", "dependencies", "declarations", "pipelines"] with
  | [some fileName, source, dependencies, some declarations, some pipelines] =>
    some ⟨← fileName.text?, ← decodeSource? source, ← Json.listD? r.inner Json.text? dependencies,
      ← declarations.list? r.inner (Declaration.decode? r.inner.inner),
      ← pipelines.list? r.inner (PipelineFn.decode? r.inner.inner)⟩
  | _ => none

def TranslationUnit.parse? (text : String) : Option TranslationUnit := do
  TranslationUnit.decode? .document (← Json.parse? text)

end ShaderSplit
