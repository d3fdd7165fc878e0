import ShaderSplit.Syntax.Unit
import ShaderSplit.Text.Render

namespace ShaderSplit

open Json (str nat int strs obj opt)

def encodeVariant (name : String) (fields : List (String × Json)) : Json := obj [(name, obj fields)]

def Span.encode (s : Span) : Json := obj [("start", nat s.start), ("end", nat s.stop)]

def ScalarType.encode : ScalarType → Json
  | bool => str "Bool"
  | int w => obj [("Int", nat w)]
  | uint w => obj [("UInt", nat w)]
  | float => str "Float"
  | double => str "Double"

def Ty.encode : Ty → Json
  | .void => str "Void"
  | .scalar s => obj [("Scalar", s.encode)]
  | .decl id => obj [("Decl", nat id)]

def FieldDecl.encode (f : FieldDecl) : Json :=
  obj [("name", str f.name), ("ty", f.ty.encode), ("span", f.span.encode)]

def DeclKind.encode : DeclKind → Json
  | .record n fields =>
    encodeVariant "Record" [("name", str n), ("fields", .array (fields.map FieldDecl.encode))]
  | .classTemplate n specs =>
    encodeVariant "ClassTemplate" [("name", str n), ("specializations", .array (specs.map fun s =>
      obj [("arg", s.arg.encode), ("decl", nat s.decl)]))]
  | .enum n isScoped es =>
    encodeVariant "Enum" [("name", str n), ("scoped", .bool isScoped),
        ("enumerators", .array (es.map fun e =>
      obj [("name", str e.name), ("value", int e.value)]))]
  | .function n => encodeVariant "Function" [("name", str n)]
  | .method owner n params =>
    encodeVariant "Method" [("record", str owner), ("name", str n), ("params", strs params)]

def Declaration.encode (d : Declaration) : Json :=
  obj [("id", nat d.id), ("namespace", strs d.scope), ("kind", d.kind.encode),
    ("span", d.span.encode)]

def Role.encode : Role → Json
  | captured => str "captured"
  | position => str "position"
  | vertexBuffer i => encodeVariant "vertex_buffer" [("index", int i)]
  | instanceBuffer i => encodeVariant "instance_buffer" [("index", int i)]
  | vertexTexture i => encodeVariant "vertex_texture" [("index", int i)]
  | fragmentTexture i => encodeVariant "fragment_texture" [("index", int i)]
  | colorTarget i => encodeVariant "color_target" [("index", int i)]
  | varyingInput s => encodeVariant "varying_input" [("stage", str s.name)]
  | varyingOutput s => encodeVariant "varying_output" [("stage", str s.name)]

def Param.encode (p : Param) : Json :=
  obj [("name", str p.name), ("ty", p.ty.encode), ("role", p.role.encode), ("span", p.span.encode)]

def Side.name : Side → String
  | producer => "Producer"
  | consumer => "Consumer"

def InterfaceRef.encode (r : InterfaceRef) : Json :=
  obj [("source", str r.source.name), ("dest", str r.dest.name), ("side", str r.side.name),
    ("field", nat r.field)]

section
variable (float : Binary64 → Json)

def Literal.encode : Literal → Json
  | .int v => obj [("Int", Json.int v)]
  | .uint v => obj [("UInt", nat v)]
  | .float v => obj [("Float", float v)]
  | .bool v => obj [("Bool", .bool v)]

mutual
def ConstValue.encode : ConstValue → Json
  | .int v => obj [("Int", Json.int v)]
  | .float v => obj [("Float", float v)]
  | .bool v => obj [("Bool", .bool v)]
  | .aggregate fields => obj [("Struct", .array (ConstValue.encodeAll fields))]
def ConstValue.encodeAll : List ConstValue → List Json
  | [] => []
  | v :: vs => v.encode :: ConstValue.encodeAll vs
end

def Node.encode (n : Node) (kind : Json) : Json :=
  obj [("id", nat n.id), ("kind", kind), ("ty", n.ty.encode), ("span", n.span.encode)]

mutual
def Expr.encode : Expr → Json
  | .literal n v => n.encode (obj [("Literal", v.encode float)])
  | .constant n v => n.encode (obj [("Constant", v.encode float)])
  | .param n i => n.encode (obj [("Param", nat i)])
  | .localVar n v name => n.encode (encodeVariant "Local" [("local", nat v), ("name", str name)])
  | .binary n op lhs rhs =>
    n.encode (encodeVariant "Binary" [("op", str op.name), ("lhs", lhs.encode),
      ("rhs", rhs.encode)])
  | .unary n op e => n.encode (encodeVariant "Unary" [("op", str op.name), ("operand", e.encode)])
  | .construct n args => n.encode (obj [("Construct", .array (Expr.encodeAll args))])
  | .cast n e => n.encode (obj [("Cast", e.encode)])
  | .initList n items => n.encode (obj [("InitList", .array (Expr.encodeAll items))])
  | .call n f args =>
    n.encode (encodeVariant "Call" [("func", nat f), ("args", .array (Expr.encodeAll args))])
  | .methodCall n m object args =>
    n.encode (encodeVariant "MethodCall"
      [("method", nat m), ("object", object.encode), ("args", .array (Expr.encodeAll args))])
  | .member n base field =>
    n.encode (encodeVariant "Member" [("base", base.encode), ("field", str field)])
  | .interface n r => n.encode (obj [("Interface", r.encode)])
  | .unsupported n what => n.encode (encodeVariant "Unsupported" [("construct", str what)])
def Expr.encodeAll : List Expr → List Json
  | [] => []
  | e :: es => e.encode :: Expr.encodeAll es
end

def encodeStmt (id : NodeId) (span : Span) (kind : Json) : Json :=
  obj [("id", nat id), ("kind", kind), ("span", span.encode)]

mutual
def Stmt.encode : Stmt → Json
  | .decl id span v name ty init =>
    encodeStmt id span (encodeVariant "Decl"
      [("local", nat v), ("name", str name), ("ty", ty.encode),
        ("init", opt (Expr.encode float) init)])
  | .expr id span e => encodeStmt id span (obj [("Expr", e.encode float)])
  | .block id span body => encodeStmt id span (obj [("Block", .array (Stmt.encodeAll body))])
  | .null id span => encodeStmt id span (str "Null")
  | .unsupported id span what =>
    encodeStmt id span (encodeVariant "Unsupported" [("construct", str what)])
def Stmt.encodeAll : List Stmt → List Json
  | [] => []
  | s :: ss => s.encode :: Stmt.encodeAll ss
end

def PipelineFn.encode (f : PipelineFn) : Json :=
  obj [("name", str f.name), ("params", .array (f.params.map Param.encode)),
    ("body", .array (Stmt.encodeAll float f.body)), ("span", f.span.encode)]

def TranslationUnit.encode (u : TranslationUnit) : Json :=
  obj [("file_name", str u.fileName), ("source", opt str u.source),
    ("dependencies", strs u.dependencies),
    ("declarations", .array (u.declarations.map Declaration.encode)),
    ("pipelines", .array (u.pipelines.map (PipelineFn.encode float)))]

end
end ShaderSplit
