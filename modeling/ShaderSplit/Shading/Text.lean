import ShaderSplit.Shading.Dialect

namespace ShaderSplit

structure Writer where
  program : Program
  catalog : Catalog
  stage : Stage
  dialect : Dialect

namespace Writer

variable (w : Writer)

def typeName (t : Ty) : String := w.catalog.spellType w.dialect t

def commas (items : List String) : String := ", ".intercalate items

/-- A binary operation that is an operand is parenthesized. -/
def operand (e : Expr) (s : String) : String := if e.isBinary then "(" ++ s ++ ")" else s

def infixText (op : BinaryOp) (lhs rhs : Expr) (l r : String) : String :=
  if op.isAssignment then l ++ " " ++ op.spelling ++ " " ++ r
  else operand lhs l ++ " " ++ op.spelling ++ " " ++ operand rhs r

/-- HLSL multiplies matrices by a function. -/
def binary (op : BinaryOp) (lhs rhs : Expr) (l r : String) : String :=
  if w.dialect = .hlsl && (w.catalog.isMatrix lhs.ty || w.catalog.isMatrix rhs.ty) then
    match op with
    | .mul => "mul(" ++ l ++ ", " ++ r ++ ")"
    | .mulAssign => l ++ " = mul(" ++ l ++ ", " ++ r ++ ")"
    | _ => infixText op lhs rhs l r
  else infixText op lhs rhs l r

def plainConstruct (t : Ty) (args : List String) : String :=
  w.typeName t ++ "(" ++ commas args ++ ")"

/-- Cutting a 4x4 matrix down to 3x3 takes the columns one by one where no constructor does it. -/
def construct (t : Ty) (args : List Expr) (texts : List String) : String :=
  match args, texts with
  | [arg], [s] =>
    if w.catalog.matrixRows t = some 3 && w.catalog.matrixRows arg.ty = some 4 then
      match w.dialect with
      | .hlsl => "float4x4_to_float3x3(" ++ s ++ ")"
      | .metal =>
        let m := operand arg s
        "float3x3(" ++ m ++ "[0].xyz, " ++ m ++ "[1].xyz, " ++ m ++ "[2].xyz)"
      | _ => w.plainConstruct t [s]
    else w.plainConstruct t [s]
  | _, texts => w.plainConstruct t texts

def initList (t : Ty) (args : List Expr) (texts : List String) : String :=
  match w.dialect with
  | .host => w.typeName t ++ "\x7b" ++ commas texts ++ "\x7d"
  | _ => w.construct t args texts

def swizzle (object : Expr) (s name : String) : String :=
  operand object s ++ "." ++ name ++ (if w.dialect = .host then "()" else "")

/-- Position of a sample's sampler; the first if it has none. -/
def samplerOf (call : NodeId) : String :=
  toString (((w.program.sampleCall? call).map (·.sampler)).getD 0)

def metalSample (call : NodeId) (texture : Expr) (s : String) (args : List Expr)
    (texts : List String) : String :=
  let head := operand texture s ++ ".sample(_sampler" ++ w.samplerOf call
  match args, texts with
  | coord :: _, c :: _ =>
    if w.catalog.isTextureArray texture.ty then
      head ++ ", " ++ operand coord c ++ ".xy, uint(" ++ operand coord c ++ ".z))"
    else head ++ ", " ++ c ++ ")"
  | _, _ => head ++ ")"

def sample (call : NodeId) (texture : Expr) (s : String) (args : List Expr) (texts : List String) :
    String :=
  match w.dialect with
  | .glsl => "texture(" ++ s ++ ", " ++ texts.headD "" ++ ")"
  | .hlsl =>
    operand texture s ++ ".Sample(_sampler" ++ w.samplerOf call ++ ", " ++ texts.headD "" ++ ")"
  | .metal => w.metalSample call texture s args texts
  | .host => operand texture s ++ ".sample(" ++ commas texts ++ ")"

/-- Access to a field of a vertex buffer. Metal has one attribute for each matrix column. -/
def vertexField (a : AttributeRecord) (field : String) (t : Ty) : String :=
  match w.dialect with
  | .glsl | .host => a.fieldName field
  | .hlsl => "_vert_data." ++ a.fieldName field
  | .metal =>
    match w.catalog.column t with
    | some (_, dim) =>
      w.plainConstruct t ((List.range dim).map fun k =>
        "_vert_data." ++ a.fieldName field ++ "_" ++ toString k)
    | none => "_vert_data." ++ a.fieldName field

def buffer? : Expr → Option AttributeRecord
  | .param _ i => w.program.attribute? i
  | _ => none

def member (t : Ty) (base : Expr) (s field : String) : String :=
  match w.buffer? base with
  | some a => w.vertexField a field t
  | none => operand base s ++ "." ++ field

def function (f : DeclId) : String :=
  match w.catalog.function? f with
  | some b => w.dialect.function b
  | none => "__func" ++ toString f

def swizzle? (method : DeclId) : Option String :=
  ((w.catalog.method? method).filter BuiltinMethod.isSwizzle).map BuiltinMethod.name

mutual
def text : Expr → String
  | .literal _ v => w.dialect.literal v
  | .constant _ v => v.text
  | .param _ i => w.program.paramName w.dialect w.stage i
  | .localVar _ _ name => name
  | .binary _ op lhs rhs => w.binary op lhs rhs (text lhs) (text rhs)
  | .unary _ op e => op.spelling ++ operand e (text e)
  | .construct n args => w.construct n.ty args (texts args)
  | .cast n e => w.plainConstruct n.ty [text e]
  | .initList n items => w.initList n.ty items (texts items)
  | .call _ f args => w.function f ++ "(" ++ commas (texts args) ++ ")"
  | .methodCall n m object args =>
    match w.swizzle? m with
    | some name => w.swizzle object (text object) name
    | none => w.sample n.id object (text object) args (texts args)
  | .member n base field => w.member n.ty base (text base) field
  | .interface _ r => w.dialect.interface r
  | .unsupported _ what => "/* " ++ what ++ " */"
def texts : List Expr → List String
  | [] => []
  | e :: es => text e :: texts es
end

mutual
/-- Samples in the text of an expression whose sampler is not known. -/
def unresolved : Expr → Nat
  | .binary _ _ lhs rhs => unresolved lhs + unresolved rhs
  | .unary _ _ e | .cast _ e | .member _ e _ => unresolved e
  | .construct _ args | .initList _ args | .call _ _ args => unresolvedIn args
  | .methodCall n m object args =>
    match w.swizzle? m with
    | some _ => unresolved object
    | none =>
      (if (w.program.sampleCall? n.id).isNone then 1 else 0) + unresolved object
        + match args with
          | [] => 0
          | coord :: _ => unresolved coord
  | _ => 0
def unresolvedIn : List Expr → Nat
  | [] => 0
  | e :: es => unresolved e + unresolvedIn es
end

def filledUniform? (s : Stage) : Option InterfaceRecord :=
  (w.program.uniform? s).filter (!·.isEmpty)

/-- Only the host has statements about bindings. -/
def statement : StageStmt → Option String
  | .decl d => some (w.typeName d.ty ++ " " ++ d.name ++ " = " ++ w.text d.init ++ ";")
  | .expr e => some (w.text e ++ ";")
  | .bindingDecl s =>
    if w.dialect = .host then
      (w.filledUniform? s).map fun r => r.name ++ " " ++ r.producerVar ++ ";"
    else none
  | .pushUniform s =>
    if w.dialect = .host then
      (w.filledUniform? s).map fun r =>
        "push_uniform<" ++ w.catalog.stageEnumerator s ++ ">(" ++ r.producerVar ++ ");"
    else none

def block : List StageStmt := w.program.blocks.get w.stage

def body (indent : String) : List String := (w.block.filterMap w.statement).map (indent ++ ·)

def unresolvedInBody : Nat :=
  w.block.foldl (fun n s => n + unresolvedInStmt s) 0
where
  unresolvedInStmt : StageStmt → Nat
    | .decl d => w.unresolved d.init
    | .expr e => w.unresolved e
    | .bindingDecl _ | .pushUniform _ => 0

/-- Varying parameters of the stage become locals of the entry point. -/
def varyingLocals (indent : String) : List String :=
  (w.program.params.filter fun p =>
    p.role == .varyingInput w.stage || p.role == .varyingOutput w.stage).map fun p =>
      indent ++ w.typeName p.ty ++ " " ++ p.name ++ ";"

def members (r : InterfaceRecord) : List String :=
  r.fields.map fun f => "    " ++ w.typeName f.ty ++ " " ++ f.name ++ ";"

end Writer
end ShaderSplit
