import ShaderSplit.Workbench.Core

namespace ShaderSplit.Workbench

def node (t : Ty) : Building Node := return ⟨← freshNode, t, .dummy⟩

def float (v : Binary64) : Building Expr := return .literal (← node .float) (.float v)

def int (v : Int) : Building Expr := return .literal (← node .int) (.int v)

def uint (v : Nat) : Building Expr := return .literal (← node .uint) (.uint v)

def arg (params : List Param) (index : Nat) : Building Expr :=
  return .param (← node ((params[index]?).elim .void Param.ty)) index

structure Local where
  var : LocalId
  name : String
  ty : Ty
  deriving DecidableEq, Repr

def useLocal (l : Local) : Building Expr := return .localVar (← node l.ty) l.var l.name

/-- The type of a record's field; without one it is void. -/
def memberTy (w : Workbench) (t : Ty) (field : String) : Ty :=
  match t with
  | .decl id =>
    match (w.declarations.find? (·.id == id)).map Declaration.kind with
    | some (.record _ fields) => (fields.find? (·.name == field)).elim .void FieldDecl.ty
    | _ => .void
  | _ => .void

def member (base : Expr) (field : String) : Building Expr := do
  return .member (← node (memberTy (← get) base.ty field)) base field

/-- A matrix times a vector is a vector, a scalar takes the other type. -/
def binaryTy (w : Workbench) (op : BinaryOp) (l r : Ty) : Ty :=
  if op.isComparison then .bool
  else if op.isAssignment then l
  else if ((w.builtin l).any BuiltinType.isMatrix && (w.builtin r).any BuiltinType.isVector)
      || l.isScalar then r
  else l

def binary (op : BinaryOp) (lhs rhs : Expr) : Building Expr := do
  return .binary (← node (binaryTy (← get) op lhs.ty rhs.ty)) op lhs rhs

def unary (op : UnaryOp) (e : Expr) : Building Expr :=
  return .unary (← node (if op = .not then .bool else e.ty)) op e

def construct (t : Ty) (args : List Expr) : Building Expr := return .construct (← node t) args

def cast (t : Ty) (e : Expr) : Building Expr := return .cast (← node t) e

def initList (t : Ty) (items : List Expr) : Building Expr := return .initList (← node t) items

def call (name : String) (args : List Expr) (t : Ty) : Building Expr := do
  let f ← function name
  return .call (← node t) f args

/-- A texture's name and element type; what is no texture counts as one of floats. -/
def sampled (w : Workbench) (t : Ty) : String × ElemKind :=
  match w.builtin t with
  | some ⟨name, .texture elem _, _⟩ => (name, elem)
  | _ => ("texture2d", .float)

def sample (texture uv sampler : Expr) : Building Expr := do
  let (owner, elem) := sampled (← get) texture.ty
  let m ← method owner "sample"
  let t ← vectorOf elem 4
  return .methodCall (← node t) m texture [uv, sampler]

def swizzle (object : Expr) (name : String) : Building Expr := do
  let owner := (((← get).builtin object.ty).map BuiltinType.name).getD "float4"
  let m ← method owner name
  let t ← vectorOf .float name.utf8ByteSize
  return .methodCall (← node t) m object []

def sampler (filter wrap : Int) : Building Expr := do
  let t ← ty "sampler"
  return .constant (← node t) (.aggregate [.int filter, .int wrap])

def unsupportedExpr (what : String) (t : Ty) : Building Expr := return .unsupported (← node t) what

def declare (name : String) (t : Ty) (init : Expr) : Building (Stmt × Local) := do
  let var ← freshLocal
  return (.decl (← freshNode) .dummy var name t (some init), ⟨var, name, t⟩)

def exprStmt (e : Expr) : Building Stmt := return .expr (← freshNode) .dummy e

def assign (op : BinaryOp) (lhs rhs : Expr) : Building Stmt := do exprStmt (← binary op lhs rhs)

def block (body : List Stmt) : Building Stmt := return .block (← freshNode) .dummy body

def unsupportedStmt (what : String) : Building Stmt := return .unsupported (← freshNode) .dummy what

end ShaderSplit.Workbench
