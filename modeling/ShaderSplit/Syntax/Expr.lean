import ShaderSplit.Decimal.Binary64
import ShaderSplit.Diagnostic
import ShaderSplit.Stage
import ShaderSplit.Syntax.Operator
import ShaderSplit.Syntax.Type

namespace ShaderSplit

inductive Literal where
  | int (v : Int)
  | uint (v : Nat)
  | float (v : Binary64)
  | bool (v : Bool)
  deriving DecidableEq, Repr

inductive ConstValue where
  | int (v : Int)
  | float (v : Binary64)
  | bool (v : Bool)
  | aggregate (fields : List ConstValue)
  deriving Repr

mutual
def ConstValue.same : ConstValue → ConstValue → Bool
  | .int a, .int b => a == b
  | .float a, .float b => a == b
  | .bool a, .bool b => a == b
  | .aggregate as, .aggregate bs => ConstValue.allSame as bs
  | _, _ => false
def ConstValue.allSame : List ConstValue → List ConstValue → Bool
  | [], [] => true
  | a :: as, b :: bs => a.same b && ConstValue.allSame as bs
  | _, _ => false
end

/-- The writing or the reading end of an interface record. -/
inductive Side where
  | producer | consumer
  deriving DecidableEq, Repr

structure InterfaceRef where
  source : Stage
  dest : Stage
  side : Side
  field : Nat
  deriving DecidableEq, Repr

/-- Both initials and the position, so that no two fields of a function share a name. -/
def fieldName (source dest : Stage) (index : Nat) : String :=
  String.ofList ['_', source.initial, dest.initial] ++ toString index

def InterfaceRef.fieldName (r : InterfaceRef) : String :=
  ShaderSplit.fieldName r.source r.dest r.field

structure Node where
  id : NodeId
  ty : Ty
  span : Span
  deriving DecidableEq, Repr

inductive Expr where
  | literal (n : Node) (v : Literal)
  | constant (n : Node) (v : ConstValue)
  | param (n : Node) (index : Nat)
  | localVar (n : Node) (var : LocalId) (name : String)
  | binary (n : Node) (op : BinaryOp) (lhs rhs : Expr)
  | unary (n : Node) (op : UnaryOp) (operand : Expr)
  | construct (n : Node) (args : List Expr)
  | cast (n : Node) (operand : Expr)
  | initList (n : Node) (items : List Expr)
  | call (n : Node) (func : DeclId) (args : List Expr)
  | methodCall (n : Node) (method : DeclId) (object : Expr) (args : List Expr)
  | member (n : Node) (base : Expr) (field : String)
  | interface (n : Node) (r : InterfaceRef)
  | unsupported (n : Node) (construct : String)
  deriving Repr

namespace Expr

def node : Expr → Node
  | literal n _ | constant n _ | param n _ | localVar n .. | binary n .. | unary n ..
  | construct n _ | cast n _ | initList n _ | call n .. | methodCall n .. | member n ..
  | interface n _ | unsupported n _ => n

def ty (e : Expr) : Ty := e.node.ty

def span (e : Expr) : Span := e.node.span

def isLiteral : Expr → Bool
  | literal .. | constant .. => true
  | _ => false

def isBinary : Expr → Bool
  | binary .. => true
  | _ => false

mutual
def maxId : Expr → NodeId
  | binary n _ lhs rhs => max (max lhs.maxId rhs.maxId) n.id
  | unary n _ e | cast n e | member n e _ => max e.maxId n.id
  | construct n args | initList n args | call n _ args => max (maxIds args) n.id
  | methodCall n _ object args => max (max object.maxId (maxIds args)) n.id
  | literal n _ | constant n _ | param n _ | localVar n .. | interface n _ | unsupported n _ => n.id
def maxIds : List Expr → NodeId
  | [] => 0
  | e :: es => max e.maxId (maxIds es)
end

mutual
def locals : Expr → List LocalId
  | localVar _ v _ => [v]
  | binary _ _ lhs rhs => lhs.locals ++ rhs.locals
  | unary _ _ e | cast _ e | member _ e _ => e.locals
  | construct _ args | initList _ args | call _ _ args => localsOf args
  | methodCall _ _ object args => object.locals ++ localsOf args
  | literal .. | constant .. | param .. | interface .. | unsupported .. => []
def localsOf : List Expr → List LocalId
  | [] => []
  | e :: es => e.locals ++ localsOf es
end

end Expr
end ShaderSplit
