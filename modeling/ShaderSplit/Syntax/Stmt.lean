import ShaderSplit.Syntax.Expr

namespace ShaderSplit

structure LocalDecl where
  var : LocalId
  name : String
  ty : Ty
  init : Expr
  deriving Repr

inductive Stmt where
  | decl (id : NodeId) (span : Span) (var : LocalId) (name : String) (ty : Ty) (init : Option Expr)
  | expr (id : NodeId) (span : Span) (e : Expr)
  | block (id : NodeId) (span : Span) (body : List Stmt)
  | null (id : NodeId) (span : Span)
  | unsupported (id : NodeId) (span : Span) (construct : String)
  deriving Repr

namespace Stmt

def id : Stmt → NodeId
  | decl i .. | expr i .. | block i .. | null i _ | unsupported i .. => i

mutual
def maxId : Stmt → NodeId
  | decl i _ _ _ _ (some e) => max e.maxId i
  | expr i _ e => max e.maxId i
  | block i _ body => max (maxIds body) i
  | decl i _ _ _ _ none | null i _ | unsupported i .. => i
def maxIds : List Stmt → NodeId
  | [] => 0
  | s :: ss => max s.maxId (maxIds ss)
end

mutual
/-- A statement and all statements in its blocks. -/
def nested : Stmt → List Stmt
  | block i span body => block i span body :: nestedOf body
  | s => [s]
def nestedOf : List Stmt → List Stmt
  | [] => []
  | s :: ss => s.nested ++ nestedOf ss
end

end Stmt
end ShaderSplit
