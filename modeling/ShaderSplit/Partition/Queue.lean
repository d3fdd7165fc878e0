import ShaderSplit.Scope
import ShaderSplit.Syntax.Same

namespace ShaderSplit

inductive StageStmt where
  | decl (d : LocalDecl)
  | expr (e : Expr)
  | bindingDecl (stage : Stage)
  | pushUniform (stage : Stage)

/-- Declarations are never the same; they are told apart by origin. -/
def StageStmt.same : StageStmt → StageStmt → Bool
  | expr a, expr b => a.sameValue b
  | bindingDecl s, bindingDecl t | pushUniform s, pushUniform t => s == t
  | _, _ => false

structure Entry where
  stmt : StageStmt
  origin : Option NodeId
  /-- Counted without a limit; a count in 32 bits is the same for fewer than `2 ^ 32` uses. -/
  uses : Nat

abbrev Queue := List Entry

namespace Queue

def statements (q : Queue) : List StageStmt := q.map (·.stmt)

/-- One more use of the statement from `origin`, appended at its first use. -/
def use (stmt : StageStmt) (origin : NodeId) : Queue → Queue
  | [] => [⟨stmt, some origin, 1⟩]
  | e :: q =>
    if e.origin = some origin then { e with uses := e.uses + 1 } :: q else e :: use stmt origin q

/-- One use less; a statement without uses is dropped. -/
def release (origin : NodeId) : Queue → Queue
  | [] => []
  | e :: q =>
    if e.origin = some origin then
      if e.uses ≤ 1 then q else { e with uses := e.uses - 1 } :: q
    else e :: release origin q

/-- Appends a statement that has no origin, unless the same one is there. -/
def addOnce (q : Queue) (stmt : StageStmt) : Queue :=
  if q.any fun e => e.origin.isNone && e.stmt.same stmt then q else q ++ [⟨stmt, none, 1⟩]

def add (q : Queue) (stmt : StageStmt) : Option NodeId → Queue
  | some origin => q.use stmt origin
  | none => q.addOnce stmt

def insertAfter? (fits : Entry → Bool) (entry : Entry) : Queue → Option Queue
  | [] => none
  | e :: q =>
    match insertAfter? fits entry q with
    | some q => some (e :: q)
    | none => if fits e then some (e :: entry :: q) else none

/-- Inserts a statement after the last of the writes that reach it, or at the end. -/
def insertReached (reaching : List NodeId) (stmt : StageStmt) (q : Queue) : Queue :=
  let entry : Entry := ⟨stmt, none, 1⟩
  (q.insertAfter? (fun e => e.origin.any reaching.contains) entry).getD (q ++ [entry])

end Queue
end ShaderSplit
