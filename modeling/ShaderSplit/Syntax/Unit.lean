import ShaderSplit.Syntax.Declaration
import ShaderSplit.Syntax.Stmt

namespace ShaderSplit

/-- What a parameter stands for. Indices are as written; whether they are in range is
checked later. -/
inductive Role where
  | captured
  | vertexBuffer (index : Int)
  | instanceBuffer (index : Int)
  | vertexTexture (index : Int)
  | fragmentTexture (index : Int)
  | varyingInput (stage : Stage)
  | varyingOutput (stage : Stage)
  | position
  | colorTarget (index : Int)
  deriving DecidableEq, Repr

namespace Role

def stage : Role → Stage
  | captured => .host
  | vertexBuffer _ | instanceBuffer _ | vertexTexture _ | position => .vertex
  | fragmentTexture _ | colorTarget _ => .fragment
  | varyingInput s | varyingOutput s => s

/-- Outputs are what is traced, and they make their stage active. -/
def isOutput : Role → Bool
  | position | colorTarget _ | varyingOutput _ => true
  | _ => false

end Role

structure Param where
  name : String
  ty : Ty
  role : Role
  span : Span
  deriving DecidableEq, Repr

structure PipelineFn where
  name : String
  params : List Param
  body : List Stmt
  span : Span
  deriving Repr

structure TranslationUnit where
  fileName : String
  source : Option String
  dependencies : List String
  declarations : List Declaration
  pipelines : List PipelineFn
  deriving Repr

end ShaderSplit
