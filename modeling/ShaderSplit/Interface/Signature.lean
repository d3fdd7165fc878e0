import ShaderSplit.Interface.Resource
import ShaderSplit.Interface.Slot

namespace ShaderSplit

inductive BodyFault where
  | uninitialized (name : String) (span : Span)
  | statement (construct : String) (span : Span)
  | expression (construct : String) (span : Span)
  deriving DecidableEq, Repr

def BodyFault.diagnostic : BodyFault → Diagnostic
  | uninitialized name span =>
    .error s!"local `{name}` must be declared with a single initializer" span (some .structural)
  | statement construct span =>
    .error s!"statements of type {construct} are not supported" span (some .structural)
  | expression construct span =>
    .error s!"expressions of type {construct} are not supported" span (some .structural)

mutual
def Expr.faults : Expr → List BodyFault
  | .binary _ _ lhs rhs => lhs.faults ++ rhs.faults
  | .unary _ _ e | .cast _ e | .member _ e _ => e.faults
  | .construct _ args | .initList _ args | .call _ _ args => Expr.faultsOf args
  | .methodCall _ _ object args => object.faults ++ Expr.faultsOf args
  | .unsupported n what => [.expression what n.span]
  | .literal .. | .constant .. | .param .. | .localVar .. | .interface .. => []
def Expr.faultsOf : List Expr → List BodyFault
  | [] => []
  | e :: es => e.faults ++ Expr.faultsOf es
end

mutual
def Stmt.faults : Stmt → List BodyFault
  | .decl _ _ _ _ _ (some e) | .expr _ _ e => e.faults
  | .decl _ span _ name _ none => [.uninitialized name span]
  | .block _ _ body => Stmt.faultsOf body
  | .null .. => []
  | .unsupported _ span construct => [.statement construct span]
def Stmt.faultsOf : List Stmt → List BodyFault
  | [] => []
  | s :: ss => s.faults ++ Stmt.faultsOf ss
end

structure Signature where
  stages : StageSet
  attributes : List AttributeRecord
  textures : List TextureRecord
  colorTargets : List ColorTarget
  deriving DecidableEq, Repr

namespace Signature

def stagesOf (params : List Param) : StageSet :=
  (params.filter (·.role.isOutput)).foldl (fun m p => m.insert p.role.stage) .hostAndVertex

def buffer (d : DeclIndex) (p : Param) (i : Nat) : Option AttributeRecord := do
  let fields ← d.recordFields? p.ty
  match p.role with
  | .vertexBuffer b => some ⟨i, p.name, fields, .perVertex, b.toNat⟩
  | .instanceBuffer b => some ⟨i, p.name, fields, .perInstance, b.toNat⟩
  | _ => none

def texture (c : Catalog) (p : Param) (i : Nat) : Option TextureRecord := do
  let t ← p.texture? c
  match p.role with
  | .vertexTexture b | .fragmentTexture b => some ⟨i, p.name, p.ty, t.shape, b.toNat, .empty⟩
  | _ => none

def colorTarget (p : Param) (i : Nat) : Option ColorTarget :=
  match p.role with
  | .colorTarget b => some ⟨i, p.name, p.ty, b.toNat⟩
  | _ => none

def ofParams (c : Catalog) (d : DeclIndex) (params : List Param) : Signature where
  stages := stagesOf params
  attributes := params.zipIdx.filterMap fun (p, i) => buffer d p i
  textures := params.zipIdx.filterMap fun (p, i) => texture c p i
  colorTargets := params.zipIdx.filterMap fun (p, i) => colorTarget p i

def diagnostics (c : Catalog) (d : DeclIndex) (f : PipelineFn) : List Diagnostic :=
  Param.diagnostics c d [] f.params ++ (Stmt.faultsOf f.body).map BodyFault.diagnostic

/-- All faults are reported, those of parameters first. -/
def check (c : Catalog) (d : DeclIndex) (f : PipelineFn) : Except (List Diagnostic) Signature :=
  match diagnostics c d f with
  | [] => .ok (ofParams c d f.params)
  | ds => .error ds

end Signature
end ShaderSplit
