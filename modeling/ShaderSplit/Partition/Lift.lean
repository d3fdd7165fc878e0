import ShaderSplit.Partition.Transfer

namespace ShaderSplit.Draft

variable {m : Type → Type} [Monad m] [MonadStateOf Draft m] [MonadLiftT Drafting m] [Guards m]
  (stages : StageSet) (source dest : Stage)

mutual
/-- Lifts within a scope; `lower` lifts within a shorter one. Constants, constructions, casts and
unary operators are repeated, declared locals are declared again, and all else is transferred. -/
def liftIn (sc : Scope) (lower : (s : Scope) → s.length < sc.length → Expr → m Expr) :
    Expr → m Expr
  | .literal n v => pure (.literal n v)
  | .constant n v => pure (.constant n v)
  | .construct n args => do return .construct n (← liftAllIn sc lower args)
  | .unary n op e => do return .unary n op (← liftIn sc lower e)
  | .cast n e => do return .cast n (← liftIn sc lower e)
  | .localVar n v name =>
    match h : sc.find (.localVar v) with
    | some ⟨.declaration written, step⟩ => do
      -- what was not rebuilt for the source is taken as it was written
      Guards.expect .unrebuilt fun d => (d.rebuilt? step source).isSome
      let decl := ((← get).rebuilt? step source).getD written
      let init ← lower (sc.before ⟨.declaration written, step⟩)
          (Scope.length_declared_lt h) decl.init
      let lifted := { decl with init }
      modify fun d => (d.setRebuilt step dest lifted).liftDeclaration lifted source dest step
      return .localVar n v name
    | _ => transfer stages sc source dest (.localVar n v name)
  | e => transfer stages sc source dest e
def liftAllIn (sc : Scope) (lower : (s : Scope) → s.length < sc.length → Expr → m Expr) :
    List Expr → m (List Expr)
  | [] => pure []
  | e :: es => do return (← liftIn sc lower e) :: (← liftAllIn sc lower es)
end

/-- Lifts within any scope of fewer than `n` steps. -/
def liftBelow : (n : Nat) → (sc : Scope) → sc.length < n → Expr → m Expr
  | 0, _, h => (Scope.not_length_lt_zero h).elim
  | n + 1, sc, h =>
    liftIn stages source dest sc fun s hs => liftBelow n s (Scope.length_lt_of_lt hs h)

def lift (sc : Scope) (e : Expr) : Drafting Expr :=
  liftBelow stages source dest (sc.length + 1) sc sc.length_lt e

/-- Brings a value to where it is used. Constants are available everywhere. -/
def promoteM [MonadExceptOf TraceError m] (sc : Scope) (at_ wanted : Placement)
    (e : Expr) : m Expr :=
  match at_, wanted with
  | some source, some dest =>
    if source = dest then pure e
    else if dest < source then throw ⟨.stageOrder source dest, e.span⟩
    else liftBelow stages source dest (sc.length + 1) sc sc.length_lt e
  | _, _ => pure e

abbrev promote (sc : Scope) (at_ wanted : Placement) (e : Expr) : Drafting Expr :=
  promoteM stages sc at_ wanted e

end ShaderSplit.Draft
