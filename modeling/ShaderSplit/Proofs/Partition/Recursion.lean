import ShaderSplit.Proofs.Partition.Tracing

namespace ShaderSplit

namespace Expr

/-- The parts that an expression is made of, without theirs. -/
def operands : Expr → List Expr
  | binary _ _ lhs rhs => [lhs, rhs]
  | unary _ _ e | cast _ e | member _ e _ => [e]
  | construct _ args | initList _ args | call _ _ args => args
  | methodCall _ _ object args => object :: args
  | literal .. | constant .. | param .. | localVar .. | interface .. | unsupported .. => []

variable {e x : Expr}

theorem sizeOf_operand (h : x ∈ e.operands) : sizeOf x < sizeOf e := by
  cases e with
  | binary n op lhs rhs =>
    rcases (by simpa [operands] using h : x = lhs ∨ x = rhs) with rfl | rfl <;>
      simp only [binary.sizeOf_spec] <;> omega
  | unary n op e | cast n e | member n e f =>
    obtain rfl : x = e := by simpa [operands] using h
    simp only [unary.sizeOf_spec, cast.sizeOf_spec, member.sizeOf_spec]
    omega
  | construct n es | initList n es | call n f es =>
    have hlt : sizeOf x < sizeOf es := List.sizeOf_lt_of_mem h
    simp only [construct.sizeOf_spec, initList.sizeOf_spec, call.sizeOf_spec]
    omega
  | methodCall n m o es =>
    rcases (by simpa [operands] using h : x = o ∨ x ∈ es) with rfl | hx
    · simp only [methodCall.sizeOf_spec]
      omega
    · have hlt : sizeOf x < sizeOf es := List.sizeOf_lt_of_mem hx
      simp only [methodCall.sizeOf_spec]
      omega
  | _ => cases h

theorem mem_subterms : x ∈ e.subterms ↔ x = e ∨ ∃ y ∈ e.operands, x ∈ y.subterms := by
  cases e <;> simp [operands, subterms, subtermsOf_eq]

end Expr

/-- What a use can see of a body: all of it, or the statements passed before the first one
called `stop`. -/
def Scope.visible (body : List Stmt) : Option NodeId → Scope
  | none => Stmt.stepsOf body
  | some stop => upTo (Stmt.stepsOf body) stop

/-- A found write sees less than the use that it was found for. -/
theorem Scope.visible_write {body : List Stmt} {stop : Option NodeId} {v : Var} {w : Write}
    (h : (visible body stop).find v = some w) :
    visible body (some w.step) = (visible body stop).before w ∧
      (visible body (some w.step)).length < (visible body stop).length := by
  have hbefore : visible body (some w.step) = (visible body stop).before w := by
    cases stop with
    | none => rfl
    | some stop => exact (before_upTo h).symm
  exact ⟨hbefore, hbefore ▸ length_before_lt h⟩

structure Spot where
  scope : Scope
  expr : Expr

namespace Spot

/-- From a value tracing goes on to its operands. From a local it goes on to a value given by
the write that reaches it, and that value may be any: what stands there in the body, or what it
was rebuilt as. -/
inductive Enters : Spot → Spot → Prop
  | operand {sc : Scope} {e x : Expr} (hx : x ∈ e.operands) : Enters ⟨sc, e⟩ ⟨sc, x⟩
  | write {sc : Scope} {n : Node} {v : LocalId} {name : String} {w : Write} {x : Expr}
      (hw : sc.find (.localVar v) = some w) : Enters ⟨sc, .localVar n v name⟩ ⟨sc.before w, x⟩

/-- Either less is seen, or as much is and the expression is smaller. -/
theorem enters_wellFounded : WellFounded fun s t : Spot => t.Enters s := by
  refine Subrelation.wf ?_ (InvImage.wf (fun s : Spot => (s.scope.length, sizeOf s.expr))
    (Prod.lex Nat.lt_wfRel Nat.lt_wfRel).wf)
  intro s t h
  cases h with
  | operand hx => exact Prod.Lex.right _ (Expr.sizeOf_operand hx)
  | write hw => exact Prod.Lex.left _ _ (Scope.length_before_lt hw)

/-- Spots from which tracing does not lead out. -/
def Hereditary (P : Spot → Prop) : Prop := ∀ s t, P s → s.Enters t → P t

theorem Hereditary.subterm {P : Spot → Prop} (hP : Hereditary P) {sc : Scope} {e x : Expr}
    (h : P ⟨sc, e⟩) (hx : x ∈ e.subterms) : P ⟨sc, x⟩ := by
  obtain rfl | ⟨y, hy, hxy⟩ := Expr.mem_subterms.1 hx
  · exact h
  · exact hP.subterm (hP _ _ h (.operand hy)) hxy
termination_by sizeOf e
decreasing_by exact Expr.sizeOf_operand hy

theorem Hereditary.write {P : Spot → Prop} (hP : Hereditary P) {sc : Scope} {e x : Expr} {n : Node}
    {v : LocalId} {name : String} {w : Write} (h : P ⟨sc, e⟩) (hv : .localVar n v name ∈ e.subterms)
    (hw : sc.find (.localVar v) = some w) : P ⟨sc.before w, x⟩ :=
  hP _ _ (hP.subterm h hv) (.write hw)

end Spot

/-- Two ways to go on from shorter scopes that agree wherever the locals of `e` lead. -/
def Expr.AgreeBelow {α : Type} (sc : Scope)
    (f g : (s : Scope) → s.length < sc.length → Expr → Drafting α) (e : Expr) : Prop :=
  ∀ n v name, .localVar n v name ∈ e.subterms → ∀ w hs x, sc.find (.localVar v) = some w →
    f (sc.before w) hs x = g (sc.before w) hs x

theorem Expr.AgreeBelow.part {α : Type} {sc : Scope}
    {f g : (s : Scope) → s.length < sc.length → Expr → Drafting α} {e x : Expr}
    (h : e.AgreeBelow sc f g) (hx : x ∈ e.subterms) : x.AgreeBelow sc f g :=
  fun n v name hv => h n v name (subterms_trans hv hx)

namespace Draft

variable {stages : StageSet} {source dest : Stage} {sc : Scope}
  {f g : (s : Scope) → s.length < sc.length → Expr → Drafting Expr}

mutual
theorem liftIn_congr : ∀ {e : Expr}, e.AgreeBelow sc f g → liftIn stages source dest sc f e =
      liftIn stages source dest sc g e
  | .literal .., _ | .constant .., _ | .param .., _ | .binary .., _ | .initList .., _ | .call .., _
  | .methodCall .., _
  | .member .., _ | .interface .., _ | .unsupported .., _ => by simp only [liftIn]
  | .construct n args, h => by
    rw [liftIn, liftIn, liftAllIn_congr fun e he => h.part (by simp [Expr.mem_subtermsOf he])]
  | .unary n op e, h | .cast n e, h => by
    rw [liftIn, liftIn, liftIn_congr (e := e) (h.part (by simp [Expr.self_mem_subterms]))]
  | .localVar n v name, h => by
    by_cases hw : ∃ written o, sc.find (.localVar v) = some ⟨.declaration written, o⟩
    · obtain ⟨written, o, hw⟩ := hw
      have hbelow x := h n v name (by simp) _ (Scope.length_before_lt hw) x hw
      rw [liftIn_declared hw, liftIn_declared hw, Drafting.expect_bind, Drafting.expect_bind]
      refine bind_congr fun d => ?_
      exact congrArg (· >>= _) (hbelow _)
    · rw [liftIn_crosses (Expr.crosses_localVar.2 hw), liftIn_crosses (Expr.crosses_localVar.2 hw)]
theorem liftAllIn_congr : ∀ {es : List Expr}, (∀ e ∈ es, e.AgreeBelow sc f g) →
    liftAllIn stages source dest sc f es = liftAllIn stages source dest sc g es
  | [], _ => by simp only [liftAllIn]
  | e :: es, h => by
    rw [liftAllIn, liftAllIn, liftIn_congr (h e (by simp)), liftAllIn_congr
      fun x hx => h x (by simp [hx])]
end

end Draft

namespace Aim

variable {a : Aim} {sc : Scope} {f g : (s : Scope) → s.length < sc.length → Expr → Drafting Traced}

mutual
theorem visitIn_congr :
    ∀ {m : Bool} {e : Expr}, e.AgreeBelow sc f g → a.visitIn sc f m e = a.visitIn sc g m e
  | _, .literal .., _ | _, .constant .., _ | _, .param .., _ | _, .interface .., _
  | _, .unsupported .., _ => by
    simp only [visitIn]
  | m, .localVar n v name, h => by
    cases hw : sc.find (.localVar v) with
    | none =>
      rw [visitIn_localVar, visitIn_localVar, visitLocal_unreached hw, visitLocal_unreached hw]
    | some w =>
      have hbelow x := h n v name (by simp) w (Scope.length_before_lt hw) x hw
      obtain ⟨site, o⟩ := w
      cases site with
      | declaration written =>
        rw [visitIn_localVar, visitIn_localVar, visitLocal_declared hw, visitLocal_declared hw]
        rw [show f (sc.upTo o) _ written.init = g (sc.upTo o) _ written.init from hbelow _]
      | assignment x =>
        rw [visitIn_localVar, visitIn_localVar, visitLocal_assigned hw, visitLocal_assigned hw]
        rw [show f (sc.upTo o) _ x = g (sc.upTo o) _ x from hbelow _]
  | m, .binary n op lhs rhs, h => by
    rw [visitIn, visitIn, visitIn_congr (e := lhs) (h.part (by simp [Expr.self_mem_subterms])),
      visitIn_congr (e := rhs) (h.part (by simp [Expr.self_mem_subterms]))]
  | m, .unary n op e, h | m, .cast n e, h | m, .member n e field, h => by
    rw [visitIn, visitIn, visitIn_congr (e := e) (h.part (by simp [Expr.self_mem_subterms]))]
  | m, .construct n args, h | m, .initList n args, h | m, .call n func args, h => by
    rw [visitIn, visitIn, visitAllIn_congr fun e he => h.part (by simp [Expr.mem_subtermsOf he])]
  | m, .methodCall n method object args, h => by
    have hargs : ∀ e ∈ args, e.AgreeBelow sc f g :=
      fun e he => h.part (by simp [Expr.mem_subtermsOf he])
    rw [visitIn, visitIn, visitIn_congr (e := object) (h.part (by simp [Expr.self_mem_subterms])),
      visitAllIn_congr hargs]
    match args, hargs with
    | [], _ | [_], _ | _ :: _ :: _ :: _, _ => rfl
    | [uv, sampler], hargs =>
      dsimp only
      rw [visitIn_congr (e := uv) (hargs uv (by simp))]
theorem visitAllIn_congr : ∀ {es : List Expr}, (∀ e ∈ es, e.AgreeBelow sc f g) →
    a.visitAllIn sc f es = a.visitAllIn sc g es
  | [], _ => by simp only [visitAllIn]
  | e :: es, h => by
    rw [visitAllIn, visitAllIn, visitIn_congr (h e (by simp)), visitAllIn_congr
      fun x hx => h x (by simp [hx])]
end

theorem visit_eq (sc : Scope) (e : Expr) :
    a.visit sc e = a.visitIn sc (fun s _ => a.visit s) false e := by
  rw [visit, visitBelow]
  congr 1
  funext s hs
  exact Scope.below_eq (f := fun sc f => a.visitIn sc f false) (fun _ _ _ => rfl) _ _

/-- On spots that tracing does not leave, whatever calls itself as tracing does is tracing. -/
theorem visit_unique {P : Spot → Prop} (hP : Spot.Hereditary P) {F : Scope → Expr → Drafting Traced}
    (hF : ∀ sc e, P ⟨sc, e⟩ → F sc e = a.visitIn sc (fun s _ => F s) false e) {sc : Scope}
    {e : Expr} (h : P ⟨sc, e⟩) : F sc e = a.visit sc e := by
  rw [hF sc e h, visit_eq]
  refine visitIn_congr fun n v name hv w hs x hw => ?_
  exact visit_unique hP hF (hP.write h hv hw)
termination_by sc.length

theorem visit_solves {P : Spot → Prop} (hP : Spot.Hereditary P) {F : Scope → Expr → Drafting Traced}
    (hF : ∀ sc e, P ⟨sc, e⟩ → F sc e = a.visit sc e) {sc : Scope} {e : Expr} (h : P ⟨sc, e⟩) :
    F sc e = a.visitIn sc (fun s _ => F s) false e := by
  rw [hF sc e h, visit_eq]
  exact visitIn_congr fun n v name hv w hs x hw => (hF _ x (hP.write h hv hw)).symm

end Aim

namespace Draft

variable {stages : StageSet} {source dest : Stage}

theorem lift_eq (sc : Scope) (e : Expr) :
    lift stages source dest sc e = liftIn stages source dest sc
      (fun s _ => lift stages source dest s) e := by
  rw [lift, liftBelow]
  congr 1
  funext s hs
  exact Scope.below_eq (f := liftIn stages source dest) (fun _ _ _ => rfl) _ _

theorem lift_unique {P : Spot → Prop} (hP : Spot.Hereditary P) {F : Scope → Expr → Drafting Expr}
    (hF : ∀ sc e, P ⟨sc, e⟩ → F sc e = liftIn stages source dest sc (fun s _ => F s) e) {sc : Scope}
    {e : Expr} (h : P ⟨sc, e⟩) : F sc e = lift stages source dest sc e := by
  rw [hF sc e h, lift_eq]
  refine liftIn_congr fun n v name hv w hs x hw => ?_
  exact lift_unique hP hF (hP.write h hv hw)
termination_by sc.length

theorem lift_solves {P : Spot → Prop} (hP : Spot.Hereditary P) {F : Scope → Expr → Drafting Expr}
    (hF : ∀ sc e, P ⟨sc, e⟩ → F sc e = lift stages source dest sc e) {sc : Scope} {e : Expr}
    (h : P ⟨sc, e⟩) :
    F sc e = liftIn stages source dest sc (fun s _ => F s) e := by
  rw [hF sc e h, lift_eq]
  exact liftIn_congr fun n v name hv w hs x hw => (hF _ x (hP.write h hv hw)).symm

end Draft

/-- In every body, the scope before a write that is found has fewer statements than the scope it is
found in, so what is entered from a value is below it in a well-founded order. Tracing and lifting
go nowhere else: on any spots that are not left that way, the equation by which each calls itself
has that function as its only solution. -/
theorem Spot.tracing_wellFounded (a : Aim) (stages : StageSet) (source dest : Stage) :
    (∀ (body : List Stmt) (stop : Option NodeId) (v : Var) (w : Write),
      (Scope.visible body stop).find v = some w → Scope.visible body (some w.step) =
        (Scope.visible body stop).before w ∧
        (Scope.visible body (some w.step)).length < (Scope.visible body stop).length) ∧
    WellFounded (fun s t : Spot => t.Enters s) ∧
    (∀ P, Hereditary P → ∀ F : Scope → Expr → Drafting Traced,
      (∀ sc e, P ⟨sc, e⟩ → F sc e = a.visitIn sc (fun s _ => F s) false e) ↔
        ∀ sc e, P ⟨sc, e⟩ → F sc e = a.visit sc e) ∧
    ∀ P, Hereditary P → ∀ F : Scope → Expr → Drafting Expr,
      (∀ sc e, P ⟨sc, e⟩ → F sc e = Draft.liftIn stages source dest sc (fun s _ => F s) e) ↔
        ∀ sc e, P ⟨sc, e⟩ → F sc e = Draft.lift stages source dest sc e := by
  refine ⟨fun body stop v w => Scope.visible_write, enters_wellFounded, fun P hP F => ?_,
    fun P hP F => ?_⟩
  · exact ⟨fun hF sc e => Aim.visit_unique hP hF, fun hF sc e => Aim.visit_solves hP hF⟩
  · exact ⟨fun hF sc e => Draft.lift_unique hP hF, fun hF sc e => Draft.lift_solves hP hF⟩

end ShaderSplit
