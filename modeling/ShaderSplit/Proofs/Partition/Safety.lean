import ShaderSplit.Proofs.Partition.Guarded

namespace ShaderSplit

namespace Draft

open Drafting

variable {p : Pipeline} {E : TraceFault → Prop} {W : Marks} {sc : Scope}
  {stages : StageSet} {s t : Stage}

section
variable {lower : (s : Scope) → s.length < sc.length → Expr → Drafting Expr}
  {guardedLower : (s : Scope) → s.length < sc.length → Expr → Guarding Expr}

theorem liftAllIn_follows {es : List Expr}
    (hstep : ∀ e ∈ es, ∀ W, Paired sc (some s) W e e →
      InStep p.scope W (Paired sc (some t)) (liftIn stages s t sc lower e)
      (liftIn stages s t sc lower e))
    (ih : ∀ e ∈ es, ∀ W, Paired sc (some s) W e e →
      Follows p E W (liftIn stages s t sc lower e) (liftIn stages s t sc guardedLower e))
    (h : ∀ e ∈ es, Paired sc (some s) W e e) :
    Follows p E W (liftAllIn stages s t sc lower es) (liftAllIn stages s t sc guardedLower es) := by
  induction es generalizing W with
  | nil =>
    rw [liftAllIn, liftAllIn]
    exact .pure _
  | cons e es ihes =>
    obtain ⟨he, hes⟩ := List.forall_mem_cons.1 h
    rw [liftAllIn, liftAllIn]
    refine .bind (ih e (by simp) W he) (hstep e (by simp) W he) fun W₁ a hW₁ _ => ?_
    refine .bind_pure (ihes (fun e he => hstep e (by simp [he])) (fun e he => ih e (by simp [he]))
      fun e he => ?_) _
    exact (hes e he).mono hW₁

/-- The declaration that a local is lifted to was rebuilt for the stage that it is lifted from. -/
theorem liftIn_declared_follows {n : Node} {v : LocalId} {name : String} {written : LocalDecl}
    {o : NodeId} (hsc : p.scope.Within sc)
    (hw : sc.find (.localVar v) = some ⟨.declaration written, o⟩) (hm : W o s)
    (hlower : ∀ e, Paired (sc.upTo o) (some s) W e e →
      Follows p E W (lower (sc.upTo o) (Scope.length_before_lt hw) e)
      (guardedLower (sc.upTo o) (Scope.length_before_lt hw) e))
    (hstep : ∀ e, Paired (sc.upTo o) (some s) W e e →
      InStep p.scope W (Paired (sc.upTo o) (some t))
      (lower (sc.upTo o) (Scope.length_before_lt hw) e)
      (lower (sc.upTo o) (Scope.length_before_lt hw) e)) :
    Follows p E W (liftIn stages s t sc lower (.localVar n v name))
      (liftIn stages s t sc guardedLower (.localVar n v name)) := by
  rw [liftIn_declared hw, liftIn_declared hw]
  refine .expect (fun d hd => ?_) fun d hd => ?_
  · obtain ⟨x, _, hx, -⟩ := hd.level.rebuilt o s hm
    rw [hx, Option.isSome_some]
  -- the mark says that the declaration was rebuilt for `s`, with an initializer that is
  -- marked itself
  obtain ⟨x, _, hx, -, -, hinit⟩ := hd.level.rebuilt o s hm
  rw [← hsc _ _ hw] at hinit
  have hpair : Paired (sc.upTo o) (some s) W x.init x.init := ⟨rfl, Expr.markedAt_some.2 hinit⟩
  have hrest := Follows.bind (hlower x.init hpair) (hstep x.init hpair) fun W₁ init _ _ =>
    Follows.change_pure (p := p) (E := E) (f := (·.redeclare s t o { x with init })) (fun _ => rfl)
      (Expr.localVar n v name)
  simp only [Drafting.bind_get, Guarding.bind_get, hx, Option.getD_some]
  exact hrest d hd

theorem liftIn_follows (hE : ∀ s t, E (.noInterface s t)) (hsc : p.scope.Within sc)
    (hstep : ∀ sc' hs W e x, p.scope.Within sc' → Paired sc' (some s) W e x →
      InStep p.scope W (Paired sc' (some t)) (lower sc' hs e) (lower sc' hs x))
    (hlower : ∀ sc' hs W e, p.scope.Within sc' → Paired sc' (some s) W e e →
      Follows p E W (lower sc' hs e) (guardedLower sc' hs e))
    (e : Expr) (W : Marks) (h : Paired sc (some s) W e e) :
    Follows p E W (liftIn stages s t sc lower e) (liftIn stages s t sc guardedLower e) := by
  -- lifting beside itself tells which marks the guarded run finds
  have hlift (e : Expr) (W : Marks) (h : Paired sc (some s) W e e) :
      InStep p.scope W (Paired sc (some t))
      (liftIn stages s t sc lower e) (liftIn stages s t sc lower e) :=
    liftIn_inStep hsc hstep e e W h
  have hcross (W : Marks) {e : Expr} (hc : e.crosses sc = true) :
      Follows p E W (liftIn stages s t sc lower e) (liftIn stages s t sc guardedLower e) := by
    rw [liftIn_crosses hc, liftIn_crosses hc]
    exact .unguarded (transfer_regular hE)
  induction e using Expr.ind generalizing W with
  | literal | constant =>
    rw [liftIn, liftIn]
    exact .pure _
  | construct n args ih =>
    rw [liftIn, liftIn]
    refine .bind_pure (liftAllIn_follows (fun e _ => hlift e) ih fun e he => ?_) _
    exact ⟨rfl, Expr.markedAt_construct.1 h.2 e he⟩
  | unary n op e ih | cast n e ih =>
    rw [liftIn, liftIn]
    exact .bind_pure (ih W ⟨rfl, h.2⟩) _
  | localVar n v name =>
    by_cases hw : ∃ written o, sc.find (.localVar v) = some ⟨.declaration written, o⟩
    · obtain ⟨written, o, hw⟩ := hw
      have hmark : W o s := Expr.markedAt_some.1 h.2 v (by simp [Expr.isDeclared, hw]) written o hw
      have hbelow : p.scope.Within (sc.upTo o) := (hsc _ _ hw).symm ▸ Scope.within_upTo p.scope o
      exact liftIn_declared_follows hsc hw hmark (fun e he => hlower _ _ W e hbelow he)
        fun e he => hstep _ _ W e e hbelow he
    · exact hcross W (Expr.crosses_localVar.2 hw)
  | _ => exact hcross W rfl

end

theorem liftBelow_follows {n : Nat} {e : Expr} (hE : ∀ s t, E (.noInterface s t))
    (hsc : p.scope.Within sc) (hn : sc.length < n) (h : Paired sc (some s) W e e) :
    Follows p E W (liftBelow stages s t n sc hn e) (liftBelow stages s t n sc hn e) := by
  induction n generalizing sc W e with
  | zero => exact absurd hn (Nat.not_lt_zero _)
  | succ n ih =>
    rw [liftBelow, liftBelow]
    exact liftIn_follows hE hsc (fun _ _ _ _ _ hsc' hp => liftBelow_inStep hsc' _ hp)
      (fun _ _ _ _ hsc' hp => ih hsc' _ hp) e W h

theorem promote_follows {pl wanted : Placement} {e : Expr} (hE : ∀ s t, E (.noInterface s t))
    (horder : ∀ s t, pl = some s → wanted = some t → t < s → E (.stageOrder s t))
    (hsc : p.scope.Within sc) (h : Paired sc pl W e e) :
    Follows p E W (promoteM stages sc pl wanted e) (promoteM stages sc pl wanted e) := by
  cases pl with
  | none => exact .pure _
  | some s =>
    cases wanted with
    | none => exact .pure _
    | some t =>
      unfold promoteM
      dsimp only
      split
      · exact .pure _
      · split
        next hlt => exact .throw (horder s t rfl rfl hlt)
        · exact liftBelow_follows hE hsc _ h

end Draft

namespace Aim

open Drafting Draft

variable {a : Aim} {W : Marks} {sc : Scope}

theorem promoteAll_follows {wanted : Placement} {ts : List Traced}
    (hsc : a.pipeline.scope.Within sc) (h : ∀ t ∈ ts, Paired sc t.stage W t.expr t.expr)
    (hw : wanted = none → ∀ t ∈ ts, t.stage = none) :
    Follows a.pipeline TraceFault.Expected W (a.promoteAll sc wanted ts)
      (a.promoteAll sc wanted ts) := by
  induction ts generalizing W with
  | nil => exact .pure _
  | cons t ts ih =>
    obtain ⟨ht, hts⟩ := List.forall_mem_cons.1 h
    rw [promoteAll, promoteAll]
    refine .bind (promote_follows (fun _ _ => trivial) (fun _ _ _ _ _ => trivial) hsc ht)
      (promote_inStep hsc ht fun hn => hw hn t (by simp)) fun W₁ e hW₁ _ => ?_
    exact .bind_pure (ih (fun t ht => (hts t ht).mono hW₁) fun hn t ht => hw hn t (by simp [ht])) _

theorem check_follows {α : Type} {m : Bool} {n : Node} {k : Drafting α} {k' : Guarding α}
    (h : ∀ W', W ≤ W' → Follows a.pipeline TraceFault.Expected W' k k') :
    Follows a.pipeline TraceFault.Expected W (if m = true then k else a.checkValue n >>= fun _ => k)
      (if m = true then k' else liftM (a.checkValue n) >>= fun _ => k') := by
  split
  · exact h W (le_refl W)
  · exact .bind (.unguarded checkValue_regular) checkValue_inStep fun W' _ hW _ => h W' hW

variable {lower : (s : Scope) → s.length < sc.length → Expr → Drafting Traced}
  {guardedLower : (s : Scope) → s.length < sc.length → Expr → Guarding Traced}

theorem sampledStage_error {object : Expr} {fault : TraceFault}
    (h : a.sampledStage object = .error fault) : fault.Expected := by
  unfold sampledStage at h
  split at h
  · split at h <;> cases h
    trivial
  · cases h
    trivial

theorem sample_follows {p : Pipeline} {s : Stage} {i : NodeId} {texture : Nat} {sampler : Expr}
    (h : ∃ x ∈ p.signature.textures, x.param = texture) :
    Follows p TraceFault.Expected W
      (Guards.bar .unbound TraceFault.isUnbound (Draft.sample s i texture sampler))
      (Guards.bar .unbound TraceFault.isUnbound (Draft.sample s i texture sampler).unguarded) := by
  refine .bar (fun d hd => ?_) fun f hf => ?_
  · have ho := SampleRequest.run_outcome ⟨s, i, texture, sampler⟩ d
    unfold SampleRequest.run at ho
    unfold Drafting.unguarded
    dsimp only at ho ⊢
    generalize Draft.sample s i texture sampler d = r at ho ⊢
    cases ho with
    | argument => exact .error trivial
    | full => exact .error trivial
    | granted => exact .ok ((recordSample_alike ..).textures.symm.trans hd.binds)
    | unbound hnone =>
      obtain ⟨x, hx, hparam⟩ := hd.binds.iff.2 h
      exact absurd hparam (hnone x hx)
  · cases f <;> first | rfl | cases hf

def VisitsAlike (a : Aim) (lower : (s : Scope) → s.length < sc.length → Expr → Drafting Traced)
    (guardedLower : (s : Scope) → s.length < sc.length → Expr → Guarding Traced)
    (e : Expr) : Prop :=
  ∀ m W, Follows a.pipeline TraceFault.Expected W (a.visitIn sc lower m e)
    (a.visitIn sc guardedLower m e)

section
variable (hstep : ∀ e m W, InStep a.pipeline.scope W (Traced.Meets sc) (a.visitIn sc lower m e)
    (a.visitIn sc lower m e))
include hstep

theorem visitAllIn_follows {es : List Expr} (ih : ∀ e ∈ es, VisitsAlike a lower guardedLower e) :
    Follows a.pipeline TraceFault.Expected W (a.visitAllIn sc lower es)
      (a.visitAllIn sc guardedLower es) := by
  induction es generalizing W with
  | nil =>
    rw [visitAllIn, visitAllIn]
    exact .pure _
  | cons e es ihes =>
    rw [visitAllIn, visitAllIn]
    refine .bind (ih e (by simp) false W) (hstep e false W) fun W₁ t _ _ => ?_
    exact .bind_pure (ihes fun e he => ih e (by simp [he])) _

theorem args_follows {α : Type} {es : List Expr} {wanted : List Traced → Placement}
    {g : List Traced → List Expr → α} (hsc : a.pipeline.scope.Within sc)
    (hw : ∀ ts, wanted ts = none → ∀ t ∈ ts, t.stage = none)
    (ih : ∀ e ∈ es, VisitsAlike a lower guardedLower e) :
    Follows a.pipeline TraceFault.Expected W
      (do
        let ts ← a.visitAllIn sc lower es
        return g ts (← a.promoteAll sc (wanted ts) ts))
      (do
        let ts ← a.visitAllIn sc guardedLower es
        return g ts (← a.promoteAll sc (wanted ts) ts)) := by
  refine .bind (visitAllIn_follows hstep ih) (visitAllIn_inStep fun e _ => hstep e)
    fun W₁ ts _ hts => ?_
  have hpairs : ∀ t ∈ ts, Paired sc t.stage W₁ t.expr t.expr :=
    fun t ht => (List.forall₂_same.1 hts t ht).2
  exact .bind_pure (promoteAll_follows hsc hpairs (hw ts)) _

theorem visitIn_sample_follows {m : Bool} {n : Node} {method : DeclId} {f : BuiltinMethod}
    {object : Expr} {args : List Expr} (hp : a.pipeline.Vetted) (hsc : a.pipeline.scope.Within sc)
    (hm : a.pipeline.catalog.method? method = some f) (hs : f.isSample = true)
    (ih : ∀ e ∈ args, VisitsAlike a lower guardedLower e) :
    Follows a.pipeline TraceFault.Expected W
      (a.visitIn sc lower m (.methodCall n method object args))
      (a.visitIn sc guardedLower m (.methodCall n method object args)) := by
  rw [visitIn, visitIn, hm]
  simp only [hs, if_true]
  cases hf : a.sampledStage object with
  | error fault => exact .throw (sampledStage_error hf)
  | ok found =>
    obtain ⟨texture, s⟩ := found
    obtain ⟨-, q, -, hq, -, hrole⟩ := sampledStage_ok hf
    rcases args with _ | ⟨uv, _ | ⟨sampler, _ | _⟩⟩
    case cons.cons.nil =>
      refine .bind (ih uv (by simp) false W) (hstep uv false W) fun W₁ t _ ht => ?_
      refine .bind (promote_follows (fun _ _ => trivial) (fun _ _ _ _ _ => trivial) hsc ht.2)
        (promote_inStep hsc ht.2 (by simp)) fun W₂ e _ _ => ?_
      refine .bind (.unguarded fresh_regular) fresh_inStep fun W₃ i _ _ => ?_
      exact .bind_pure (sample_follows (hp.textured texture q hq hrole)) _
    all_goals exact .throw trivial

end

/-- On a vetted function no visit comes to a breach. -/
theorem visitIn_follows (hp : a.pipeline.Vetted) (hsc : ∃ o, sc = a.pipeline.scope.upTo o)
    (hstep : ∀ sc' hs W e, a.pipeline.scope.Within sc' →
      InStep a.pipeline.scope W (Traced.Meets sc') (lower sc' hs e) (lower sc' hs e))
    (hlower : ∀ sc' hs W e, (∃ o, sc' = a.pipeline.scope.upTo o) → e ∈ a.pipeline.scope.terms →
      Follows a.pipeline TraceFault.Expected W (lower sc' hs e) (guardedLower sc' hs e))
    (m : Bool) (e : Expr) (W : Marks) (he : e ∈ a.pipeline.scope.terms) :
    Follows a.pipeline TraceFault.Expected W (a.visitIn sc lower m e)
      (a.visitIn sc guardedLower m e) := by
  have hwithin : a.pipeline.scope.Within sc := by
    obtain ⟨o, rfl⟩ := hsc
    exact Scope.within_upTo _ o
  have hvisit (e : Expr) (m : Bool) (W : Marks) := visitIn_inStep (a := a) hwithin hstep m e W
  have hbelow {v : LocalId} {w : Write} (hw : sc.find (.localVar v) = some w) :
      (∃ o, sc.upTo w.step = a.pipeline.scope.upTo o) ∧ a.pipeline.scope.Within (sc.upTo w.step) ∧
        w.site.value ∈ a.pipeline.scope.terms := by
    obtain ⟨o, rfl⟩ := hsc
    have hscope : (a.pipeline.scope.upTo o).upTo w.step = a.pipeline.scope.upTo w.step :=
      Scope.before_upTo hw
    exact ⟨⟨_, hscope⟩, hscope ▸ Scope.within_upTo _ _, Scope.terms_upTo (Scope.find_value_mem hw)⟩
  have hmem {x : Expr} (xs : List Expr) (hx : x ∈ a.pipeline.scope.terms)
      (hxs : ∀ y ∈ xs, y ∈ x.subterms) :
      ∀ y ∈ xs, y ∈ a.pipeline.scope.terms := fun y hy => Scope.terms_trans (hxs y hy) hx
  have hpromote {W : Marks} {pl wanted : Placement} {x : Expr} (h : Paired sc pl W x x) :
      Follows a.pipeline TraceFault.Expected W (promoteM a.pipeline.stages sc pl wanted x)
        (promoteM a.pipeline.stages sc pl wanted x) :=
    promote_follows (fun _ _ => trivial) (fun _ _ _ _ _ => trivial) hwithin h
  -- an operand is visited with the marks that the ones before it have left
  induction e using Expr.ind generalizing m W with
  | literal | constant =>
    rw [visitIn, visitIn]
    exact .pure _
  | param n i =>
    rw [visitIn, visitIn]
    exact .unguarded visitParam_regular
  | localVar n v name =>
    rw [visitIn, visitIn]
    refine check_follows fun W₁ _ => .expect (fun _ _ => by rw [hp.valued v, Bool.not_false]) ?_
    cases hw : sc.find (.localVar v) with
    | none =>
      rw [visitLocal_unreached hw, visitLocal_unreached hw]
      exact .throw trivial
    | some w =>
      obtain ⟨hscope, hin, hvalue⟩ := hbelow hw
      obtain ⟨site, o⟩ := w
      cases site with
      | declaration written =>
        rw [visitLocal_declared hw, visitLocal_declared hw]
        refine .bind (hlower _ _ W₁ _ hscope hvalue) (hstep _ _ W₁ _ hin) fun W₂ t _ _ =>
          .change_pure ?_ _
        exact fun _ => rfl
      | assignment x =>
        rw [visitLocal_assigned hw, visitLocal_assigned hw]
        refine .bind (hlower _ _ W₁ _ hscope hvalue) (hstep _ _ W₁ _ hin) fun W₂ t _ _ =>
          .change_pure ?_ _
        exact fun _ => rfl
  | binary n op lhs rhs ihl ihr =>
    have hl := Scope.terms_trans (x := lhs) (by simp [Expr.self_mem_subterms]) he
    have hr := Scope.terms_trans (x := rhs) (by simp [Expr.self_mem_subterms]) he
    rw [visitIn, visitIn]
    refine .bind (ihl false W hl) (hvisit lhs false W) fun W₁ l _ hl => ?_
    refine .bind (ihr false W₁ hr) (hvisit rhs false W₁) fun W₂ r hW₂ hr => ?_
    have hnone : a.wait (a.waits op l.stage r.stage) (l.stage.later r.stage) = none →
        l.stage = none :=
      fun h => (Placement.later_eq_none.1 (wait_eq_none h)).1
    refine .bind (hpromote (hl.2.mono hW₂)) (promote_inStep hwithin (hl.2.mono hW₂) hnone)
      fun W₃ x hW₃ _ => ?_
    exact .bind_pure (hpromote (hr.2.mono hW₃)) _
  | unary n op e ih =>
    have hpart := Scope.terms_trans (x := e) (by simp [Expr.self_mem_subterms]) he
    rw [visitIn, visitIn]
    exact .bind_pure (ih false W hpart) _
  | cast n e ih =>
    have hpart := Scope.terms_trans (x := e) (by simp [Expr.self_mem_subterms]) he
    rw [visitIn, visitIn]
    split
    · exact .throw_bind trivial
    · exact .bind_pure (ih false W hpart) _
  | construct n args ih =>
    have hargs := hmem args he fun x hx => by simp [Expr.mem_subtermsOf hx]
    rw [visitIn, visitIn]
    split
    · exact .throw_bind trivial
    · exact args_follows hvisit hwithin (fun _ => placement_eq_none.1) fun e h m W =>
        ih e h m W (hargs e h)
  | initList n items ih =>
    have hargs := hmem items he fun x hx => by simp [Expr.mem_subtermsOf hx]
    rw [visitIn, visitIn]
    exact args_follows hvisit hwithin (fun _ => placement_eq_none.1) fun e h m W =>
      ih e h m W (hargs e h)
  | call n func args ih =>
    have hargs := hmem args he fun x hx => by simp [Expr.mem_subtermsOf hx]
    rw [visitIn, visitIn]
    cases a.pipeline.catalog.function? func with
    | none => exact .throw trivial
    | some f =>
      have hnone (ts : List Traced) (h : a.wait (a.callWaits f ts) (placement ts) = none) :=
        placement_eq_none.1 (wait_eq_none h)
      exact args_follows hvisit hwithin hnone fun e h m W => ih e h m W (hargs e h)
  | methodCall n method object args iho ih =>
    have hobject := Scope.terms_trans (x := object) (by simp [Expr.self_mem_subterms]) he
    have hargs := hmem args he fun x hx => by simp [Expr.mem_subtermsOf hx]
    cases hm : a.pipeline.catalog.method? method with
    | none =>
      rw [visitIn, visitIn, hm]
      exact .throw trivial
    | some f =>
      cases hs : f.isSample with
      | true =>
        exact visitIn_sample_follows hvisit hp hwithin hm hs fun e h m W => ih e h m W (hargs e h)
      | false =>
        rw [visitIn, visitIn, hm]
        simp only [hs, Bool.false_eq_true, if_false]
        refine .bind (iho false W hobject) (hvisit object false W) fun W₁ t _ _ => ?_
        exact .bind_pure (visitAllIn_follows hvisit fun e h m W => ih e h m W (hargs e h)) _
  | member n base field ih =>
    have hpart := Scope.terms_trans (x := base) (by simp [Expr.self_mem_subterms]) he
    rw [visitIn, visitIn]
    exact check_follows fun W₁ _ => .bind_pure (ih true W₁ hpart) _
  | interface =>
    rw [visitIn, visitIn]
    exact .throw rfl
  | unsupported n what => exact absurd rfl (hp.supported _ he n what)

theorem visitBelow_follows {n : Nat} {e : Expr} (hp : a.pipeline.Vetted)
    (hsc : ∃ o, sc = a.pipeline.scope.upTo o) (hn : sc.length < n)
    (he : e ∈ a.pipeline.scope.terms) :
    Follows a.pipeline TraceFault.Expected W (a.visitBelow n sc hn e) (a.visitBelow n sc hn e) := by
  induction n generalizing sc W e with
  | zero => exact absurd hn (Nat.not_lt_zero _)
  | succ n ih =>
    rw [visitBelow, visitBelow]
    exact visitIn_follows hp hsc (fun _ _ W e hsc' => visitBelow_inStep hsc' _ e W)
      (fun _ _ _ _ hsc' he' => ih hsc' _ he') false e W he

/-- After the check of the target the value is not too late, so promoting it does not fail
for its stage. -/
theorem trace_follows {e : Expr} {o : NodeId} (hp : a.pipeline.Vetted)
    (he : e ∈ a.pipeline.scope.terms) :
    Follows a.pipeline TraceFault.Expected W (a.traceM e o) (a.traceM e o) := by
  have hwithin := Scope.within_upTo a.pipeline.scope o
  unfold traceM
  refine .bind (visitBelow_follows hp ⟨o, rfl⟩ _ he) (visitBelow_inStep hwithin _ e W)
    fun W₁ t _ ht => ?_
  have hrest (hlate : ∀ s, t.stage = some s → ¬ a.target < s) :
      Follows a.pipeline TraceFault.Expected W₁
      (do
        let e ← Guards.bar .late TraceFault.isStageOrder
          (promoteM a.pipeline.stages (a.pipeline.scope.upTo o) t.stage (some a.target) t.expr)
        modify (·.add a.target (.expr e) none))
      (do
        let e ← Guards.bar .late TraceFault.isStageOrder
          (promoteM a.pipeline.stages (a.pipeline.scope.upTo o) t.stage (some a.target) t.expr)
        modify (·.add a.target (.expr e) none)) := by
    have hpromote : Follows a.pipeline (fun f => ∃ s t, f = .noInterface s t) W₁
        (promoteM a.pipeline.stages (a.pipeline.scope.upTo o) t.stage (some a.target) t.expr)
        (promoteM a.pipeline.stages (a.pipeline.scope.upTo o) t.stage (some a.target) t.expr) := by
      -- promoting fails where there is no interface, or for the order of the stages; the
      -- latter is excluded
      refine promote_follows (fun s t => ⟨s, t, rfl⟩) (fun s _ hs ht hlt => ?_) hwithin ht.2
      cases ht
      exact absurd hlt (hlate s hs)
    refine .bind (.weaken (.bar hpromote ?_) ?_) (promote_inStep hwithin ht.2 (by simp))
      fun W₂ e _ _ => ?_
    · rintro f ⟨s, t, rfl⟩
      rfl
    · rintro f ⟨s, t, rfl⟩
      trivial
    · exact .change fun _ => rfl
  cases hs : t.stage with
  | none =>
    rw [hs] at hrest
    exact hrest (by simp)
  | some s =>
    rw [hs] at hrest
    dsimp only
    split
    · exact .throw_bind trivial
    next hlt =>
      refine hrest fun s' hs' => ?_
      cases hs'
      exact hlt

end Aim

namespace Pipeline

variable {p : Pipeline} {E : TraceFault → Prop} {W : Marks}

theorem traceOutput_follows {stage : Stage} {q : Param} {i : Nat} (hp : p.Vetted) :
    Follows p TraceFault.Expected W (p.traceOutputM stage q i) (p.traceOutputM stage q i) := by
  unfold traceOutputM
  cases hw : p.scope.find (.param i) with
  | none => exact .change fun _ => rfl
  | some w =>
    obtain ⟨site, o⟩ := w
    cases site with
    | declaration => exact .pure _
    | assignment e => exact Aim.trace_follows (a := ⟨p, stage⟩) hp (Scope.find_value_mem hw)

theorem forM_follows {α : Type} {l : List α} {f : α → Drafting PUnit} {g : α → Guarding PUnit}
    (h : ∀ x, Follows p E (fun _ _ => False) (f x) (g x)) :
    Follows p E (fun _ _ => False) (l.forM f) (l.forM g) := by
  induction l with
  | nil => exact .pure _
  | cons x l ih => exact .seq (h x) fun _ => ih

theorem traceOutputs_follows (hp : p.Vetted) :
    Follows p TraceFault.Expected (fun _ _ => False) p.traceOutputsM p.traceOutputsM :=
  forM_follows fun _ => forM_follows fun _ => traceOutput_follows hp

end Pipeline

namespace Stmt

mutual
theorem exprs_steps : (s : Stmt) → ∀ x ∈ s.steps, ∀ e ∈ x.exprs, ∃ t ∈ s.nested, e ∈ t.exprs
  | decl i span v name ty (some e) => by simp [steps, Step.exprs, nested, exprs]
  | decl i span v name ty none => by simp [steps, Step.exprs]
  | expr i span e => by simp [steps, Step.exprs, nested, exprs]
  | block i span body => by
    intro x hx e he
    rw [steps, List.mem_cons] at hx
    rcases hx with rfl | hx
    · simp [Step.exprs] at he
    · obtain ⟨t, ht, het⟩ := exprs_stepsOf body x hx e he
      exact ⟨t, by rw [nested]; exact List.mem_cons_of_mem _ ht, het⟩
  | null i span => by simp [steps, Step.exprs]
  | unsupported i span what => by simp [steps, Step.exprs]
theorem exprs_stepsOf :
    (ss : List Stmt) → ∀ x ∈ stepsOf ss, ∀ e ∈ x.exprs, ∃ t ∈ nestedOf ss, e ∈ t.exprs
  | [] => by simp [stepsOf]
  | s :: ss => by
    intro x hx e he
    rw [stepsOf, List.mem_append] at hx
    rw [nestedOf]
    rcases hx with hx | hx
    · obtain ⟨t, ht, het⟩ := exprs_steps s x hx e he
      exact ⟨t, List.mem_append_left _ ht, het⟩
    · obtain ⟨t, ht, het⟩ := exprs_stepsOf ss x hx e he
      exact ⟨t, List.mem_append_right _ ht, het⟩
end

end Stmt

namespace Pipeline

variable {c : Catalog} {d : DeclIndex} {f : PipelineFn} {p : Pipeline}

theorem check_vetted (h : check c d f = .ok p) : p.Vetted := by
  obtain ⟨rfl, hf, hsig⟩ := check_wellFormed h
  refine ⟨fun x hx n what => ?_, fun v => ?_, fun i q hq hrole => ?_⟩
  · obtain ⟨s, hs, e, he, hxe⟩ := Scope.mem_terms.1 hx
    obtain ⟨t, ht, het⟩ := Stmt.exprs_stepsOf p.fn.body s hs e he
    exact (hf.body t ht).terms e het x hxe n what
  · rw [lacksValue, List.any_eq_false]
    intro t ht
    split
    next i span w name ty => exact absurd rfl ((hf.body _ ht).initialized i span w name ty)
    · simp
  · have hmem : (q, i) ∈ p.fn.params.zipIdx := List.mem_zipIdx_iff_getElem?.2 hq
    obtain ⟨t, ht, hrec⟩ :=
      Signature.texture_records (hf.params q (List.mem_of_getElem? hq)) hrole i
    rw [hsig]
    exact ⟨t, List.mem_filterMap.2 ⟨(q, i), hmem, ht⟩, hrec.param⟩

/-- Tracing an accepted function never comes to a breach: the guarded tracer ends as the tracer
does, and the faults that are left are expected ones. -/
theorem traceOutputs_guarded (h : check c d f = .ok p) :
    Guarded.traceOutputs p (.start p) = p.traceOutputs.unguarded (.start p) ∧
    (∀ b d', Guarded.traceOutputs p (.start p) ≠ .error (.breach b) d') ∧
    ∀ e d', p.traceOutputs (.start p) = .error e d' → e.fault.Expected := by
  have hbinds : (Draft.start p).Binds p := rfl
  have hagree : Agree TraceFault.Expected (·.Binds p) (p.traceOutputs (.start p))
      (Guarded.traceOutputs p (.start p)) := traceOutputs_follows (check_vetted h) _ hbinds.safe
  unfold Drafting.unguarded
  generalize p.traceOutputs (.start p) = r at hagree ⊢
  generalize Guarded.traceOutputs p (.start p) = r' at hagree ⊢
  cases hagree with
  | ok => exact ⟨rfl, fun _ _ hr => (by cases hr), fun _ _ hr => (by cases hr)⟩
  | error he =>
    refine ⟨rfl, fun _ _ hr => (by cases hr), fun e d' hr => ?_⟩
    cases hr
    exact he

end Pipeline

namespace Sample

open Workbench

def hollow : PipelineFn :=
  let ps := [param "o" (.varyingOutput .fragment)]
  fn "hollow" ps do
    let o ← assign .assign (← arg ps 0) (.localVar ⟨2, .float, .dummy⟩ 0 "a")
    return [.decl 1 .dummy 0 "a" .float none, o]

def garbled : PipelineFn :=
  let ps := [param "o" (.varyingOutput .fragment)]
  fn "garbled" ps do
    return [← assign .assign (← arg ps 0) (← unsupportedExpr "LambdaExpr" .float)]

def breaches (f : PipelineFn) (b : Breach) : Bool :=
  match Guarded.traceOutputs (pipeline f) (.start (pipeline f)) with
  | .error (.breach b') _ => b' = b
  | _ => false

end Sample

open Sample in
/-- A local is lifted without a breach; what is not accepted may come to one. -/
theorem Pipeline.traceOutputs_guarded_tinted : check bare ⟨[]⟩ tinted = .ok (pipeline tinted) ∧
    Guarded.traceOutputs (pipeline tinted) (.start (pipeline tinted)) =
      (pipeline tinted).traceOutputs.unguarded (.start (pipeline tinted)) ∧
    breaches hollow .uninitialized = true ∧ breaches garbled .unsupported = true := by
  have hcheck := check_pipeline (f := tinted) (by decide +kernel)
  exact ⟨hcheck, (traceOutputs_guarded hcheck).1, by decide +kernel, by decide +kernel⟩

end ShaderSplit
