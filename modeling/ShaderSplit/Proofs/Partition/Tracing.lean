import ShaderSplit.Partition.Program
import ShaderSplit.Proofs.Partition.Carry
import ShaderSplit.Proofs.Stage.Order

namespace ShaderSplit

namespace Draft

/-- A declaration is rebuilt for a stage, and used there once more. -/
def declare (d : Draft) (o : NodeId) (s : Stage) (decl : LocalDecl) : Draft :=
  (d.setRebuilt o s decl).add s (.decl decl) (some o)

end Draft

namespace Aim

/-- A type that may stand here; below a member access any may. -/
def Admits (a : Aim) (inMember : Bool) (n : Node) : Prop :=
  inMember = true ∨ a.pipeline.catalog.isValueType n.ty = true

theorem wait_cases (a : Aim) (w : Bool) (p : Placement) :
    a.wait w p = p ∨ a.wait w p = some a.target := by
  unfold wait
  split
  · exact Placement.later_cases _ _
  · exact .inl rfl

theorem wait_eq_none {a : Aim} {w : Bool} {p : Placement} (h : a.wait w p = none) : p = none := by
  unfold wait at h
  split at h
  · exact (Placement.later_eq_none.1 h).1
  · exact h

theorem wait_upto {a : Aim} {w : Bool} {p : Placement} {t : Stage} (h : (a.wait w p).Upto t) :
    p.Upto t := by
  unfold wait at h
  split at h
  · exact (Placement.later_upto.1 h).1
  · exact h

section
variable {ts : List Traced}

theorem foldl_later_upto {p : Placement} {s : Stage} :
    (ts.foldl (fun p t => p.later t.stage) p).Upto s ↔ p.Upto s ∧ ∀ t ∈ ts, t.stage.Upto s := by
  induction ts generalizing p with
  | nil => simp
  | cons t ts ih =>
    rw [List.foldl_cons, ih, Placement.later_upto]
    simp [and_assoc]

theorem placement_upto {s : Stage} : (placement ts).Upto s ↔ ∀ t ∈ ts, t.stage.Upto s := by
  rw [placement, foldl_later_upto]
  simp [Placement.upto_none]

theorem foldl_later_eq_none {p : Placement} :
    ts.foldl (fun p t => p.later t.stage) p = none ↔ p = none ∧ ∀ t ∈ ts, t.stage = none := by
  induction ts generalizing p with
  | nil => simp
  | cons t ts ih =>
    rw [List.foldl_cons, ih, Placement.later_eq_none]
    simp [and_assoc]

theorem placement_eq_none : placement ts = none ↔ ∀ t ∈ ts, t.stage = none := by
  simp [placement, foldl_later_eq_none]

theorem foldl_later_mem {p : Placement} {s : Stage}
    (h : ts.foldl (fun p t => p.later t.stage) p = some s) :
    p = some s ∨ ∃ t ∈ ts, t.stage = some s := by
  induction ts generalizing p with
  | nil => exact .inl h
  | cons t ts ih =>
    rcases ih h with hl | ⟨x, hx, hs⟩
    · rcases Placement.later_cases p t.stage with hp | hp
      · exact .inl (hp.symm.trans hl)
      · exact .inr ⟨t, by simp, hp.symm.trans hl⟩
    · exact .inr ⟨x, by simp [hx], hs⟩

theorem placement_mem {s : Stage} (h : placement ts = some s) : ∃ t ∈ ts, t.stage = some s :=
  (foldl_later_mem h).resolve_left (by simp)

end

inductive PromotesAll (a : Aim) (sc : Scope) (wanted : Placement) :
    List Traced → Draft → List Expr → Draft → Prop
  | nil {d : Draft} : PromotesAll a sc wanted [] d [] d
  | cons {t : Traced} {ts : List Traced} {e : Expr} {es : List Expr} {d d₁ d₂ : Draft}
      (h : Draft.Promotes a.pipeline.stages sc t.stage wanted t.expr d e d₁)
      (hs : PromotesAll a sc wanted ts d₁ es d₂) : PromotesAll a sc wanted (t :: ts) d (e :: es) d₂

/-- Tracing a list of expressions; a single expression is a list of one. -/
inductive Traces (a : Aim) : Scope → Bool → List Expr → Draft → List Traced → Draft → Prop
  | nil {sc : Scope} {d : Draft} : Traces a sc false [] d [] d
  | cons {sc : Scope} {e : Expr} {es : List Expr} {t : Traced} {ts : List Traced} {d d₁ d₂ : Draft}
      (h : Traces a sc false [e] d [t] d₁) (hs : Traces a sc false es d₁ ts d₂) :
      Traces a sc false (e :: es) d (t :: ts) d₂
  | literal {sc : Scope} {m : Bool} {n : Node} {v : Literal} {d : Draft} :
      Traces a sc m [.literal n v] d [⟨.literal n v, none⟩] d
  | constant {sc : Scope} {m : Bool} {n : Node} {v : ConstValue} {d : Draft} :
      Traces a sc m [.constant n v] d [⟨.constant n v, none⟩] d
  | param {sc : Scope} {m : Bool} {n : Node} {i : Nat} {q : Param} {d d' : Draft}
      (hq : a.pipeline.fn.params[i]? = some q) (hn : a.Admits m n)
      (hf : q.role = .captured → a.captureFault q = none)
      (hd : d' = if q.role = .captured then d.capture i else d) :
      Traces a sc m [.param n i] d [⟨.param n i, some q.role.stage⟩] d'
  | declared {sc : Scope} {m : Bool} {n : Node} {v : LocalId} {name : String} {written : LocalDecl}
      {o : NodeId} {t : Traced} {s : Stage} {d d₁ : Draft} (hn : a.Admits m n)
      (hw : sc.find (.localVar v) = some ⟨.declaration written, o⟩)
      (hi : Traces a (sc.upTo o) false [written.init] d [t] d₁) (hs : t.stage.getD a.target = s) :
      Traces a sc m [.localVar n v name] d [⟨.localVar n v name, some s⟩]
        (d₁.declare o s ⟨v, name, written.ty, t.expr⟩)
  | assigned {sc : Scope} {m : Bool} {n : Node} {v : LocalId} {name : String} {x : Expr}
      {o : NodeId} {t : Traced} {s : Stage} {d d₁ : Draft} (hn : a.Admits m n)
      (hw : sc.find (.localVar v) = some ⟨.assignment x, o⟩)
      (hx : Traces a (sc.upTo o) false [x] d [t] d₁) (hs : t.stage.getD a.target = s) :
      Traces a sc m [.localVar n v name] d [⟨.localVar n v name, some s⟩]
        (d₁.add s (.expr t.expr) (some o))
  | binary {sc : Scope} {m : Bool} {n : Node} {op : BinaryOp} {lhs rhs lhs' rhs' : Expr}
      {l r : Traced} {p : Placement} {d d₁ d₂ d₃ d₄ : Draft} (hl : Traces a sc false [lhs] d [l] d₁)
      (hr : Traces a sc false [rhs] d₁ [r] d₂)
      (hp : a.wait (a.waits op l.stage r.stage) (l.stage.later r.stage) = p)
      (pl : Draft.Promotes a.pipeline.stages sc l.stage p l.expr d₂ lhs' d₃)
      (pr : Draft.Promotes a.pipeline.stages sc r.stage p r.expr d₃ rhs' d₄) :
      Traces a sc m [.binary n op lhs rhs] d [⟨.binary n op lhs' rhs', p⟩] d₄
  | unary {sc : Scope} {m : Bool} {n : Node} {op : UnaryOp} {e : Expr} {t : Traced} {d d₁ : Draft}
      (h : Traces a sc false [e] d [t] d₁) :
      Traces a sc m [.unary n op e] d [⟨.unary n op t.expr, t.stage⟩] d₁
  | cast {sc : Scope} {m : Bool} {n : Node} {e : Expr} {t : Traced} {d d₁ : Draft}
      (hn : (a.pipeline.catalog.type? n.ty).isNone = false ∨ n.ty.isScalar = true)
      (h : Traces a sc false [e] d [t] d₁) :
      Traces a sc m [.cast n e] d [⟨.cast n t.expr, t.stage⟩] d₁
  | construct {sc : Scope} {m : Bool} {n : Node} {args args' : List Expr} {ts : List Traced}
      {d d₁ d₂ : Draft} (hn : (a.pipeline.catalog.type? n.ty).isNone = false)
      (h : Traces a sc false args d ts d₁) (hp : a.PromotesAll sc (placement ts) ts d₁ args' d₂) :
      Traces a sc m [.construct n args] d [⟨.construct n args', placement ts⟩] d₂
  | initList {sc : Scope} {m : Bool} {n : Node} {items items' : List Expr} {ts : List Traced}
      {d d₁ d₂ : Draft} (h : Traces a sc false items d ts d₁)
      (hp : a.PromotesAll sc (placement ts) ts d₁ items' d₂) :
      Traces a sc m [.initList n items] d [⟨.initList n items', placement ts⟩] d₂
  | call {sc : Scope} {m : Bool} {n : Node} {func : DeclId} {f : BuiltinFunction}
      {args args' : List Expr} {ts : List Traced} {p : Placement} {d d₁ d₂ : Draft}
      (hf : a.pipeline.catalog.function? func = some f) (h : Traces a sc false args d ts d₁)
      (hp : a.wait (a.callWaits f ts) (placement ts) = p) (ha : a.PromotesAll sc p ts d₁ args' d₂) :
      Traces a sc m [.call n func args] d [⟨.call n func args', p⟩] d₂
  | sample {sc : Scope} {m : Bool} {n : Node} {method : DeclId} {f : BuiltinMethod}
      {object uv uv' sampler : Expr} {texture k : Nat} {s : Stage} {t : Traced} {d d₁ d₂ d₃ : Draft}
      (hm : a.pipeline.catalog.method? method = some f) (hs : f.isSample = true)
      (ho : a.sampledStage object = .ok (texture, s)) (ht : Traces a sc false [uv] d [t] d₁)
      (hp : Draft.Promotes a.pipeline.stages sc t.stage (some s) t.expr d₁ uv' d₂)
      (hk : Draft.sample s d₂.nextId texture sampler (d₂.tick 1) = .ok k d₃) :
      Traces a sc m [.methodCall n method object [uv, sampler]] d
        [⟨.methodCall ⟨d₂.nextId, n.ty, n.span⟩ method object [uv', sampler], some s⟩] d₃
  | method {sc : Scope} {m : Bool} {n : Node} {method : DeclId} {f : BuiltinMethod} {object : Expr}
      {args : List Expr} {t : Traced} {ts : List Traced} {d d₁ d₂ : Draft}
      (hm : a.pipeline.catalog.method? method = some f) (hs : f.isSample = false)
      (ho : Traces a sc false [object] d [t] d₁) (ha : Traces a sc false args d₁ ts d₂) :
      Traces a sc m [.methodCall n method object args] d
        [⟨.methodCall n method t.expr (ts.map (·.expr)), t.stage⟩] d₂
  | member {sc : Scope} {m : Bool} {n : Node} {base : Expr} {field : String} {t : Traced}
      {d d₁ : Draft} (hn : a.Admits m n) (h : Traces a sc true [base] d [t] d₁) :
      Traces a sc m [.member n base field] d [⟨.member n t.expr field, t.stage⟩] d₁

section
variable {m : Type → Type} [Monad m] [MonadStateOf Draft m] [MonadExceptOf TraceError m] {a : Aim}
  {sc : Scope} {lower : (s : Scope) → s.length < sc.length → Expr → m Traced} {n : Node}
  {v : LocalId} {name : String} {o : NodeId}

theorem visitLocal_unreached (hw : sc.find (.localVar v) = none) :
    a.visitLocal sc lower n v name = throw ⟨.unreached name, n.span⟩ := by
  unfold visitLocal
  split <;> rename_i hf <;> cases hw.symm.trans hf
  rfl

theorem visitLocal_declared {written : LocalDecl}
    (hw : sc.find (.localVar v) = some ⟨.declaration written, o⟩) :
    a.visitLocal sc lower n v name = do
      let r ← lower (sc.upTo o) (Scope.length_before_lt hw) written.init
      modify (·.declare o (r.stage.getD a.target) ⟨v, name, written.ty, r.expr⟩)
      return ⟨.localVar n v name, some (r.stage.getD a.target)⟩ := by
  unfold visitLocal
  split <;> rename_i hf <;> cases hw.symm.trans hf
  rfl

theorem visitLocal_assigned {x : Expr} (hw : sc.find (.localVar v) = some ⟨.assignment x, o⟩) :
    a.visitLocal sc lower n v name = do
      let r ← lower (sc.upTo o) (Scope.length_before_lt hw) x
      modify (·.add (r.stage.getD a.target) (.expr r.expr) (some o))
      return ⟨.localVar n v name, some (r.stage.getD a.target)⟩ := by
  unfold visitLocal
  split <;> rename_i hf <;> cases hw.symm.trans hf
  rfl

end

section
variable {a : Aim} {sc : Scope}
  {lower : (s : Scope) → s.length < sc.length → Expr → Drafting Traced}

theorem checkValue_ok {α : Type} {m : Bool} {n : Node} {k : Drafting α} {t : α} {d d' : Draft}
    (h : (if m = true then k else a.checkValue n >>= fun _ => k) d = .ok t d') :
    a.Admits m n ∧ k d = .ok t d' := by
  by_cases hm : m = true
  · rw [if_pos hm] at h
    exact ⟨.inl hm, h⟩
  · rw [if_neg hm] at h
    obtain ⟨_, d₁, hc, hk⟩ := Drafting.bind_ok.1 h
    unfold checkValue at hc
    split at hc
    · rename_i hv
      obtain ⟨-, rfl⟩ := Drafting.pure_ok.1 hc
      exact ⟨.inr hv, hk⟩
    · exact (Drafting.throw_ok.1 hc).elim

theorem visitParam_ok {m : Bool} {n : Node} {i : Nat} {t : Traced} {d d' : Draft}
    (h : a.visitParam m n i d = .ok t d') : Traces a sc m [.param n i] d [t] d' := by
  unfold visitParam at h
  cases hq : a.pipeline.fn.params[i]? with
  | none =>
    rw [hq] at h
    exact (Drafting.throw_ok.1 h).elim
  | some q =>
    rw [hq] at h
    obtain ⟨hn, h⟩ := checkValue_ok h
    by_cases hr : q.role = .captured
    · rw [if_pos hr] at h
      cases hf : a.captureFault q with
      | some fault =>
        rw [hf] at h
        obtain ⟨_, _, ht, -⟩ := Drafting.bind_ok.1 h
        exact (Drafting.throw_ok.1 ht).elim
      | none =>
        rw [hf] at h
        simp only [Drafting.bind_ok, Drafting.modify_ok, Drafting.pure_ok] at h
        obtain ⟨_, _, rfl, rfl, rfl⟩ := h
        exact .param hq hn (fun _ => hf) (if_pos hr).symm
    · rw [if_neg hr] at h
      obtain ⟨rfl, rfl⟩ := Drafting.pure_ok.1 h
      exact .param hq hn (fun hc => absurd hc hr) (if_neg hr).symm

theorem promoteAll_ok {wanted : Placement} {ts : List Traced} {es : List Expr} {d d' : Draft}
    (h : (a.promoteAll sc wanted ts : Drafting (List Expr)) d = .ok es d') :
    a.PromotesAll sc wanted ts d es d' := by
  induction ts generalizing es d with
  | nil =>
    rw [promoteAll] at h
    obtain ⟨rfl, rfl⟩ := Drafting.pure_ok.1 h
    exact .nil
  | cons t ts ih =>
    simp only [promoteAll, Drafting.bind_ok, Drafting.pure_ok] at h
    obtain ⟨e, d₁, he, es', d₂, hes, rfl, rfl⟩ := h
    exact .cons (Draft.promote_ok he) (ih hes)

theorem visitIn_localVar {m : Bool} {n : Node} {v : LocalId} {name : String} :
    a.visitIn sc lower m (.localVar n v name) =
      if m = true then a.visitLocal sc lower n v name
      else a.checkValue n >>= fun _ => a.visitLocal sc lower n v name := by
  rw [visitIn]
  rfl

theorem sample_ok {m : Bool} {n : Node} {method : DeclId} {f : BuiltinMethod} {object : Expr}
    {args : List Expr} {t : Traced} {d d' : Draft} (hm : a.pipeline.catalog.method? method = some f)
    (hs : f.isSample = true)
    (hargs : ∀ uv sampler, args = [uv, sampler] → ∀ {d d' t}, a.visitIn sc lower false uv d =
      .ok t d' → Traces a sc false [uv] d [t] d')
    (h : a.visitIn sc lower m (.methodCall n method object args) d = .ok t d') :
    Traces a sc m [.methodCall n method object args] d [t] d' := by
  rw [visitIn, hm] at h
  simp only [hs, if_true] at h
  cases ho : a.sampledStage object with
  | error fault =>
    rw [ho] at h
    exact (Drafting.throw_ok.1 h).elim
  | ok found =>
    obtain ⟨texture, s⟩ := found
    rw [ho] at h
    match args, hargs, h with
    | [], _, h | [_], _, h | _ :: _ :: _ :: _, _, h => exact (Drafting.throw_ok.1 h).elim
    | [uv, sampler], hargs, h =>
      simp only [Drafting.bind_ok, Drafting.pure_ok] at h
      obtain ⟨r, d₁, hr, uv', d₂, hp, id, d₃, hid, k, d₄, hk, rfl, rfl⟩ := h
      cases hid
      exact .sample hm hs ho (hargs uv sampler rfl hr) (Draft.promote_ok hp) hk

mutual
theorem visitIn_ok
    (hlower : ∀ sc' hs e d t d', lower sc' hs e d = .ok t d' → Traces a sc' false [e] d [t] d') :
    ∀ (m : Bool) (e : Expr) {d d' : Draft} {t : Traced}, a.visitIn sc lower m e d = .ok t d' →
      Traces a sc m [e] d [t] d'
  | m, .literal n v, d, d', t, h => by
    rw [visitIn] at h
    obtain ⟨rfl, rfl⟩ := Drafting.pure_ok.1 h
    exact .literal
  | m, .constant n v, d, d', t, h => by
    rw [visitIn] at h
    obtain ⟨rfl, rfl⟩ := Drafting.pure_ok.1 h
    exact .constant
  | m, .param n i, d, d', t, h => by
    rw [visitIn] at h
    exact visitParam_ok h
  | m, .localVar n v name, d, d', t, h => by
    cases hw : sc.find (.localVar v) with
    | none =>
      rw [visitIn_localVar, visitLocal_unreached hw] at h
      exact (Drafting.throw_ok.1 (checkValue_ok h).2).elim
    | some w =>
      obtain ⟨site, o⟩ := w
      cases site with
      | declaration written =>
        rw [visitIn_localVar, visitLocal_declared hw] at h
        obtain ⟨hn, h⟩ := checkValue_ok h
        simp only [Drafting.bind_ok, Drafting.modify_ok, Drafting.pure_ok] at h
        obtain ⟨r, d₁, hr, _, _, rfl, rfl, rfl⟩ := h
        exact .declared hn hw (hlower _ _ _ _ _ _ hr) rfl
      | assignment x =>
        rw [visitIn_localVar, visitLocal_assigned hw] at h
        obtain ⟨hn, h⟩ := checkValue_ok h
        simp only [Drafting.bind_ok, Drafting.modify_ok, Drafting.pure_ok] at h
        obtain ⟨r, d₁, hr, _, _, rfl, rfl, rfl⟩ := h
        exact .assigned hn hw (hlower _ _ _ _ _ _ hr) rfl
  | m, .binary n op lhs rhs, d, d', t, h => by
    rw [visitIn] at h
    simp only [Drafting.bind_ok, Drafting.pure_ok] at h
    obtain ⟨l, d₁, hl, r, d₂, hr, lhs', d₃, pl, rhs', d₄, pr, rfl, rfl⟩ := h
    exact .binary (visitIn_ok hlower false lhs hl) (visitIn_ok hlower false rhs hr) rfl
      (Draft.promote_ok pl) (Draft.promote_ok pr)
  | m, .unary n op e, d, d', t, h => by
    rw [visitIn] at h
    simp only [Drafting.bind_ok, Drafting.pure_ok] at h
    obtain ⟨r, d₁, hr, rfl, rfl⟩ := h
    exact .unary (visitIn_ok hlower false e hr)
  | m, .cast n e, d, d', t, h => by
    rw [visitIn] at h
    split at h
    · obtain ⟨_, _, ht, -⟩ := Drafting.bind_ok.1 h
      exact (Drafting.throw_ok.1 ht).elim
    · rename_i hn
      simp only [Drafting.bind_ok, Drafting.pure_ok] at h
      obtain ⟨r, d₁, hr, rfl, rfl⟩ := h
      exact .cast (by grind) (visitIn_ok hlower false e hr)
  | m, .construct n args, d, d', t, h => by
    rw [visitIn] at h
    split at h
    · obtain ⟨_, _, ht, -⟩ := Drafting.bind_ok.1 h
      exact (Drafting.throw_ok.1 ht).elim
    · rename_i hn
      simp only [Drafting.bind_ok, Drafting.pure_ok] at h
      obtain ⟨ts, d₁, hts, args', d₂, hp, rfl, rfl⟩ := h
      exact .construct (Bool.eq_false_iff.2 hn) (visitAllIn_ok hlower args hts) (promoteAll_ok hp)
  | m, .initList n items, d, d', t, h => by
    rw [visitIn] at h
    simp only [Drafting.bind_ok, Drafting.pure_ok] at h
    obtain ⟨ts, d₁, hts, items', d₂, hp, rfl, rfl⟩ := h
    exact .initList (visitAllIn_ok hlower items hts) (promoteAll_ok hp)
  | m, .call n func args, d, d', t, h => by
    rw [visitIn] at h
    cases hf : a.pipeline.catalog.function? func with
    | none =>
      rw [hf] at h
      exact (Drafting.throw_ok.1 h).elim
    | some f =>
      rw [hf] at h
      simp only [Drafting.bind_ok, Drafting.pure_ok] at h
      obtain ⟨ts, d₁, hts, args', d₂, hp, rfl, rfl⟩ := h
      exact .call hf (visitAllIn_ok hlower args hts) rfl (promoteAll_ok hp)
  | m, .methodCall n method object args, d, d', t, h => by
    cases hm : a.pipeline.catalog.method? method with
    | none =>
      rw [visitIn, hm] at h
      exact (Drafting.throw_ok.1 h).elim
    | some f =>
      cases hs : f.isSample with
      | true =>
        refine sample_ok hm hs ?_ h
        rintro uv sampler rfl d d' t ht
        exact visitIn_ok hlower false uv ht
      | false =>
        rw [visitIn, hm] at h
        simp only [hs, Bool.false_eq_true, if_false, Drafting.bind_ok, Drafting.pure_ok] at h
        obtain ⟨r, d₁, hr, ts, d₂, hts, rfl, rfl⟩ := h
        exact .method hm hs (visitIn_ok hlower false object hr) (visitAllIn_ok hlower args hts)
  | m, .member n base field, d, d', t, h => by
    rw [visitIn] at h
    obtain ⟨hn, h⟩ := checkValue_ok h
    obtain ⟨r, d₁, hr, h⟩ := Drafting.bind_ok.1 h
    obtain ⟨rfl, rfl⟩ := Drafting.pure_ok.1 h
    exact .member hn (visitIn_ok hlower true base hr)
  | m, .interface n r, d, d', t, h => by
    rw [visitIn] at h
    exact (Drafting.throw_ok.1 h).elim
  | m, .unsupported n what, d, d', t, h => by
    rw [visitIn] at h
    exact (Drafting.throw_ok.1 h).elim
theorem visitAllIn_ok
    (hlower : ∀ sc' hs e d t d', lower sc' hs e d = .ok t d' → Traces a sc' false [e] d [t] d') :
    ∀ (es : List Expr) {d d' : Draft} {ts : List Traced}, a.visitAllIn sc lower es d = .ok ts d' →
      Traces a sc false es d ts d'
  | [], d, d', ts, h => by
    rw [visitAllIn] at h
    obtain ⟨rfl, rfl⟩ := Drafting.pure_ok.1 h
    exact .nil
  | e :: es, d, d', ts, h => by
    simp only [visitAllIn, Drafting.bind_ok, Drafting.pure_ok] at h
    obtain ⟨t, d₁, ht, ts', d₂, hts, rfl, rfl⟩ := h
    exact .cons (visitIn_ok hlower false e ht) (visitAllIn_ok hlower es hts)
end

end

variable {a : Aim}

theorem visitBelow_ok {n : Nat} :
    ∀ {sc : Scope} (hn : sc.length < n) {e : Expr} {t : Traced} {d d' : Draft},
    (a.visitBelow n sc hn e : Drafting Traced) d = .ok t d' → Traces a sc false [e] d [t] d' := by
  induction n with
  | zero => exact fun hn => absurd hn (Nat.not_lt_zero _)
  | succ n ih =>
    intro sc hn e t d d' h
    rw [visitBelow] at h
    exact visitIn_ok (fun sc' hs e d t d' hl => ih _ hl) false e h

/-- A trace that succeeds: the value is placed no later than the target, brought there and added. -/
theorem trace_ok {e : Expr} {o : NodeId} {u : Unit} {d d' : Draft} (h : a.trace e o d = .ok u d') :
    ∃ t e' d₁ d₂, Traces a (a.pipeline.scope.upTo o) false [e] d [t] d₁ ∧
    (∀ s, t.stage = some s → s ≤ a.target) ∧
      Draft.Promotes a.pipeline.stages (a.pipeline.scope.upTo o) t.stage (some a.target)
        t.expr d₁ e' d₂ ∧
      d' = d₂.add a.target (.expr e') none := by
  unfold trace traceM at h
  obtain ⟨t, d₁, ht, h⟩ := Drafting.bind_ok.1 h
  -- a value beyond the target is refused before it is promoted
  have hle : (∀ s, t.stage = some s → s ≤ a.target) ∧
      (Draft.promote a.pipeline.stages (a.pipeline.scope.upTo o) t.stage (some a.target) t.expr >>=
        fun e => modify (·.add a.target (.expr e) none)) d₁ = .ok u d' := by
    cases hs : t.stage with
    | none =>
      rw [hs] at h
      exact ⟨by simp, h⟩
    | some s =>
      rw [hs] at h
      dsimp only at h
      split at h
      · obtain ⟨_, _, hthrow, -⟩ := Drafting.bind_ok.1 h
        exact (Drafting.throw_ok.1 hthrow).elim
      · rename_i hlt
        refine ⟨fun s' hs' => ?_, h⟩
        cases hs'
        exact Nat.le_of_not_lt hlt
  obtain ⟨e', d₂, hp, hadd⟩ := Drafting.bind_ok.1 hle.2
  exact ⟨t, e', d₁, d₂, visitBelow_ok _ ht, hle.1, Draft.promote_ok hp,
    (Drafting.modify_ok.1 hadd).symm⟩

end Aim

namespace Pipeline

variable {p : Pipeline}

/-- All outputs with their stages, in the order in which they are traced. -/
def allOutputs (p : Pipeline) : List (Stage × Param × Nat) :=
  p.stages.devices.flatMap fun s => (p.outputs s).map (s, ·)

theorem mem_allOutputs {s : Stage} {q : Param} {i : Nat} (h : (s, q, i) ∈ p.allOutputs) :
    s ∈ p.stages.devices ∧ p.fn.params[i]? = some q ∧ q.role.isOutput = true ∧
    q.role.stage = s := by
  simp only [allOutputs, outputs, List.mem_flatMap, List.mem_map, List.mem_filter,
    Prod.mk.injEq] at h
  obtain ⟨s', hs', ⟨q', i'⟩, ⟨hz, hr⟩, rfl, rfl, rfl⟩ := h
  have hi : p.fn.params[i]? = some q := by simpa using List.mem_zipIdx_iff_getElem?.1 hz
  have hr' : q.role.isOutput = true ∧ q.role.stage = s' := by simpa using hr
  exact ⟨hs', hi, hr'.1, hr'.2⟩

inductive Runs (p : Pipeline) : List (Stage × Param × Nat) → Draft → Draft → Prop
  | nil {d : Draft} : Runs p [] d d
  | unwritten {s : Stage} {q : Param} {i : Nat} {rest : List (Stage × Param × Nat)} {d d' : Draft}
      {message : String} (hw : p.scope.find (.param i) = none)
      (hr : Runs p rest (d.notice message) d') : Runs p ((s, q, i) :: rest) d d'
  | written {s : Stage} {q : Param} {i : Nat} {rest : List (Stage × Param × Nat)} {x e : Expr}
      {o : NodeId} {t : Traced} {d d₁ d₂ d' : Draft}
      (hw : p.scope.find (.param i) = some ⟨.assignment x, o⟩)
      (ht : Aim.Traces ⟨p, s⟩ (p.scope.upTo o) false [x] d [t] d₁)
      (hs : ∀ s', t.stage = some s' → s' ≤ s)
      (hp : Draft.Promotes p.stages (p.scope.upTo o) t.stage (some s) t.expr d₁ e d₂)
      (hr : Runs p rest (d₂.add s (.expr e) none) d') : Runs p ((s, q, i) :: rest) d d'

theorem traceOutput_runs {s : Stage} {q : Param} {i : Nat} {rest : List (Stage × Param × Nat)}
    {u : Unit} {d d₁ d' : Draft} (h : p.traceOutput s q i d = .ok u d₁) (hr : Runs p rest d₁ d') :
    Runs p ((s, q, i) :: rest) d d' := by
  unfold traceOutput traceOutputM at h
  cases hw : p.scope.find (.param i) with
  | none =>
    rw [hw] at h
    cases Drafting.modify_ok.1 h
    exact .unwritten hw hr
  | some w =>
    obtain ⟨site, o⟩ := w
    cases site with
    | declaration decl => exact absurd hw Scope.find_param_declaration
    | assignment x =>
      rw [hw] at h
      obtain ⟨t, e, d₂, d₃, ht, hs, hp, rfl⟩ := Aim.trace_ok h
      exact .written hw ht hs hp hr

theorem forM_runs {α : Type} (g : α → List (Stage × Param × Nat)) {l : List α}
    {f : α → Drafting PUnit} {rest : List (Stage × Param × Nat)} {u : PUnit} {d d₁ d' : Draft}
    (hf : ∀ a u d d₁ rest, f a d = .ok u d₁ → Runs p rest d₁ d' → Runs p (g a ++ rest) d d')
    (h : l.forM f d = .ok u d₁) (hr : Runs p rest d₁ d') : Runs p (l.flatMap g ++ rest) d d' := by
  induction l generalizing d with
  | nil =>
    obtain ⟨-, rfl⟩ := Drafting.pure_ok.1 h
    exact hr
  | cons a l ih =>
    obtain ⟨_, d₂, ha, hl⟩ := Drafting.bind_ok.1 h
    rw [List.flatMap_cons, List.append_assoc]
    exact hf a _ d d₂ _ ha (ih hl)

theorem traceOutputs_runs {u : Unit} {d d' : Draft} (h : p.traceOutputs d = .ok u d') :
    Runs p p.allOutputs d d' := by
  have stage (s : Stage) (u : PUnit) (d d₁ : Draft) (rest : List (Stage × Param × Nat))
      (hs : ((p.outputs s).forM fun z => p.traceOutput s z.1 z.2) d = .ok u d₁)
      (hr : Runs p rest d₁ d') :
      Runs p ((p.outputs s).map (s, ·) ++ rest) d d' := by
    rw [List.map_eq_flatMap]
    exact forM_runs _ (fun _ _ _ _ _ => traceOutput_runs) hs hr
  have hrun := forM_runs _ stage h .nil
  rwa [List.append_nil] at hrun

/-- A split that succeeds is a run over all outputs, finished. -/
theorem split_runs {prog : Program} {notices : List String} (h : p.split = (.ok prog, notices)) :
    ∃ d, Runs p p.allOutputs (.start p) d ∧ prog = d.finish p := by
  unfold split at h
  cases ht : p.traceOutputs (.start p) with
  | error e d => simp [ht] at h
  | ok u d =>
    rw [ht] at h
    have hd : d.finish p = prog := by simpa using congrArg Prod.fst h
    exact ⟨d, traceOutputs_runs ht, hd.symm⟩

end Pipeline
end ShaderSplit
