import Mathlib.Data.List.Forall2
import Mathlib.Tactic.Tauto
import ShaderSplit.Proofs.Partition.Moves

namespace ShaderSplit

namespace Expr

mutual
@[simp] def params : Expr → List Nat
  | param _ i => [i]
  | binary _ _ lhs rhs => lhs.params ++ rhs.params
  | unary _ _ e | cast _ e | member _ e _ => e.params
  | construct _ args | initList _ args | call _ _ args => paramsOf args
  | methodCall _ _ object args => object.params ++ paramsOf args
  | literal .. | constant .. | localVar .. | interface .. | unsupported .. => []
@[simp] def paramsOf : List Expr → List Nat
  | [] => []
  | e :: es => e.params ++ paramsOf es
end

theorem paramsOf_eq (es : List Expr) : paramsOf es = es.flatMap params := by
  induction es with
  | nil => rfl
  | cons e es ih => rw [paramsOf, ih, List.flatMap_cons]

theorem mem_params {e : Expr} {i : Nat} : i ∈ e.params ↔ ∃ n, param n i ∈ e.subterms := by
  induction e using ind <;>
    simp only [params, paramsOf_eq, subterms, subtermsOf_eq, List.mem_cons, List.mem_append,
    List.mem_flatMap, List.not_mem_nil, or_false, reduceCtorEq, false_or, exists_false] at *
  case param n j => simp
  case binary n op lhs rhs hl hr =>
    rw [hl, hr]
    simp only [exists_or]
  case unary n op e he | cast n e he | member n e f he => exact he
  case construct n es ih | initList n es ih | call n f es ih =>
    constructor
    · rintro ⟨e, he, hi⟩
      obtain ⟨m, h⟩ := (ih e he).1 hi
      exact ⟨m, e, he, h⟩
    · rintro ⟨m, e, he, h⟩
      exact ⟨e, he, (ih e he).2 ⟨m, h⟩⟩
  case methodCall n m o es ho ih =>
    constructor
    · rintro (hi | ⟨e, he, hi⟩)
      · obtain ⟨k, h⟩ := ho.1 hi
        exact ⟨k, .inl h⟩
      · obtain ⟨k, h⟩ := (ih e he).1 hi
        exact ⟨k, .inr ⟨e, he, h⟩⟩
    · rintro ⟨k, h | ⟨e, he, h⟩⟩
      · exact .inl (ho.2 ⟨k, h⟩)
      · exact .inr ⟨e, he, (ih e he).2 ⟨k, h⟩⟩

theorem paramsOf_allSame {es es' : List Expr}
    (ih : ∀ e ∈ es, ∀ {e'}, e.sameValue e' = true → e.params = e'.params)
    (h : allSame es es' = true) : paramsOf es = paramsOf es' := by
  rw [paramsOf_eq, paramsOf_eq, List.flatMap_def, List.flatMap_def, map_allSame ih h]

theorem params_sameValue {e e' : Expr} (h : e.sameValue e' = true) : e.params = e'.params := by
  induction e using ind generalizing e' <;> cases e' <;>
    simp only [sameValue, Bool.and_eq_true, beq_iff_eq] at h
  case param.param => simp [h.2]
  case binary.binary ihl ihr _ _ _ _ => simp [ihl h.1.2, ihr h.2]
  case unary.unary ih _ _ _ | cast.cast ih _ _ | member.member ih _ _ _ => simp [ih h.2]
  case construct.construct ih _ _ | initList.initList ih _ _ | call.call ih _ _ _ =>
    exact paramsOf_allSame ih h.2
  case methodCall.methodCall iho ih _ _ _ _ => simp [iho h.1.2, paramsOf_allSame ih h.2]
  case literal.literal | constant.constant | localVar.localVar | interface.interface => rfl
  all_goals exact absurd h (by simp)

end Expr

def StageStmt.params (st : StageStmt) : List Nat := st.exprs.flatMap Expr.params

theorem StageStmt.mem_params {st : StageStmt} {i : Nat} :
    i ∈ st.params ↔ ∃ n, .param n i ∈ st.terms := by
  simp only [params, terms, List.mem_flatMap, Expr.mem_params]
  constructor
  · rintro ⟨e, he, n, h⟩
    exact ⟨n, e, he, h⟩
  · rintro ⟨n, e, he, h⟩
    exact ⟨e, he, n, h⟩

namespace Placement

theorem upto_host {pl : Placement} : pl.Upto .host ↔ pl = none ∨ pl = some .host := by
  cases pl with
  | none => simp [Placement.upto_none]
  | some s => cases s <;> simp [Placement.upto_some] <;> decide

end Placement

namespace Draft

variable {d d' : Draft} {s t : Stage} {sc : Scope}

/-- What lies on the host is the same in both drafts. -/
structure SameHost (d d' : Draft) : Prop where
  queue : d'.queue .host = d.queue .host
  rebuilt : ∀ o, d'.rebuilt? o .host = d.rebuilt? o .host
  record : ∀ t, d'.record? .host t = d.record? .host t
  captures : d'.captures = d.captures

theorem SameHost.refl (d : Draft) : SameHost d d := ⟨rfl, fun _ => rfl, fun _ => rfl, rfl⟩

theorem SameHost.trans {d₁ d₂ d₃ : Draft} (h : SameHost d₁ d₂) (k : SameHost d₂ d₃) :
    SameHost d₁ d₃ :=
  ⟨k.queue.trans h.queue, fun o => (k.rebuilt o).trans (h.rebuilt o),
    fun t => (k.record t).trans (h.record t),
    k.captures.trans h.captures⟩

theorem onQueue_sameHost (hs : s ≠ .host) (f : Queue → Queue) : SameHost d (d.onQueue s f) :=
  ⟨by rw [onQueue_queue, if_neg hs], fun _ => rfl, fun _ => rfl, rfl⟩

theorem setRebuilt_sameHost (hs : s ≠ .host) (o : NodeId) (decl : LocalDecl) :
    SameHost d (d.setRebuilt o s decl) :=
  ⟨rfl, fun x => by rw [setRebuilt_rebuilt?, if_neg fun h => hs h.2], fun _ => rfl, rfl⟩

theorem tick_sameHost (d : Draft) (k : Nat) : SameHost d (d.tick k) :=
  ⟨rfl, fun _ => rfl, fun _ => rfl, rfl⟩

theorem setRecord_captures (d : Draft) (s t : Stage) (r : InterfaceRecord) :
    (d.setRecord s t r).captures = d.captures := by
  unfold setRecord
  split <;> rfl

theorem setRecord_rebuilt? (d : Draft) (s t x : Stage) (r : InterfaceRecord) (o : NodeId) :
    (d.setRecord s t r).rebuilt? o x = d.rebuilt? o x := by
  unfold setRecord
  split <;> rfl

theorem setRecord_sameHost (hs : s ≠ .host) (t : Stage) (r : InterfaceRecord) :
    SameHost d (d.setRecord s t r) :=
  ⟨setRecord_queue .., fun _ => setRecord_rebuilt? ..,
    fun x => by rw [setRecord_record?, if_neg fun h => hs (h.2.2 rfl)],
    setRecord_captures ..⟩

theorem openField_sameHost (hs : s ≠ .host) (t : Stage) (r : InterfaceRecord) (value : Expr)
    (reaching : List NodeId) :
    SameHost d (d.openField s t r value reaching) :=
  (setRecord_sameHost hs t _).trans ((onQueue_sameHost hs _).trans (tick_sameHost _ _))

theorem producer_params (d : Draft) (s t : Stage) (i : Nat) (value : Expr) :
    (StageStmt.expr (d.producer s t i value)).params = value.params := by
  simp [StageStmt.params, StageStmt.exprs, producer, endAt]

/-- A route between device stages stays off the host. -/
theorem Relays.sameHost {value e : Expr} {hops : List Stage} (h : Relays sc s value hops d e d')
    (hs : s ≠ .host) (hh : .host ∉ hops) : SameHost d d' := by
  induction h with
  | done => exact .refl _
  | @hop s t value next last rest d d₁ d₂ hc _ ih =>
    obtain ⟨ht, hrest⟩ := not_or.1 (mt List.mem_cons.2 hh)
    refine SameHost.trans ?_ (ih (Ne.symm ht) hrest)
    cases hc with
    | found => exact tick_sameHost _ _
    | opened _ _ he =>
      subst he
      exact (openField_sameHost hs ..).trans (tick_sameHost _ _)

theorem Route.host_not_mem {stages : StageSet} {hops : List Stage} (h : Route stages s t hops)
    (hs : s ≠ .host) : .host ∉ hops := by
  rcases h with ⟨hh, -⟩ | ⟨-, rfl, -⟩
  · exact absurd hh hs
  · intro hmem
    exact (StageSet.mem_devices.1 (List.mem_filter.1 hmem).1).2 rfl

/-- From the host a value goes over one record. -/
theorem Route.carries {stages : StageSet} {hops : List Stage} {value e : Expr}
    (h : Route stages .host t hops) (hr : Relays sc .host value hops d e d') :
    Carries sc .host t value d e d' := by
  rcases h with ⟨-, rfl⟩ | ⟨hh, -⟩
  · cases hr with
    | hop hc hr =>
      cases hr
      exact hc
  · exact absurd rfl hh

theorem redeclare_sameHost (hs : s ≠ .host) (ht : t ≠ .host) (o : NodeId) (decl : LocalDecl) :
    SameHost d (d.redeclare s t o decl) :=
  (setRebuilt_sameHost ht o decl).trans ((onQueue_sameHost ht _).trans (onQueue_sameHost hs _))

theorem Lifts.sameHost {stages : StageSet} {es es' : List Expr}
    (h : Lifts stages s t sc es d es' d') (hs : s ≠ .host) (ht : t ≠ .host) : SameHost d d' := by
  induction h with
  | nil | literal | constant => exact .refl _
  | cons _ _ ih ihs => exact ih.trans ihs
  | construct _ ih | unary _ ih | cast _ ih => exact ih
  | redeclare _ _ _ ih => exact ih.trans (redeclare_sameHost hs ht _ _)
  | transfer _ hr hd => exact hd.sameHost hs (hr.host_not_mem hs)

/-- What is promoted to the host, if anything, is there already. -/
theorem Promotes.unmoved {stages : StageSet} {pl wanted : Placement} {e e' : Expr}
    (h : Promotes stages sc pl wanted e d e' d') (hw : wanted.Upto .host) : e' = e := by
  cases h with
  | keep => rfl
  | @lift s t _ _ _ _ hst =>
    have ht : t ≤ .host := hw t rfl
    exact absurd (lt_of_lt_of_le hst ht) (by cases s <;> decide)

end Draft

namespace Aim

variable {a : Aim} {sc : Scope} {d d' : Draft}

theorem PromotesAll.unmoved {wanted : Placement} {ts : List Traced} {es : List Expr}
    (h : a.PromotesAll sc wanted ts d es d') (hw : wanted.Upto .host) : es = ts.map (·.expr) := by
  induction h with
  | nil => rfl
  | cons hp _ ih => rw [List.map_cons, hp.unmoved hw, ih]

theorem sampledStage_ne_host {object : Expr} {texture : Nat} {s : Stage}
    (h : a.sampledStage object = .ok (texture, s)) : s ≠ .host := by
  obtain ⟨-, q, -, -, rfl, htexture⟩ := sampledStage_ok h
  cases hr : q.role <;> simp [hr, Role.isTexture, Role.stage] at htexture ⊢

/-- Tracing keeps a value as it is written, if its place is the host. -/
def Unmoved (e : Expr) (t : Traced) : Prop := t.stage.Upto .host → t.expr = e

theorem Unmoved.exprs {es : List Expr} {ts : List Traced} (h : List.Forall₂ Unmoved es ts)
    (hts : ∀ t ∈ ts, t.stage.Upto .host) : ts.map (·.expr) = es := by
  induction h with
  | nil => rfl
  | cons ht _ ih =>
    rw [List.map_cons, ht (hts _ (by simp)), ih fun t h => hts t (by simp [h])]

theorem Traces.unmoved {m : Bool} {es : List Expr} {ts : List Traced} (h : a.Traces sc m es d ts d')
    (hbare : a.pipeline.BareSwizzles) (hes : ∀ e ∈ es, e ∈ a.pipeline.scope.terms) :
    List.Forall₂ Unmoved es ts := by
  induction h with
  | nil => exact .nil
  | cons _ _ ih ihs =>
    obtain ⟨⟩ | ⟨ht, -⟩ := ih (by simpa using hes _ (by simp))
    exact .cons ht (ihs fun e he => hes e (by simp [he]))
  | literal | constant | param | declared | assigned => exact .cons (fun _ => rfl) .nil
  | @binary sc m n op lhs rhs lhs' rhs' l r pl d d₁ d₂ d₃ d₄ _ _ hp pl' pr ihl ihr =>
    obtain ⟨⟩ | ⟨hl, -⟩ := ihl (Scope.parts_terms hes (by simp [Expr.self_mem_subterms]))
    obtain ⟨⟩ | ⟨hr, -⟩ := ihr (Scope.parts_terms hes (by simp [Expr.self_mem_subterms]))
    refine .cons (fun hh => ?_) .nil
    have hparts := Placement.later_upto.1 (wait_upto (hp ▸ hh))
    simp only [pl'.unmoved hh, pr.unmoved hh, hl hparts.1, hr hparts.2]
  | unary _ ih | cast _ _ ih | member _ _ ih =>
    obtain ⟨⟩ | ⟨ht, -⟩ := ih (Scope.parts_terms hes (by simp [Expr.self_mem_subterms]))
    exact .cons (fun hh => by simp only [ht hh]) .nil
  | construct _ _ hp ih | initList _ hp ih =>
    have hts := ih (Scope.parts_terms hes fun e he => by simp [Expr.mem_subtermsOf he])
    refine .cons (fun hh => ?_) .nil
    simp only [hp.unmoved hh, Unmoved.exprs hts (placement_upto.1 hh)]
  | @call sc m n func f args args' ts pl d d₁ d₂ _ _ hpl hp ih =>
    have hts := ih (Scope.parts_terms hes fun e he => by simp [Expr.mem_subtermsOf he])
    refine .cons (fun hh => ?_) .nil
    simp only [hp.unmoved hh, Unmoved.exprs hts (placement_upto.1 (wait_upto (hpl ▸ hh)))]
  | sample _ _ ho =>
    refine .cons (fun hh => ?_) .nil
    -- no texture is sampled on the host
    rcases Placement.upto_host.1 hh with hs | hs
    · cases hs
    · exact absurd (Option.some.inj hs) (sampledStage_ne_host ho)
  | @method sc m n method f object args t ts d d₁ d₂ hm hs _ ha ih _ =>
    have hmem := hes (.methodCall n method object args) (by simp)
    obtain rfl : args = [] := hbare n method object args f hmem hm hs
    cases ha
    obtain ⟨⟩ | ⟨ht, -⟩ := ih (Scope.parts_terms hes (by simp [Expr.self_mem_subterms]))
    exact .cons (fun hh => by simp only [ht hh, List.map_nil]) .nil

end Aim
end ShaderSplit
