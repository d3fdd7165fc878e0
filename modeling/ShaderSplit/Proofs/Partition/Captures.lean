import ShaderSplit.Proofs.Partition.Host
import ShaderSplit.Proofs.Partition.Sampling

namespace ShaderSplit

def Pipeline.Captures (p : Pipeline) (i : Nat) : Prop :=
  ∃ q, p.fn.params[i]? = some q ∧ q.role = .captured

theorem Scope.insertId_sorted {i : Nat} {l : List Nat} (h : l.Pairwise (· < ·)) :
    (insertId i l).Pairwise (· < ·) := by
  induction l with
  | nil => simp [insertId]
  | cons k l ih =>
    obtain ⟨hk, hl⟩ := List.pairwise_cons.1 h
    rw [insertId]
    split
    · rename_i hik
      refine List.pairwise_cons.2 ⟨fun j hj => ?_, h⟩
      rcases List.mem_cons.1 hj with rfl | hj
      · exact hik
      · exact Nat.lt_trans hik (hk j hj)
    · split
      · exact h
      · rename_i hik hne
        refine List.pairwise_cons.2 ⟨fun j hj => ?_, ih hl⟩
        rcases Scope.mem_insertId.1 hj with rfl | hj
        · exact Nat.lt_of_le_of_ne (Nat.le_of_not_lt hik) (Ne.symm hne)
        · exact hk j hj

namespace Draft

variable {p : Pipeline} {d d' : Draft} {s t : Stage} {sc : Scope} {o : NodeId}

/-- The captured parameters that a value reads on the host are known: those that it names, and those
behind its declared locals. -/
inductive Captured (p : Pipeline) (d : Draft) : Scope → Expr → Prop
  | intro {sc : Scope} {e : Expr} (params : ∀ i ∈ e.params, p.Captures i → i ∈ d.captures)
      (locals : ∀ v ∈ e.locals, ∀ written o, sc.find (.localVar v) =
        some ⟨.declaration written, o⟩ → Captured p d (sc.upTo o) written.init) : Captured p d sc e

theorem Captured.params {e : Expr} (h : d.Captured p sc e) :
    ∀ i ∈ e.params, p.Captures i → i ∈ d.captures := by
  cases h
  assumption

theorem Captured.locals {e : Expr} (h : d.Captured p sc e) : ∀ v ∈ e.locals, ∀ written o,
    sc.find (.localVar v) = some ⟨.declaration written, o⟩ →
    d.Captured p (sc.upTo o) written.init := by
  cases h
  assumption

theorem Captured.grow {e : Expr} (h : d.Captured p sc e) (hc : d.captures ⊆ d'.captures) :
    d'.Captured p sc e := by
  induction h with
  | intro hp _ ih => exact .intro (fun i hi hr => hc (hp i hi hr)) ih

theorem Captured.keep {e : Expr} (h : d.Captured p sc e) (hc : d'.captures = d.captures) :
    d'.Captured p sc e :=
  h.grow fun _ hi => hc ▸ hi

theorem Captured.part {e x : Expr} (h : d.Captured p sc e) (hp : x.params ⊆ e.params)
    (hl : x.locals ⊆ e.locals) : d.Captured p sc x :=
  .intro (fun i hi => h.params i (hp hi)) fun v hv => h.locals v (hl hv)

theorem Captured.parts {e : Expr} (es : List Expr) (hp : e.params = Expr.paramsOf es)
    (hl : e.locals = Expr.localsOf es) (h : ∀ x ∈ es, d.Captured p sc x) : d.Captured p sc e := by
  rw [Expr.paramsOf_eq] at hp
  rw [Expr.localsOf_eq] at hl
  constructor
  · intro i hi
    obtain ⟨x, hx, hix⟩ := List.mem_flatMap.1 (hp ▸ hi)
    exact (h x hx).params i hix
  · intro v hv
    obtain ⟨x, hx, hvx⟩ := List.mem_flatMap.1 (hl ▸ hv)
    exact (h x hx).locals v hvx

/-- The captures are ordered, and hold what the host's queue and its rebuilt declarations read. -/
structure Noted (p : Pipeline) (d : Draft) : Prop where
  sorted : d.captures.Pairwise (· < ·)
  roles : ∀ i ∈ d.captures, p.Captures i
  queued : ∀ e ∈ (d.queue .host).tags, ∀ i ∈ e.1.params, p.Captures i → i ∈ d.captures
  rebuilt : ∀ o decl, d.rebuilt? o .host = some decl → d.Captured p (p.scope.upTo o) decl.init

theorem Noted.sameHost (h : d.Noted p) (hs : SameHost d d') : d'.Noted p := by
  refine ⟨hs.captures ▸ h.sorted, hs.captures ▸ h.roles, ?_, fun o decl ho => ?_⟩
  · rw [hs.queue, hs.captures]
    exact h.queued
  · rw [hs.rebuilt] at ho
    exact (h.rebuilt o decl ho).keep hs.captures

theorem Noted.onHost {f : Queue → Queue} (h : d.Noted p)
    (hq : ∀ e ∈ (f (d.queue .host)).tags, e ∈ (d.queue .host).tags ∨
      ∀ i ∈ e.1.params, p.Captures i → i ∈ d.captures) :
    (d.onQueue .host f).Noted p := by
  refine ⟨h.sorted, h.roles, fun e he => ?_, fun o decl ho => (h.rebuilt o decl ho).keep rfl⟩
  rw [onQueue_queue, if_pos rfl] at he
  exact (hq e he).elim (h.queued e) id

theorem Noted.onQueue {f : Queue → Queue} (h : d.Noted p)
    (hq : s = .host → ∀ e ∈ (f (d.queue .host)).tags, e ∈ (d.queue .host).tags ∨
      ∀ i ∈ e.1.params, p.Captures i → i ∈ d.captures) : (d.onQueue s f).Noted p := by
  by_cases hs : s = .host
  · subst hs
    exact h.onHost (hq rfl)
  · exact h.sameHost (onQueue_sameHost hs f)

theorem Noted.add {st : StageStmt} {origin : Option NodeId} (h : d.Noted p)
    (hst : s = .host → ∀ i ∈ st.params, p.Captures i → i ∈ d.captures) :
    (d.add s st origin).Noted p := by
  refine h.onQueue fun hs e he => ?_
  refine (Queue.mem_tags_add he).imp_right fun heq => ?_
  rw [heq]
  exact hst hs

theorem Noted.release (h : d.Noted p) : (d.onQueue s (·.release o)).Noted p :=
  h.onQueue fun _ _ he => .inl (Queue.mem_tags_release he)

theorem Noted.setRebuilt {decl : LocalDecl} (h : d.Noted p)
    (hi : s = .host → d.Captured p (p.scope.upTo o) decl.init) :
    (d.setRebuilt o s decl).Noted p := by
  by_cases hs : s = .host
  · subst hs
    refine ⟨h.sorted, h.roles, h.queued, fun x decl' hx => ?_⟩
    rw [setRebuilt_rebuilt?] at hx
    split at hx
    · rename_i hox
      obtain rfl : decl = decl' := Option.some.inj hx
      exact (hox.1 ▸ hi rfl).keep rfl
    · exact (h.rebuilt x decl' hx).keep rfl
  · exact h.sameHost (setRebuilt_sameHost hs o decl)

theorem captures_capture (d : Draft) (i : Nat) : d.captures ⊆ (d.capture i).captures :=
  fun _ hj => Scope.mem_insertId.2 (.inr hj)

theorem Noted.capture {i : Nat} (h : d.Noted p) (hi : p.Captures i) : (d.capture i).Noted p := by
  refine ⟨Scope.insertId_sorted h.sorted, fun j hj => ?_, fun e he j hj hr => ?_,
    fun o decl ho => ?_⟩
  · rcases Scope.mem_insertId.1 hj with rfl | hj
    · exact hi
    · exact h.roles j hj
  · exact captures_capture d i (h.queued e he j hj hr)
  · exact (h.rebuilt o decl ho).grow (captures_capture d i)

theorem Carries.captures {value e : Expr} (h : Carries sc s t value d e d') :
    d'.captures = d.captures := by
  cases h with
  | found => rfl
  | opened _ _ he =>
    subst he
    exact setRecord_captures ..

/-- A value that leaves the host is assigned to a field there. -/
theorem Noted.carries {value e : Expr} (h : d.Noted p) (hc : Carries sc .host t value d e d')
    (hv : ∀ i ∈ value.params, p.Captures i → i ∈ d.captures) : d'.Noted p := by
  have hcaptures := hc.captures
  have hrebuilt := hc.rebuilt?
  cases hc with
  | found => exact h.sameHost (tick_sameHost _ _)
  | @opened r e hr _ he =>
    subst he
    refine ⟨hcaptures ▸ h.sorted, hcaptures ▸ h.roles, fun x hx i hi => ?_, fun o decl ho => ?_⟩
    · rw [hcaptures]
      rw [tick_queue] at hx
      rcases mem_tags_openField.1 hx with hx | ⟨-, rfl⟩
      · exact h.queued x hx i hi
      · exact hv i (by rwa [producer_params] at hi)
    · exact (h.rebuilt o decl ((hrebuilt o .host).symm.trans ho)).keep hcaptures

theorem Relays.captures {value e : Expr} {hops : List Stage} (h : Relays sc s value hops d e d') :
    d'.captures = d.captures := by
  induction h with
  | done => rfl
  | hop hc _ ih => exact ih.trans hc.captures

theorem Lifts.captures {stages : StageSet} {es es' : List Expr}
    (h : Lifts stages s t sc es d es' d') : d'.captures = d.captures := by
  induction h with
  | nil | literal | constant => rfl
  | cons _ _ ih ihs => exact ihs.trans ih
  | construct _ ih | unary _ ih | cast _ ih => exact ih
  | redeclare _ _ _ ih => exact ih
  | transfer _ _ hd => exact hd.captures

theorem Lifts.noted {stages : StageSet} {es es' : List Expr}
    (h : Lifts stages .host t sc es d es' d') (ht : t ≠ .host) (hsc : ∃ x, sc = p.scope.upTo x)
    (hb : d.Noted p) (hes : ∀ e ∈ es, d.Captured p sc e) : d'.Noted p := by
  induction h with
  | nil | literal | constant => exact hb
  | cons h₁ _ ih ihs =>
    have hb₁ := ih hsc hb (by simpa using hes _ (by simp))
    exact ihs hsc hb₁ fun e he => (hes e (by simp [he])).keep h₁.captures
  | construct _ ih =>
    refine ih hsc hb fun e he => (hes _ (List.mem_singleton_self _)).part (fun i hi => ?_)
      fun v hv => ?_
    · rw [Expr.params, Expr.paramsOf_eq]
      exact List.mem_flatMap.2 ⟨e, he, hi⟩
    · rw [Expr.locals, Expr.localsOf_eq]
      exact List.mem_flatMap.2 ⟨e, he, hv⟩
  | unary _ ih | cast _ ih =>
    refine ih hsc hb (List.forall_mem_singleton.2 ?_)
    exact (hes _ (List.mem_singleton_self _)).part (List.Subset.refl _) (List.Subset.refl _)
  | @redeclare sc n v name written decl o init d d₁ hfind hd _ ih =>
    obtain ⟨x, rfl⟩ := hsc
    have hscope : (p.scope.upTo x).upTo o = p.scope.upTo o := Scope.before_upTo hfind
    have hwritten := (hes _ (List.mem_singleton_self _)).locals v (by simp) written o hfind
    -- what is lifted is the rebuilt declaration, or the written one if the host has none
    have hinit : d.Captured p (p.scope.upTo o) decl.init := by
      cases hr : d.rebuilt? o .host with
      | none =>
        rw [hr] at hd
        rw [← hd, ← hscope]
        exact hwritten
      | some decl' =>
        rw [hr] at hd
        rw [← hd]
        exact hb.rebuilt o decl' hr
    have hb₁ := ih ⟨o, hscope⟩ hb (by simpa [hscope] using hinit)
    exact ((hb₁.setRebuilt fun h => absurd h ht).add fun h => absurd h ht).release
  | transfer _ hr hd => exact hb.carries (hr.carries hd) (hes _ (List.mem_singleton_self _)).params

theorem Promotes.captures {stages : StageSet} {pl wanted : Placement} {e e' : Expr}
    (h : Promotes stages sc pl wanted e d e' d') : d'.captures = d.captures := by
  cases h with
  | keep => rfl
  | lift _ hl => exact hl.captures

theorem lt_ne_host (h : s < t) : t ≠ .host := by
  rintro rfl
  exact absurd h (by cases s <;> decide)

theorem Promotes.noted {stages : StageSet} {pl wanted : Placement} {e e' : Expr}
    (h : Promotes stages sc pl wanted e d e' d') (hsc : ∃ x, sc = p.scope.upTo x) (hb : d.Noted p)
    (he : pl.Upto .host → d.Captured p sc e) : d'.Noted p := by
  cases h with
  | keep => exact hb
  | @lift s t _ _ _ _ hst hl =>
    by_cases hs : s = .host
    · subst hs
      exact hl.noted (lt_ne_host hst) hsc hb (by simpa using he (Placement.upto_some.2 (le_refl _)))
    · exact hb.sameHost (hl.sameHost hs (lt_ne_host hst))

end Draft

namespace Aim

open Draft

variable {a : Aim} {sc : Scope} {d d' : Draft}

theorem PromotesAll.captures {wanted : Placement} {ts : List Traced} {es : List Expr}
    (h : a.PromotesAll sc wanted ts d es d') : d'.captures = d.captures := by
  induction h with
  | nil => rfl
  | cons hp _ ih => exact ih.trans hp.captures

theorem PromotesAll.noted {wanted : Placement} {ts : List Traced} {es : List Expr}
    (h : a.PromotesAll sc wanted ts d es d') (hsc : ∃ x, sc = a.pipeline.scope.upTo x)
    (hb : d.Noted a.pipeline)
    (hts : ∀ t ∈ ts, t.stage.Upto .host → d.Captured a.pipeline sc t.expr) :
    d'.Noted a.pipeline := by
  induction h with
  | nil => exact hb
  | cons hp _ ih =>
    have hb₁ := hp.noted hsc hb (hts _ (by simp))
    exact ih hb₁ fun t ht hh => (hts t (by simp [ht]) hh).keep hp.captures

theorem upto_of_getD {pl : Placement} {target : Stage} (h : pl.getD target = .host) :
    pl.Upto .host := by
  cases pl with
  | none => exact Placement.upto_none _
  | some s => exact Placement.upto_host.2 (.inr (congrArg some h))

theorem sample_sameHost {s : Stage} {texture k : Nat} {sampler : Expr}
    (h : Draft.sample s d.nextId texture sampler (d.tick 1) = .ok k d') : SameHost d d' := by
  obtain ⟨config, i, samplers, -, -, -, rfl⟩ := Draft.sample_ok h
  exact ⟨rfl, fun _ => rfl, fun _ => rfl, rfl⟩

theorem noted_parts {wanted : Placement} {ts : List Traced} {es : List Expr} {e : Expr} {d₁ : Draft}
    (h : a.PromotesAll sc wanted ts d₁ es d') (hsc : ∃ x, sc = a.pipeline.scope.upTo x)
    (hb : d₁.Noted a.pipeline) (hc : d.captures ⊆ d₁.captures)
    (hw : wanted.Upto .host → ∀ t ∈ ts, t.stage.Upto .host)
    (hts : ∀ t ∈ ts, t.stage.Upto .host → d₁.Captured a.pipeline sc t.expr)
    (hp : e.params = Expr.paramsOf es) (hl : e.locals = Expr.localsOf es) :
    d'.Noted a.pipeline ∧ d.captures ⊆ d'.captures ∧
      ∀ t ∈ [(⟨e, wanted⟩ : Traced)], t.stage.Upto .host → d'.Captured a.pipeline sc t.expr := by
  refine ⟨h.noted hsc hb hts, h.captures ▸ hc, List.forall_mem_singleton.2 fun hh => ?_⟩
  refine Captured.parts es hp hl fun x hx => ?_
  rw [h.unmoved hh] at hx
  obtain ⟨t, ht, rfl⟩ := List.mem_map.1 hx
  exact (hts t ht (hw hh t ht)).keep h.captures

/-- Tracing captures what it meets, so what it places on the host reads captured parameters only. -/
theorem Traces.noted {m : Bool} {es : List Expr} {ts : List Traced} (h : a.Traces sc m es d ts d')
    (hbare : a.pipeline.BareSwizzles) (hsc : ∃ x, sc = a.pipeline.scope.upTo x)
    (hes : ∀ e ∈ es, e ∈ a.pipeline.scope.terms) (hb : d.Noted a.pipeline) :
    d'.Noted a.pipeline ∧ d.captures ⊆ d'.captures ∧
      ∀ t ∈ ts, t.stage.Upto .host → d'.Captured a.pipeline sc t.expr := by
  induction h with
  | nil => exact ⟨hb, List.Subset.refl _, by simp⟩
  | cons _ _ ih ihs =>
    obtain ⟨hb₁, hc₁, ht₁⟩ := ih hsc (by simpa using hes _ (by simp)) hb
    obtain ⟨hb₂, hc₂, ht₂⟩ := ihs hsc (fun e he => hes e (by simp [he])) hb₁
    refine ⟨hb₂, List.Subset.trans hc₁ hc₂, fun t ht hh => ?_⟩
    rcases List.mem_cons.1 ht with rfl | ht
    · exact (ht₁ t (by simp) hh).grow hc₂
    · exact ht₂ t ht hh
  | literal | constant =>
    exact ⟨hb, List.Subset.refl _, by simpa using fun _ => Captured.intro (by simp) (by simp)⟩
  | @param sc m n i q d d' hq _ _ hd =>
    subst hd
    by_cases hr : q.role = .captured
    · rw [if_pos hr]
      refine ⟨hb.capture ⟨q, hq, hr⟩, Draft.captures_capture d i,
        List.forall_mem_singleton.2 fun _ => ?_⟩
      exact .intro (fun j hj _ => Scope.mem_insertId.2 (.inl (by simpa using hj))) (by simp)
    · rw [if_neg hr]
      refine ⟨hb, List.Subset.refl _, List.forall_mem_singleton.2
        fun _ => .intro (fun j hj hc => ?_) (by simp)⟩
      obtain rfl : j = i := by simpa using hj
      obtain ⟨q', hq', hr'⟩ := hc
      cases hq.symm.trans hq'
      exact absurd hr' hr
  | @declared sc m n v name written o t s d d₁ _ hfind ht hs ih =>
    obtain ⟨x, rfl⟩ := hsc
    have hscope : (a.pipeline.scope.upTo x).upTo o = a.pipeline.scope.upTo o :=
      Scope.before_upTo hfind
    have hmem : written.init ∈ a.pipeline.scope.terms :=
      Scope.terms_upTo (Scope.find_value_mem hfind)
    obtain ⟨hb₁, hc₁, ht₁⟩ := ih ⟨o, hscope⟩ (by simpa using hmem) hb
    have hinit : s = .host → d₁.Captured a.pipeline (a.pipeline.scope.upTo o) t.expr := by
      intro hh
      rw [← hscope]
      exact ht₁ t (by simp) (upto_of_getD (hs.trans hh))
    -- on the host an initializer stays as it is written, so its locals are those of the body
    have hsame : s = .host → t.expr = written.init := by
      intro hh
      obtain ⟨⟩ | ⟨hu, -⟩ := ht.unmoved hbare (by simpa using hmem)
      exact hu (upto_of_getD (hs.trans hh))
    refine ⟨(hb₁.setRebuilt hinit).add fun hh i hi => ?_, hc₁, ?_⟩
    · exact (hinit hh).params i (by simpa [StageStmt.params, StageStmt.exprs] using hi)
    · simp only [List.mem_singleton, forall_eq]
      intro hh
      refine .intro (by simp) fun u hu written' o' hfind' => ?_
      obtain rfl : u = v := by simpa using hu
      cases hfind.symm.trans hfind'
      have hs' : s = .host := by simpa using Placement.upto_host.1 hh
      rw [hscope, ← hsame hs']
      exact (hinit hs').keep rfl
  | @assigned sc m n v name x o t s d d₁ _ hfind _ hs ih =>
    obtain ⟨y, rfl⟩ := hsc
    have hscope : (a.pipeline.scope.upTo y).upTo o = a.pipeline.scope.upTo o :=
      Scope.before_upTo hfind
    have hmem : x ∈ a.pipeline.scope.terms := Scope.terms_upTo (Scope.find_value_mem hfind)
    obtain ⟨hb₁, hc₁, ht₁⟩ := ih ⟨o, hscope⟩ (by simpa using hmem) hb
    refine ⟨hb₁.add fun hh i hi => ?_, hc₁, ?_⟩
    · refine (ht₁ t (by simp) (upto_of_getD (hs.trans hh))).params i ?_
      simpa [StageStmt.params, StageStmt.exprs] using hi
    · simp only [List.mem_singleton, forall_eq]
      refine fun _ => .intro (by simp) fun u hu written' o' hfind' => ?_
      obtain rfl : u = v := by simpa using hu
      cases hfind.symm.trans hfind'
  | @binary sc m n op lhs rhs lhs' rhs' l r pl d d₁ d₂ d₃ d₄ _ _ hp pl' pr ihl ihr =>
    obtain ⟨hb₁, hc₁, ht₁⟩ := ihl hsc (Scope.parts_terms hes (by simp [Expr.self_mem_subterms])) hb
    obtain ⟨hb₂, hc₂, ht₂⟩ := ihr hsc (Scope.parts_terms hes (by simp [Expr.self_mem_subterms])) hb₁
    have hts : ∀ t ∈ [l, r], t.stage.Upto .host → d₂.Captured a.pipeline sc t.expr :=
      List.forall_mem_cons.2 ⟨fun hh => (ht₁ l (by simp) hh).grow hc₂, ht₂⟩
    -- the two operands are promoted like a list of two
    have hall : a.PromotesAll sc pl [l, r] d₂ [lhs', rhs'] d₄ := .cons pl' (.cons pr .nil)
    have hw : pl.Upto .host → ∀ t ∈ [l, r], t.stage.Upto .host :=
      fun hh => placement_upto.1 (wait_upto (hp ▸ hh))
    exact noted_parts hall hsc hb₂ (List.Subset.trans hc₁ hc₂) hw hts (by simp) (by simp)
  | unary _ ih | cast _ _ ih | member _ _ ih =>
    obtain ⟨hb₁, hc₁, ht₁⟩ := ih hsc (Scope.parts_terms hes (by simp [Expr.self_mem_subterms])) hb
    refine ⟨hb₁, hc₁, List.forall_mem_singleton.2 fun hh => ?_⟩
    exact (List.forall_mem_singleton.1 ht₁ hh).part (List.Subset.refl _) (List.Subset.refl _)
  | construct _ _ hp ih | initList _ hp ih =>
    obtain ⟨hb₁, hc₁, ht₁⟩ :=
      ih hsc (Scope.parts_terms hes fun e he => by simp [Expr.mem_subtermsOf he]) hb
    exact noted_parts hp hsc hb₁ hc₁ placement_upto.1 ht₁ (by simp) (by simp)
  | call _ _ hpl hp ih =>
    obtain ⟨hb₁, hc₁, ht₁⟩ :=
      ih hsc (Scope.parts_terms hes fun e he => by simp [Expr.mem_subtermsOf he]) hb
    exact noted_parts hp hsc hb₁ hc₁ (fun hh => placement_upto.1 (wait_upto (hpl ▸ hh))) ht₁
      (by simp) (by simp)
  | @sample sc m n method f object uv uv' sampler texture k s t d d₁ d₂ d₃ _ _ ho _ hp hk ih =>
    obtain ⟨hb₁, hc₁, ht₁⟩ :=
      ih hsc (Scope.parts_terms hes (by simp [Expr.subtermsOf, Expr.self_mem_subterms])) hb
    have hsame := sample_sameHost hk
    refine ⟨(hp.noted hsc hb₁ (ht₁ t (by simp))).sameHost hsame,
      by rw [hsame.captures, hp.captures]; exact hc₁, ?_⟩
    simp only [List.mem_singleton, forall_eq]
    intro hh
    exact absurd (Option.some.inj ((Placement.upto_host.1 hh).resolve_left (by simp)))
      (sampledStage_ne_host ho)
  | @method sc m n method f object args t ts d d₁ d₂ hm hs _ ha ih _ =>
    have hmem := hes (.methodCall n method object args) (by simp)
    obtain rfl : args = [] := hbare n method object args f hmem hm hs
    cases ha
    obtain ⟨hb₁, hc₁, ht₁⟩ := ih hsc (Scope.parts_terms hes (by simp [Expr.self_mem_subterms])) hb
    refine ⟨hb₁, hc₁, List.forall_mem_singleton.2 fun hh => ?_⟩
    exact Captured.parts [t.expr] (by simp) (by simp) (by simpa using ht₁ t (by simp) hh)

end Aim

namespace Pipeline

variable {p : Pipeline}

theorem start_noted (p : Pipeline) : (Draft.start p).Noted p := by
  refine ⟨List.Pairwise.nil, by simp [Draft.start], fun e he => ?_, fun o decl ho => ?_⟩
  · simp [Draft.start, Draft.queue, PerStage.const, PerStage.get, Queue.tags] at he
  · simp [Draft.start, Draft.rebuilt?] at ho

theorem ne_host_of_mem_allOutputs {s : Stage} {q : Param} {i : Nat} (h : (s, q, i) ∈ p.allOutputs) :
    s ≠ .host :=
  (StageSet.mem_devices.1 (mem_allOutputs h).1).2

theorem Runs.noted {todo : List (Stage × Param × Nat)} {d d' : Draft} (h : p.Runs todo d d')
    (hbare : p.BareSwizzles) (htodo : ∀ x ∈ todo, x ∈ p.allOutputs) (hb : d.Noted p) :
    d'.Noted p := by
  induction h with
  | nil => exact hb
  | unwritten _ _ ih =>
    exact ih (fun x hx => htodo x (by simp [hx]))
      (hb.sameHost ⟨rfl, fun _ => rfl, fun _ => rfl, rfl⟩)
  | @written s q i rest x e o t d d₁ d₂ d' hfind ht _ hp _ ih =>
    have hmem : x ∈ p.scope.terms := Scope.find_value_mem hfind
    have hs : s ≠ .host := ne_host_of_mem_allOutputs (htodo (s, q, i) (by simp))
    obtain ⟨hb₁, -, ht₁⟩ := ht.noted hbare ⟨o, rfl⟩ (by simpa using hmem) hb
    have hb₂ := hp.noted ⟨o, rfl⟩ hb₁ (ht₁ t (by simp))
    exact ih (fun x hx => htodo x (by simp [hx])) (hb₂.add fun hh => absurd hh hs)

end Pipeline
end ShaderSplit
