import ShaderSplit.Proofs.Partition.Captures
import ShaderSplit.Proofs.Partition.Closed

namespace ShaderSplit

namespace Draft

variable {p : Pipeline} {d d' : Draft} {s t : Stage} {sc : Scope} {o : NodeId} {i : Nat}

def Covers (d : Draft) (i : Nat) : Prop := ∃ e ∈ (d.queue .host).tags, i ∈ e.1.params

/-- A statement of the host that is never dropped reads a parameter. -/
def Secures (d : Draft) (i : Nat) : Prop := ∃ st, (st, none) ∈ (d.queue .host).tags ∧ i ∈ st.params

theorem Secures.covers (h : d.Secures i) : d.Covers i := by
  obtain ⟨st, hst, hi⟩ := h
  exact ⟨_, hst, hi⟩

theorem Secures.moves (h : d.Secures i) (hm : Moves d d') : d'.Secures i := by
  obtain ⟨st, hst, hi⟩ := h
  exact ⟨st, hm.loose hst, hi⟩

/-- What the host holds is as it was written: statements under their origins, rebuilt declarations,
and a producer for the value of each field. -/
structure Faithful (p : Pipeline) (d : Draft) : Prop where
  origins : ∀ st o, (st, some o) ∈ (d.queue .host).tags → ∃ w, p.Shows w ∧ w.step = o ∧
    st.params = w.site.value.params
  rebuilt : ∀ o decl, d.rebuilt? o .host = some decl →
    ∃ written, p.Shows ⟨.declaration written, o⟩ ∧ decl.init = written.init
  carried : ∀ t r, d.record? .host t = some r → ∀ f ∈ r.fields,
    ∃ st, (st, none) ∈ (d.queue .host).tags ∧ st.params = f.key.params

/-- A later draft is faithful too, and the host's queue reads no less. -/
structure Retains (p : Pipeline) (d d' : Draft) : Prop where
  faithful : d'.Faithful p
  covers : ∀ j, d.Covers j → d'.Covers j

theorem Faithful.retains (h : d.Faithful p) : Retains p d d := ⟨h, fun _ => id⟩

theorem Retains.trans {d₁ d₂ d₃ : Draft} (h : Retains p d₁ d₂) (k : Retains p d₂ d₃) :
    Retains p d₁ d₃ :=
  ⟨k.faithful, fun j hj => k.covers j (h.covers j hj)⟩

theorem SameHost.retains (hs : SameHost d d') (h : d.Faithful p) : Retains p d d' := by
  refine ⟨⟨?_, fun o decl ho => h.rebuilt o decl (hs.rebuilt o ▸ ho), fun t r hr => ?_⟩,
    fun j hj => ?_⟩
  · rw [hs.queue]
    exact h.origins
  · rw [hs.queue]
    exact h.carried t r (hs.record t ▸ hr)
  · unfold Covers
    rwa [hs.queue]

theorem Faithful.onRelease (h : d.Faithful p) : (d.onQueue .host (·.release o)).Faithful p := by
  have hm : Moves d (d.onQueue .host (·.release o)) := .single (.release d .host o)
  refine ⟨fun st x hst => h.origins st x ?_, h.rebuilt, fun t r hr f hf => ?_⟩
  · exact mem_tags_release hst
  · obtain ⟨st, hst, hparams⟩ := h.carried t r hr f hf
    exact ⟨st, hm.loose hst, hparams⟩

/-- A declaration is dropped when producers read what it read. -/
theorem Faithful.release {written : LocalDecl} (hf : d.Faithful p) (hsw : p.SingleWrites)
    (hw : p.Shows ⟨.declaration written, o⟩) (hinit : ∀ j ∈ written.init.params, d.Secures j) :
    Retains p d (d.onQueue .host (·.release o)) := by
  refine ⟨hf.onRelease, fun i h => ?_⟩
  have hm : Moves d (d.onQueue .host (·.release o)) := .single (.release d .host o)
  obtain ⟨e, he, hi⟩ := h
  by_cases ho : e.2 = some o
  · -- the entry is the declaration itself
    obtain ⟨w, hw', hstep, hparams⟩ := hf.origins e.1 o (ho ▸ he)
    have hsite : w.site = .declaration written := hsw.site hw' hw hstep
    rw [hparams, hsite] at hi
    exact ((hinit i hi).moves hm).covers
  · refine ⟨e, ?_, hi⟩
    rw [onQueue_queue, if_pos rfl]
    exact Queue.mem_tags_of_ne he ho

/-- A statement that is used once more is queued, or was queued before from the same write. -/
theorem Faithful.add {st : StageStmt} {w : Write} (h : d.Faithful p) (hsw : p.SingleWrites)
    (hw : p.Shows w) (hst : st.params = w.site.value.params) :
    Retains p d (d.add .host st (some w.step)) ∧
    ∀ j ∈ st.params, (d.add .host st (some w.step)).Covers j := by
  have hqueue : (d.add .host st (some w.step)).queue .host = (d.queue .host).use st w.step := by
    rw [add_queue, if_pos rfl]
    rfl
  have hm : Moves d (d.add .host st (some w.step)) := .single (.add ..)
  have hcarried : ∀ t r, (d.add .host st (some w.step)).record? .host t = some r → ∀ f ∈ r.fields,
      ∃ st', (st', none) ∈ ((d.add .host st (some w.step)).queue .host).tags ∧
      st'.params = f.key.params := by
    intro t r hr f hf
    obtain ⟨st', hst', hparams⟩ := h.carried t r hr f hf
    exact ⟨st', hm.loose hst', hparams⟩
  rcases Queue.lacks_or_cut (d.queue .host) w.step with hl | ⟨l, e, r, hc⟩
  · have htags :
        ((d.queue .host).use st w.step).tags = (d.queue .host).tags ++ [(st, some w.step)] := by
      simp [Queue.use_lacks hl, Queue.tags]
    refine ⟨⟨⟨fun st' o hst' => ?_, h.rebuilt, hcarried⟩, ?_⟩, ?_⟩
    · rw [hqueue, htags, List.mem_append, List.mem_singleton] at hst'
      rcases hst' with hst' | heq
      · exact h.origins st' o hst'
      · cases heq
        exact ⟨w, hw, rfl, hst⟩
    · unfold Covers
      rw [hqueue, htags]
      rintro j ⟨e, he, hj⟩
      exact ⟨e, List.mem_append_left _ he, hj⟩
    · unfold Covers
      rw [hqueue, htags]
      exact fun j hj => ⟨_, List.mem_append_right _ (List.mem_singleton_self _), hj⟩
  · have htags : ((d.queue .host).use st w.step).tags = (d.queue .host).tags := by
      rw [Queue.use_cut hc, hc.eq]
      simp [Queue.tags]
    refine ⟨⟨⟨?_, h.rebuilt, hcarried⟩, ?_⟩, ?_⟩
    · rw [hqueue, htags]
      exact h.origins
    · unfold Covers
      rw [hqueue, htags]
      exact fun _ => id
    · unfold Covers
      rw [hqueue, htags]
      have hmem : (e.stmt, some w.step) ∈ (d.queue .host).tags := by
        rw [hc.eq]
        simp [Queue.tags, hc.origin]
      -- the entry that is there was queued from a write of the same step, hence from the same write
      obtain ⟨w', hw', hstep, hparams⟩ := h.origins _ _ hmem
      rw [hsw.site hw' hw hstep, ← hst] at hparams
      exact fun j hj => ⟨_, hmem, hparams ▸ hj⟩

theorem Faithful.setRebuilt {written : LocalDecl} (decl : LocalDecl) (h : d.Faithful p)
    (hw : p.Shows ⟨.declaration written, o⟩) (hd : decl.init = written.init) :
    (d.setRebuilt o .host decl).Faithful p := by
  refine ⟨h.origins, fun x decl' hx => ?_, h.carried⟩
  rw [setRebuilt_rebuilt?] at hx
  split at hx
  · rename_i hox
    obtain rfl : decl = decl' := Option.some.inj hx
    exact ⟨written, hox.1 ▸ hw, hd⟩
  · exact h.rebuilt x decl' hx

/-- A value that leaves the host is read by a producer: that of its field. -/
theorem Faithful.carries {value e : Expr} (h : d.Faithful p)
    (hc : Carries sc .host t value d e d') :
    Retains p d d' ∧ ∀ j ∈ value.params, d'.Secures j := by
  have hrebuilt := hc.rebuilt?
  cases hc with
  | @found r i hr hi =>
    refine ⟨(tick_sameHost d 1).retains h, fun j hj => ?_⟩
    obtain ⟨f, hf, -, hsame⟩ := InterfaceRecord.find?_some hi
    obtain ⟨st, hst, hparams⟩ := h.carried t r hr f (List.mem_of_getElem? hf)
    exact ⟨st, hst, by rwa [hparams, Expr.params_sameValue hsame]⟩
  | @opened r e hr _ he =>
    subst he
    have hm : Moves d ((d.openField .host t r value (sc.reaching value)).tick 1) :=
      .trans (.single (.openField value _ hr)) (tick_moves ..)
    obtain ⟨st', hparams, hst'⟩ : ∃ st, st.params = value.params ∧
        (st, none) ∈ ((d.openField .host t r value (sc.reaching value)).queue .host).tags :=
      ⟨_, producer_params .., mem_tags_openField.2 (.inr ⟨rfl, rfl⟩)⟩
    -- the producer is the only statement that is new
    refine ⟨⟨⟨fun st o hst => ?_, fun o decl ho => ?_, fun x r' hr' f hf => ?_⟩, fun j hj => ?_⟩,
      fun j hj => ?_⟩
    · rw [tick_queue] at hst
      rcases mem_tags_openField.1 hst with hst | ⟨-, hst⟩
      · exact h.origins st o hst
      · cases hst
    · exact h.rebuilt o decl ((hrebuilt o .host).symm.trans ho)
    · replace hr' : (d.setRecord .host t (r.push value (sc.reaching value))).record? .host x =
        some r' := hr'
      rw [setRecord_record?] at hr'
      split at hr'
      · obtain rfl : r.push value (sc.reaching value) = r' := Option.some.inj hr'
        rcases List.mem_append.1 hf with hf | hf
        · obtain ⟨st, hst, hkey⟩ := h.carried t r hr f hf
          exact ⟨st, hm.loose hst, hkey⟩
        · obtain rfl := List.mem_singleton.1 hf
          exact ⟨st', hst', hparams⟩
      · obtain ⟨st, hst, hkey⟩ := h.carried x r' hr' f hf
        exact ⟨st, hm.loose hst, hkey⟩
    · obtain ⟨e, he, hj⟩ := hj
      exact ⟨e, mem_tags_openField.2 (.inl he), hj⟩
    · exact ⟨st', hst', hparams ▸ hj⟩

theorem Lifts.retains {stages : StageSet} {es es' : List Expr}
    (h : Lifts stages .host t sc es d es' d') (ht : t ≠ .host) (hsw : p.SingleWrites)
    (hsc : ∃ x, sc = p.scope.upTo x) (hf : d.Faithful p) :
    Retains p d d' ∧ ∀ e ∈ es, ∀ j ∈ e.params, d'.Secures j := by
  induction h with
  | nil => exact ⟨hf.retains, by simp⟩
  | literal | constant => exact ⟨hf.retains, by simp⟩
  | cons _ h₂ ih ihs =>
    obtain ⟨hk₁, hh₁⟩ := ih hsc hf
    obtain ⟨hk₂, hh₂⟩ := ihs hsc hk₁.faithful
    refine ⟨hk₁.trans hk₂, fun e he j hj => ?_⟩
    rcases List.mem_cons.1 he with rfl | he
    · exact (hh₁ e (by simp) j hj).moves h₂.moves
    · exact hh₂ e he j hj
  | construct _ ih =>
    obtain ⟨hk₁, hh₁⟩ := ih hsc hf
    refine ⟨hk₁, List.forall_mem_singleton.2 fun j hj => ?_⟩
    rw [Expr.params, Expr.paramsOf_eq] at hj
    obtain ⟨e, he, hj⟩ := List.mem_flatMap.1 hj
    exact hh₁ e he j hj
  | unary _ ih | cast _ ih =>
    obtain ⟨hk₁, hh₁⟩ := ih hsc hf
    exact ⟨hk₁, by simpa using hh₁⟩
  | @redeclare sc n v name written decl o init d d₁ hfind hd _ ih =>
    obtain ⟨x, rfl⟩ := hsc
    have hshow : p.Shows ⟨.declaration written, o⟩ := ⟨v, x, hfind⟩
    have hinit : decl.init = written.init := by
      cases hr : d.rebuilt? o .host with
      | none =>
        rw [hr] at hd
        rw [← hd]
        rfl
      | some decl' =>
        rw [hr] at hd
        obtain ⟨written', hw', hi'⟩ := hf.rebuilt o decl' hr
        cases hsw.site hw' hshow rfl
        rw [← hd]
        exact hi'
    obtain ⟨hk₁, hh₁⟩ := ih ⟨o, Scope.before_upTo hfind⟩ hf
    have hs : SameHost d₁
          ((d₁.setRebuilt o t { decl with init }).add t (.decl { decl with init }) (some o)) :=
      (setRebuilt_sameHost ht o _).trans (onQueue_sameHost ht _)
    have hk₂ := hs.retains hk₁.faithful
    -- the initializer was lifted first, so what it reads is held before the declaration is dropped
    refine ⟨(hk₁.trans hk₂).trans (hk₂.faithful.release hsw hshow fun j hj => ?_), by simp⟩
    have hj' := hh₁ decl.init (List.mem_singleton_self _) j (hinit ▸ hj)
    unfold Secures
    rwa [hs.queue]
  | transfer _ hr hd =>
    obtain ⟨hk₁, hh₁⟩ := hf.carries (hr.carries hd)
    exact ⟨hk₁, by simpa using hh₁⟩

theorem Promotes.retains {stages : StageSet} {pl wanted : Placement} {e e' : Expr}
    (h : Promotes stages sc pl wanted e d e' d') (hsw : p.SingleWrites)
    (hsc : ∃ x, sc = p.scope.upTo x) (hf : d.Faithful p) : Retains p d d' := by
  cases h with
  | keep => exact hf.retains
  | @lift s t _ _ _ _ hst hl =>
    by_cases hs : s = .host
    · subst hs
      exact (hl.retains (lt_ne_host hst) hsw hsc hf).1
    · exact (hl.sameHost hs (lt_ne_host hst)).retains hf

/-- What a value of the host reads is read by the queue once the value has left, and by the value
while it stays. -/
theorem Promotes.covers {stages : StageSet} {wanted : Placement} {e e' : Expr}
    (h : Promotes stages sc (some .host) wanted e d e' d') (hw : wanted ≠ none)
    (hsw : p.SingleWrites) (hsc : ∃ x, sc = p.scope.upTo x) (hf : d.Faithful p)
    (hi : i ∈ e.params) :
    d'.Covers i ∨ wanted = some .host ∧ i ∈ e'.params := by
  cases h with
  | keep hk => exact .inr ⟨((hk.resolve_left (by simp)).resolve_left hw).symm, hi⟩
  | lift hst hl =>
    have hh := (hl.retains (lt_ne_host hst) hsw hsc hf).2 e (List.mem_singleton_self _) i hi
    exact .inl hh.covers

end Draft

namespace Aim

open Draft

variable {a : Aim} {sc : Scope} {d d' : Draft} {i : Nat}

theorem PromotesAll.retains {wanted : Placement} {ts : List Traced} {es : List Expr}
    (h : a.PromotesAll sc wanted ts d es d') (hsw : a.pipeline.SingleWrites)
    (hsc : ∃ x, sc = a.pipeline.scope.upTo x) (hf : d.Faithful a.pipeline) :
    Retains a.pipeline d d' := by
  induction h with
  | nil => exact hf.retains
  | cons hp _ ih =>
    have hk := hp.retains hsw hsc hf
    exact hk.trans (ih hk.faithful)

/-- The host reads a parameter, in its queue or in a value that is placed there. -/
def Accounts (d : Draft) (ts : List Traced) (i : Nat) : Prop :=
  d.Covers i ∨ ∃ t ∈ ts, t.stage = some .host ∧ i ∈ t.expr.params

theorem Accounts.retains {ts : List Traced} (h : Accounts d ts i) (hk : Retains a.pipeline d d') :
    Accounts d' ts i :=
  h.imp_left (hk.covers i)

theorem Accounts.one {t : Traced} (h : Accounts d [t] i) :
    d.Covers i ∨ t.stage = some .host ∧ i ∈ t.expr.params := by
  simpa [Accounts] using h

theorem Accounts.promotesAll {wanted : Placement} {ts : List Traced} {es : List Expr}
    (hi : Accounts d ts i) (h : a.PromotesAll sc wanted ts d es d')
    (hw : wanted = none → ∀ t ∈ ts, t.stage = none) (hsw : a.pipeline.SingleWrites)
    (hsc : ∃ x, sc = a.pipeline.scope.upTo x) (hf : d.Faithful a.pipeline) :
    d'.Covers i ∨ wanted = some .host ∧ i ∈ Expr.paramsOf es := by
  induction h with
  | nil => exact hi.imp_right (by simp)
  | @cons t ts e es d d₁ d₂ hp hs ih =>
    have hk := hp.retains hsw hsc hf
    have hk' := hs.retains hsw hsc hk.faithful
    rw [Expr.paramsOf, List.mem_append]
    rcases hi with hi | ⟨x, hx, hstage, hi⟩
    · exact .inl (hk'.covers i (hk.covers i hi))
    · rcases List.mem_cons.1 hx with rfl | hx
      · have hne : wanted ≠ none := fun hn => by
          rw [hw hn x (by simp)] at hstage
          cases hstage
        rw [hstage] at hp
        refine (hp.covers hne hsw hsc hf hi).imp (hk'.covers i) ?_
        exact And.imp_right .inl
      · refine (ih (.inr ⟨x, hx, hstage, hi⟩) (fun hn t ht => hw hn t (by simp [ht]))
          hk.faithful).imp_right ?_
        exact And.imp_right .inr

theorem PromotesAll.accounts {wanted : Placement} {ts : List Traced} {es : List Expr} {d₁ : Draft}
    (e : Expr) (h : a.PromotesAll sc wanted ts d₁ es d')
    (hw : wanted = none → ∀ t ∈ ts, t.stage = none) (hsw : a.pipeline.SingleWrites)
    (hsc : ∃ x, sc = a.pipeline.scope.upTo x) (hk : Retains a.pipeline d d₁)
    (ha : ∀ i ∈ d₁.captures, i ∈ d.captures ∨ Accounts d₁ ts i) (he : e.params = Expr.paramsOf es) :
    Retains a.pipeline d d' ∧ ∀ i ∈ d'.captures, i ∈ d.captures ∨ Accounts d' [⟨e, wanted⟩] i := by
  refine ⟨hk.trans (h.retains hsw hsc hk.faithful), fun i hi => ?_⟩
  refine (ha i (h.captures ▸ hi)).imp_right fun hi => ?_
  have hi := hi.promotesAll h hw hsw hsc hk.faithful
  exact hi.imp_right fun hi => ⟨_, List.mem_singleton_self _, hi.1, he ▸ hi.2⟩

theorem accounts_queued {t : Traced} {ts : List Traced} {s : Stage} {d₁ : Draft}
    (hs : t.stage.getD a.target = s) (hk : Retains a.pipeline d d₁)
    (ha : ∀ i ∈ d₁.captures, i ∈ d.captures ∨ Accounts d₁ [t] i) (hc : d'.captures = d₁.captures)
    (hhost : s = .host → Retains a.pipeline d₁ d' ∧ ∀ i ∈ t.expr.params, d'.Covers i)
    (hother : s ≠ .host → SameHost d₁ d') :
    Retains a.pipeline d d' ∧ ∀ i ∈ d'.captures, i ∈ d.captures ∨ Accounts d' ts i := by
  by_cases hh : s = .host
  · obtain ⟨hk', hread⟩ := hhost hh
    refine ⟨hk.trans hk', fun i hi => (ha i (hc ▸ hi)).imp_right fun hi => .inl ?_⟩
    exact hi.one.elim (hk'.covers i) fun hi => hread i hi.2
  · have hk' := (hother hh).retains hk.faithful
    refine ⟨hk.trans hk', fun i hi => (ha i (hc ▸ hi)).imp_right fun hi => .inl ?_⟩
    refine hk'.covers i (hi.one.resolve_right fun hi => hh ?_)
    rw [← hs, hi.1]
    rfl

/-- A parameter that tracing captures is read by the host's queue, or by the value that
tracing gives. -/
theorem Traces.retains {m : Bool} {es : List Expr} {ts : List Traced} (h : a.Traces sc m es d ts d')
    (hbare : a.pipeline.BareSwizzles) (hsw : a.pipeline.SingleWrites)
    (hsc : ∃ x, sc = a.pipeline.scope.upTo x) (hes : ∀ e ∈ es, e ∈ a.pipeline.scope.terms)
    (hf : d.Faithful a.pipeline) :
    Retains a.pipeline d d' ∧ ∀ i ∈ d'.captures, i ∈ d.captures ∨ Accounts d' ts i := by
  induction h with
  | nil => exact ⟨hf.retains, fun _ => .inl⟩
  | cons _ _ ih ihs =>
    obtain ⟨hk₁, ha₁⟩ := ih hsc (by simpa using hes _ (by simp)) hf
    obtain ⟨hk₂, ha₂⟩ := ihs hsc (fun e he => hes e (by simp [he])) hk₁.faithful
    refine ⟨hk₁.trans hk₂, fun i hi => ?_⟩
    rcases ha₂ i hi with hi | hi | ⟨x, hx, hi⟩
    · refine (ha₁ i hi).imp_right fun hi => (hi.retains hk₂).imp_right ?_
      rintro ⟨x, hx, hi⟩
      exact ⟨x, by simp [List.mem_singleton.1 hx], hi⟩
    · exact .inr (.inl hi)
    · exact .inr (.inr ⟨x, by simp [hx], hi⟩)
  | literal | constant => exact ⟨hf.retains, fun _ => .inl⟩
  | @param sc m n i q d d' hq _ _ hd =>
    subst hd
    split
    · rename_i hr
      refine ⟨⟨⟨hf.origins, hf.rebuilt, hf.carried⟩, fun _ => id⟩, fun j hj => ?_⟩
      rcases Scope.mem_insertId.1 hj with rfl | hj
      · exact .inr (.inr ⟨_, List.mem_singleton_self _, by simp [hr, Role.stage], by simp⟩)
      · exact .inl hj
    · exact ⟨hf.retains, fun _ => .inl⟩
  | @declared sc m n v name written o t s d d₁ _ hfind ht hs ih =>
    obtain ⟨x, rfl⟩ := hsc
    have hmem : written.init ∈ a.pipeline.scope.terms :=
      Scope.terms_upTo (Scope.find_value_mem hfind)
    have hshow : a.pipeline.Shows ⟨.declaration written, o⟩ := ⟨v, x, hfind⟩
    obtain ⟨hk₁, ha₁⟩ := ih ⟨o, Scope.before_upTo hfind⟩ (by simpa using hmem) hf
    refine accounts_queued hs hk₁ ha₁ rfl (fun hh => ?_) fun hh =>
      (setRebuilt_sameHost hh o _).trans (onQueue_sameHost hh _)
    subst hh
    -- nothing is lifted to the host, so the statement reads what the write names
    have hsame : t.expr = written.init := by
      obtain ⟨⟩ | ⟨hu, -⟩ := ht.unmoved hbare (by simpa using hmem)
      exact hu (upto_of_getD hs)
    have hparams : (StageStmt.decl ⟨v, name, written.ty, t.expr⟩).params = t.expr.params := by
      simp [StageStmt.params, StageStmt.exprs]
    have hk₂ := hk₁.faithful.setRebuilt ⟨v, name, written.ty, t.expr⟩ hshow hsame
    obtain ⟨hk₃, ha₃⟩ := hk₂.add hsw hshow (hparams.trans (congrArg Expr.params hsame))
    exact ⟨⟨hk₃.faithful, hk₃.covers⟩, fun i hi => ha₃ i (hparams ▸ hi)⟩
  | @assigned sc m n v name x o t s d d₁ _ hfind ht hs ih =>
    obtain ⟨y, rfl⟩ := hsc
    have hmem : x ∈ a.pipeline.scope.terms := Scope.terms_upTo (Scope.find_value_mem hfind)
    have hshow : a.pipeline.Shows ⟨.assignment x, o⟩ := ⟨v, y, hfind⟩
    obtain ⟨hk₁, ha₁⟩ := ih ⟨o, Scope.before_upTo hfind⟩ (by simpa using hmem) hf
    refine accounts_queued hs hk₁ ha₁ rfl (fun hh => ?_) fun hh => onQueue_sameHost hh _
    subst hh
    have hsame : t.expr = x := by
      obtain ⟨⟩ | ⟨hu, -⟩ := ht.unmoved hbare (by simpa using hmem)
      exact hu (upto_of_getD hs)
    have hparams : (StageStmt.expr t.expr).params = t.expr.params := by
      simp [StageStmt.params, StageStmt.exprs]
    obtain ⟨hk₂, ha₂⟩ := hk₁.faithful.add hsw hshow (hparams.trans (congrArg Expr.params hsame))
    exact ⟨hk₂, fun i hi => ha₂ i (hparams ▸ hi)⟩
  | @binary sc m n op lhs rhs lhs' rhs' l r pl d d₁ d₂ d₃ d₄ _ _ hp pl' pr ihl ihr =>
    obtain ⟨hk₁, ha₁⟩ := ihl hsc (Scope.parts_terms hes (by simp [Expr.self_mem_subterms])) hf
    obtain ⟨hk₂, ha₂⟩ :=
      ihr hsc (Scope.parts_terms hes (by simp [Expr.self_mem_subterms])) hk₁.faithful
    have hnone : pl = none → l.stage = none ∧ r.stage = none := fun hn =>
      Placement.later_eq_none.1 (wait_eq_none (hp.trans hn))
    -- the two operands are promoted like a list of two
    have hall : a.PromotesAll sc pl [l, r] d₂ [lhs', rhs'] d₄ := .cons pl' (.cons pr .nil)
    refine hall.accounts _ (by simpa using hnone) hsw hsc (hk₁.trans hk₂) (fun i hi => ?_) (by simp)
    rcases ha₂ i hi with hi | hi
    · exact (ha₁ i hi).imp_right fun hi => (hi.retains hk₂).imp_right (by simp +contextual)
    · exact .inr (hi.imp_right (by simp +contextual))
  | unary _ ih | cast _ _ ih | member _ _ ih =>
    obtain ⟨hk₁, ha₁⟩ := ih hsc (Scope.parts_terms hes (by simp [Expr.self_mem_subterms])) hf
    exact ⟨hk₁, by simpa [Accounts] using ha₁⟩
  | construct _ _ hp ih | initList _ hp ih =>
    obtain ⟨hk₁, ha₁⟩ :=
      ih hsc (Scope.parts_terms hes fun e he => by simp [Expr.mem_subtermsOf he]) hf
    exact hp.accounts _ placement_eq_none.1 hsw hsc hk₁ ha₁ rfl
  | call _ _ hpl hp ih =>
    obtain ⟨hk₁, ha₁⟩ :=
      ih hsc (Scope.parts_terms hes fun e he => by simp [Expr.mem_subtermsOf he]) hf
    exact hp.accounts _ (fun hn => placement_eq_none.1 (wait_eq_none (hpl.trans hn))) hsw
      hsc hk₁ ha₁ rfl
  | @sample sc m n method f object uv uv' sampler texture k s t d d₁ d₂ d₃ _ _ ho _ hp hk ih =>
    obtain ⟨hk₁, ha₁⟩ :=
      ih hsc (Scope.parts_terms hes (by simp [Expr.subtermsOf, Expr.self_mem_subterms])) hf
    have hk₂ := hp.retains hsw hsc hk₁.faithful
    have hsame := sample_sameHost hk
    have hk₃ := hsame.retains hk₂.faithful
    refine ⟨(hk₁.trans hk₂).trans hk₃, fun i hi => ?_⟩
    rw [hsame.captures, hp.captures] at hi
    refine (ha₁ i hi).imp_right fun hi => .inl (hk₃.covers i ?_)
    rcases hi.one with hi | ⟨hstage, hi⟩
    · exact hk₂.covers i hi
    · -- the coordinates leave the host, since nothing is sampled there
      rw [hstage] at hp
      refine (hp.covers (by simp) hsw hsc hk₁.faithful hi).resolve_right fun hs => ?_
      exact sampledStage_ne_host ho (Option.some.inj hs.1)
  | @method sc m n method f object args t ts d d₁ d₂ hm hs _ ha ih _ =>
    have hmem := hes (.methodCall n method object args) (by simp)
    obtain rfl : args = [] := hbare n method object args f hmem hm hs
    cases ha
    obtain ⟨hk₁, ha₁⟩ := ih hsc (Scope.parts_terms hes (by simp [Expr.self_mem_subterms])) hf
    exact ⟨hk₁, by simpa [Accounts] using ha₁⟩

end Aim

def Program.HostReads (prog : Program) (i : Nat) : Prop :=
  ∃ st ∈ prog.blocks.get .host, ∃ n, .param n i ∈ st.terms

theorem Program.hostReads_iff {prog : Program} {i : Nat} :
    prog.HostReads i ↔ ∃ st ∈ prog.blocks.get .host, i ∈ st.params := by
  simp only [HostReads, StageStmt.mem_params]

theorem Draft.finish_hostReads {d : Draft} {p : Pipeline} {i : Nat} :
    (d.finish p).HostReads i ↔ d.Covers i := by
  rw [Program.hostReads_iff, finish_block]
  constructor
  · rintro ⟨st, hst, hi⟩
    have hexprs : st.exprs ≠ [] := fun hnil => by simp [StageStmt.params, hnil] at hi
    obtain ⟨o, ho⟩ := queued_of_block hst hexprs
    exact ⟨(st, o), ho, hi⟩
  · rintro ⟨e, he, hi⟩
    exact ⟨e.1, mem_block_of_queued he, hi⟩

namespace Pipeline

variable {p : Pipeline}

theorem start_faithful (p : Pipeline) : (Draft.start p).Faithful p := by
  refine ⟨fun st o hst => ?_, fun o decl ho => ?_, fun t r hr f hf => ?_⟩
  · simp [Draft.start, Draft.queue, PerStage.const, PerStage.get, Queue.tags] at hst
  · simp [Draft.start, Draft.rebuilt?] at ho
  · rw [(Draft.start_record hr).1] at hf
    cases hf

theorem Runs.covers {todo : List (Stage × Param × Nat)} {d d' : Draft} (h : p.Runs todo d d')
    (hbare : p.BareSwizzles) (hsw : p.SingleWrites) (htodo : ∀ x ∈ todo, x ∈ p.allOutputs)
    (hf : d.Faithful p) (hd : ∀ i ∈ d.captures, d.Covers i) : ∀ i ∈ d'.captures, d'.Covers i := by
  induction h with
  | nil => exact hd
  | unwritten _ _ ih =>
    exact ih (fun x hx => htodo x (by simp [hx])) ⟨hf.origins, hf.rebuilt, hf.carried⟩ hd
  | @written s q i rest x e o t d d₁ d₂ d' hfind ht _ hp _ ih =>
    have hs : s ≠ .host := ne_host_of_mem_allOutputs (htodo (s, q, i) (by simp))
    have hmem : x ∈ p.scope.terms := Scope.find_value_mem hfind
    obtain ⟨hk₁, ha₁⟩ := ht.retains hbare hsw ⟨o, rfl⟩ (by simpa using hmem) hf
    have hk₂ := hp.retains hsw ⟨o, rfl⟩ hk₁.faithful
    have hsame : Draft.SameHost d₂ (d₂.add s (.expr e) none) := Draft.onQueue_sameHost hs _
    have hk₃ := hsame.retains hk₂.faithful
    refine ih (fun x hx => htodo x (by simp [hx])) hk₃.faithful fun j hj => hk₃.covers j ?_
    rcases ha₁ j (hp.captures ▸ hj) with hj | hj
    · exact hk₂.covers j (hk₁.covers j (hd j hj))
    · rcases hj.one with hj | ⟨hstage, hj⟩
      · exact hk₂.covers j hj
      · rw [hstage] at hp
        exact (hp.covers (by simp) hsw ⟨o, rfl⟩ hk₁.faithful hj).resolve_right fun hh =>
          hs (Option.some.inj hh.1)

/-- The captures are ordered parameters of that role, and hold all those that the host's
block names. They hold no others if a step has one write; of several writes in one step the
host keeps one. -/
theorem split_captures {prog : Program} {notices : List String} (hbare : p.BareSwizzles)
    (h : p.split = (.ok prog, notices)) :
    prog.captures.Pairwise (· < ·) ∧ (∀ i ∈ prog.captures, p.Captures i) ∧
      (∀ i, p.Captures i → prog.HostReads i → i ∈ prog.captures) ∧
      (p.SingleWrites → ∀ i, i ∈ prog.captures ↔ p.Captures i ∧ prog.HostReads i) := by
  obtain ⟨d, hr, rfl⟩ := split_runs h
  have hn : d.Noted p := hr.noted hbare (fun _ => id) (start_noted p)
  have hread : ∀ i, p.Captures i → (d.finish p).HostReads i → i ∈ d.captures := by
    intro i hi hread
    obtain ⟨e, he, hie⟩ := Draft.finish_hostReads.1 hread
    exact hn.queued e he i hie hi
  refine ⟨hn.sorted, hn.roles, hread,
    fun hsw i => ⟨fun hi => ⟨hn.roles i hi, ?_⟩, fun hi => hread i hi.1 hi.2⟩⟩
  apply Draft.finish_hostReads.2
  exact hr.covers hbare hsw (fun _ => id) (start_faithful p) (by simp [Draft.start]) i hi

end Pipeline

namespace Sample

open Workbench

/-- A sum of two captured parameters, met in the order opposite to that of the parameters, is used
in two stages; one more captured parameter is not used. -/
def blended : PipelineFn :=
  let ps := [param "a" .captured, param "u" .captured, param "b" .captured,
      param "v" (.varyingInput .vertex),
    param "g" (.varyingOutput .vertex), param "o" (.varyingOutput .fragment)]
  fn "blended" ps do
    let (dk, k) ← declare "k" .float (← binary .add (← arg ps 2) (← arg ps 0))
    let sk ← assign .mulAssign (← useLocal k) (← arg ps 2)
    let g ← assign .assign (← arg ps 4) (← binary .add (← useLocal k) (← arg ps 3))
    let o ← assign .assign (← arg ps 5) (← useLocal k)
    return [dk, sk, g, o]

def chained : PipelineFn :=
  let ps := [param "a" .captured, param "b" .captured, param "o" (.varyingOutput .vertex)]
  fn "chained" ps do
    let (dc, c) ← declare "c" .float (← arg ps 0)
    let (dd, d) ← declare "d" .float (← arg ps 0)
    let s ← assign .assign (← useLocal c)
      (← binary .add (← binary .assign (← useLocal d) (← arg ps 0)) (← arg ps 1))
    let o ← assign .assign (← arg ps 2) (← binary .add (← useLocal d) (← useLocal c))
    return [dc, dd, s, o]

end Sample

open Sample in
theorem Pipeline.split_captures_blended : ∃ prog notices,
    Pipeline.check bare ⟨[]⟩ blended = .ok (pipeline blended) ∧ (pipeline blended).BareSwizzles ∧
    (pipeline blended).SingleWrites ∧ (pipeline blended).split = (.ok prog, notices) ∧
    prog.captures = [0, 2] ∧
    ∀ i, i ∈ prog.captures ↔ (pipeline blended).Captures i ∧ prog.HostReads i := by
  have hb := pipeline_bareSwizzles blended
  have hsw : (pipeline blended).SingleWrites :=
    singleWrites_of_simple (by decide +kernel) (by decide +kernel)
  obtain ⟨prog, notices, h, hc⟩ :=
    exists_of_splits (pipeline blended) (fun prog => prog.captures == [0, 2])
    (by decide +kernel)
  exact ⟨prog, notices, check_pipeline (by decide +kernel), hb, hsw, h, by simpa using hc,
    (Pipeline.split_captures hb h).2.2.2 hsw⟩

open Sample in
/-- The step that writes two locals is kept for the first, whose value does not read the second
captured parameter. -/
theorem Pipeline.split_captures_chained : ∃ prog notices,
    Pipeline.check bare ⟨[]⟩ chained = .ok (pipeline chained) ∧ (pipeline chained).BareSwizzles ∧
    (pipeline chained).split = (.ok prog, notices) ∧ 1 ∈ prog.captures ∧ ¬ prog.HostReads 1 := by
  obtain ⟨prog, notices, h, hc⟩ := exists_of_splits (pipeline chained)
    (fun prog => prog.captures.contains 1 && (prog.blocks.get .host).all
      fun st => !st.params.contains 1)
    (by decide +kernel)
  rw [Bool.and_eq_true] at hc
  refine ⟨prog, notices, check_pipeline (by decide +kernel), pipeline_bareSwizzles chained, h,
    by simpa using hc.1, ?_⟩
  intro hread
  obtain ⟨st, hst, hi⟩ := Program.hostReads_iff.1 hread
  have hno := List.all_eq_true.1 hc.2 st hst
  simp only [Bool.not_eq_true', List.contains_eq_mem, decide_eq_false_iff_not] at hno
  exact hno hi

end ShaderSplit
