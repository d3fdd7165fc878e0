import ShaderSplit.Proofs.Partition.Ledger

namespace ShaderSplit

namespace Queue

variable {q : Queue} {o i : NodeId} {stmt : StageStmt}

theorem release_release (h : o ≠ i) : (q.release i).release o = (q.release o).release i := by
  induction q with
  | nil => rfl
  | cons e q ih =>
    by_cases ho : e.origin = some o
    · have hi : e.origin ≠ some i := fun hi => h (Option.some.inj (ho.symm.trans hi))
      by_cases hu : e.uses ≤ 1 <;> simp [release, ho, hu, h]
    · by_cases hi : e.origin = some i
      · by_cases hu : e.uses ≤ 1 <;> simp [release, hi, hu, Ne.symm h]
      · simp [release, ho, hi, ih]

theorem release_insertAfter? {fits : Option NodeId → Bool} {entry : Entry}
    (ho : entry.origin = none) (hfits : fits (some o) = false) :
    insertAfter? (fun e => fits e.origin) entry (q.release o) =
      (insertAfter? (fun e => fits e.origin) entry q).map (release o) := by
  have hentry (r : Queue) : release o (entry :: r) = entry :: release o r := by simp [release, ho]
  induction q with
  | nil => rfl
  | cons e q ih =>
    by_cases he : e.origin = some o
    · have hf : fits e.origin = false := he ▸ hfits
      by_cases hu : e.uses ≤ 1 <;>
        cases hq : insertAfter? (fun e => fits e.origin) entry q <;>
        simp [release, insertAfter?, he, hu, hq, hfits]
    · rw [release, if_neg he, insertAfter?, insertAfter?, ih]
      cases hq : insertAfter? (fun e => fits e.origin) entry q with
      | some r => simp [release, he]
      | none =>
        by_cases hf : fits e.origin = true <;> simp [release, he, hf, ho]

theorem release_insertReached {reaching : List NodeId} (h : o ∉ reaching) :
    (q.insertReached reaching stmt).release o = (q.release o).insertReached reaching stmt := by
  have hfits : (some o).any reaching.contains = false := by simpa using h
  have hafter :
      insertAfter? (fun e => e.origin.any reaching.contains) ⟨stmt, none, 1⟩ (q.release o) =
      (insertAfter? (fun e => e.origin.any reaching.contains) ⟨stmt, none, 1⟩ q).map (release o) :=
    release_insertAfter? rfl hfits
  have hlast (r : Queue) :
      release o (r ++ [⟨stmt, none, 1⟩]) = release o r ++ [⟨stmt, none, 1⟩] := by
    induction r with
    | nil => simp [release]
    | cons e r ih =>
      by_cases he : e.origin = some o
      · by_cases hu : e.uses ≤ 1 <;> simp [release, he, hu]
      · simp [release, he, ih]
  unfold insertReached
  dsimp only
  rw [hafter]
  cases insertAfter? (fun e => e.origin.any reaching.contains) ⟨stmt, none, 1⟩ q with
  | none => exact hlast q
  | some r => rfl

end Queue

namespace Draft

def giveBack (d : Draft) (s : Stage) (o : NodeId) : Draft := d.onQueue s (·.release o)

variable {d d' : Draft} {s t u : Stage} {o : NodeId} {sc : Scope}

theorem onQueue_onQueue {f g : Queue → Queue} (h : s = t → ∀ q, f (g q) = g (f q)) :
    (d.onQueue t g).onQueue s f = (d.onQueue s f).onQueue t g := by
  unfold onQueue queue
  by_cases hst : s = t
  · subst hst
    cases s <;> simp [PerStage.set, PerStage.get, h rfl]
  · cases s <;> cases t <;> first | rfl | exact absurd rfl hst

theorem giveBack_openField {r : InterfaceRecord} {value : Expr} {reaching : List NodeId}
    (h : o ∉ reaching) :
    (d.openField s t r value reaching).giveBack u o = (d.giveBack u o).openField s t r value
      reaching := by
  have hrecord : (d.giveBack u o).setRecord s t (r.push value reaching) =
      (d.setRecord s t (r.push value reaching)).giveBack u o := by
    unfold setRecord
    split <;> rfl
  have hqueue (st : StageStmt) :
      ((d.setRecord s t (r.push value reaching)).onQueue s (·.insertReached reaching st)).giveBack u
        o =
        ((d.setRecord s t (r.push value reaching)).giveBack u o).onQueue s
          (·.insertReached reaching st) :=
    onQueue_onQueue fun _ q => Queue.release_insertReached h
  unfold openField
  dsimp only
  rw [hrecord]
  exact congrArg (tick · 2) (hqueue _)

theorem not_mem_reaching {e : Expr} (h : ∀ x ∈ sc, x.id ≠ o) : o ∉ sc.reaching e := by
  intro ho
  obtain ⟨v, -, w, hw, hstep⟩ := Scope.mem_reaching.1 ho
  obtain ⟨x, hx, hid⟩ := Scope.find_step_mem hw
  exact h x hx (hid.trans hstep)

theorem Carries.giveBack {value e : Expr} (h : Carries sc s t value d e d')
    (ho : ∀ x ∈ sc, x.id ≠ o) :
    Carries sc s t value (d.giveBack u o) e (d'.giveBack u o) := by
  cases h with
  | found hr hi => exact .found hr hi
  | opened hr hi he =>
    subst he
    exact Carries.opened (d := d.giveBack u o) hr hi (giveBack_openField (not_mem_reaching ho)).symm

theorem Relays.giveBack {value e : Expr} {hops : List Stage} (h : Relays sc s value hops d e d')
    (ho : ∀ x ∈ sc, x.id ≠ o) : Relays sc s value hops (d.giveBack u o) e (d'.giveBack u o) := by
  induction h with
  | done => exact .done
  | hop hc _ ih => exact .hop (hc.giveBack ho) ih

theorem giveBack_redeclare {i : NodeId} {decl : LocalDecl} (hst : s < t) (h : o ≠ i) :
    (d.redeclare s t i decl).giveBack s o = (d.giveBack s o).redeclare s t i decl := by
  have hne : s ≠ t := fun hst' => lt_irrefl t (hst' ▸ hst)
  have hadd : ((d.setRebuilt i t decl).add t (.decl decl) (some i)).giveBack s o =
      ((d.setRebuilt i t decl).giveBack s o).add t (.decl decl) (some i) :=
    onQueue_onQueue fun hst' => absurd hst' hne
  have hrelease (e : Draft) :
      (e.onQueue s (·.release i)).giveBack s o = (e.giveBack s o).onQueue s (·.release i) :=
    onQueue_onQueue fun _ q => Queue.release_release h
  unfold redeclare liftDeclaration
  rw [hrelease, hadd]
  rfl

/-- What is lifted in a scope before `o` is lifted alike once a use of `o` is given back. -/
theorem Lifts.giveBack {m : StageSet} {es es' : List Expr} (h : Lifts m s t sc es d es' d')
    (hst : s < t) (ho : ∀ x ∈ sc, x.id ≠ o) :
    Lifts m s t sc es (d.giveBack s o) es' (d'.giveBack s o) := by
  induction h with
  | nil => exact .nil
  | cons _ _ ih ihs => exact .cons (ih ho) (ihs ho)
  | literal => exact .literal
  | constant => exact .constant
  | construct _ ih => exact .construct (ih ho)
  | unary _ ih => exact .unary (ih ho)
  | cast _ ih => exact .cast (ih ho)
  | redeclare hw hd _ ih =>
    obtain ⟨x, hx, hid⟩ := Scope.find_step_mem hw
    rw [giveBack_redeclare hst fun h => ho x hx (hid.trans h.symm)]
    exact .redeclare hw hd (ih fun x hx => ho x (Scope.upTo_subset hx))
  | transfer hc hr hd => exact .transfer hc hr (hd.giveBack ho)

def Version (p : Pipeline) (s : Stage) (o : NodeId) (decl : LocalDecl) : Prop :=
  ∃ written, p.Shows ⟨.declaration written, o⟩ ∧ decl.var = written.var ∧
    decl.init.locals = p.version s o written.init ∧
    decl.init.kept (p.scope.upTo o) = written.init.kept (p.scope.upTo o) ∧ decl.init.Directed

/-- All queues are sound, with `due` uses for the expressions in flight. -/
structure Supplied (p : Pipeline) (due : Stage → NodeId → Nat) (d : Draft) : Prop where
  queues : ∀ s, ∃ pins, (d.queue s).Sound p s pins (due s)
  rebuilt : ∀ o s decl, d.rebuilt? o s = some decl → Version p s o decl
  stored : ∀ s decl o, (.decl decl, some o) ∈ (d.queue s).tags → (d.rebuilt? o s).isSome = true

/-- What is due, and in addition `f` in the stage of a placement. -/
def owe (due : Stage → NodeId → Nat) (q : Placement) (f : NodeId → Nat) : Stage → NodeId → Nat :=
  fun s o => due s o + if q = some s then f o else 0

variable {p : Pipeline} {due due' : Stage → NodeId → Nat} {f : NodeId → Nat} {q : Placement}

@[simp] theorem owe_self : owe due (some s) f s = fun o => due s o + f o := by
  funext o
  simp [owe]

theorem Supplied.mono (h : d.Supplied p due) (hdue : ∀ s o, due' s o ≤ due s o) :
    d.Supplied p due' :=
  { h with queues := fun s => (h.queues s).imp fun _ hs => hs.weaken (hdue s) }

theorem Supplied.congr (h : d.Supplied p due) (hq : d'.queues = d.queues)
    (hr : d'.rebuilt = d.rebuilt) : d'.Supplied p due := by
  have hqueue (s : Stage) : d'.queue s = d.queue s := by rw [queue, queue, hq]
  have hrebuilt (o : NodeId) (s : Stage) : d'.rebuilt? o s = d.rebuilt? o s := by
    rw [rebuilt?, rebuilt?, hr]
  refine ⟨fun s => ?_, fun o s decl => ?_, fun s decl o => ?_⟩
  · rw [hqueue]
    exact h.queues s
  · rw [hrebuilt]
    exact h.rebuilt o s decl
  · rw [hqueue, hrebuilt]
    exact h.stored s decl o

theorem Supplied.onQueue {g : Queue → Queue} (h : d.Supplied p due)
    (hs : ∀ pins, (d.queue s).Sound p s pins (due s) →
      ∃ pins', (g (d.queue s)).Sound p s pins' (due' s))
    (hdue : ∀ t, t ≠ s → ∀ o, due' t o ≤ due t o)
    (hst : ∀ decl o, (.decl decl, some o) ∈ (g (d.queue s)).tags →
      (.decl decl, some o) ∈ (d.queue s).tags ∨ (d.rebuilt? o s).isSome = true) :
    (d.onQueue s g).Supplied p due' := by
  refine ⟨fun t => ?_, h.rebuilt, fun t decl o hmem => ?_⟩
  · rw [onQueue_queue]
    split
    · rename_i hst
      subst hst
      obtain ⟨pins, hpins⟩ := h.queues s
      exact hs pins hpins
    · rename_i hne
      exact (h.queues t).imp fun _ ht => ht.weaken (hdue t (Ne.symm hne))
  · rw [onQueue_queue] at hmem
    split at hmem
    · rename_i hst'
      subst hst'
      exact (hst decl o hmem).elim (h.stored s decl o) id
    · exact h.stored t decl o hmem

theorem owe_comm {g : NodeId → Nat} {q r : Placement} :
    owe (owe due q f) r g = owe (owe due r g) q f := by
  funext s o
  simp only [owe]
  omega

theorem owe_append {vs us : List LocalId} :
    owe due q (sc.demand (vs ++ us)) = owe (owe due q (sc.demand us)) q (sc.demand vs) := by
  funext s o
  simp only [owe, Scope.demand_append]
  split <;> omega

theorem owe_ne (h : t ≠ s) : owe due (some s) f t = due t := by
  funext o
  simp [owe, Ne.symm h]

theorem Supplied.setRebuilt {decl : LocalDecl} (h : d.Supplied p due) (hv : Version p s o decl) :
    (d.setRebuilt o s decl).Supplied p due := by
  refine ⟨h.queues, fun i t decl' hd => ?_, fun t decl' i hmem => ?_⟩
  · rw [setRebuilt_rebuilt?] at hd
    split at hd
    · rename_i ho
      cases hd
      exact ho.1 ▸ ho.2 ▸ hv
    · exact h.rebuilt i t decl' hd
  · rw [setRebuilt_rebuilt?]
    split
    · rfl
    · exact h.stored t decl' i hmem

/-- A declaration that is used once more takes over what its initializer is due. -/
theorem Supplied.declare {decl : LocalDecl} (hsw : p.SingleWrites)
    (h : d.Supplied p (owe due (some s) ((p.scope.upTo o).demand decl.init.locals)))
    (hv : Version p s o decl)
    (hfound : ∀ v ∈ decl.init.locals, ∃ w, (p.scope.upTo o).find (.localVar v) = some w) :
    (d.declare o s decl).Supplied p (owe due (some s) fun i => if o = i then 1 else 0) := by
  obtain ⟨written, hw, hvar, hl, -, hdir⟩ := id hv
  refine (h.setRebuilt hv).onQueue (fun pins hs => ?_) (fun t ht i => ?_) fun decl' i hmem => ?_
  · rw [owe_self] at hs ⊢
    exact ⟨pins, hs.declare hsw hw hvar hl hdir hfound⟩
  · exact Nat.le_of_eq (by rw [owe_ne ht, owe_ne ht])
  · have hmem : (.decl decl', some i) ∈
        (((d.setRebuilt o s decl).queue s).add (.decl decl) (some o)).tags := hmem
    refine (Queue.mem_tags_add hmem).imp_right fun heq => ?_
    obtain ⟨-, hi⟩ := Prod.mk.inj heq
    rw [setRebuilt_rebuilt?, if_pos ⟨(Option.some.inj hi).symm, rfl⟩]
    rfl

theorem Supplied.giveBack {written : LocalDecl} (hsw : p.SingleWrites)
    (h : d.Supplied p (owe due (some s) fun i => if o = i then 1 else 0))
    (hw : p.Shows ⟨.declaration written, o⟩) :
    (d.giveBack s o).Supplied p
      (owe due (some s) ((p.scope.upTo o).demand (p.version s o written.init))) := by
  refine h.onQueue (fun pins hs => ?_) (fun t ht i => ?_) fun decl i hmem => ?_
  · rw [owe_self] at hs ⊢
    exact ⟨pins, hs.release hsw hw⟩
  · exact Nat.le_of_eq (by rw [owe_ne ht, owe_ne ht])
  · exact .inl (Queue.mem_tags_release hmem)

theorem Supplied.addExpr {x : Expr} {origin : Option NodeId} (h : d.Supplied p due)
    (hs : ∀ pins, (d.queue s).Sound p s pins (due s) →
      ∃ pins', ((d.queue s).add (.expr x) origin).Sound p s pins' (due' s))
    (hdue : ∀ t, t ≠ s → ∀ o, due' t o ≤ due t o) : (d.add s (.expr x) origin).Supplied p due' := by
  exact h.onQueue hs hdue fun decl i hmem =>
    .inl ((Queue.mem_tags_add hmem).resolve_right (by simp))

theorem Carries.supplied {value e : Expr} {x : NodeId}
    (h : Carries (p.scope.upTo x) s t value d e d') (hdir : value.Directed)
    (hfound : ∀ v ∈ value.locals, ∃ w, (p.scope.upTo x).find (.localVar v) = some w)
    (hd : d.Supplied p (owe due (some s) ((p.scope.upTo x).demand value.locals))) :
    d'.Supplied p due := by
  cases h with
  | found hr hi => exact (hd.mono fun _ _ => Nat.le_add_right _ _).congr rfl rfl
  | @opened r e hr hi he =>
    subst he
    have hrec (r' : InterfaceRecord) :
        (d.setRecord s t r').Supplied p
          (owe due (some s) ((p.scope.upTo x).demand value.locals)) := by
      refine hd.congr ?_ ?_ <;>
      · unfold setRecord
        split <;> rfl
    -- the producer reads the locals of the value, which are due in its stage
    have hopen :
        ∀ e : Draft, e.Supplied p (owe due (some s) ((p.scope.upTo x).demand value.locals)) → ∀ k,
        (e.onQueue s
          (·.insertReached ((p.scope.upTo x).reaching value)
          (.expr (e.producer s t k value)))).Supplied p due := by
      intro e he k
      have hlocals : (e.producer s t k value).locals = value.locals := by simp [producer, endAt]
      have hreaching :
          (p.scope.upTo x).reaching value = (p.scope.upTo x).reaching (e.producer s t k value) := by
        rw [Scope.reaching, Scope.reaching, hlocals]
      refine he.onQueue (fun pins hs => ?_) (fun u hu i => ?_) fun decl i hmem => .inl ?_
      · rw [owe_self, ← hlocals] at hs
        have hdir' : (e.producer s t k value).Directed := by
          simpa [Expr.Directed, producer, endAt] using hdir
        exact hs.insertReached hdir' (hlocals ▸ hfound) hreaching
      · exact Nat.le_of_eq (by rw [owe_ne hu])
      · exact (Queue.mem_tags_insertReached.1 hmem).resolve_right (by simp)
    exact (hopen _ (hrec _) _).congr rfl rfl

/-- A value that is carried leaves its locals behind. -/
theorem Relays.supplied {value e : Expr} {x : NodeId} {hops : List Stage}
    (h : Relays (p.scope.upTo x) s value hops d e d') (hne : hops ≠ []) (hdir : value.Directed)
    (hfound : ∀ v ∈ value.locals, ∃ w, (p.scope.upTo x).find (.localVar v) = some w)
    (hd : d.Supplied p (owe due (some s) ((p.scope.upTo x).demand value.locals))) :
    d'.Supplied p due := by
  induction h with
  | done => exact absurd rfl hne
  | @hop s t value next last rest d d₁ d₂ hc hr ih =>
    have hd₁ := hc.supplied hdir hfound hd
    cases rest with
    | nil =>
      cases hr
      exact hd₁
    | cons u rest =>
      have hnext : next.locals = [] := by cases hc <;> rfl
      have hdir' : next.Directed := by cases hc <;> simp [Expr.Directed, endAt]
      refine ih (by simp) hdir' (by simp [hnext]) (hd₁.mono fun s o => ?_)
      simp [owe, hnext]

theorem Supplied.version {written : LocalDecl} (hsw : p.SingleWrites) (hd : d.Supplied p due)
    (hw : p.Shows ⟨.declaration written, o⟩) (hdue : 0 < due s o) :
    ∃ decl, d.rebuilt? o s = some decl ∧ decl.var = written.var ∧
      decl.init.locals = p.version s o written.init ∧
      decl.init.kept (p.scope.upTo o) = written.init.kept (p.scope.upTo o) ∧ decl.init.Directed ∧
      ∀ v ∈ decl.init.locals, ∃ w, (p.scope.upTo o).find (.localVar v) = some w := by
  obtain ⟨pins, hs⟩ := hd.queues s
  obtain ⟨⟨st, origin⟩, hmem, rfl⟩ := List.mem_map.1 (hs.mem_of_due hdue)
  have hkind := hs.kinds _ hmem
  have hbacked := hs.backed hmem
  -- what is due is queued, and the queue has the local by its declaration
  cases hkind with
  | assign hw' _ => cases hsw.site hw' hw rfl
  | @decl written' decl' _ hw' hv' hl' =>
    cases hsw.site hw' hw rfl
    obtain ⟨decl, hdecl⟩ := Option.isSome_iff_exists.1 (hd.stored s decl' o hmem)
    obtain ⟨written', hw', hv, hl, hk, hdir⟩ := hd.rebuilt o s decl hdecl
    cases hsw.site hw' hw rfl
    refine ⟨decl, hdecl, hv, hl, hk, hdir, fun v hv => ?_⟩
    obtain ⟨before, x, hx, hfound⟩ := hbacked
    obtain rfl := hx o rfl
    obtain ⟨w, hw, -⟩ := hfound v (by simpa [StageStmt.locals, StageStmt.exprs, hl', ← hl] using hv)
    exact ⟨w, hw⟩

theorem early_init {T : Stage} {written decl : LocalDecl}
    (hl : decl.init.locals = p.version s o written.init)
    (hle : ((⟨p, T⟩ : Aim).place (p.scope.upTo o) written.init).getD T ≤ s)
    (hfound : ∀ v ∈ decl.init.locals, ∃ w, (p.scope.upTo o).find (.localVar v) = some w) :
    ∀ v ∈ decl.init.locals, (⟨p, T⟩ : Aim).Early (p.scope.upTo o) (some s) v := by
  intro v hv
  obtain ⟨w, hw⟩ := hfound v hv
  obtain ⟨n, name, hmem⟩ := Expr.mem_locals.1 (Pipeline.version_subset (hl ▸ hv))
  have hup : ((⟨p, T⟩ : Aim).place (p.scope.upTo o) written.init).Upto s := by
    rintro x hx
    rw [hx] at hle
    exact hle
  have hplace := Aim.place_subterm hmem hup
  rw [Aim.place_localVar hw] at hplace
  exact ⟨w, s, hw, rfl, Placement.upto_some.1 hplace⟩

theorem declare_giveBack {decl : LocalDecl} (hst : s < t) :
    (d.giveBack s o).declare o t decl = d.redeclare s t o decl := by
  have hne : s ≠ t := fun hst' => lt_irrefl t (hst' ▸ hst)
  unfold declare redeclare liftDeclaration
  exact (onQueue_onQueue (d := d.setRebuilt o t decl) fun hst' => absurd hst' hne).symm

theorem Lifts.directed {m : StageSet} {es es' : List Expr} (h : Lifts m s t sc es d es' d')
    (hes : ∀ e ∈ es, e.Directed) : ∀ e ∈ es', e.Directed := by
  unfold Expr.Directed at hes ⊢
  induction h with
  | nil | literal | constant => exact hes
  | cons _ _ ih ihs => simp_all
  | construct _ ih | unary _ ih | cast _ ih => simpa using ih (by simpa using hes)
  | redeclare => simp
  | transfer _ hr hd =>
    obtain ⟨n, r, rfl⟩ := hd.interface hr.ne_nil
    simp

/-- Lifting moves what is due from one stage to the other. -/
theorem Lifts.supplied {T : Stage} (hsw : p.SingleWrites) (hst : s < t) (hT : t ≤ T) {n : Nat} :
    ∀ {sc : Scope} {es es' : List Expr} {d d' : Draft} {due : Stage → NodeId → Nat}, sc.length < n →
      Lifts p.stages s t sc es d es' d' → (∃ x, sc = p.scope.upTo x) → (∀ e ∈ es, e.Directed) →
      (∀ v ∈ Expr.localsOf es, (⟨p, T⟩ : Aim).Early sc (some s) v) →
      d.Supplied p (owe due (some s) (sc.demand (Expr.localsOf es))) →
      d'.Supplied p (owe due (some t) (sc.demand (Expr.localsOf es'))) := by
  -- The initializer of a local is lifted in a shorter scope, but from a draft of its own.
  induction n with
  | zero => exact fun hn => absurd hn (Nat.not_lt_zero _)
  | succ n ih =>
    intro sc es es' d d' due hn h hsc hdir hearly hd
    induction h generalizing due with
    | nil => exact hd.mono fun u i => by simp [owe]
    | @cons sc e e' es es' d d₁ d₂ h hs ih₁ ih₂ =>
      have hsplit : Expr.localsOf (e :: es) = Expr.localsOf [e] ++ Expr.localsOf es := by simp
      have hsplit' : Expr.localsOf (e' :: es') = Expr.localsOf [e'] ++ Expr.localsOf es' := by simp
      rw [hsplit] at hearly hd
      rw [hsplit']
      rw [owe_append] at hd ⊢
      have hd₁ := ih₁ hn hsc (by simpa using hdir e (by simp))
        (fun v hv => hearly v (List.mem_append_left _ hv)) hd
      rw [owe_comm] at hd₁ ⊢
      exact ih₂ hn hsc (fun x hx => hdir x (by simp [hx]))
        (fun v hv => hearly v (List.mem_append_right _ hv)) hd₁
    | literal | constant => exact hd.mono fun u i => by simp [owe]
    | construct _ ih₁ =>
      simpa using ih₁ hn hsc (by simpa [Expr.Directed] using hdir) (by simpa using hearly)
        (by simpa using hd)
    | unary _ ih₁ =>
      simpa using ih₁ hn hsc (by simpa [Expr.Directed] using hdir) (by simpa using hearly)
        (by simpa using hd)
    | cast _ ih₁ =>
      simpa using ih₁ hn hsc (by simpa [Expr.Directed] using hdir) (by simpa using hearly)
        (by simpa using hd)
    | @redeclare sc m v name written decl o init d d₁ hw hdecl hi _ =>
      obtain ⟨x, rfl⟩ := hsc
      have hscope : (p.scope.upTo x).upTo o = p.scope.upTo o := Scope.before_upTo hw
      have hlen : ((p.scope.upTo x).upTo o).length < n :=
        Nat.lt_of_lt_of_le (Scope.length_before_lt hw) (Nat.le_of_lt_succ hn)
      have hbefore : ∀ y ∈ (p.scope.upTo x).upTo o, y.id ≠ o := fun y hy => Scope.ne_of_mem_upTo hy
      have hshow : p.Shows ⟨.declaration written, o⟩ := ⟨v, x, hw⟩
      have hone : (p.scope.upTo x).demand (Expr.localsOf [.localVar m v name]) = fun i =>
            if o = i then 1 else 0 := by
        funext i
        simpa using Scope.demand_one hw
      rw [hone] at hd ⊢
      obtain ⟨w, u, hw', hu, hle⟩ := hearly v (by simp)
      cases hw.symm.trans hw'
      cases hu
      have hle : ((⟨p, T⟩ : Aim).place (p.scope.upTo o) written.init).getD T ≤ s := hscope ▸ hle
      obtain ⟨decl', hr, hvar, hl, hk, hdir', hfound⟩ :=
        hd.version (s := s) hsw hshow (by simp [owe])
      obtain rfl : decl' = decl := by rw [← hdecl, hr]; rfl
      -- With the use given back, the initializer may be lifted, and the local is declared again.
      have hgive := hd.giveBack hsw hshow
      rw [← hl] at hgive
      have hi' := hi.giveBack hst hbefore
      obtain ⟨hil, hik⟩ := hi.kept
      simp only [List.map_cons, List.map_nil, List.cons.injEq, and_true, hscope] at hil hik
      rw [hscope] at hi' hlen
      have hlift := ih hlen hi' ⟨o, rfl⟩ (by simpa using hdir')
        (by simpa using early_init hl hle hfound) (by simpa using hgive)
      rw [← declare_giveBack hst]
      refine (by simpa using hlift : Supplied p _ _).declare hsw ?_ fun u hu => ?_
      · refine ⟨written, hshow, hvar,
          by rw [Pipeline.version_lifted hst hT hle, ← hk, ← hil], hik.trans hk, ?_⟩
        simpa using hi.directed (by simpa using hdir')
      · exact hfound u (Expr.kept_subset (hil ▸ hu))
    | @transfer sc e e' hops d d' hc hr hd' =>
      obtain ⟨x, rfl⟩ := hsc
      obtain ⟨m, r, rfl⟩ := hd'.interface hr.ne_nil
      have hfound : ∀ v ∈ e.locals, ∃ w, (p.scope.upTo x).find (.localVar v) = some w := by
        intro v hv
        obtain ⟨w, _, hw, -⟩ := hearly v (by simpa using hv)
        exact ⟨w, hw⟩
      refine (hd'.supplied hr.ne_nil (hdir e (by simp)) hfound (by simpa using hd)).mono ?_
      intro u i
      simp [owe]

end Draft

namespace Aim

open Draft

variable {a : Aim} {sc : Scope} {d d' : Draft} {due : Stage → NodeId → Nat}

/-- What values in flight are due, each in its stage. -/
def oweAll (due : Stage → NodeId → Nat) (sc : Scope) : List Traced → Stage → NodeId → Nat
  | [] => due
  | t :: ts => owe (oweAll due sc ts) t.stage (sc.demand t.expr.locals)

theorem owe_oweAll {ts : List Traced} {q : Placement} {f : NodeId → Nat} :
    owe (oweAll due sc ts) q f = oweAll (owe due q f) sc ts := by
  induction ts with
  | nil => rfl
  | cons t ts ih => rw [oweAll, owe_comm, ih, oweAll]

theorem supplied_getD {q : Placement} {vs : List LocalId} {p : Pipeline} {T : Stage}
    (hearly : ∀ v ∈ vs, a.Early sc q v) (hd : d.Supplied p (owe due q (sc.demand vs))) :
    d.Supplied p (owe due (some (q.getD T)) (sc.demand vs)) := by
  cases q with
  | some s => exact hd
  | none =>
    obtain rfl : vs = [] := List.eq_nil_iff_forall_not_mem.2 fun v hv => by
      obtain ⟨_, _, -, hs, -⟩ := hearly v hv
      cases hs
    exact hd.mono fun s o => by simp [owe]

theorem supplied_promotes {q wanted : Placement} {e e' : Expr} (hsw : a.pipeline.SingleWrites)
    (h : Promotes a.pipeline.stages sc q wanted e d e' d') (hsc : ∃ x, sc = a.pipeline.scope.upTo x)
    (hdir : e.Directed) (hup : wanted.Upto a.target) (hearly : ∀ v ∈ e.locals, a.Early sc q v)
    (hnone : wanted = none → q = none)
    (hd : d.Supplied a.pipeline (owe due q (sc.demand e.locals))) :
    d'.Supplied a.pipeline (owe due wanted (sc.demand e'.locals)) := by
  cases h with
  | keep hq =>
    obtain rfl | rfl : q = none ∨ q = wanted := by
      rcases hq with rfl | rfl | rfl
      · exact .inl rfl
      · exact .inl (hnone rfl)
      · exact .inr rfl
    · cases wanted with
      | none => exact hd
      | some t => exact supplied_getD (T := t) hearly hd
    · exact hd
  | @lift s t _ _ _ _ hst hl =>
    have hlift := hl.supplied hsw hst (hup t rfl) (Nat.lt_succ_self _) hsc (by simpa using hdir)
      (by simpa using hearly) (by simpa using hd)
    simpa using hlift

theorem supplied_promotesAll {wanted : Placement} {ts : List Traced} {es : List Expr}
    (hsw : a.pipeline.SingleWrites) (h : a.PromotesAll sc wanted ts d es d')
    (hsc : ∃ x, sc = a.pipeline.scope.upTo x) (hdir : ∀ t ∈ ts, t.expr.Directed)
    (hup : wanted.Upto a.target) (hearly : ∀ t ∈ ts, ∀ v ∈ t.expr.locals, a.Early sc t.stage v)
    (hnone : wanted = none → ∀ t ∈ ts, t.stage = none)
    (hd : d.Supplied a.pipeline (oweAll due sc ts)) :
    d'.Supplied a.pipeline (owe due wanted (sc.demand (Expr.localsOf es))) := by
  induction h generalizing due with
  | nil => exact hd.mono fun s o => by simp [owe, oweAll]
  | cons h _ ih =>
    have hd₁ := supplied_promotes hsw h hsc (hdir _ (by simp)) hup (hearly _ (by simp))
      (fun hw => hnone hw _ (by simp)) hd
    rw [owe_oweAll] at hd₁
    rw [Expr.localsOf, owe_append, owe_comm]
    exact ih (fun t ht => hdir t (by simp [ht])) (fun t ht => hearly t (by simp [ht]))
      (fun hw t ht => hnone hw t (by simp [ht])) hd₁

/-- The left side of an assignment stays what it is: a variable, maybe through members and swizzles,
that is in the assignment's own stage, or a whole local that may be declared there again. -/
def Anchored (a : Aim) (sc : Scope) (lhs x : Expr) : Prop :=
  lhs.isPlace = true ∧
    ((a.place sc lhs).before (a.place sc x) = false ∨ lhs.isDeclaredLocal sc = true)

instance (a : Aim) (sc : Scope) (lhs x : Expr) : Decidable (a.Anchored sc lhs x) :=
  inferInstanceAs (Decidable (_ ∧ _))

def Anchors (a : Aim) : Prop := ∀ sc n op lhs rhs, a.Reached sc (.binary n op lhs rhs) →
  op.isAssignment = true → a.Anchored sc lhs (.binary n op lhs rhs)

theorem held_of_isPlace {e : Expr} (h : e.isPlace = true) : a.held sc e = e.locals := by
  induction e using Expr.ind with
  | param | localVar => rfl
  | member n e f ih => exact ih h
  | methodCall n m o es ih _ =>
    cases es with
    | nil => simpa using ih h
    | cons e es => cases h
  | _ => cases h

/-- What writes a local still names it once it is rebuilt. -/
theorem Anchors.keeps {x : Expr} {v : LocalId} (h : a.Anchors) (hr : a.Reached sc x)
    (hw : x.Writes (.localVar v)) : v ∈ a.held sc x := by
  obtain ⟨n, op, lhs, rhs, rfl, hop, hv⟩ := hw
  have hv : v ∈ lhs.locals := hv
  rw [held, List.mem_append]
  left
  obtain ⟨hp, hb | hdecl⟩ := h sc n op lhs rhs hr hop
  · rw [hb, if_neg (by simp), held_of_isPlace hp]
    exact hv
  · obtain ⟨n', u, name, rfl, hu⟩ := Expr.isDeclaredLocal_iff.1 hdecl
    obtain rfl : v = u := by simpa using hv
    split <;> simp [hu]

theorem Anchored.not_interface {lhs lhs' x : Expr} {l : Traced} (h : a.Anchored sc lhs x)
    (hb : a.Rebuilds sc lhs l)
    (hp : Promotes a.pipeline.stages sc l.stage (a.place sc x) l.expr d lhs' d') (n : Node)
    (r : InterfaceRef) : lhs' ≠ .interface n r := by
  rw [hb.stage] at hp
  generalize hq : a.place sc lhs = q at hp
  generalize hw : a.place sc x = wanted at hp
  cases hp with
  | keep => exact hb.shape.1 n r
  | @lift s t _ _ _ _ hst hlift =>
    obtain ⟨-, hbefore | hdecl⟩ := h
    · simp [hq, hw, Placement.before, hst] at hbefore
    · obtain ⟨n', v, name, rfl, hdecl⟩ := Expr.isDeclaredLocal_iff.1 hdecl
      rw [hb.shape.2 n' v name rfl] at hlift
      have hsame := hlift.declared (by simpa using hdecl)
      simp_all

theorem directed_promotes {m : StageSet} {q wanted : Placement} {e e' : Expr}
    (h : Promotes m sc q wanted e d e' d') (he : e.Directed) : e'.Directed := by
  cases h with
  | keep => exact he
  | lift _ hl => simpa using hl.directed (by simpa using he)

theorem directed_promotesAll {wanted : Placement} {ts : List Traced} {es : List Expr}
    (h : a.PromotesAll sc wanted ts d es d') (hts : ∀ t ∈ ts, t.expr.Directed) :
    ∀ e ∈ es, e.Directed := by
  induction h with
  | nil => simp
  | cons h _ ih =>
    intro e he
    rcases List.mem_cons.1 he with rfl | he
    · exact directed_promotes h (hts _ (by simp))
    · exact ih (fun t ht => hts t (by simp [ht])) e he

/-- Rebuilt expressions write to no field that they read. -/
theorem Traces.directed {m : Bool} {es : List Expr} {ts : List Traced}
    (h : a.Traces sc m es d ts d') (hbare : a.pipeline.BareSwizzles) (hanchors : a.Anchors)
    (hes : ∀ e ∈ es, a.Reached sc e) : ∀ t ∈ ts, t.expr.Directed := by
  induction h with
  | nil => simp
  | cons _ _ ih ihs =>
    have h₁ := ih (by simpa using hes _ (by simp))
    have h₂ := ihs fun e he => hes e (by simp [he])
    simpa using ⟨by simpa using h₁, h₂⟩
  | literal | constant | param | declared | assigned => simp [Expr.Directed]
  | @binary sc m n op lhs rhs lhs' rhs' l r q d d₁ d₂ d₃ d₄ hl hr hq pl pr ihl ihr =>
    have hx := hes (.binary n op lhs rhs) (by simp)
    have hlr : a.Reached sc lhs := hx.part (by simp [Expr.self_mem_subterms])
    have hrr : a.Reached sc rhs := hx.part (by simp [Expr.self_mem_subterms])
    have hlb : a.Rebuilds sc lhs l := by simpa using hl.rebuilds hbare (by simpa using hlr)
    have hrb : a.Rebuilds sc rhs r := by simpa using hr.rebuilds hbare (by simpa using hrr)
    have hplace : a.place sc (.binary n op lhs rhs) = q := by
      rw [place_binary, ← hlb.stage, ← hrb.stage, hq]
    have hl' := directed_promotes pl (by simpa using ihl (by simpa using hlr))
    have hr' := directed_promotes pr (by simpa using ihr (by simpa using hrr))
    -- an assignment keeps its left side, so no field takes its place
    refine fun t ht => ?_
    obtain rfl := List.mem_singleton.1 ht
    refine Expr.all_binary.2 ⟨?_, hl', hr'⟩
    split
    · rename_i heq
      cases heq
      intro hop
      exact absurd rfl ((hanchors sc n op lhs rhs hx hop).not_interface hlb (hplace ▸ pl) _ _)
    · trivial
  | unary _ ih | cast _ _ ih | member _ _ ih =>
    simpa [Expr.Directed] using ih (Reached.parts hes (by simp [Expr.self_mem_subterms]))
  | construct _ _ hp ih | initList _ hp ih | call _ _ _ hp ih =>
    have hargs := ih (Reached.parts hes fun e he => by simp [Expr.mem_subtermsOf he])
    simpa [Expr.Directed] using directed_promotesAll hp hargs
  | @sample sc m n method f object uv uv' sampler texture k s t d d₁ d₂ d₃ _ _ ho ht hp hk ih =>
    have hx := hes (.methodCall n method object [uv, sampler]) (by simp)
    obtain ⟨n', q, rfl, -⟩ := sampledStage_ok ho
    obtain ⟨-, n'', c, rfl⟩ := Draft.sample_agrees hk
    have huv := directed_promotes hp
        (by simpa using ih (by simpa using hx.part (by simp [Expr.self_mem_subterms])))
    simpa [Expr.Directed] using huv
  | @method sc m n method f object args t ts d d₁ d₂ hm hs _ ha ih _ =>
    have hx := hes (.methodCall n method object args) (by simp)
    obtain rfl : args = [] := hbare n method object args f hx.mem hm hs
    cases ha
    simpa [Expr.Directed] using ih (by simpa using hx.part (by simp [Expr.self_mem_subterms]))

theorem place_value {n : Node} {v : LocalId} {name : String} {w : Write} {T : Stage}
    (hw : sc.find (.localVar v) = some w) (h : (a.place sc (.localVar n v name)).Upto T) :
    (a.place (sc.before w) w.site.value).Upto T := by
  rw [place_localVar hw] at h
  intro x hx
  rw [hx] at h
  exact Placement.upto_some.1 h

theorem Rebuilds.early_of_mem {es : List Expr} {ts : List Traced}
    (h : List.Forall₂ (a.Rebuilds sc) es ts) :
    ∀ t ∈ ts, ∀ v ∈ t.expr.locals, a.Early sc t.stage v := by
  induction h with
  | nil => simp
  | cons h _ ih =>
    intro t ht
    rcases List.mem_cons.1 ht with rfl | ht
    · exact h.early
    · exact ih t ht

theorem place_parts {T : Stage} {y : Expr} {xs : List Expr} (hy : ∀ e ∈ [y], (a.place sc e).Upto T)
    (hxs : ∀ x ∈ xs, x ∈ y.subterms) : ∀ x ∈ xs, (a.place sc x).Upto T :=
  fun x hx => place_subterm (hxs x hx) (hy y (List.mem_singleton_self y))

theorem Traces.upto {e : Expr} {t : Traced} {T : Stage} (h : a.Traces sc false [e] d [t] d')
    (hbare : a.pipeline.BareSwizzles) (hes : ∀ x ∈ [e], a.Reached sc x)
    (hup : ∀ x ∈ [e], (a.place sc x).Upto T) : t.stage.Upto T := by
  have ht : a.Rebuilds sc e t := by simpa using h.rebuilds hbare hes
  exact ht.stage ▸ hup e (List.mem_singleton_self e)

/-- Values that were traced one after the other are due together, once they are brought
to one stage. -/
theorem Traces.supplied_parts {es es' : List Expr} {ts : List Traced} {wanted : Placement}
    {d₁ : Draft} (h : a.Traces sc false es d ts d₁) (hp : a.PromotesAll sc wanted ts d₁ es' d')
    (hbare : a.pipeline.BareSwizzles) (hsw : a.pipeline.SingleWrites) (hanchors : a.Anchors)
    (hsc : ∃ x, sc = a.pipeline.scope.upTo x) (hes : ∀ e ∈ es, a.Reached sc e)
    (hup : wanted.Upto a.target) (hnone : wanted = none → ∀ t ∈ ts, t.stage = none)
    (hd : d₁.Supplied a.pipeline (oweAll due sc ts)) :
    d'.Supplied a.pipeline (owe due wanted (sc.demand (Expr.localsOf es'))) :=
  have hearly := Rebuilds.early_of_mem (h.rebuilds hbare hes)
  supplied_promotesAll hsw hp hsc (h.directed hbare hanchors hes) hup hearly hnone hd

section
variable {x o : NodeId} {n : Node} {v : LocalId} {name : String} {t : Traced} {s : Stage}

theorem oweAll_local {w : Write} (hw : (a.pipeline.scope.upTo x).find (.localVar v) = some w) :
    oweAll due (a.pipeline.scope.upTo x) [⟨.localVar n v name, some s⟩] =
      owe due (some s) fun i => if w.step = i then 1 else 0 := by
  have hone : (a.pipeline.scope.upTo x).demand (Expr.localVar n v name).locals = fun i =>
        if w.step = i then 1 else 0 :=
    funext fun i => Scope.demand_one hw
  rw [oweAll, oweAll, hone]

theorem Rebuilds.supplied_declared {written : LocalDecl} (hsw : a.pipeline.SingleWrites)
    (hw : (a.pipeline.scope.upTo x).find (.localVar v) = some ⟨.declaration written, o⟩)
    (ht : a.Rebuilds (a.pipeline.scope.upTo o) written.init t) (hdir : t.expr.Directed)
    (hup : (a.place (a.pipeline.scope.upTo o) written.init).Upto a.target)
    (hs : t.stage.getD a.target = s)
    (hd : d.Supplied a.pipeline (oweAll due (a.pipeline.scope.upTo o) [t])) :
    (d.declare o s ⟨v, name, written.ty, t.expr⟩).Supplied a.pipeline
      (oweAll due (a.pipeline.scope.upTo x) [⟨.localVar n v name, some s⟩]) := by
  have hd₁ := supplied_getD (T := a.target) ht.early hd
  rw [hs] at hd₁
  rw [oweAll_local hw]
  refine hd₁.declare hsw ⟨written, ⟨v, x, hw⟩, (Scope.find_declaration_var hw).symm, ?_, ht.kept,
    hdir⟩ fun u hu => ?_
  · rw [← hs, ht.stage]
    exact ht.locals.trans (Pipeline.version_traced hup rfl).symm
  · obtain ⟨w, _, hw, -⟩ := ht.early u hu
    exact ⟨w, hw⟩

theorem Rebuilds.supplied_assigned {y : Expr} (hsw : a.pipeline.SingleWrites) (hanchors : a.Anchors)
    (hw : (a.pipeline.scope.upTo x).find (.localVar v) = some ⟨.assignment y, o⟩)
    (ht : a.Rebuilds (a.pipeline.scope.upTo o) y t) (hdir : t.expr.Directed)
    (hr : a.Reached (a.pipeline.scope.upTo o) y) (hs : t.stage.getD a.target = s)
    (hd : d.Supplied a.pipeline (oweAll due (a.pipeline.scope.upTo o) [t])) :
    (d.add s (.expr t.expr) (some o)).Supplied a.pipeline
      (oweAll due (a.pipeline.scope.upTo x) [⟨.localVar n v name, some s⟩]) := by
  have hd₁ := supplied_getD (T := a.target) ht.early hd
  rw [hs] at hd₁
  rw [oweAll_local hw]
  refine hd₁.addExpr (fun pins hpins => ?_) fun u hu i => ?_
  · rw [owe_self] at hpins ⊢
    refine hpins.assign hsw ⟨v, x, hw⟩ (fun u hu => ?_) hdir fun u hu => ?_
    · rw [ht.locals]
      exact hanchors.keeps hr hu
    · obtain ⟨w, _, hw, -⟩ := ht.early u hu
      exact ⟨w, hw⟩
  · exact Nat.le_of_eq (by rw [owe_ne hu, owe_ne hu, oweAll])

end

/-- Tracing keeps the ledgers, and what it gives is due where it is placed. -/
theorem Traces.supplied {m : Bool} {es : List Expr} {ts : List Traced}
    (h : a.Traces sc m es d ts d') (hbare : a.pipeline.BareSwizzles) (hsw : a.pipeline.SingleWrites)
    (hanchors : a.Anchors) (hes : ∀ e ∈ es, a.Reached sc e)
    (hup : ∀ e ∈ es, (a.place sc e).Upto a.target) (hd : d.Supplied a.pipeline due) :
    d'.Supplied a.pipeline (oweAll due sc ts) := by
  induction h generalizing due with
  | nil => exact hd
  | cons _ _ ih ihs =>
    have hd₁ := ih (by simpa using hes _ (by simp)) (by simpa using hup _ (by simp)) hd
    rw [oweAll, owe_oweAll]
    exact ihs (fun e he => hes e (by simp [he])) (fun e he => hup e (by simp [he])) hd₁
  | literal | constant => exact hd.mono fun s o => by simp [owe, oweAll]
  | @param sc m n i q d d' _ _ _ hd' =>
    subst hd'
    have hd₁ : (if q.role = .captured then d.capture i else d).Supplied a.pipeline due := by
      split
      · exact hd.congr rfl rfl
      · exact hd
    exact hd₁.mono fun s o => by simp [owe, oweAll]
  | @declared sc m n v name written o t s d d₁ _ hw ht hs ih =>
    have hr := hes (.localVar n v name) (by simp)
    obtain ⟨x, rfl⟩ := hr.scope
    have hscope : (a.pipeline.scope.upTo x).upTo o = a.pipeline.scope.upTo o := Scope.before_upTo hw
    have hinit : ∀ e ∈ [written.init], a.Reached ((a.pipeline.scope.upTo x).upTo o) e :=
      List.forall_mem_singleton.2 (hr.write hw)
    have hup : (a.place ((a.pipeline.scope.upTo x).upTo o) written.init).Upto a.target :=
      place_value hw (hup (.localVar n v name) (by simp))
    have hd₁ := ih hinit (List.forall_mem_singleton.2 hup) hd
    have hdir := ht.directed hbare hanchors hinit t (by simp)
    have hb := ht.rebuilds hbare hinit
    rw [hscope] at hd₁ hb
    exact Rebuilds.supplied_declared hsw hw (by simpa using hb) hdir (hscope ▸ hup) hs hd₁
  | @assigned sc m n v name y o t s d d₁ _ hw ht hs ih =>
    have hr := hes (.localVar n v name) (by simp)
    obtain ⟨x, rfl⟩ := hr.scope
    have hscope : (a.pipeline.scope.upTo x).upTo o = a.pipeline.scope.upTo o := Scope.before_upTo hw
    have hvalue : ∀ e ∈ [y], a.Reached ((a.pipeline.scope.upTo x).upTo o) e :=
      List.forall_mem_singleton.2 (hr.write hw)
    have hup : (a.place ((a.pipeline.scope.upTo x).upTo o) y).Upto a.target :=
      place_value hw (hup (.localVar n v name) (by simp))
    have hd₁ := ih hvalue (List.forall_mem_singleton.2 hup) hd
    have hdir := ht.directed hbare hanchors hvalue t (by simp)
    have hb := ht.rebuilds hbare hvalue
    rw [hscope] at hd₁ hb hvalue
    exact Rebuilds.supplied_assigned hsw hanchors hw (by simpa using hb) hdir
      (hvalue y (by simp)) hs hd₁
  | @binary sc m n op lhs rhs lhs' rhs' l r q d d₁ d₂ d₃ d₄ hl hr hq pl pr ihl ihr =>
    have hparts : ∀ e ∈ [lhs, rhs], a.Reached sc e :=
      Reached.parts hes (by simp [Expr.self_mem_subterms])
    have hplaces : ∀ e ∈ [lhs, rhs], (a.place sc e).Upto a.target :=
      place_parts hup (by simp [Expr.self_mem_subterms])
    have hd₁ := ihl (by simpa using hparts lhs) (by simpa using hplaces lhs) hd
    have hd₂ : d₂.Supplied a.pipeline (oweAll due sc [l, r]) := by
      rw [oweAll, owe_oweAll]
      exact ihr (by simpa using hparts rhs) (by simpa using hplaces rhs) hd₁
    -- the two operands are traced and promoted like a list of two
    have htwo : a.Traces sc false [lhs, rhs] d [l, r] d₂ := .cons hl (.cons hr .nil)
    have hall : a.PromotesAll sc q [l, r] d₂ [lhs', rhs'] d₄ := .cons pl (.cons pr .nil)
    have hq' : q.Upto a.target := (Traces.binary hl hr hq pl pr).upto hbare hes hup
    have hnone : q = none → ∀ t ∈ [l, r], t.stage = none :=
      fun h => placement_eq_none.1 (wait_eq_none (hq.trans h))
    have hd₄ := htwo.supplied_parts hall hbare hsw hanchors (hes _ List.mem_cons_self).scope
        hparts hq' hnone hd₂
    simpa [oweAll] using hd₄
  | unary _ ih | cast _ _ ih | member _ _ ih =>
    exact ih (Reached.parts hes (by simp [Expr.self_mem_subterms]))
      (place_parts hup (by simp [Expr.self_mem_subterms])) hd
  | @construct sc m n args args' ts d d₁ d₂ hn hts hp ih =>
    have hargs : ∀ e ∈ args, a.Reached sc e := Reached.parts hes fun e he => by
      simp [Expr.mem_subtermsOf he]
    have hd₁ := ih hargs (place_parts hup fun e he => by simp [Expr.mem_subtermsOf he]) hd
    have hq := (Traces.construct hn hts hp).upto hbare hes hup
    exact hts.supplied_parts hp hbare hsw hanchors (hes _ List.mem_cons_self).scope hargs hq
      placement_eq_none.1 hd₁
  | @initList sc m n items items' ts d d₁ d₂ hts hp ih =>
    have hitems : ∀ e ∈ items, a.Reached sc e := Reached.parts hes fun e he => by
      simp [Expr.mem_subtermsOf he]
    have hd₁ := ih hitems (place_parts hup fun e he => by simp [Expr.mem_subtermsOf he]) hd
    have hq := (Traces.initList hts hp).upto hbare hes hup
    exact hts.supplied_parts hp hbare hsw hanchors (hes _ List.mem_cons_self).scope hitems hq
      placement_eq_none.1 hd₁
  | @call sc m n func f args args' ts q d d₁ d₂ hf hts hq hp ih =>
    have hargs : ∀ e ∈ args, a.Reached sc e := Reached.parts hes fun e he => by
      simp [Expr.mem_subtermsOf he]
    have hd₁ := ih hargs (place_parts hup fun e he => by simp [Expr.mem_subtermsOf he]) hd
    have hq' := (Traces.call hf hts hq hp).upto hbare hes hup
    have hnone : q = none → ∀ t ∈ ts, t.stage = none :=
      fun h => placement_eq_none.1 (wait_eq_none (hq.trans h))
    exact hts.supplied_parts hp hbare hsw hanchors (hes _ List.mem_cons_self).scope
      hargs hq' hnone hd₁
  | @sample sc m n method f object uv uv' sampler texture k s t d d₁ d₂ d₃ _ _ ho ht hp hk ih =>
    have hx := hes (.methodCall n method object [uv, sampler]) (by simp)
    have hxu := hup (.methodCall n method object [uv, sampler]) (by simp)
    have hr : a.Reached sc uv := hx.part (by simp [Expr.self_mem_subterms])
    have hb : a.Rebuilds sc uv t := by simpa using ht.rebuilds hbare (by simpa using hr)
    have hd₁ := ih (by simpa using hr)
      (by simpa using place_subterm (by simp [Expr.self_mem_subterms]) hxu) hd
    obtain ⟨n', q, rfl, hq, hs, -⟩ := sampledStage_ok ho
    obtain ⟨hagree, n'', c, rfl⟩ := Draft.sample_agrees hk
    have hobject : (a.place sc (.param n' texture)).Upto a.target := place_subterm (by simp) hxu
    have hsu : s ≤ a.target := by simpa [hq, hs, Placement.upto_some] using hobject
    have hdir := ht.directed hbare hanchors (by simpa using hr) t (by simp)
    have hd₂ := supplied_promotes hsw hp hx.scope hdir (Placement.upto_some.2 hsu)
        hb.early (by simp) hd₁
    have hd₃ : d₃.Supplied a.pipeline (owe due (some s) (sc.demand uv'.locals)) :=
      hd₂.congr hagree.queues hagree.rebuilt
    simpa [oweAll] using hd₃
  | @method sc m n method f object args t ts d d₁ d₂ hm hs _ ha ih _ =>
    have hx := hes (.methodCall n method object args) (by simp)
    have hxu := hup (.methodCall n method object args) (by simp)
    obtain rfl : args = [] := hbare n method object args f hx.mem hm hs
    cases ha
    have hd₁ := ih (by simpa using hx.part (by simp [Expr.self_mem_subterms]))
      (by simpa using place_subterm (by simp [Expr.self_mem_subterms]) hxu) hd
    simpa [oweAll] using hd₁

end Aim

namespace Pipeline

variable {p : Pipeline}

theorem start_supplied (p : Pipeline) : (Draft.start p).Supplied p fun _ _ => 0 := by
  have hqueue : ∀ s, (Draft.start p).queue s = [] := PerStage.get_const []
  refine ⟨fun s => ⟨fun _ => 0, ?_⟩, fun o s decl hd => ?_, fun s decl o hmem => ?_⟩
  · rw [hqueue]
    exact ⟨by simp, fun o => by simp [Queue.load], by simp [Queue.tags], by simp [Queue.tags],
      by simp [Queue.tags], trivial⟩
  · cases hd
  · rw [hqueue] at hmem
    cases hmem

theorem Runs.supplied {todo : List (Stage × Param × Nat)} {d d' : Draft} (h : Runs p todo d d')
    (hbare : p.BareSwizzles) (hsw : p.SingleWrites)
    (hanchors : ∀ s ∈ p.stages.devices, (⟨p, s⟩ : Aim).Anchors)
    (htodo : ∀ x ∈ todo, x ∈ p.allOutputs) (hd : d.Supplied p fun _ _ => 0) :
    d'.Supplied p fun _ _ => 0 := by
  induction h with
  | nil => exact hd
  | unwritten _ _ ih => exact ih (fun x hx => htodo x (by simp [hx])) (hd.congr rfl rfl)
  | @written s q i rest x e o t d d₁ d₂ d' hfind ht hs hp _ ih =>
    obtain ⟨hdev, hq, hout, hstage⟩ := mem_allOutputs (htodo (s, q, i) (by simp))
    have hr : (⟨p, s⟩ : Aim).Reached (p.scope.upTo o) x := .output hq hout hstage hfind
    have hb : (⟨p, s⟩ : Aim).Rebuilds (p.scope.upTo o) x t := by
      simpa using ht.rebuilds hbare (by simpa using hr)
    have hup : ((⟨p, s⟩ : Aim).place (p.scope.upTo o) x).Upto s :=
      fun s' hs' => hs s' (hb.stage.trans hs')
    have hd₁ := ht.supplied hbare hsw (hanchors s hdev) (by simpa using hr) (by simpa using hup) hd
    have hdir : t.expr.Directed :=
      ht.directed hbare (hanchors s hdev) (by simpa using hr) t (by simp)
    have hd₂ := Aim.supplied_promotes hsw hp ⟨o, rfl⟩ hdir (Placement.upto_some.2 (le_refl s))
        hb.early (by simp) hd₁
    have he := hb.promotes hp (by simp)
    -- the statement of an output is never released, so it pins what its locals are due
    refine ih (fun x hx => htodo x (by simp [hx])) (hd₂.addExpr (fun pins hpins => ?_)
      fun u hu i => Nat.zero_le _)
    rw [Draft.owe_self] at hpins
    refine hpins.addOnce (Aim.directed_promotes hp hdir) fun v hv => ?_
    obtain ⟨w, _, hw, -⟩ := he.early v hv
    exact ⟨w, hw⟩

end Pipeline
end ShaderSplit
