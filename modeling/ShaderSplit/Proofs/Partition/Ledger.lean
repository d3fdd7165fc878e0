import Mathlib.Algebra.GroupWithZero.Nat
import ShaderSplit.Proofs.Partition.Placement
import ShaderSplit.Proofs.Partition.Queue

namespace ShaderSplit

/-- How many of the listed locals are reached by the write of step `o`. -/
def Scope.demand (sc : Scope) (vs : List LocalId) (o : NodeId) : Nat :=
  vs.countP fun v => (sc.find (.localVar v)).any (·.step == o)

namespace Scope

variable {sc : Scope} {vs us : List LocalId} {o : NodeId}

@[simp] theorem demand_nil : sc.demand [] o = 0 := rfl

@[simp] theorem demand_append : sc.demand (vs ++ us) o = sc.demand vs o + sc.demand us o :=
  List.countP_append

theorem demand_pos {v : LocalId} {w : Write} (hv : v ∈ vs) (hw : sc.find (.localVar v) = some w) :
    0 < sc.demand vs w.step :=
  List.countP_pos_iff.2 ⟨v, hv, by simp [hw]⟩

theorem demand_one {v : LocalId} {w : Write} (hw : sc.find (.localVar v) = some w) :
    sc.demand [v] o = if w.step = o then 1 else 0 := by
  simp [demand, hw, List.countP_cons]

end Scope

namespace Pipeline

/-- A write that reaches some use of a local. -/
def Shows (p : Pipeline) (w : Write) : Prop := ∃ v x, (p.scope.upTo x).find (.localVar v) = some w

/-- Steps tell the writes to locals apart. -/
def SingleWrites (p : Pipeline) : Prop := ∀ s ∈ p.scope, ∀ s' ∈ p.scope, s.id = s'.id → ∀ v v' w w',
  s.lastWrite (.localVar v) = some w → s'.lastWrite (.localVar v') = some w' → w.site = w'.site

theorem SingleWrites.site {p : Pipeline} (h : p.SingleWrites) {w w' : Write} (hw : p.Shows w)
    (hw' : p.Shows w') (ho : w.step = w'.step) : w.site = w'.site := by
  obtain ⟨v, x, hf⟩ := hw
  obtain ⟨v', x', hf'⟩ := hw'
  obtain ⟨s, hs, hl⟩ := Scope.find_mem hf
  obtain ⟨s', hs', hl'⟩ := Scope.find_mem hf'
  have hid : s.id = s'.id := by rw [← Scope.lastWrite_step hl, ← Scope.lastWrite_step hl', ho]
  exact h s (Scope.upTo_subset hs) s' (Scope.upTo_subset hs') hid v v' w w' hl hl'

/-- The locals that a declaration names once it is rebuilt for a stage: traced for it, or
lifted to it. -/
def version (p : Pipeline) (s : Stage) (o : NodeId) (init : Expr) : List LocalId :=
  if ((⟨p, s⟩ : Aim).place (p.scope.upTo o) init).getD s = s then
    (⟨p, s⟩ : Aim).held (p.scope.upTo o) init
  else init.kept (p.scope.upTo o)

variable {p : Pipeline} {s t T : Stage} {o : NodeId} {init : Expr}

theorem version_subset {v : LocalId} (h : v ∈ p.version s o init) : v ∈ init.locals := by
  unfold version at h
  split at h
  · exact Aim.held_subset h
  · exact Expr.kept_subset h

theorem version_traced (h : ((⟨p, T⟩ : Aim).place (p.scope.upTo o) init).Upto T)
    (hs : ((⟨p, T⟩ : Aim).place (p.scope.upTo o) init).getD T = s) :
    p.version s o init = (⟨p, T⟩ : Aim).held (p.scope.upTo o) init := by
  generalize hq : (⟨p, T⟩ : Aim).place (p.scope.upTo o) init = q at h hs
  have hup : q.Upto s ∧ s ≤ T := by
    cases q with
    | none => exact ⟨Placement.upto_none s, hs ▸ le_refl T⟩
    | some x =>
      obtain rfl : x = s := hs
      exact ⟨Placement.upto_some.2 (le_refl x), h x rfl⟩
  have hplace : (⟨p, s⟩ : Aim).place (p.scope.upTo o) init = q :=
    (Aim.place_stable hup.2 (hq ▸ hup.1)).trans hq
  have hgetD : q.getD s = s := by
    cases q with
    | none => rfl
    | some x => exact hs
  rw [version, hplace, if_pos hgetD]
  exact Aim.held_stable hup.2 (hq ▸ hup.1)

theorem version_lifted (hst : s < t) (hT : t ≤ T)
    (hs : ((⟨p, T⟩ : Aim).place (p.scope.upTo o) init).getD T ≤ s) :
    p.version t o init = init.kept (p.scope.upTo o) := by
  cases hq : (⟨p, T⟩ : Aim).place (p.scope.upTo o) init with
  | none =>
    rw [hq] at hs
    exact absurd (lt_of_lt_of_le hst hT) (not_lt.2 hs)
  | some x =>
    rw [hq] at hs
    have hxt : x < t := lt_of_le_of_lt hs hst
    have hplace : (⟨p, t⟩ : Aim).place (p.scope.upTo o) init = some x :=
      (Aim.place_stable hT (hq ▸ Placement.upto_some.2 (le_of_lt hxt))).trans hq
    have hne : x ≠ t := fun h => lt_irrefl t (h ▸ hxt)
    rw [version, hplace]
    exact if_neg hne

end Pipeline

/-- Only producing ends of fields are written to. -/
def Expr.Directed (e : Expr) : Prop := e.All fun
  | .binary _ op (.interface _ r) _ => op.isAssignment = true → r.side = .producer
  | _ => True

def StageStmt.locals (st : StageStmt) : List LocalId := Expr.localsOf st.exprs

namespace Queue

abbrev Tag := StageStmt × Option NodeId

/-- What stands in a queue: a declaration in its version for the stage, an assignment that still
names what it writes, or an expression of no single step. -/
inductive Kind (p : Pipeline) (s : Stage) : Tag → Prop
  | decl {written decl : LocalDecl} {o : NodeId} (hw : p.Shows ⟨.declaration written, o⟩)
      (hv : decl.var = written.var) (hl : decl.init.locals = p.version s o written.init) :
      Kind p s (.decl decl, some o)
  | assign {x x' : Expr} {o : NodeId} (hw : p.Shows ⟨.assignment x, o⟩)
      (hx : ∀ v, x.Writes (.localVar v) → v ∈ x'.locals) : Kind p s (.expr x', some o)
  | loose {e : Expr} : Kind p s (.expr e, none)

/-- The writes that reach a statement's locals are there before it. Those that reach a statement
which is never released are held by it. -/
def Backed (p : Pipeline) (pins : NodeId → Nat) (before : List Tag) (e : Tag) : Prop :=
  ∃ x, (∀ o, e.2 = some o → x = o) ∧
    ∀ v ∈ e.1.locals, ∃ w, (p.scope.upTo x).find (.localVar v) = some w ∧
    some w.step ∈ before.map (·.2) ∧ ((∀ d, e.1 ≠ .decl d) → 0 < pins w.step)

def Ordered (p : Pipeline) (pins : NodeId → Nat) : List Tag → List Tag → Prop
  | _, [] => True
  | before, e :: rest => Backed p pins before e ∧ Ordered p pins (before ++ [e]) rest

variable {p : Pipeline} {s : Stage} {pins pins' : NodeId → Nat}
  {before before' l r : List Tag} {e : Tag}

theorem Backed.mono (h : Backed p pins before e)
    (hb : ∀ o, o ∈ before.map (·.2) → o ∈ before'.map (·.2)) (hpins : ∀ o, pins o ≤ pins' o) :
    Backed p pins' before' e := by
  obtain ⟨x, hx, hv⟩ := h
  refine ⟨x, hx, fun v hmem => ?_⟩
  obtain ⟨w, hw, ho, hp⟩ := hv v hmem
  exact ⟨w, hw, hb _ ho, fun hd => Nat.lt_of_lt_of_le (hp hd) (hpins _)⟩

theorem Ordered.mono (h : Ordered p pins before l)
    (hb : ∀ o, o ∈ before.map (·.2) → o ∈ before'.map (·.2)) (hpins : ∀ o, pins o ≤ pins' o) :
    Ordered p pins' before' l := by
  induction l generalizing before before' with
  | nil => trivial
  | cons e l ih =>
    refine ⟨h.1.mono hb hpins, ih h.2 fun o ho => ?_⟩
    simp only [List.map_append, List.mem_append] at ho ⊢
    exact ho.imp (hb o) id

theorem ordered_append : Ordered p pins before (l ++ r) ↔ Ordered p pins before l ∧
    Ordered p pins (before ++ l) r := by
  induction l generalizing before with
  | nil => simp [Ordered]
  | cons e l ih => simp [Ordered, ih, and_assoc]

theorem Ordered.backed (h : Ordered p pins before l) (he : e ∈ l) :
    ∃ before, Backed p pins before e := by
  induction l generalizing before with
  | nil => cases he
  | cons x l ih =>
    rcases List.mem_cons.1 he with rfl | he
    · exact ⟨before, h.1⟩
    · exact ih h.2 he

/-- Dropping a tag keeps the order, if no statement behind it needs its origin. -/
theorem Ordered.drop {o : NodeId} (h : Ordered p pins before r)
    (hb : ∀ i, i ∈ before.map (·.2) → i ∈ before'.map (·.2) ∨ i = some o) (hpins : pins o = 0)
    (hr : ∀ e ∈ r, ∀ d i, e = (.decl d, some i) → (p.scope.upTo i).demand d.init.locals o = 0)
    (hk : ∀ e ∈ r, Kind p s e) : Ordered p pins before' r := by
  induction r generalizing before before' with
  | nil => trivial
  | cons e r ih =>
    refine ⟨?_, ih h.2 (fun i hi => ?_) (fun x hx => hr x (by simp [hx]))
      fun x hx => hk x (by simp [hx])⟩
    · obtain ⟨x, hx, hv⟩ := h.1
      refine ⟨x, hx, fun v hmem => ?_⟩
      obtain ⟨w, hw, hin, hp⟩ := hv v hmem
      refine ⟨w, hw, (hb _ hin).resolve_right fun ho => ?_, hp⟩
      have ho : w.step = o := Option.some.inj ho
      -- A declaration would show in the demand, anything else in the pins.
      cases hk e (by simp) with
      | @decl written d i _ _ _ =>
        obtain rfl := hx i rfl
        have hpos : 0 < (p.scope.upTo x).demand d.init.locals w.step :=
          Scope.demand_pos (by simpa [StageStmt.locals, StageStmt.exprs] using hmem) hw
        rw [ho, hr _ (by simp) d x rfl] at hpos
        exact absurd hpos (Nat.lt_irrefl 0)
      | assign | loose =>
        have hpos := hp (by simp)
        rw [ho, hpins] at hpos
        exact absurd hpos (Nat.lt_irrefl 0)
    · simp only [List.map_append, List.mem_append] at hi ⊢
      rcases hi with hi | hi
      · exact (hb i hi).imp .inl id
      · exact .inl (.inr hi)

def uses (q : Queue) (o : NodeId) : Nat :=
  (q.map fun e => if e.origin = some o then e.uses else 0).sum

/-- What one use of an entry takes of the statement from `o`. -/
def need (p : Pipeline) (e : Entry) (o : NodeId) : Nat :=
  match e.stmt, e.origin with
  | .decl d, some i => (p.scope.upTo i).demand d.init.locals o
  | _, _ => 0

/-- What all uses of all entries take of the statement from `o`. -/
def load (p : Pipeline) (q : Queue) (o : NodeId) : Nat := (q.map fun e => e.uses * need p e o).sum

/-- A queue in good order, with enough uses for what its statements hold and for what is due.
Each use of a declaration pays for the locals in its initializer, so a statement that is dropped
has no reader left. -/
structure Sound (p : Pipeline) (s : Stage) (pins due : NodeId → Nat) (q : Queue) : Prop where
  used : ∀ e ∈ q, 0 < e.uses
  credit : ∀ o, load p q o + pins o + due o ≤ q.uses o
  distinct : (q.tags.filterMap (·.2)).Nodup
  kinds : ∀ e ∈ q.tags, Kind p s e
  directed : ∀ e ∈ q.tags, ∀ x ∈ e.1.exprs, x.Directed
  ordered : Ordered p pins [] q.tags

section
variable {q lq rq : Queue} {e : Entry} {o i : NodeId} {due due' : NodeId → Nat}

theorem uses_append : uses (lq ++ rq) o = uses lq o + uses rq o := by simp [uses]

theorem load_append : load p (lq ++ rq) o = load p lq o + load p rq o := by simp [load]

theorem uses_cons : uses (e :: q) o = (if e.origin = some o then e.uses else 0) + uses q o := by
  simp [uses]

theorem load_cons : load p (e :: q) o = e.uses * need p e o + load p q o := by simp [load]

theorem load_eq_zero (h : load p q o = 0) (he : e ∈ q) (hu : 0 < e.uses) : need p e o = 0 := by
  induction q with
  | nil => cases he
  | cons x q ih =>
    rw [load_cons, Nat.add_eq_zero_iff, Nat.mul_eq_zero] at h
    rcases List.mem_cons.1 he with rfl | he
    · exact h.1.resolve_left (Nat.ne_of_gt hu)
    · exact ih h.2 he

theorem uses_of_lacks (h : Lacks q o) : q.uses o = 0 := by
  induction q with
  | nil => rfl
  | cons e q ih =>
    rw [uses_cons, if_neg (h e (by simp)), ih fun x hx => h x (by simp [hx])]

theorem mem_tags_of_uses (h : 0 < q.uses o) : some o ∈ q.tags.map (·.2) := by
  rcases lacks_or_cut q o with hl | ⟨l, e, r, hc⟩
  · rw [uses_of_lacks hl] at h
    exact absurd h (Nat.lt_irrefl 0)
  · rw [hc.eq]
    simp [tags, hc.origin]

theorem uses_release (h : Cut q o lq e rq) (hu : 0 < e.uses) :
    (q.release o).uses i + (if o = i then 1 else 0) = q.uses i := by
  rw [release_cut h, h.eq]
  split
  · have hone : e.uses = 1 := by omega
    by_cases hi : o = i
    · simp [uses_append, uses_cons, h.origin, hi, hone]
      omega
    · simp [uses_append, uses_cons, h.origin, hi]
  · by_cases hi : o = i
    · simp [uses_append, uses_cons, h.origin, hi]
      omega
    · simp [uses_append, uses_cons, h.origin, hi]

theorem load_release (h : Cut q o lq e rq) (hu : 0 < e.uses) :
    load p (q.release o) i + need p e i = load p q i := by
  rw [release_cut h, h.eq]
  split
  · have hone : e.uses = 1 := by omega
    simp [load_append, load_cons, hone]
    omega
  · have hneed : need p { e with uses := e.uses - 1 } i = need p e i := rfl
    have hmul : e.uses * need p e i = (e.uses - 1) * need p e i + need p e i := by
      rw [← Nat.succ_mul, Nat.succ_eq_add_one, Nat.sub_add_cancel hu]
    simp only [load_append, load_cons, hneed, hmul]
    omega

theorem load_use_cut {stmt : StageStmt} (h : Cut q o lq e rq) :
    load p (q.use stmt o) i = load p q i + need p e i := by
  have hneed : need p { e with uses := e.uses + 1 } i = need p e i := rfl
  rw [use_cut h, h.eq]
  simp only [load_append, load_cons, hneed, Nat.succ_mul]
  omega

theorem tags_use_cut {stmt : StageStmt} (h : Cut q o lq e rq) : (q.use stmt o).tags = q.tags := by
  rw [use_cut h, h.eq]
  simp [tags]

theorem uses_use {stmt : StageStmt} :
    (q.use stmt o).uses i = q.uses i + if o = i then 1 else 0 := by
  rcases lacks_or_cut q o with hl | ⟨l, e, r, hc⟩
  · rw [use_lacks hl, uses_append, uses_cons]
    simp [uses]
  · rw [use_cut hc, hc.eq]
    by_cases hi : o = i
    · simp [uses_append, uses_cons, hc.origin, hi]
      omega
    · simp [uses_append, uses_cons, hc.origin, hi]

theorem Sound.weaken (h : Sound p s pins due q) (hdue : ∀ o, due' o ≤ due o) :
    Sound p s pins due' q :=
  { h with credit := fun o => Nat.le_trans (Nat.add_le_add_left (hdue o) _) (h.credit o) }

theorem Sound.mem_of_due (h : Sound p s pins due q) (ho : 0 < due o) :
    some o ∈ q.tags.map (·.2) := by
  have := h.credit o
  exact mem_tags_of_uses (by omega)

theorem Sound.backed {e : Tag} (h : Sound p s pins due q) (he : e ∈ q.tags) :
    ∃ before, Backed p pins before e :=
  h.ordered.backed he

theorem lacks_iff : Lacks q o ↔ o ∉ q.tags.filterMap (·.2) := by
  simp [Lacks, tags]

theorem Sound.insert (h : Sound p s pins due (lq ++ rq)) (hu : 0 < e.uses)
    (hfresh : ∀ o, e.origin = some o → Lacks (lq ++ rq) o) (hkind : Kind p s (e.stmt, e.origin))
    (hdir : ∀ x ∈ e.stmt.exprs, x.Directed) (hpins : ∀ o, pins o ≤ pins' o)
    (hbacked : Backed p pins' (tags lq) (e.stmt, e.origin))
    (hcredit : ∀ o, load p (lq ++ rq) o + e.uses * need p e o + pins' o + due' o ≤
      uses (lq ++ rq) o + if e.origin = some o then e.uses else 0) :
    Sound p s pins' due' (lq ++ e :: rq) := by
  have htags : tags (lq ++ e :: rq) = tags lq ++ (e.stmt, e.origin) :: tags rq := by simp [tags]
  have htags' : tags (lq ++ rq) = tags lq ++ tags rq := by simp [tags]
  have hdistinct := h.distinct
  have hordered := h.ordered
  rw [htags'] at hdistinct hordered
  obtain ⟨hl, hr⟩ := ordered_append.1 hordered
  refine ⟨fun x hx => ?_, fun o => ?_, ?_, fun x hx => ?_, fun x hx => ?_, ?_⟩
  · rw [List.mem_append, List.mem_cons] at hx
    rcases hx with hx | rfl | hx
    · exact h.used x (by simp [hx])
    · exact hu
    · exact h.used x (by simp [hx])
  · have := hcredit o
    simp only [load_append, load_cons, uses_append, uses_cons] at this ⊢
    omega
  · rw [htags, List.filterMap_append]
    rw [List.filterMap_append] at hdistinct
    cases ho : e.origin with
    | none => simpa using hdistinct
    | some o =>
      have hlack := lacks_iff.1 (hfresh o ho)
      rw [htags', List.filterMap_append] at hlack
      change (_ ++ o :: (tags rq).filterMap (·.2)).Nodup
      exact (List.perm_middle.nodup_iff).2 (List.nodup_cons.2 ⟨hlack, hdistinct⟩)
  · rw [htags, List.mem_append, List.mem_cons] at hx
    rcases hx with hx | rfl | hx
    · exact h.kinds x (by rw [htags']; simp [hx])
    · exact hkind
    · exact h.kinds x (by rw [htags']; simp [hx])
  · rw [htags, List.mem_append, List.mem_cons] at hx
    rcases hx with hx | rfl | hx
    · exact h.directed x (by rw [htags']; simp [hx])
    · exact hdir
    · exact h.directed x (by rw [htags']; simp [hx])
  · rw [htags]
    refine ordered_append.2 ⟨hl.mono (fun _ => id) hpins, hbacked, hr.mono (fun o ho => ?_) hpins⟩
    simp only [List.nil_append, List.map_append, List.mem_append] at ho ⊢
    exact .inl ho

theorem Sound.use_cut {stmt : StageStmt} (h : Sound p s pins due q) (hc : Cut q o lq e rq)
    (hcredit : ∀ i, load p q i + need p e i + pins i + due' i ≤ q.uses i + if o = i then 1 else 0) :
    Sound p s pins due' (q.use stmt o) := by
  refine ⟨fun x hx => ?_, fun i => ?_, ?_, ?_, ?_, ?_⟩
  · rw [Queue.use_cut hc, List.mem_append, List.mem_cons] at hx
    rcases hx with hx | rfl | hx
    · exact h.used x (by rw [hc.eq]; simp [hx])
    · exact Nat.succ_pos _
    · exact h.used x (by rw [hc.eq]; simp [hx])
  · rw [load_use_cut hc, uses_use]
    exact hcredit i
  · rw [tags_use_cut hc]
    exact h.distinct
  · rw [tags_use_cut hc]
    exact h.kinds
  · rw [tags_use_cut hc]
    exact h.directed
  · rw [tags_use_cut hc]
    exact h.ordered

theorem Sound.need_decl {written : LocalDecl} (h : Sound p s pins due q) (hsw : p.SingleWrites)
    (hc : Cut q o lq e rq) (hw : p.Shows ⟨.declaration written, o⟩) :
    need p e i = (p.scope.upTo o).demand (p.version s o written.init) i := by
  have hkind : Kind p s (e.stmt, e.origin) := h.kinds _ (by rw [hc.eq]; simp [tags])
  unfold need
  rw [hc.origin] at hkind ⊢
  generalize e.stmt = st at hkind
  cases hkind with
  | decl hw' _ hl =>
    cases hsw.site hw' hw rfl
    simp only [hl]
  | assign hw' _ => cases hsw.site hw' hw rfl

/-- A use of a declaration, in its version for the stage, takes over what its initializer is due. -/
theorem Sound.declare {written decl : LocalDecl} (hsw : p.SingleWrites)
    (h : Sound p s pins (fun i => due i + (p.scope.upTo o).demand decl.init.locals i) q)
    (hw : p.Shows ⟨.declaration written, o⟩) (hv : decl.var = written.var)
    (hl : decl.init.locals = p.version s o written.init) (hdir : decl.init.Directed)
    (hfound : ∀ v ∈ decl.init.locals, ∃ w, (p.scope.upTo o).find (.localVar v) = some w) :
    Sound p s pins (fun i => due i + if o = i then 1 else 0) (q.use (.decl decl) o) := by
  rcases lacks_or_cut q o with hlack | ⟨l, e, r, hc⟩
  · rw [use_lacks hlack]
    rw [← List.append_nil q] at h hlack
    refine h.insert Nat.one_pos (fun i hi => Option.some.inj hi ▸ hlack) (.decl hw hv hl)
      (by simpa [StageStmt.exprs] using hdir) (fun _ => Nat.le_refl _)
      ⟨o, fun i hi => Option.some.inj hi, fun v hmem => ?_⟩ fun i => ?_
    · have hmem : v ∈ decl.init.locals := by simpa [StageStmt.locals, StageStmt.exprs] using hmem
      obtain ⟨w, hfind⟩ := hfound v hmem
      have hdue := Scope.demand_pos hmem hfind
      exact ⟨w, hfind,
        by simpa using h.mem_of_due (Nat.add_pos_right _ hdue), fun hd => absurd rfl (hd decl)⟩
    · have := h.credit i
      simp only [need, Option.some.injEq, Nat.one_mul] at this ⊢
      omega
  · refine h.use_cut hc fun i => ?_
    have := h.credit i
    rw [h.need_decl hsw hc hw, ← hl]
    omega

/-- A statement that is never released holds what its locals are due. -/
theorem Sound.pin {st : StageStmt} {origin : Option NodeId} {x : NodeId}
    (h : Sound p s pins (fun i => due i + (p.scope.upTo x).demand st.locals i) (lq ++ rq))
    (hst : ∀ d, st ≠ .decl d) (hkind : Kind p s (st, origin)) (hdir : ∀ x ∈ st.exprs, x.Directed)
    (hx : ∀ o, origin = some o → x = o) (hfresh : ∀ o, origin = some o → Lacks (lq ++ rq) o)
    (hfound : ∀ v ∈ st.locals, ∃ w, (p.scope.upTo x).find (.localVar v) = some w ∧
      Lacks rq w.step) :
    Sound p s (fun i => pins i + (p.scope.upTo x).demand st.locals i)
      (fun i => due i + if origin = some i then 1 else 0) (lq ++ ⟨st, origin, 1⟩ :: rq) := by
  refine h.insert Nat.one_pos hfresh hkind hdir (fun _ => Nat.le_add_right _ _)
    ⟨x, hx, fun v hv => ?_⟩ fun i => ?_
  · obtain ⟨w, hw, hlack⟩ := hfound v hv
    have hdue := Scope.demand_pos hv hw
    have hmem := h.mem_of_due (Nat.add_pos_right _ hdue)
    have htags : tags (lq ++ rq) = tags lq ++ tags rq := by simp [tags]
    rw [htags, List.map_append, List.mem_append] at hmem
    refine ⟨w, hw, hmem.resolve_right fun hr => ?_, fun _ => Nat.add_pos_right _ hdue⟩
    exact lacks_iff.1 hlack (by simpa using hr)
  · have hneed : need p ⟨st, origin, 1⟩ i = 0 := by
      unfold need
      split
      · rename_i d _ hd _
        exact absurd hd (hst d)
      · rfl
    have := h.credit i
    rw [hneed]
    dsimp only at this ⊢
    omega

theorem Sound.assign {x x' : Expr} (hsw : p.SingleWrites)
    (h : Sound p s pins (fun i => due i + (p.scope.upTo o).demand x'.locals i) q)
    (hw : p.Shows ⟨.assignment x, o⟩) (hx : ∀ v, x.Writes (.localVar v) → v ∈ x'.locals)
    (hdir : x'.Directed)
    (hfound : ∀ v ∈ x'.locals, ∃ w, (p.scope.upTo o).find (.localVar v) = some w) :
    ∃ pins', Sound p s pins' (fun i => due i + if o = i then 1 else 0) (q.use (.expr x') o) := by
  have hlocals : (StageStmt.expr x').locals = x'.locals := by
    simp [StageStmt.locals, StageStmt.exprs]
  rcases lacks_or_cut q o with hlack | ⟨l, e, r, hc⟩
  · -- a new entry: an assignment is never released, so it pins its locals
    rw [use_lacks hlack]
    rw [← List.append_nil q] at h hlack
    rw [← hlocals] at h hfound
    have hpin := h.pin (by simp) (.assign hw hx) (by simpa [StageStmt.exprs] using hdir)
      (fun i hi => Option.some.inj hi)
      (fun i hi => Option.some.inj hi ▸ hlack) fun v hv => (hfound v hv).imp fun w hf =>
        ⟨hf, by simp [Lacks]⟩
    exact ⟨_, by simpa using hpin⟩
  · -- what stands under this origin is an assignment too, and one more use of it needs nothing
    have hkind : Kind p s (e.stmt, e.origin) := h.kinds _ (by rw [hc.eq]; simp [tags])
    have hneed (i : NodeId) : need p e i = 0 := by
      rw [hc.origin] at hkind
      unfold need
      rw [hc.origin]
      generalize e.stmt = st at hkind
      cases hkind with
      | decl hw' _ _ => cases hsw.site hw' hw rfl
      | assign => rfl
    refine ⟨pins, h.use_cut hc fun i => ?_⟩
    have := h.credit i
    rw [hneed]
    omega

theorem Sound.insertReached {x : NodeId} {e : Expr}
    (h : Sound p s pins (fun i => due i + (p.scope.upTo x).demand e.locals i) q)
    (hdir : e.Directed) (hfound : ∀ v ∈ e.locals, ∃ w, (p.scope.upTo x).find (.localVar v) = some w)
    {reaching : List NodeId} (hr : reaching = (p.scope.upTo x).reaching e) :
    ∃ pins', Sound p s pins' due (q.insertReached reaching (.expr e)) := by
  have hlocals : (StageStmt.expr e).locals = e.locals := by simp [StageStmt.locals, StageStmt.exprs]
  obtain ⟨l, r, rfl, hq, hlack⟩ := insertReached_cases reaching (.expr e) q
  rw [← hlocals] at h
  have hpin := h.pin (by simp) .loose (by simpa [StageStmt.exprs] using hdir) (by simp)
      (by simp) fun v hv => by
    obtain ⟨w, hw⟩ := hfound v (hlocals ▸ hv)
    exact ⟨w, hw, hlack _ (hr ▸ Scope.mem_reaching.2 ⟨v, hlocals ▸ hv, w, hw, rfl⟩)⟩
  exact ⟨_, by rw [hq]; simpa using hpin⟩

theorem Sound.addOnce {x : NodeId} {e : Expr}
    (h : Sound p s pins (fun i => due i + (p.scope.upTo x).demand e.locals i) q) (hdir : e.Directed)
    (hfound : ∀ v ∈ e.locals, ∃ w, (p.scope.upTo x).find (.localVar v) = some w) :
    ∃ pins', Sound p s pins' due (q.addOnce (.expr e)) := by
  have hlocals : (StageStmt.expr e).locals = e.locals := by simp [StageStmt.locals, StageStmt.exprs]
  rcases addOnce_cases q (.expr e) with ⟨hq, -⟩ | hq
  · rw [hq]
    exact ⟨pins, h.weaken fun i => Nat.le_add_right _ _⟩
  · rw [hq]
    rw [← List.append_nil q, ← hlocals] at h
    have hpin := h.pin (by simp) .loose (by simpa [StageStmt.exprs] using hdir) (by simp)
        (by simp) fun v hv =>
      (hfound v (hlocals ▸ hv)).imp fun w hw => ⟨hw, by simp [Lacks]⟩
    exact ⟨_, by simpa using hpin⟩

/-- A use that is given back leaves behind what the declaration's initializer was due. -/
theorem Sound.release {written : LocalDecl} (hsw : p.SingleWrites)
    (h : Sound p s pins (fun i => due i + if o = i then 1 else 0) q)
    (hw : p.Shows ⟨.declaration written, o⟩) :
    Sound p s pins (fun i => due i + (p.scope.upTo o).demand (p.version s o written.init) i)
      (q.release o) := by
  rcases lacks_or_cut q o with hlack | ⟨l, e, r, hc⟩
  · -- The use that is due would have no statement.
    have hmem := h.mem_of_due (o := o) (by simp)
    exact absurd (by simpa using hmem) (lacks_iff.1 hlack)
  have hu : 0 < e.uses := h.used e (by rw [hc.eq]; simp)
  have hcredit (i : NodeId) :
      load p (q.release o) i + pins i +
        (due i + (p.scope.upTo o).demand (p.version s o written.init) i) ≤
      (q.release o).uses i := by
    have hload : load p (q.release o) i + need p e i = load p q i := load_release hc hu
    have huses : (q.release o).uses i + (if o = i then 1 else 0) = q.uses i := uses_release hc hu
    have := h.credit i
    rw [h.need_decl hsw hc hw] at hload
    omega
  have htags : q.tags = tags l ++ (e.stmt, some o) :: tags r := by
    rw [hc.eq, ← hc.origin]; simp [tags]
  by_cases hone : e.uses ≤ 1
  · have hq : q.release o = l ++ r := by rw [release_cut hc, if_pos hone]
    have htags' : tags (l ++ r) = tags l ++ tags r := by simp [tags]
    have hdistinct := h.distinct
    have hordered := h.ordered
    have hkinds := h.kinds
    rw [htags] at hdistinct hordered hkinds
    obtain ⟨hol, -, hor⟩ := ordered_append.1 hordered
    rw [List.filterMap_append] at hdistinct
    change (_ ++ o :: (tags r).filterMap (·.2)).Nodup at hdistinct
    obtain ⟨hno, hnodup⟩ := List.nodup_cons.1 (List.perm_middle.nodup_iff.1 hdistinct)
    rw [hq] at hcredit ⊢
    -- No use is left, so nothing that stays can need the statement.
    have hzero : uses (l ++ r) o = 0 :=
      uses_of_lacks (lacks_iff.2 (by rw [htags', List.filterMap_append]; exact hno))
    have hnone := hcredit o
    rw [hzero] at hnone
    have hpins : pins o = 0 := by omega
    have hload : load p (l ++ r) o = 0 := by omega
    refine ⟨fun x hx => h.used x ?_, hcredit, ?_, fun x hx => hkinds x ?_,
      fun x hx => h.directed x ?_, ?_⟩
    · rw [hc.eq]
      rcases List.mem_append.1 hx with hx | hx <;> simp [hx]
    · rw [htags', List.filterMap_append]
      exact hnodup
    · rw [htags', List.mem_append] at hx
      rcases hx with hx | hx <;> simp [hx]
    · rw [htags', List.mem_append] at hx
      rw [htags]
      rcases hx with hx | hx <;> simp [hx]
    · rw [htags']
      refine ordered_append.2 ⟨hol, hor.drop (fun i hi => ?_) hpins (fun x hx d i hd => ?_)
        fun x hx => hkinds x (by simp [hx])⟩
      · simp only [List.nil_append, List.map_append, List.mem_append, List.map_cons, List.map_nil,
          List.mem_singleton] at hi ⊢
        exact hi
      · obtain ⟨e', he', rfl⟩ := List.mem_map.1 hx
        obtain ⟨hst, ho⟩ := Prod.mk.inj hd
        have hz := load_eq_zero hload (List.mem_append_right l he')
          (h.used e' (by rw [hc.eq]; simp [he']))
        simpa [need, hst, ho] using hz
  · have hq : q.release o = l ++ { e with uses := e.uses - 1 } :: r := by
      rw [release_cut hc, if_neg hone]
    have htags' : (q.release o).tags = q.tags := by rw [hq, htags, ← hc.origin]; simp [tags]
    refine ⟨fun x hx => ?_, hcredit, htags' ▸ h.distinct, htags' ▸ h.kinds, htags' ▸ h.directed,
      htags' ▸ h.ordered⟩
    rw [hq, List.mem_append, List.mem_cons] at hx
    rcases hx with hx | rfl | hx
    · exact h.used x (by rw [hc.eq]; simp [hx])
    · exact Nat.sub_pos_of_lt (Nat.lt_of_not_le hone)
    · exact h.used x (by rw [hc.eq]; simp [hx])

end

end Queue
end ShaderSplit
