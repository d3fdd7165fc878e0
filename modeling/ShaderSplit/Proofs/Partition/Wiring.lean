import ShaderSplit.Proofs.Partition.Queue
import ShaderSplit.Proofs.Partition.Tracing
import ShaderSplit.Proofs.Stage.Order

namespace ShaderSplit

def StageStmt.exprs : StageStmt → List Expr
  | decl d => [d.init]
  | expr e => [e]
  | bindingDecl _ | pushUniform _ => []

/-- Everything that stands in a statement, down to the smallest part. -/
def StageStmt.terms (st : StageStmt) : List Expr := st.exprs.flatMap Expr.subterms

/-- The operator and the right side, if the expression is an assignment to one end of a field. -/
def Expr.assigned? (r : InterfaceRef) : Expr → Option (BinaryOp × Expr)
  | binary _ op (interface _ r') rhs => if op.isAssignment ∧ r' = r then some (op, rhs) else none
  | _ => none

def assignments (r : InterfaceRef) (block : List StageStmt) : List (BinaryOp × Expr) :=
  block.flatMap fun st => st.terms.filterMap (·.assigned? r)

theorem assignments_append (r : InterfaceRef) (a b : List StageStmt) :
    assignments r (a ++ b) = assignments r a ++ assignments r b :=
  List.flatMap_append

namespace Draft

variable {p : Pipeline} {d d' : Draft} {s t : Stage}

def Carried (d : Draft) (r : InterfaceRef) (ty : Ty) : Prop :=
  ∃ rec f, d.record? r.source r.dest = some rec ∧ rec.source = r.source ∧
    rec.fields[r.field]? = some f ∧ f.ty = ty

/-- What may stand in a stage: its own parameters, and fields carried to it. -/
def Reads (p : Pipeline) (d : Draft) (s : Stage) : Expr → Prop
  | .param _ i => ∃ q, p.fn.params[i]? = some q ∧ q.role.stage = s
  | .interface n r => r.side = .consumer ∧ r.dest = s ∧ d.Carried r n.ty
  | .unsupported .. => False
  | _ => True

def Fits (p : Pipeline) (d : Draft) (s : Stage) (e : Expr) : Prop := e.All (d.Reads p s)

def HasRebuilt (d : Draft) (sc : Scope) (s : Stage) : Expr → Prop
  | .localVar _ v _ =>
    ∀ written o, sc.find (.localVar v) = some ⟨.declaration written, o⟩ →
      (d.rebuilt? o s).isSome = true
  | _ => True

def Ready (d : Draft) (sc : Scope) (s : Stage) (e : Expr) : Prop := e.All (d.HasRebuilt sc s)

/-- Records keep their ends and their fields, and what was rebuilt stays rebuilt. -/
structure Grows (d d' : Draft) : Prop where
  records : ∀ s t r, d.record? s t = some r →
    ∃ r', d'.record? s t = some r' ∧ r'.source = r.source ∧ r.fields <+: r'.fields
  rebuilt : ∀ o s, (d.rebuilt? o s).isSome = true → (d'.rebuilt? o s).isSome = true

theorem Grows.refl (d : Draft) : Grows d d :=
  ⟨fun _ _ r h => ⟨r, h, rfl, List.prefix_refl _⟩, fun _ _ h => h⟩

theorem Grows.trans {d₁ d₂ d₃ : Draft} (h : Grows d₁ d₂) (k : Grows d₂ d₃) : Grows d₁ d₃ := by
  refine ⟨fun s t r hr => ?_, fun o s ho => k.rebuilt o s (h.rebuilt o s ho)⟩
  obtain ⟨r₂, hr₂, hs₂, hf₂⟩ := h.records s t r hr
  obtain ⟨r₃, hr₃, hs₃, hf₃⟩ := k.records s t r₂ hr₂
  exact ⟨r₃, hr₃, hs₃.trans hs₂, hf₂.trans hf₃⟩

theorem Carried.grow {r : InterfaceRef} {ty : Ty} (h : d.Carried r ty) (hd : Grows d d') :
    d'.Carried r ty := by
  obtain ⟨rec, f, hr, hs, hf, ht⟩ := h
  obtain ⟨rec', hr', hs', l, hl⟩ := hd.records _ _ rec hr
  have hlt : r.field < rec.fields.length := (List.getElem?_eq_some_iff.1 hf).1
  exact ⟨rec', f, hr', hs'.trans hs, by rw [← hl, List.getElem?_append_left hlt, hf], ht⟩

theorem Fits.grow {e : Expr} (h : d.Fits p s e) (hd : Grows d d') : d'.Fits p s e := by
  refine Expr.All.mono h fun x hx => ?_
  unfold Reads at hx ⊢
  split
  · exact hx
  · exact ⟨hx.1, hx.2.1, hx.2.2.grow hd⟩
  · exact hx
  · trivial

theorem Ready.grow {sc : Scope} {e : Expr} (h : d.Ready sc s e) (hd : Grows d d') :
    d'.Ready sc s e := by
  refine Expr.All.mono h fun x hx => ?_
  unfold HasRebuilt at hx ⊢
  split
  · exact fun written o hw => hd.rebuilt o s (hx written o hw)
  · trivial

def Stays (p : Pipeline) (d : Draft) (s : Stage) (st : StageStmt) : Prop :=
  ∀ e ∈ st.exprs, d.Fits p s e

def IsProducer (p : Pipeline) (d : Draft) (s : Stage) (st : StageStmt) : Prop :=
  ∃ n n' t i value, st = .expr (.binary n .assign (.interface n' ⟨s, t, .producer, i⟩) value) ∧
    d.Fits p s value

def Placed (p : Pipeline) (d : Draft) (s : Stage) (e : StageStmt × Option NodeId) : Prop :=
  d.Stays p s e.1 ∨ e.2 = none ∧ d.IsProducer p s e.1

/-- The records lead from the host, or from the active stage just before. -/
def Linked (p : Pipeline) (d : Draft) : Prop := ∀ s t r, d.record? s t = some r →
  r.dest = t ∧ t ∈ p.stages.devices ∧
    if s = .host then r.source = .host else p.stages.previousActive t = some r.source

structure Wired (p : Pipeline) (d : Draft) : Prop where
  linked : d.Linked p
  produced : ∀ s t r i, d.record? s t = some r → r.source = s →
    assignments ⟨s, t, .producer, i⟩ (d.queue s).statements =
      (r.fields[i]?.map fun f => (.assign, f.key)).toList
  queued : ∀ s, ∀ e ∈ (d.queue s).tags, d.Placed p s e
  keys : ∀ s t r, d.record? s t = some r → ∀ f ∈ r.fields, d.Fits p r.source f.key
  rebuilt : ∀ o s decl, d.rebuilt? o s = some decl →
    d.Fits p s decl.init ∧ d.Ready (p.scope.upTo o) s decl.init

/-- The parts of a draft that wiring is about. -/
structure Agrees (d d' : Draft) : Prop where
  uniforms : d'.uniforms = d.uniforms
  varyings : d'.varyings = d.varyings
  queues : d'.queues = d.queues
  rebuilt : d'.rebuilt = d.rebuilt

theorem Agrees.grows (h : Agrees d d') : Grows d d' := by
  refine ⟨fun s t r hr => ⟨r, ?_, rfl, List.prefix_refl _⟩, fun o s ho => ?_⟩
  · rw [← hr]
    unfold record?
    rw [h.uniforms, h.varyings]
  · rw [← ho]
    unfold rebuilt?
    rw [h.rebuilt]

theorem agrees_capture (c : Prop) [Decidable c] (d : Draft) (i : Nat) :
    d.Agrees (if c then d.capture i else d) := by
  split <;> exact ⟨rfl, rfl, rfl, rfl⟩

theorem Agrees.symm (h : Agrees d d') : Agrees d' d :=
  ⟨h.uniforms.symm, h.varyings.symm, h.queues.symm, h.rebuilt.symm⟩

theorem Agrees.record? (h : Agrees d d') (s t : Stage) : d'.record? s t = d.record? s t := by
  unfold Draft.record?
  rw [h.uniforms, h.varyings]

theorem Agrees.rebuilt? (h : Agrees d d') (o : NodeId) (s : Stage) :
    d'.rebuilt? o s = d.rebuilt? o s := by
  unfold Draft.rebuilt?
  rw [h.rebuilt]

theorem Agrees.queue (h : Agrees d d') (s : Stage) : d'.queue s = d.queue s := by
  unfold Draft.queue
  rw [h.queues]

theorem Stays.grow {st : StageStmt} (h : d.Stays p s st) (hd : Grows d d') : d'.Stays p s st :=
  fun e he => (h e he).grow hd

theorem IsProducer.grow {st : StageStmt} (h : d.IsProducer p s st) (hd : Grows d d') :
    d'.IsProducer p s st := by
  obtain ⟨n, n', t, i, value, rfl, hv⟩ := h
  exact ⟨n, n', t, i, value, rfl, hv.grow hd⟩

theorem Placed.grow {e : StageStmt × Option NodeId} (h : d.Placed p s e) (hd : Grows d d') :
    d'.Placed p s e :=
  h.imp (·.grow hd) (And.imp_right (·.grow hd))

theorem Wired.agree (h : d.Wired p) (hd : Agrees d d') : d'.Wired p := by
  refine ⟨fun s t r hr => h.linked s t r ((hd.record? s t).symm.trans hr),
    fun s t r i hr hs => ?_, ?_, ?_, ?_⟩
  · rw [hd.queue]
    exact h.produced s t r i ((hd.record? s t).symm.trans hr) hs
  · intro s e he
    rw [hd.queue] at he
    exact (h.queued s e he).grow hd.grows
  · intro s t r hr f hf
    exact (h.keys s t r ((hd.record? s t).symm.trans hr) f hf).grow hd.grows
  · intro o s decl ho
    rw [hd.rebuilt?] at ho
    exact (h.rebuilt o s decl ho).imp (·.grow hd.grows) (·.grow hd.grows)

/-- In what a stage may read, nothing is assigned to a producing end. -/
theorem Fits.assigned_none {e : Expr} {r : InterfaceRef} (h : d.Fits p s e)
    (hr : r.side = .producer) :
    ∀ x ∈ e.subterms, x.assigned? r = none := by
  intro x hx
  unfold Expr.assigned?
  split
  · rename_i n op n' r' rhs
    have hmem : Expr.interface n' r' ∈ e.subterms :=
      Expr.subterms_trans (by simp [Expr.subterms]) hx
    have hside : r'.side = .consumer := (h _ hmem).1
    rw [if_neg]
    rintro ⟨-, rfl⟩
    rw [hr] at hside
    cases hside
  · rfl

theorem Stays.assignments_nil {st : StageStmt} {r : InterfaceRef} (h : d.Stays p s st)
    (hr : r.side = .producer) : assignments r [st] = [] := by
  simp only [assignments, StageStmt.terms, List.flatMap_cons, List.flatMap_nil, List.append_nil]
  refine List.filterMap_eq_nil_iff.2 fun x hx => ?_
  obtain ⟨e, he, hxe⟩ := List.mem_flatMap.1 hx
  exact (h e he).assigned_none hr x hxe

theorem onQueue_grows (d : Draft) (s : Stage) (f : Queue → Queue) : Grows d (d.onQueue s f) :=
  ⟨fun _ _ r h => ⟨r, h, rfl, List.prefix_refl _⟩, fun _ _ h => h⟩

/-- Changing a queue keeps a draft wired, if the producers in it stay what they are. -/
theorem Wired.onQueue {f : Queue → Queue} (h : d.Wired p)
    (hq : ∀ e ∈ (f (d.queue s)).tags, d.Placed p s e)
    (ha : ∀ r : InterfaceRef, r.side = .producer → assignments r (f (d.queue s)).statements =
      assignments r (d.queue s).statements) :
    (d.onQueue s f).Wired p := by
  have hg := onQueue_grows d s f
  refine ⟨h.linked, fun x t r i hr hx => ?_, fun x e he => ?_, fun x t r hr f hf => ?_,
    fun o x decl ho => ?_⟩
  · rw [← h.produced x t r i hr hx, onQueue_queue]
    split
    · rename_i hsx
      subst hsx
      exact ha _ rfl
    · rfl
  · rw [onQueue_queue] at he
    split at he
    · rename_i hsx
      subst hsx
      exact (hq e he).grow hg
    · exact (h.queued x e he).grow hg
  · exact (h.keys x t r hr f hf).grow hg
  · exact (h.rebuilt o x decl ho).imp (·.grow hg) (·.grow hg)

theorem Wired.add {st : StageStmt} {origin : Option NodeId} (h : d.Wired p) (hst : d.Stays p s st) :
    (d.add s st origin).Wired p := by
  refine h.onQueue (fun e he => ?_) fun r hr => ?_
  · rcases Queue.mem_tags_add he with he | rfl
    · exact h.queued s e he
    · exact .inl hst
  · rcases Queue.tags_add (d.queue s) st origin with ht | ht
    · rw [Queue.statements_eq, ht, ← Queue.statements_eq]
    · rw [Queue.statements_eq, ht, List.map_append, assignments_append, ← Queue.statements_eq]
      simp [hst.assignments_nil hr]

theorem Wired.release {o : NodeId} (h : d.Wired p) : (d.onQueue s (·.release o)).Wired p := by
  refine h.onQueue (fun e he => h.queued s e (Queue.mem_tags_release he)) fun ref hr => ?_
  rcases Queue.tags_release (d.queue s) o with ht | ⟨l, st, r, hq, ht⟩
  · rw [Queue.statements_eq, ht, ← Queue.statements_eq]
  · have hst : d.Stays p s st := by
      rcases h.queued s (st, some o) (by simp [hq]) with h | ⟨h, _⟩
      · exact h
      · cases h
    rw [Queue.statements_eq, Queue.statements_eq, ht, hq, List.map_append, List.map_append,
      List.map_cons, ← List.singleton_append, assignments_append, assignments_append,
      assignments_append, hst.assignments_nil hr, List.nil_append]

theorem setRebuilt_rebuilt? (d : Draft) (o x : NodeId) (s t : Stage) (decl : LocalDecl) :
    (d.setRebuilt o s decl).rebuilt? x t = if o = x ∧ s = t then some decl else d.rebuilt? x t := by
  unfold setRebuilt rebuilt?
  rw [List.find?_cons]
  by_cases h : o = x ∧ s = t
  · simp [h]
  · rw [if_neg h]
    split
    · rename_i hb
      exact absurd (by simpa using hb) h
    · rfl

theorem setRebuilt_grows (d : Draft) (o : NodeId) (s : Stage) (decl : LocalDecl) :
    Grows d (d.setRebuilt o s decl) := by
  refine ⟨fun _ _ r h => ⟨r, h, rfl, List.prefix_refl _⟩, fun x t hx => ?_⟩
  rw [setRebuilt_rebuilt?]
  split
  · rfl
  · exact hx

theorem Wired.setRebuilt {o : NodeId} {decl : LocalDecl} (h : d.Wired p) (hf : d.Fits p s decl.init)
    (hr : d.Ready (p.scope.upTo o) s decl.init) : (d.setRebuilt o s decl).Wired p := by
  have hg := setRebuilt_grows d o s decl
  refine ⟨h.linked, h.produced, fun x e he => (h.queued x e he).grow hg,
    fun x t r hr f hf => (h.keys x t r hr f hf).grow hg, fun x t decl' hx => ?_⟩
  rw [setRebuilt_rebuilt?] at hx
  split at hx
  · rename_i hxt
    obtain ⟨rfl, rfl⟩ := hxt
    obtain rfl : decl = decl' := by simpa using hx
    exact ⟨hf.grow hg, hr.grow hg⟩
  · exact (h.rebuilt x t decl' hx).imp (·.grow hg) (·.grow hg)

theorem setRecord_record? (d : Draft) (s t x y : Stage) (r : InterfaceRecord) :
    (d.setRecord s t r).record? x y = if t = y ∧
    (s = .host ↔ x = .host) then some r else d.record? x y := by
  unfold setRecord record?
  by_cases hs : s = .host <;> by_cases hx : x = .host <;> by_cases hy : t = y <;>
    simp [hs, hx, hy, PerStage.get_set]

theorem setRecord_grows {r : InterfaceRecord} (value : Expr) (reaching : List NodeId)
    (h : d.record? s t = some r) : Grows d (d.setRecord s t (r.push value reaching)) := by
  refine ⟨fun x y r' hr' => ?_, fun o x ho => ?_⟩
  · rw [setRecord_record?]
    split
    · rename_i hxy
      have heq : d.record? x y = d.record? s t := by
        unfold record?
        simp [hxy.1, hxy.2]
      obtain rfl : r = r' := by simpa [heq, h] using hr'
      exact ⟨_, rfl, rfl, List.prefix_append _ _⟩
    · exact ⟨r', hr', rfl, List.prefix_refl _⟩
  · unfold setRecord
    split <;> exact ho

theorem openField_grows {r : InterfaceRecord} (value : Expr) (reaching : List NodeId)
    (h : d.record? s t = some r) : Grows d (d.openField s t r value reaching) :=
  (setRecord_grows value reaching h).trans
    ⟨fun _ _ r h => ⟨r, h, rfl, List.prefix_refl _⟩, fun _ _ h => h⟩

theorem assignments_producer {r : InterfaceRef} {value : Expr} {i : Nat} (e : Draft)
    (h : d.Fits p s value) (hr : r.side = .producer) :
    assignments r [.expr (e.producer s t i value)] = if r = ⟨s, t, .producer, i⟩
      then [(.assign, value)] else [] := by
  have hv : value.subterms.filterMap (·.assigned? r) = [] :=
    List.filterMap_eq_nil_iff.2 (h.assigned_none hr)
  have hp : (e.producer s t i value).assigned? r =
      if r = ⟨s, t, .producer, i⟩ then some (.assign, value) else none := by
    simp [producer, endAt, Expr.assigned?, BinaryOp.isAssignment, eq_comm]
  have ht : StageStmt.terms (.expr (e.producer s t i value)) =
      e.producer s t i value :: e.endAt s t .producer i value :: value.subterms := by
    simp [StageStmt.terms, StageStmt.exprs, producer, endAt, Expr.subterms]
  simp only [assignments, List.flatMap_cons, List.flatMap_nil, List.append_nil, ht,
    List.filterMap_cons, hp]
  split <;> simp_all [endAt, Expr.assigned?]

theorem assignments_insert (r : InterfaceRef) (l k : Queue) (e : Entry) :
    assignments r (Queue.statements (l ++ e :: k)) =
      assignments r l.statements ++ assignments r [e.stmt] ++ assignments r k.statements := by
  simp only [Queue.statements, List.map_append, List.map_cons]
  rw [← List.singleton_append, assignments_append, assignments_append, List.append_assoc]

theorem assignments_openField {r : InterfaceRecord} {value : Expr} {reaching : List NodeId}
    {l k : Queue} {i : Nat} (e : Draft) (hv : d.Fits p s value)
    (h : assignments ⟨s, t, .producer, i⟩ (Queue.statements (l ++ k)) =
      (r.fields[i]?.map fun f => (.assign, f.key)).toList) :
    assignments ⟨s, t, .producer, i⟩
      (Queue.statements (l ++ ⟨.expr (e.producer s t r.fields.length value), none, 1⟩ :: k)) =
      ((r.push value reaching).fields[i]?.map fun f => (.assign, f.key)).toList := by
  rw [Queue.statements, List.map_append, assignments_append] at h
  rw [assignments_insert, assignments_producer e hv rfl]
  unfold InterfaceRecord.push
  by_cases hi : i = r.fields.length
  · subst hi
    have hnil : assignments ⟨s, t, .producer, r.fields.length⟩ l.statements = [] ∧
        assignments ⟨s, t, .producer, r.fields.length⟩ k.statements = [] := by
      simpa [Queue.statements] using h
    simp [hnil]
  · have hfield : (r.fields ++ [⟨value, reaching, fieldName r.source r.dest r.fields.length⟩])[i]? =
          r.fields[i]? := by
      rcases Nat.lt_or_gt_of_ne hi with hlt | hgt
      · exact List.getElem?_append_left hlt
      · rw [List.getElem?_eq_none (by simp; omega), List.getElem?_eq_none (by omega)]
    rw [hfield, ← h]
    simp [hi, Queue.statements]

section
variable {r : InterfaceRecord} {value : Expr} {reaching : List NodeId}

theorem openField_queue (d : Draft) (s t : Stage) (r : InterfaceRecord) (value : Expr)
    (reaching : List NodeId) (x : Stage) :
    (d.openField s t r value reaching).queue x =
      if s = x then (d.queue x).insertReached reaching
        (.expr ((d.setRecord s t (r.push value reaching)).producer s t r.fields.length value))
          else d.queue x := by
  unfold openField
  simp only [tick_queue, onQueue_queue, setRecord_queue]

theorem mem_tags_openField {x : Stage} {e : StageStmt × Option NodeId} :
    e ∈ ((d.openField s t r value reaching).queue x).tags ↔ e ∈ (d.queue x).tags ∨ s = x ∧
      e = (.expr ((d.setRecord s t (r.push value reaching)).producer s t r.fields.length value),
        none) := by
  rw [openField_queue]
  split
  · rename_i hsx
    simp [Queue.mem_tags_insertReached, hsx]
  · rename_i hsx
    simp [hsx]

theorem openField_record? (d : Draft) (s t : Stage) (r : InterfaceRecord) (value : Expr)
    (reaching : List NodeId)
    (x y : Stage) : (d.openField s t r value reaching).record? x y =
      if t = y ∧ (s = .host ↔ x = .host) then some (r.push value reaching) else d.record? x y :=
  setRecord_record? ..

theorem openField_rebuilt? {o : NodeId} {x : Stage} :
    (d.openField s t r value reaching).rebuilt? o x = d.rebuilt? o x := by
  unfold openField setRecord
  split <;> rfl

theorem Linked.openField (h : d.Linked p) (hr : d.record? s t = some r) :
    (d.openField s t r value reaching).Linked p := by
  intro x y r' hr'
  rw [openField_record?] at hr'
  split at hr'
  · rename_i hxy
    obtain rfl : r.push value reaching = r' := by simpa using hr'
    simpa [InterfaceRecord.push, hxy.1, hxy.2] using h s t r hr
  · exact h x y r' hr'

/-- The new field has its one assignment, and the other fields keep theirs. -/
theorem Wired.produced_openField {x y : Stage} {r' : InterfaceRecord} {i : Nat} (h : d.Wired p)
    (hr : d.record? s t = some r) (hs : r.source = s) (hv : d.Fits p s value)
    (hr' : (d.openField s t r value reaching).record? x y = some r') (hx : r'.source = x) :
    assignments ⟨x, y, .producer, i⟩ ((d.openField s t r value reaching).queue x).statements =
      (r'.fields[i]?.map fun f => (.assign, f.key)).toList := by
  rw [openField_record?] at hr'
  rw [openField_queue]
  generalize d.setRecord s t (r.push value reaching) = e
  obtain ⟨l, k, hq, hins, -⟩ := Queue.insertReached_cases reaching
    (.expr (e.producer s t r.fields.length value)) (d.queue s)
  split at hr'
  · rename_i hxy
    obtain rfl : r.push value reaching = r' := by simpa using hr'
    obtain rfl : s = x := hs.symm.trans hx
    obtain rfl := hxy.1
    rw [if_pos rfl, hins]
    exact assignments_openField e hv (hq ▸ h.produced s t r i hr hs)
  · rename_i hxy
    rw [← h.produced x y r' i hr' hx]
    split
    · rename_i hsx
      subst hsx
      -- another record of this source leads to another stage
      have hty : ¬ t = y := fun hty => hxy ⟨hty, Iff.rfl⟩
      rw [hins, assignments_insert, assignments_producer e hv rfl, hq]
      simp [Queue.statements, assignments_append, Ne.symm hty]
    · rfl

theorem Wired.placed_openField {x : Stage} {e : StageStmt × Option NodeId} (h : d.Wired p)
    (hr : d.record? s t = some r) (hv : d.Fits p s value)
    (he : e ∈ ((d.openField s t r value reaching).queue x).tags) :
    (d.openField s t r value reaching).Placed p x e := by
  have hg := openField_grows value reaching hr
  rcases mem_tags_openField.1 he with he | ⟨rfl, rfl⟩
  · exact (h.queued x e he).grow hg
  · exact .inr ⟨rfl, _, _, t, _, value, rfl, hv.grow hg⟩

theorem Wired.openField (h : d.Wired p) (hr : d.record? s t = some r) (hs : r.source = s)
    (hv : d.Fits p s value) :
    (d.openField s t r value reaching).Wired p := by
  have hg := openField_grows value reaching hr
  refine ⟨h.linked.openField hr, fun x y r' i hr' hx => h.produced_openField hr hs hv hr' hx,
    fun x e he => h.placed_openField hr hv he, fun x y r' hr' f hf => ?_, fun o x decl ho => ?_⟩
  · rw [openField_record?] at hr'
    split at hr'
    · obtain rfl : r.push value reaching = r' := by simpa using hr'
      rcases List.mem_append.1 hf with hf | hf
      · exact (h.keys s t r hr f hf).grow hg
      · rw [List.mem_singleton.1 hf]
        exact (hs ▸ hv : d.Fits p r.source value).grow hg
    · exact (h.keys x y r' hr' f hf).grow hg
  · rw [openField_rebuilt?] at ho
    exact (h.rebuilt o x decl ho).imp (·.grow hg) (·.grow hg)

end

end Draft
end ShaderSplit
