import Mathlib.Data.List.Forall2
import Mathlib.Tactic.MkIffOfInductiveProp
import ShaderSplit.Proofs.Partition.Fields

namespace ShaderSplit

namespace Stmt

/-- The expressions of a statement, those of its blocks aside. -/
def exprs : Stmt → List Expr
  | decl _ _ _ _ _ (some e) | expr _ _ e => [e]
  | _ => []

/-- The statement can be split, the statements in its blocks aside. -/
@[mk_iff]
structure Supported (s : Stmt) : Prop where
  construct : ∀ i span what, s ≠ unsupported i span what
  initialized : ∀ i span v name ty, s ≠ decl i span v name ty none
  terms : ∀ e ∈ s.exprs, ∀ x ∈ e.subterms, ∀ n what, x ≠ .unsupported n what

end Stmt

theorem Expr.faultsOf_eq (es : List Expr) : faultsOf es = es.flatMap faults := by
  induction es with
  | nil => rfl
  | cons e es ih => rw [faultsOf, ih, List.flatMap_cons]

theorem Expr.faults_eq_nil {e : Expr} :
    e.faults = [] ↔ ∀ x ∈ e.subterms, ∀ n what, x ≠ .unsupported n what := by
  change _ ↔ e.All fun x => ∀ n what, x ≠ .unsupported n what
  induction e using Expr.ind with
  | literal | constant | param | localVar | interface => simp [faults]
  | unsupported => simp [faults, All]
  | binary _ _ _ _ ihl ihr => simp [faults, ihl, ihr]
  | unary _ _ _ ih | cast _ _ ih | member _ _ _ ih => simp [faults, ih]
  | construct _ _ ih | initList _ _ ih | call _ _ _ ih =>
    simpa [faults, faultsOf_eq] using forall₂_congr ih
  | methodCall _ _ _ _ iho ih =>
    simpa [faults, faultsOf_eq, iho] using fun _ => forall₂_congr ih

namespace Stmt

mutual
theorem faults_eq_nil : (s : Stmt) → (s.faults = [] ↔ ∀ x ∈ s.nested, x.Supported)
  | decl i span v name ty (some e) => by
    rw [faults, Expr.faults_eq_nil]
    simp [nested, supported_iff, exprs]
  | decl i span v name ty none => by
    simpa [faults, nested] using fun h : Supported _ => h.initialized i span v name ty rfl
  | expr i span e => by
    rw [faults, Expr.faults_eq_nil]
    simp [nested, supported_iff, exprs]
  | block i span body => by
    rw [faults, nested, faultsOf_eq_nil body]
    simp [supported_iff, exprs]
  | null i span => by simp [faults, nested, supported_iff, exprs]
  | unsupported i span what => by
    simpa [faults, nested] using fun h : Supported _ => h.construct i span what rfl
theorem faultsOf_eq_nil : (ss : List Stmt) → (faultsOf ss = [] ↔ ∀ x ∈ nestedOf ss, x.Supported)
  | [] => by simp [faultsOf, nestedOf]
  | s :: ss => by
    rw [faultsOf, nestedOf, List.append_eq_nil_iff, List.forall_mem_append, faults_eq_nil s,
      faultsOf_eq_nil ss]
end

end Stmt

def BuiltinType.float4 : BuiltinType := vector "vec" .float 4

def Role.Clashes : Role → Role → Prop
  | vertexBuffer i, vertexBuffer j | vertexBuffer i, instanceBuffer j => i = j
  | instanceBuffer i, vertexBuffer j | instanceBuffer i, instanceBuffer j => i = j
  | vertexTexture i, vertexTexture j => i = j
  | fragmentTexture i, fragmentTexture j => i = j
  | colorTarget i, colorTarget j => i = j
  | _, _ => False

theorem Role.clashes_iff {r r' : Role} :
    r.Clashes r' ↔ ∃ s, r.slot = some s ∧ r'.slot = some s := by
  cases r <;> cases r' <;> simp [Clashes, slot, eq_comm]

theorem Slot.inRange_iff {s : Slot} : s.inRange = true ↔ 0 ≤ s.index ∧ s.index < s.table.limit := by
  simp [inRange]

namespace Param

variable {c : Catalog} {d : DeclIndex} {q : Param} {earlier ps : List Param}

/-- The type and the index of a parameter suit its role. -/
def Bindable (c : Catalog) (d : DeclIndex) (q : Param) : Prop :=
  match q.role with
  | .vertexBuffer i | .instanceBuffer i =>
    (∃ fields, d.recordFields? q.ty = some fields ∧ ∀ x ∈ fields, c.fieldFault x.ty = none) ∧
      0 ≤ i ∧ i < 32
  | .vertexTexture i | .fragmentTexture i =>
    (∃ b, c.type? q.ty = some b ∧ b.isTexture = true) ∧ 0 ≤ i ∧ i < 32
  | .position => c.type? q.ty = some .float4
  | .colorTarget i => c.type? q.ty = some .float4 ∧ 0 ≤ i ∧ i < 8
  | .captured | .varyingInput _ | .varyingOutput _ => True

theorem isFloat4_iff : q.isFloat4 c = true ↔ c.type? q.ty = some .float4 := by
  have h : BuiltinType.named "float4" = some .float4 := by decide
  rw [isFloat4, h, beq_iff_eq]

theorem texture?_isSome : (q.texture? c).isSome = true ↔ ∃ b, c.type? q.ty = some b ∧
    b.isTexture = true := by
  rw [texture?, Option.isSome_filter, Option.any_eq_true]

theorem slotFaults_eq_nil {s : Slot} : slotFaults c d earlier s = [] ↔
    (0 ≤ s.index ∧ s.index < s.table.limit) ∧ ∀ q ∈ earlier, q.taken c d ≠ some s := by
  rw [← Slot.inRange_iff]
  unfold slotFaults
  split
  next hs =>
    simp only [hs, true_and]
    split
    next q hq =>
      have hmem := List.mem_of_find?_eq_some hq
      have htaken := List.find?_some hq
      simp only [reduceCtorEq, false_iff, not_forall]
      exact ⟨q, hmem, not_not.2 (by simpa using htaken)⟩
    next hnone => simpa using List.find?_eq_none.1 hnone
  next hs => simp [hs]

theorem fieldFaults_eq_nil {fields : List FieldDecl} :
    fieldFaults c fields = [] ↔ ∀ x ∈ fields, c.fieldFault x.ty = none := by
  simp [fieldFaults]

theorem faults_eq_nil_iff : q.faults c d earlier = [] ↔
    q.Bindable c d ∧ ∀ s, q.role.slot = some s → ∀ q' ∈ earlier, q'.taken c d ≠ some s := by
  unfold faults Bindable
  cases hr : q.role with
  | captured | varyingInput | varyingOutput => simp [Role.slot]
  | position => simp [Role.slot, isFloat4_iff]
  | vertexBuffer i | instanceBuffer i =>
    cases hf : d.recordFields? q.ty with
    | none => simp
    | some fields =>
      simp [Role.slot, fieldFaults_eq_nil, slotFaults_eq_nil, SlotTable.limit, and_assoc]
  | vertexTexture i | fragmentTexture i =>
    dsimp only
    by_cases ht : ∃ b, c.type? q.ty = some b ∧ b.isTexture = true
    · rw [if_pos (texture?_isSome.2 ht)]
      simp [ht, Role.slot, slotFaults_eq_nil, SlotTable.limit]
    · rw [if_neg (mt texture?_isSome.1 ht)]
      simp only [ht, reduceCtorEq, false_and]
  | colorTarget i => simp [Role.slot, slotFaults_eq_nil, isFloat4_iff, SlotTable.limit, and_assoc]

theorem Bindable.fieldFault {i : Nat} {a : AttributeRecord}
    (h : q.Bindable c d) (ha : Signature.buffer d q i = some a) :
    ∀ x ∈ a.fields, c.fieldFault x.ty = none := by
  obtain ⟨fields, hfields, hrole⟩ := Option.bind_eq_some_iff.1 ha
  unfold Bindable at h
  cases hr : q.role <;> rw [hr] at h <;> simp only [hr] at hrole <;> cases hrole
  all_goals
    obtain ⟨⟨fields', hfields', hfaults⟩, -⟩ := h
    cases hfields.symm.trans hfields'
    exact hfaults

theorem Bindable.taken (h : q.Bindable c d) : q.taken c d = q.role.slot := by
  unfold Bindable at h
  unfold Param.taken
  cases hr : q.role with
  | captured | varyingInput | varyingOutput | position => rfl
  | vertexBuffer i | instanceBuffer i =>
    rw [hr] at h
    obtain ⟨⟨fields, hf, -⟩, hrange⟩ := h
    simp [Role.slot, DeclIndex.isRecord, hf, Slot.inRange, SlotTable.limit, hrange]
  | vertexTexture i | fragmentTexture i =>
    rw [hr] at h
    simp [Role.slot, texture?_isSome.2 h.1, Slot.inRange, SlotTable.limit, h.2]
  | colorTarget i =>
    rw [hr] at h
    simp [Role.slot, Slot.inRange, SlotTable.limit, h.2]

/-- Among parameters that can be bound, no slot is taken twice exactly if no two roles clash. -/
theorem fresh_iff (he : ∀ q ∈ earlier, q.Bindable c d) :
    (∀ s, q.role.slot = some s → ∀ q' ∈ earlier, q'.taken c d ≠ some s) ↔
      ∀ q' ∈ earlier, ¬ q'.role.Clashes q.role := by
  simp only [Role.clashes_iff, not_exists, not_and]
  constructor
  · intro h q' hq' s hs' hs
    exact h s hs q' hq' ((he q' hq').taken.trans hs')
  · intro h s hs q' hq' hs'
    exact h q' hq' s ((he q' hq').taken.symm.trans hs') hs

/-- What was left by earlier parameters does not matter but for their slots. -/
theorem diagnostics_eq_nil (he : ∀ q ∈ earlier, q.Bindable c d) : diagnostics c d earlier ps = [] ↔
    (∀ q ∈ ps, q.Bindable c d) ∧ ps.Pairwise (fun q q' => ¬ q.role.Clashes q'.role) ∧
      ∀ q ∈ earlier, ∀ q' ∈ ps, ¬ q.role.Clashes q'.role := by
  induction ps generalizing earlier with
  | nil => simp [diagnostics]
  | cons q ps ih =>
    rw [diagnostics, List.append_eq_nil_iff, List.map_eq_nil_iff, faults_eq_nil_iff, fresh_iff he]
    -- a parameter that cannot be bound may take no slot, but then it has faults of its own
    by_cases hq : q.Bindable c d
    · rw [ih (List.forall_mem_append.2 ⟨he, by simpa using hq⟩)]
      simp only [List.pairwise_cons, List.forall_mem_cons, List.forall_mem_append, hq, true_and,
        List.not_mem_nil, false_implies, implies_true, and_true]
      grind
    · simp [hq]

end Param

/-- A function whose parameters can all be bound, each to a binding of its own, and whose body
is supported. -/
structure PipelineFn.WellFormed (c : Catalog) (d : DeclIndex) (f : PipelineFn) : Prop where
  params : ∀ q ∈ f.params, q.Bindable c d
  distinct : f.params.Pairwise fun q q' => ¬ q.role.Clashes q'.role
  body : ∀ s ∈ Stmt.nestedOf f.body, s.Supported

namespace Signature

variable {c : Catalog} {d : DeclIndex} {f : PipelineFn} {sig : Signature}

theorem diagnostics_eq_nil : diagnostics c d f = [] ↔ f.WellFormed c d := by
  rw [diagnostics, List.append_eq_nil_iff, List.map_eq_nil_iff, Stmt.faultsOf_eq_nil,
    Param.diagnostics_eq_nil (by simp)]
  constructor
  · rintro ⟨⟨hparams, hdistinct, -⟩, hbody⟩
    exact ⟨hparams, hdistinct, hbody⟩
  · rintro ⟨hparams, hdistinct, hbody⟩
    exact ⟨⟨hparams, hdistinct, by simp⟩, hbody⟩

theorem check_eq_ok : check c d f = .ok sig ↔ f.WellFormed c d ∧ sig = ofParams c d f.params := by
  rw [← diagnostics_eq_nil]
  unfold check
  split
  next h => simp [h, eq_comm]
  next h =>
    simp only [reduceCtorEq, false_iff, not_and]
    exact fun hnil => (h hnil).elim

end Signature

theorem Pipeline.check_wellFormed {c : Catalog} {d : DeclIndex} {f : PipelineFn} {p : Pipeline}
    (h : check c d f = .ok p) :
    p.fn = f ∧ f.WellFormed c d ∧ p.signature = Signature.ofParams c d f.params := by
  obtain ⟨hnil, rfl⟩ := check_eq_ok.1 h
  exact ⟨rfl, Signature.diagnostics_eq_nil.1 hnil, rfl⟩

namespace Role

def isBuffer : Role → Bool
  | vertexBuffer _ | instanceBuffer _ => true
  | _ => false

def isTarget : Role → Bool
  | colorTarget _ => true
  | _ => false

end Role

structure AttributeRecord.Records (d : DeclIndex) (x : Param × Nat) (a : AttributeRecord) :
    Prop where
  param : a.param = x.2
  name : a.name = x.1.name
  fields : d.recordFields? x.1.ty = some a.fields
  role : x.1.role = match a.rate with
    | .perVertex => .vertexBuffer a.binding
    | .perInstance => .instanceBuffer a.binding

structure TextureRecord.Records (c : Catalog) (x : Param × Nat) (t : TextureRecord) : Prop where
  param : t.param = x.2
  name : t.name = x.1.name
  ty : t.ty = x.1.ty
  shape : ∃ b, c.type? x.1.ty = some b ∧ b.isTexture = true ∧ t.shape = b.shape
  role : x.1.role = .vertexTexture t.index ∨ x.1.role = .fragmentTexture t.index
  stages : t.stages = .empty

structure ColorTarget.Records (x : Param × Nat) (t : ColorTarget) : Prop where
  param : t.param = x.2
  name : t.name = x.1.name
  ty : t.ty = x.1.ty
  role : x.1.role = .colorTarget t.index

/-- One record for each bound parameter, in order, and the stages of the outputs beside
host and vertex. -/
structure Signature.Describes (c : Catalog) (d : DeclIndex) (f : PipelineFn)
    (sig : Signature) : Prop where
  stages : ∀ s, sig.stages.contains s = true ↔
    s = .host ∨ s = .vertex ∨ ∃ q ∈ f.params, q.role.isOutput = true ∧ q.role.stage = s
  attributes : List.Forall₂ (AttributeRecord.Records d) (f.params.zipIdx.filter (·.1.role.isBuffer))
    sig.attributes
  textures : List.Forall₂ (TextureRecord.Records c)
    (f.params.zipIdx.filter (·.1.role.isTexture)) sig.textures
  colorTargets : List.Forall₂ ColorTarget.Records (f.params.zipIdx.filter (·.1.role.isTarget))
    sig.colorTargets

theorem forall₂_filterMap {α β : Type} {R : α → β → Prop} {test : α → Bool} {g : α → Option β}
    {l : List α} (hyes : ∀ x ∈ l, test x = true → ∃ y, g x = some y ∧ R x y)
    (hno : ∀ x ∈ l, test x = false → g x = none) :
    List.Forall₂ R (l.filter test) (l.filterMap g) := by
  induction l with
  | nil => exact .nil
  | cons x l ih =>
    obtain ⟨hx, hl⟩ := List.forall_mem_cons.1 hyes
    obtain ⟨hx', hl'⟩ := List.forall_mem_cons.1 hno
    cases ht : test x with
    | true =>
      obtain ⟨y, hy, hr⟩ := hx ht
      rw [List.filter_cons_of_pos ht, List.filterMap_cons_some hy]
      exact .cons hr (ih hl hl')
    | false =>
      rw [List.filter_cons_of_neg (by simp [ht]), List.filterMap_cons_none (hx' ht)]
      exact ih hl hl'

namespace Signature

variable {c : Catalog} {d : DeclIndex} {f : PipelineFn} {q : Param}

theorem buffer_records (h : q.Bindable c d) (hr : q.role.isBuffer = true) (i : Nat) :
    ∃ a, buffer d q i = some a ∧ AttributeRecord.Records d (q, i) a := by
  unfold Param.Bindable at h
  unfold buffer
  cases hq : q.role <;> rw [hq] at h hr <;> cases hr
  all_goals
    obtain ⟨⟨fields, hf, -⟩, hi, -⟩ := h
    simp only [hf]
    refine ⟨_, rfl, rfl, rfl, hf, ?_⟩
    simp [hq, Int.toNat_of_nonneg hi]

theorem texture_records (h : q.Bindable c d) (hr : q.role.isTexture = true) (i : Nat) :
    ∃ t, texture c q i = some t ∧ TextureRecord.Records c (q, i) t := by
  unfold Param.Bindable at h
  unfold texture
  cases hq : q.role <;> rw [hq] at h hr <;> cases hr
  all_goals
    obtain ⟨⟨b, hb, ht⟩, hi, -⟩ := h
    simp only [Param.texture?, hb, Option.filter_some, ht, if_true]
    refine ⟨_, rfl, rfl, rfl, rfl, ⟨b, hb, ht, rfl⟩, ?_, rfl⟩
    simp [hq, Int.toNat_of_nonneg hi]

theorem colorTarget_records (h : q.Bindable c d) (hr : q.role.isTarget = true) (i : Nat) :
    ∃ t, colorTarget q i = some t ∧ ColorTarget.Records (q, i) t := by
  unfold Param.Bindable at h
  unfold colorTarget
  cases hq : q.role <;> rw [hq] at h hr <;> cases hr
  refine ⟨_, rfl, rfl, rfl, rfl, ?_⟩
  simp [hq, Int.toNat_of_nonneg h.2.1]

theorem buffer_eq_none (hr : q.role.isBuffer = false) (i : Nat) : buffer d q i = none := by
  unfold buffer
  cases hq : q.role with
  | vertexBuffer | instanceBuffer => simp [hq, Role.isBuffer] at hr
  | _ => cases d.recordFields? q.ty <;> rfl

theorem texture_eq_none (hr : q.role.isTexture = false) (i : Nat) : texture c q i = none := by
  unfold texture
  cases hq : q.role with
  | vertexTexture | fragmentTexture => simp [hq, Role.isTexture] at hr
  | _ => cases q.texture? c <;> rfl

theorem colorTarget_eq_none (hr : q.role.isTarget = false) (i : Nat) : colorTarget q i = none := by
  unfold colorTarget
  cases hq : q.role with
  | colorTarget => simp [hq, Role.isTarget] at hr
  | _ => rfl

theorem ofParams_describes (h : f.WellFormed c d) : (ofParams c d f.params).Describes c d f := by
  have hbind : ∀ x ∈ f.params.zipIdx, x.1.Bindable c d :=
    fun x hx => h.params x.1 (List.fst_mem_of_mem_zipIdx hx)
  refine ⟨fun s => ?_, ?_, ?_, ?_⟩
  · rw [ofParams, stagesOf, Pipeline.contains_foldl]
    cases s <;> simp [StageSet.hostAndVertex, and_assoc]
  · exact forall₂_filterMap (fun x hx hr => buffer_records (hbind x hx) hr x.2) fun x _ hr =>
      buffer_eq_none hr x.2
  · exact forall₂_filterMap (fun x hx hr => texture_records (hbind x hx) hr x.2) fun x _ hr =>
      texture_eq_none hr x.2
  · exact forall₂_filterMap (fun x hx hr => colorTarget_records (hbind x hx) hr x.2)
      fun x _ hr => colorTarget_eq_none hr x.2

/-- The functions that are accepted are the well-formed ones, and their signatures describe them. -/
theorem check_iff (c : Catalog) (d : DeclIndex) (f : PipelineFn) :
    ((∃ sig, check c d f = .ok sig) ↔ f.WellFormed c d) ∧ ∀ sig, check c d f = .ok sig →
    sig.Describes c d f := by
  refine ⟨?_, fun sig h => ?_⟩
  · simp only [check_eq_ok, exists_and_left, exists_eq, and_true]
  · obtain ⟨hf, rfl⟩ := check_eq_ok.1 h
    exact ofParams_describes hf

end Signature

namespace Sample

def palette : Catalog := { bare with types := [(0, .float4), (1, .texture "sampler" .float)] }

def corner : DeclIndex := ⟨[⟨2, [], .record "Corner" [⟨"spot", .decl 0, .dummy⟩], .dummy⟩]⟩

/-- A buffer for each rate, at indices zero and `i`, and textures of two stages at one index. -/
def bound (i : Int) : PipelineFn where
  name := "bound"
  params := [⟨"v", .decl 2, .vertexBuffer 0, .dummy⟩, ⟨"c", .decl 2, .instanceBuffer i, .dummy⟩,
    ⟨"a", .decl 1, .vertexTexture 0, .dummy⟩, ⟨"b", .decl 1, .fragmentTexture 0, .dummy⟩,
    ⟨"p", .decl 0, .position, .dummy⟩, ⟨"o", .decl 0, .colorTarget 7, .dummy⟩]
  body := [.block 1 .dummy [.null 2 .dummy]]
  span := .dummy

end Sample

open Sample in
/-- Textures of two stages may share an index; buffers of two rates may not. -/
theorem Signature.check_iff_bound :
    (∃ sig, check palette corner (bound 31) = .ok sig ∧ (bound 31).WellFormed palette corner ∧
      sig.Describes palette corner (bound 31)) ∧ ¬ (bound 0).WellFormed palette corner := by
  have haccepted : check palette corner (bound 31) =
      .ok (ofParams palette corner (bound 31).params) := by
    rfl
  have hrefused : (check palette corner (bound 0)).isOk = false := by decide +kernel
  refine ⟨⟨_, haccepted, (check_iff ..).1.1 ⟨_, haccepted⟩, (check_iff ..).2 _ haccepted⟩,
    fun h => ?_⟩
  obtain ⟨sig, hsig⟩ := (check_iff ..).1.2 h
  rw [hsig] at hrefused
  cases hrefused

end ShaderSplit
