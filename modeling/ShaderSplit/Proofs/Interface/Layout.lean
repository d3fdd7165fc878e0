import Mathlib.Data.List.Nodup
import Mathlib.Data.Set.Lattice
import Mathlib.Order.CompletePartialOrder
import ShaderSplit.Proofs.Shading.Locations

namespace ShaderSplit

/-- The bytes of an element that an attribute takes. -/
def VertexAttribute.bytes (x : VertexAttribute) : Set Nat :=
  Set.Ico x.offset (x.offset + x.format.size)

theorem VertexFormat.size_le (f : VertexFormat) : f.size ≤ 16 := by
  cases f with
  | packed elem width => have := width.isLt; simp only [size]; omega
  | double => decide

namespace FieldLayout

/-- What placing a layout relies on: alignments are powers of two, and the slots follow each other
within the layout's size. -/
structure Sound (l : FieldLayout) : Prop where
  align : ∃ k, l.align = 2 ^ k
  slots : l.slots.Pairwise fun x y => x.1 + x.2.size ≤ y.1
  within : ∀ x ∈ l.slots, x.1 + x.2.size ≤ l.size

theorem Sound.single {k : Nat} {format : VertexFormat} (h : format.size ≤ 2 ^ k) :
    (single (2 ^ k) format).Sound where
  align := ⟨k, rfl⟩
  slots := List.pairwise_singleton _ _
  within := by simpa [FieldLayout.single] using h

theorem Sound.rows (dim : Nat) (format : VertexFormat) :
    (⟨16 * dim, 16, (List.range dim).map fun row => (row * 16, format)⟩ : FieldLayout).Sound where
  align := ⟨4, rfl⟩
  slots := by
    refine List.pairwise_map.2 (List.pairwise_lt_range.imp fun {a b} hab => ?_)
    have := format.size_le
    simp only
    omega
  within := by
    intro x hx
    obtain ⟨row, hrow, rfl⟩ := List.mem_map.1 hx
    have := List.mem_range.1 hrow
    have := format.size_le
    simp only
    omega

theorem ofShape_sound {shape : TypeClass} {l : FieldLayout} (h : ofShape shape = some l) :
    l.Sound := by
  cases shape with
  | vector elem width =>
    obtain rfl := Option.some.inj h
    by_cases hw : width = 2
    · subst hw
      exact Sound.single (k := 3) (by cases elem <;> decide)
    · rw [if_neg hw]
      exact Sound.single (k := 4) (VertexFormat.size_le _)
  | matrix dim =>
    obtain rfl := Option.some.inj h
    exact Sound.rows dim _
  | texture elem array => cases h

theorem of?_sound {c : Catalog} {t : Ty} {l : FieldLayout} (h : of? c t = some l) : l.Sound := by
  unfold of? at h
  split at h
  · cases h; exact Sound.single (k := 2) (by decide)
  · cases h; exact Sound.single (k := 2) (by decide)
  · cases h; exact Sound.single (k := 2) (by decide)
  · cases h; exact Sound.single (k := 3) (by decide)
  · obtain ⟨b, -, hb⟩ := Option.bind_eq_some_iff.1 h
    exact ofShape_sound hb

theorem Sound.align_pos {l : FieldLayout} (h : l.Sound) : 0 < l.align := by
  obtain ⟨k, hk⟩ := h.align
  rw [hk]
  exact Nat.two_pow_pos k

end FieldLayout

namespace VertexLayout

theorem alignUp_isLeast (n : Nat) {a : Nat} (ha : 0 < a) :
    IsLeast {m | a ∣ m ∧ n ≤ m} (alignUp n a) := by
  constructor
  · refine ⟨Nat.dvd_mul_left _ _, ?_⟩
    have hdiv := Nat.div_add_mod (n + a - 1) a
    have hmod := Nat.mod_lt (n + a - 1) ha
    rw [alignUp, Nat.mul_comm]
    omega
  · rintro m ⟨⟨k, rfl⟩, hn⟩
    have hk : (n + a - 1) / a < k + 1 :=
      (Nat.div_lt_iff_lt_mul ha).2 (by rw [Nat.mul_comm, Nat.mul_add]; omega)
    rw [alignUp, Nat.mul_comm]
    exact Nat.mul_le_mul_left a (Nat.le_of_lt_succ hk)

section
variable {ls : List FieldLayout}

theorem maxAlign_foldl (a : Nat) (ls : List FieldLayout) :
    a ≤ ls.foldl (fun a l => max a l.align) a ∧
    (∀ l ∈ ls, l.align ≤ ls.foldl (fun a l => max a l.align) a) ∧
    (ls.foldl (fun a l => max a l.align) a = a ∨
      ∃ l ∈ ls, ls.foldl (fun a l => max a l.align) a = l.align) := by
  induction ls generalizing a with
  | nil => simp
  | cons l ls ih =>
    obtain ⟨hstart, hall, hattained⟩ := ih (max a l.align)
    refine ⟨(Nat.le_max_left _ _).trans hstart, ?_, ?_⟩
    · exact List.forall_mem_cons.2 ⟨(Nat.le_max_right _ _).trans hstart, hall⟩
    · rcases hattained with heq | ⟨m, hm, heq⟩
      · rcases Nat.le_total l.align a with hle | hle
        · exact .inl (heq.trans (Nat.max_eq_left hle))
        · exact .inr ⟨l, by simp, heq.trans (Nat.max_eq_right hle)⟩
      · exact .inr ⟨m, by simp [hm], heq⟩

theorem le_maxAlign {l : FieldLayout} (h : l ∈ ls) : l.align ≤ maxAlign ls :=
  (maxAlign_foldl 1 ls).2.1 l h

theorem maxAlign_attained (ls : List FieldLayout) :
    maxAlign ls = 1 ∨ ∃ l ∈ ls, maxAlign ls = l.align :=
  (maxAlign_foldl 1 ls).2.2

theorem maxAlign_pos (ls : List FieldLayout) : 0 < maxAlign ls := (maxAlign_foldl 1 ls).1

/-- Of powers of two the largest is a multiple of all. -/
theorem maxAlign_dvd_iff (h : ∀ l ∈ ls, l.Sound) {n : Nat} :
    maxAlign ls ∣ n ↔ ∀ l ∈ ls, l.align ∣ n := by
  constructor
  · intro hn l hl
    refine Nat.dvd_trans ?_ hn
    rcases maxAlign_attained ls with hone | ⟨m, hm, hmax⟩
    · have hle := le_maxAlign hl
      rw [hone] at hle ⊢
      exact Nat.dvd_one.2 (Nat.le_antisymm hle (h l hl).align_pos)
    · obtain ⟨j, hj⟩ := (h l hl).align
      obtain ⟨k, hk⟩ := (h m hm).align
      have hle := le_maxAlign hl
      rw [hmax, hj, hk] at *
      exact Nat.pow_dvd_pow 2 ((Nat.pow_le_pow_iff_right (by decide)).1 hle)
  · intro hall
    rcases maxAlign_attained ls with hone | ⟨m, hm, hmax⟩
    · rw [hone]
      exact Nat.one_dvd n
    · rw [hmax]
      exact hall m hm

end

def endOf (placed : List (Nat × FieldLayout)) : Nat :=
  (placed.getLast?.map fun x => x.1 + x.2.size).getD 0

theorem extent_eq (offset : Nat) (ls : List FieldLayout) :
    extent offset ls = ((place offset ls).getLast?.map fun x => x.1 + x.2.size).getD offset := by
  induction ls generalizing offset with
  | nil => rfl
  | cons l ls ih =>
    rw [extent, ih, place, List.getLast?_cons]
    cases (place (alignUp offset l.align + l.size) ls).getLast? <;> rfl

theorem map_place (offset : Nat) (ls : List FieldLayout) : (place offset ls).map (·.2) = ls := by
  induction ls generalizing offset with
  | nil => rfl
  | cons l ls ih => simp only [place, List.map_cons, ih]

/-- A placed field starts at the first aligned offset behind those before it. -/
theorem place_split {offset : Nat} {ls : List FieldLayout} {before after : List (Nat × FieldLayout)}
    {x : Nat × FieldLayout} (h : place offset ls = before ++ x :: after) :
    x.1 = alignUp ((before.getLast?.map fun y => y.1 + y.2.size).getD offset) x.2.align := by
  have hls : ls = before.map (·.2) ++ x.2 :: after.map (·.2) := by
    rw [← map_place offset ls, h, List.map_append, List.map_cons]
  rw [hls, place_append, place] at h
  obtain ⟨hbefore, hx⟩ :=
    List.append_inj h (by rw [← List.length_map (f := (·.2)), map_place, List.length_map])
  obtain ⟨hx, -⟩ := List.cons.inj hx
  rw [← hx, extent_eq, hbefore]

/-- Placed fields follow each other, between where the first may start and where the last ends. -/
theorem place_ordered (offset : Nat) {ls : List FieldLayout} (h : ∀ l ∈ ls, l.Sound) :
    offset ≤ extent offset ls ∧
      (place offset ls).Pairwise (fun x y => x.1 + x.2.size ≤ y.1) ∧
      ∀ x ∈ place offset ls, offset ≤ x.1 ∧ x.1 + x.2.size ≤ extent offset ls := by
  induction ls generalizing offset with
  | nil => simp [place, extent]
  | cons l ls ih =>
    obtain ⟨hl, hls⟩ := List.forall_mem_cons.1 h
    have hstart : offset ≤ alignUp offset l.align := (alignUp_isLeast offset hl.align_pos).1.2
    obtain ⟨hextent, hpairs, hbounds⟩ := ih (alignUp offset l.align + l.size) hls
    rw [extent, place]
    refine ⟨by omega, List.pairwise_cons.2 ⟨fun x hx => (hbounds x hx).1, hpairs⟩, ?_⟩
    refine List.forall_mem_cons.2 ⟨⟨hstart, hextent⟩, fun x hx => ?_⟩
    have := hbounds x hx
    omega

theorem layouts_sound (c : Catalog) (fields : List FieldDecl) :
    ∀ l ∈ layouts c fields, l.Sound := by
  intro l hl
  obtain ⟨f, -, hf⟩ := List.mem_filterMap.1 hl
  exact FieldLayout.of?_sound hf

/-- A stride keeps every field aligned in every element, and is the least that does. -/
theorem stride_isLeast (c : Catalog) (fields : List FieldDecl) :
    IsLeast {n | (∀ x ∈ place 0 (layouts c fields), x.2.align ∣ n) ∧
      endOf (place 0 (layouts c fields)) ≤ n}
      (stride c fields) := by
  have haligns (n : Nat) :
      maxAlign (layouts c fields) ∣ n ↔ ∀ x ∈ place 0 (layouts c fields), x.2.align ∣ n := by
    rw [maxAlign_dvd_iff (layouts_sound c fields)]
    conv_lhs => rw [← map_place 0 (layouts c fields)]
    exact List.forall_mem_map
  have hend : endOf (place 0 (layouts c fields)) = extent 0 (layouts c fields) :=
    (extent_eq 0 _).symm
  have h := alignUp_isLeast (extent 0 (layouts c fields)) (maxAlign_pos (layouts c fields))
  simp only [haligns] at h
  rw [hend]
  exact h

/-- Fields `placed` in order as closely as their alignments allow, in elements of the
least `stride`. -/
structure Packed (c : Catalog) (fields : List FieldDecl) (placed : List (Nat × FieldLayout))
    (stride : Nat) : Prop where
  inOrder : List.Forall₂ (fun f x => FieldLayout.of? c f.ty = some x.2) fields placed
  nearest : ∀ before x after, placed = before ++ x :: after →
    IsLeast {n | x.2.align ∣ n ∧ endOf before ≤ n} x.1
  stride : IsLeast {n | (∀ x ∈ placed, x.2.align ∣ n) ∧ endOf placed ≤ n} stride

theorem layouts_inOrder {c : Catalog} {fields : List FieldDecl}
    (h : ∀ f ∈ fields, c.fieldFault f.ty = none) (offset : Nat) :
    List.Forall₂ (fun f x => FieldLayout.of? c f.ty = some x.2) fields
      (place offset (layouts c fields)) := by
  induction fields generalizing offset with
  | nil => exact .nil
  | cons f fields ih =>
    obtain ⟨hf, hfields⟩ := List.forall_mem_cons.1 h
    obtain ⟨l, hl, -⟩ := FieldLayout.of?_of_fieldFault hf
    have hlayouts : layouts c (f :: fields) = l :: layouts c fields := List.filterMap_cons_some hl
    rw [hlayouts, place]
    exact .cons hl (ih hfields _)

theorem place_packed {c : Catalog} {fields : List FieldDecl}
    (h : ∀ f ∈ fields, c.fieldFault f.ty = none) :
    Packed c fields (place 0 (layouts c fields)) (stride c fields) where
  inOrder := layouts_inOrder h 0
  nearest := by
    intro before x after hsplit
    have hx : x.2 ∈ layouts c fields := by
      rw [← map_place 0 (layouts c fields), hsplit]
      simp
    rw [place_split hsplit]
    exact alignUp_isLeast _ (layouts_sound c fields _ hx).align_pos
  stride := stride_isLeast c fields

/-- The tables of bindings and attributes fit: attributes of one binding share no byte, and all lie
within the binding's stride. -/
structure Separated (bindings : List VertexBinding) (attributes : List VertexAttribute) : Prop where
  disjoint : attributes.Pairwise fun x y => x.binding = y.binding → Disjoint x.bytes y.bytes
  bound : ∀ x ∈ attributes, ∃ b ∈ bindings, b.binding = x.binding
  within : ∀ x ∈ attributes, ∀ b ∈ bindings, b.binding = x.binding →
    x.offset + x.format.size ≤ b.stride

theorem entries_ordered {l : FieldLayout} (h : l.Sound) (binding offset : Nat) :
    (entries binding (offset, l)).Pairwise (fun x y => x.offset + x.format.size ≤ y.offset) ∧
      ∀ x ∈ entries binding (offset, l), x.binding = binding ∧ offset ≤ x.offset ∧
        x.offset + x.format.size ≤ offset + l.size := by
  refine ⟨List.pairwise_map.2 (h.slots.imp fun {x y} hxy => by simp only; omega), fun x hx => ?_⟩
  obtain ⟨slot, hslot, rfl⟩ := List.mem_map.1 hx
  have := h.within slot hslot
  refine ⟨rfl, ?_⟩
  simp only
  omega

/-- Attributes of one buffer follow each other up to its stride. -/
theorem attributes_ordered (c : Catalog) (a : AttributeRecord) :
    (attributes c a).Pairwise (fun x y => x.offset + x.format.size ≤ y.offset) ∧
      ∀ x ∈ attributes c a, x.binding = a.binding ∧
      x.offset + x.format.size ≤ (binding c a).stride := by
  have hsound : ∀ x ∈ place 0 (layouts c a.fields), x.2.Sound := by
    intro x hx
    apply layouts_sound c a.fields
    rw [← map_place 0 (layouts c a.fields)]
    exact List.mem_map_of_mem hx
  have hentries {x : Nat × FieldLayout} (hx : x ∈ place 0 (layouts c a.fields)) :=
    entries_ordered (hsound x hx) a.binding x.1
  obtain ⟨-, hpairs, hbounds⟩ := place_ordered 0 (layouts_sound c a.fields)
  have hstride : extent 0 (layouts c a.fields) ≤ stride c a.fields :=
    (alignUp_isLeast _ (maxAlign_pos (layouts c a.fields))).1.2
  rw [attributes_eq]
  constructor
  · refine List.pairwise_flatMap.2 ⟨fun x hx => (hentries hx).1, ?_⟩
    refine hpairs.imp_of_mem fun {x y} hx hy hxy s hs t ht => ?_
    have hs := ((hentries hx).2 s hs).2.2
    have ht := ((hentries hy).2 t ht).2.1
    omega
  · intro s hs
    obtain ⟨x, hx, hs⟩ := List.mem_flatMap.1 hs
    obtain ⟨hbinding, -, hend⟩ := (hentries hx).2 s hs
    exact ⟨hbinding, (hend.trans (hbounds x hx).2).trans hstride⟩

theorem bytes_disjoint {x y : VertexAttribute} (h : x.offset + x.format.size ≤ y.offset) :
    Disjoint x.bytes y.bytes :=
  Set.disjoint_left.2 fun _ hx hy => Nat.not_lt.2 (h.trans hy.1) hx.2

theorem attributes_separated (c : Catalog) {as : List AttributeRecord}
    (h : (as.map (·.binding)).Nodup) :
    Separated (as.map (binding c)) (as.flatMap (attributes c)) where
  disjoint := by
    refine List.pairwise_flatMap.2 ⟨fun a _ => ?_, ?_⟩
    · refine (attributes_ordered c a).1.imp ?_
      exact fun hxy _ => bytes_disjoint hxy
    · refine (List.pairwise_map.1 h).imp fun {a b} hab x hx y hy hxy => absurd ?_ hab
      rw [← ((attributes_ordered c a).2 x hx).1, ← ((attributes_ordered c b).2 y hy).1, hxy]
  bound := by
    intro x hx
    obtain ⟨a, ha, hx⟩ := List.mem_flatMap.1 hx
    exact ⟨binding c a, List.mem_map_of_mem ha, ((attributes_ordered c a).2 x hx).1.symm⟩
  within := by
    intro x hx b hb hbinding
    obtain ⟨a, ha, hx⟩ := List.mem_flatMap.1 hx
    obtain ⟨a', ha', rfl⟩ := List.mem_map.1 hb
    obtain ⟨hown, hend⟩ := (attributes_ordered c a).2 x hx
    obtain rfl : a' = a := List.inj_on_of_nodup_map h ha' ha (hbinding.trans hown)
    exact hend

/-- Fields that can be stored in a record are packed in their buffer, and the tables that are made
of buffers with bindings of their own keep all attributes apart. -/
theorem packed_separated (c : Catalog) :
    (∀ fields : List FieldDecl, (∀ f ∈ fields, c.fieldFault f.ty = none) →
      Packed c fields (place 0 (layouts c fields)) (stride c fields)) ∧
    ∀ as : List AttributeRecord, (as.map (·.binding)).Nodup →
      Separated (as.map (binding c)) (as.flatMap (attributes c)) :=
  ⟨fun _ h => place_packed h, fun _ h => attributes_separated c h⟩

end VertexLayout

namespace Sample

/-- A number before a 3x3 matrix, which has to start at 16, and a double behind it. -/
def padded : List FieldDecl :=
  [⟨"weight", .float, .dummy⟩, ⟨"frame", .decl 10, .dummy⟩, ⟨"time", .scalar .double, .dummy⟩]

def paddedBuffers : List AttributeRecord :=
  [⟨0, "v", padded, .perVertex, 0⟩, ⟨1, "i", padded.reverse, .perInstance, 1⟩]

end Sample

open Sample in
/-- The fields start at 0, 16 and 64 and end at 72, so that the next element starts at 80. -/
theorem VertexLayout.packed_separated_padded : (∀ f ∈ padded, runtime.fieldFault f.ty = none) ∧
    (place 0 (layouts runtime padded)).map (·.1) = [0, 16, 64] ∧ stride runtime padded = 80 ∧
    Packed runtime padded (place 0 (layouts runtime padded)) 80 ∧
    (paddedBuffers.map (·.binding)).Nodup ∧
    Separated (paddedBuffers.map (binding runtime))
    (paddedBuffers.flatMap (attributes runtime)) := by
  have hfields : ∀ f ∈ padded, runtime.fieldFault f.ty = none := by decide +kernel
  have hstride : stride runtime padded = 80 := by decide +kernel
  have hbindings : (paddedBuffers.map (·.binding)).Nodup := by decide
  obtain ⟨hpacked, hseparated⟩ := packed_separated runtime
  refine ⟨hfields, by decide +kernel, hstride, ?_, hbindings, hseparated paddedBuffers hbindings⟩
  rw [← hstride]
  exact hpacked padded hfields

end ShaderSplit
