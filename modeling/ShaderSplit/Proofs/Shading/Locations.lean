import Mathlib.Algebra.GroupWithZero.Nat
import ShaderSplit.Proofs.Interface.Acceptance
import ShaderSplit.Proofs.Shading.Samplers

namespace ShaderSplit

/-- Attributes that a type takes in a buffer: one, or one for each row of a matrix. -/
def Catalog.attributeCount (c : Catalog) (t : Ty) : Nat := (c.matrixRows t).getD 1

/-- What may be stored in a record has a layout, with a slot for each attribute. -/
theorem FieldLayout.of?_of_fieldFault {c : Catalog} {t : Ty} (h : c.fieldFault t = none) :
    ∃ l, of? c t = some l ∧ l.slots.length = c.attributeCount t := by
  cases t with
  | void => simp [Catalog.fieldFault, Catalog.type?] at h
  | scalar s =>
    cases s with
    | bool => simp [Catalog.fieldFault, Catalog.type?] at h
    | int w | uint w =>
      obtain rfl : w = 32 := by simpa [Catalog.fieldFault] using h
      exact ⟨_, rfl, rfl⟩
    | float | double => exact ⟨_, rfl, rfl⟩
  | decl id =>
    have hany : (c.type? (.decl id)).any (!·.isTexture) = true := by
      by_contra hno
      simp [Catalog.fieldFault, hno] at h
    obtain ⟨b, hb, htexture⟩ := (Option.any_eq_true _ _).1 hany
    simp only [of?, Catalog.attributeCount, Catalog.matrixRows, hb, Option.bind_some]
    unfold BuiltinType.isTexture at htexture
    unfold BuiltinType.matrixRows
    cases hs : b.shape with
    | vector elem width => exact ⟨_, rfl, rfl⟩
    | matrix dim => exact ⟨_, rfl, by simp⟩
    | texture elem array => simp [hs] at htexture

/-- The records of an accepted function's buffers hold only what can be stored in one. -/
theorem Pipeline.check_fieldFault {c : Catalog} {d : DeclIndex} {f : PipelineFn} {p : Pipeline}
    (h : check c d f = .ok p) :
    ∀ a ∈ p.signature.attributes, ∀ x ∈ a.fields, c.fieldFault x.ty = none := by
  obtain ⟨-, hf, hsignature⟩ := check_wellFormed h
  intro a ha
  rw [hsignature] at ha
  obtain ⟨⟨q, i⟩, hq, hbuffer⟩ := List.mem_filterMap.1 ha
  exact (hf.params q (List.fst_mem_of_mem_zipIdx hq)).fieldFault hbuffer

namespace VertexLayout

variable {c : Catalog}

def attributeTotal (c : Catalog) (fields : List FieldDecl) : Nat :=
  (fields.map fun f => c.attributeCount f.ty).sum

/-- The location of a field after the records `as` and the fields `fs` of its own. -/
def location (c : Catalog) (as : List AttributeRecord) (fs : List FieldDecl) : Nat :=
  (as.map fun a => attributeTotal c a.fields).sum + attributeTotal c fs

def entries (binding : Nat) (x : Nat × FieldLayout) : List VertexAttribute :=
  x.2.slots.map fun (slot, format) => ⟨binding, format, x.1 + slot⟩

theorem attributes_eq (c : Catalog) (a : AttributeRecord) :
    attributes c a = (place 0 (layouts c a.fields)).flatMap (entries a.binding) := rfl

theorem place_append (offset : Nat) (xs ys : List FieldLayout) :
    place offset (xs ++ ys) = place offset xs ++ place (extent offset xs) ys := by
  induction xs generalizing offset with
  | nil => rfl
  | cons x xs ih => simp only [List.cons_append, place, extent, ih]

theorem entries_length {fs : List FieldDecl} (h : ∀ f ∈ fs, c.fieldFault f.ty = none)
    (binding offset : Nat) :
    ((place offset (layouts c fs)).flatMap (entries binding)).length = attributeTotal c fs := by
  induction fs generalizing offset with
  | nil => rfl
  | cons f fs ih =>
    obtain ⟨hf, hfs⟩ := List.forall_mem_cons.1 h
    obtain ⟨l, hl, hcount⟩ := FieldLayout.of?_of_fieldFault hf
    have hlayouts : layouts c (f :: fs) = l :: layouts c fs := List.filterMap_cons_some hl
    rw [hlayouts, place, List.flatMap_cons, List.length_append, ih hfs]
    simp [entries, attributeTotal, hcount]

theorem attributes_length {as : List AttributeRecord}
    (h : ∀ a ∈ as, ∀ f ∈ a.fields, c.fieldFault f.ty = none) :
    (as.flatMap (attributes c)).length = (as.map fun a => attributeTotal c a.fields).sum := by
  rw [List.length_flatMap]
  refine congrArg List.sum (List.map_congr_left fun a ha => ?_)
  rw [attributes_eq, entries_length (h a ha)]

theorem slotCount_eq {t : Ty} (h : c.fieldFault t = none) : slotCount c t = c.attributeCount t := by
  obtain ⟨l, hl, hcount⟩ := FieldLayout.of?_of_fieldFault h
  rw [slotCount, hl]
  exact hcount

section
variable {α : Type} {l m r : List α} {k : Nat}

theorem getElem?_middle (hk : k < m.length) : (l ++ (m ++ r))[l.length + k]? = m[k]? := by
  rw [List.getElem?_append_right (Nat.le_add_right _ _), Nat.add_sub_cancel_left,
    List.getElem?_append_left hk]

end

/-- The slots of a field stand together, behind those of all fields before it. -/
theorem getElem?_attributes {as bs : List AttributeRecord} {a : AttributeRecord}
    {fs gs : List FieldDecl} {f : FieldDecl} {l : FieldLayout}
    (h : ∀ x ∈ as ++ a :: bs, ∀ f ∈ x.fields, c.fieldFault f.ty = none)
    (ha : a.fields = fs ++ f :: gs) (hl : FieldLayout.of? c f.ty = some l) {k slot : Nat}
    {format : VertexFormat} (hk : l.slots[k]? = some (slot, format)) :
    ((as ++ a :: bs).flatMap (attributes c))[location c as fs + k]? =
      some ⟨a.binding, format, alignUp (extent 0 (layouts c fs)) l.align + slot⟩ := by
  have hrecords :
      (as.flatMap (attributes c)).length = (as.map fun a => attributeTotal c a.fields).sum :=
    attributes_length fun x hx => h x (by simp [hx])
  have hfields :
      ((place 0 (layouts c fs)).flatMap (entries a.binding)).length = attributeTotal c fs :=
    entries_length (fun x hx => h a (by simp) x (by simp [ha, hx])) _ _
  have hlayouts : layouts c a.fields = layouts c fs ++ l :: layouts c gs := by
    rw [ha, layouts, List.filterMap_append]
    exact congrArg _ (List.filterMap_cons_some hl)
  have hbound : k < l.slots.length := (List.getElem?_eq_some_iff.1 hk).1
  rw [List.flatMap_append, List.flatMap_cons, attributes_eq, hlayouts, place_append, place,
    List.flatMap_append, List.flatMap_cons]
  -- the entries of the field lie between the two that the lengths count and all that follows
  rw [List.append_assoc, List.append_assoc, ← List.append_assoc, location, ← hrecords, ← hfields,
    ← List.length_append, getElem?_middle (by simpa [entries] using hbound)]
  simp [entries, hk]

theorem locations_append (loc : Nat) (xs ys : List (AttributeRecord × FieldDecl)) :
    locations c loc (xs ++ ys) =
      locations c loc xs ++ locations c (loc + (xs.map fun x => slotCount c x.2.ty).sum) ys := by
  induction xs generalizing loc with
  | nil => rfl
  | cons x xs ih =>
    obtain ⟨a, f⟩ := x
    simp [locations, ih, Nat.add_assoc]

theorem locations_length (loc : Nat) (xs : List (AttributeRecord × FieldDecl)) :
    (locations c loc xs).length = xs.length := by
  induction xs generalizing loc with
  | nil => rfl
  | cons x xs ih => simp [locations, ih]

def fieldsOf (as : List AttributeRecord) : List (AttributeRecord × FieldDecl) :=
  as.flatMap fun a => a.fields.map (a, ·)

theorem fieldsOf_split {as bs : List AttributeRecord} {a : AttributeRecord} {fs gs : List FieldDecl}
    {f : FieldDecl} (ha : a.fields = fs ++ f :: gs) :
    fieldsOf (as ++ a :: bs) = (fieldsOf as ++ fs.map (a, ·)) ++ (a, f) ::
      (gs.map (a, ·) ++ fieldsOf bs) := by
  simp [fieldsOf, ha]

theorem slotCount_sum {as : List AttributeRecord} {a : AttributeRecord} {fs : List FieldDecl}
    (h : ∀ x ∈ as, ∀ f ∈ x.fields, c.fieldFault f.ty = none)
    (hf : ∀ f ∈ fs, c.fieldFault f.ty = none) :
    ((fieldsOf as ++ fs.map (a, ·)).map fun x => slotCount c x.2.ty).sum = location c as fs := by
  have htotal {gs : List FieldDecl} (b : AttributeRecord)
      (hg : ∀ f ∈ gs, c.fieldFault f.ty = none) :
      ((gs.map (b, ·)).map fun x : AttributeRecord × FieldDecl => slotCount c x.2.ty).sum =
        attributeTotal c gs := by
    rw [List.map_map, attributeTotal]
    exact congrArg List.sum (List.map_congr_left fun f hf => slotCount_eq (hg f hf))
  rw [List.map_append, List.sum_append, htotal a hf, location]
  congr 1
  induction as with
  | nil => rfl
  | cons b as ih =>
    obtain ⟨hb, has⟩ := List.forall_mem_cons.1 h
    rw [fieldsOf, List.flatMap_cons, List.map_append, List.sum_append, htotal b hb, List.map_cons,
      List.sum_cons]
    exact congrArg _ (ih has)

theorem locations_fieldsOf {as bs : List AttributeRecord} {a : AttributeRecord}
    {fs gs : List FieldDecl} {f : FieldDecl}
    (h : ∀ x ∈ as ++ a :: bs, ∀ f ∈ x.fields, c.fieldFault f.ty = none)
    (ha : a.fields = fs ++ f :: gs) :
    ∃ after, locations c 0 (fieldsOf (as ++ a :: bs)) =
      locations c 0 (fieldsOf as ++ fs.map (a, ·)) ++ (a, f, location c as fs) :: after := by
  refine ⟨locations c (location c as fs + slotCount c f.ty) (gs.map (a, ·) ++ fieldsOf bs), ?_⟩
  rw [fieldsOf_split ha, locations_append, slotCount_sum (fun x hx => h x (by simp [hx]))
    fun x hx => h a (by simp) x (by simp [ha, hx]), Nat.zero_add]
  rfl

end VertexLayout

namespace Metal

theorem columns_length (w : Writer) (a : AttributeRecord) (f : FieldDecl) (loc : Nat) :
    (columns w a f loc).length = w.catalog.attributeCount f.ty := by
  unfold columns Catalog.column Catalog.attributeCount
  cases w.catalog.matrixRows f.ty <;> simp

/-- Every attribute of the table has one line. -/
theorem columns_total (w : Writer) {xs : List (AttributeRecord × FieldDecl)} (loc : Nat)
    (h : ∀ x ∈ xs, w.catalog.fieldFault x.2.ty = none) :
    ((VertexLayout.locations w.catalog loc xs).flatMap
      fun (a, f, loc) => columns w a f loc).length =
      (xs.map fun x => VertexLayout.slotCount w.catalog x.2.ty).sum := by
  induction xs generalizing loc with
  | nil => rfl
  | cons x xs ih =>
    obtain ⟨a, f⟩ := x
    obtain ⟨hf, hxs⟩ := List.forall_mem_cons.1 h
    rw [VertexLayout.locations, List.flatMap_cons, List.length_append, ih _ hxs, columns_length,
      List.map_cons, List.sum_cons, VertexLayout.slotCount_eq hf]

end Metal

namespace Program

def vertexLines (p : Program) (c : Catalog) (t : Target) : List String :=
  match t.language with
  | .glsl => Glsl.attributes ⟨p, c, .vertex, .glsl⟩
  | .hlsl => Hlsl.vertexData ⟨p, c, .vertex, .hlsl⟩ (t == .vulkanSpirv)
  | .metal => Metal.vertexData ⟨p, c, .vertex, .metal⟩

theorem stageText_vertex (p : Program) (c : Catalog) (t : Target) : ∃ before after,
    p.stageText c t .vertex = "\n".intercalate (before ++ p.vertexLines c t ++ after) := by
  unfold stageText vertexLines
  cases t.language with
  | glsl =>
    refine ⟨["#version 450 core"] ++ Glsl.uniforms ⟨p, c, .vertex, .glsl⟩, ?_⟩
    simp only [Glsl.source, List.append_assoc]
    exact ⟨_, rfl⟩
  | hlsl =>
    refine ⟨[Hlsl.downcast] ++ Hlsl.uniforms ⟨p, c, .vertex, .hlsl⟩, ?_⟩
    simp only [Hlsl.source, List.append_assoc]
    exact ⟨_, rfl⟩
  | metal =>
    refine ⟨["#include <metal_stdlib>", "using namespace metal;"], ?_⟩
    simp only [Metal.source, List.append_assoc]
    exact ⟨_, rfl⟩

/-- The table and the three languages agree on field `f` of a buffer's record, which comes behind
`fs` of the same record and is the field number `i` of all: its location is `loc`. -/
structure Locates (p : Program) (c : Catalog) (a : AttributeRecord) (fs : List FieldDecl)
    (f : FieldDecl) (i loc : Nat) : Prop where
  /-- The entries from the location on are the slots of the field, under the record's binding. -/
  slots : ∃ l, FieldLayout.of? c f.ty = some l ∧ l.slots.length = c.attributeCount f.ty ∧
    ∀ (k slot : Nat) format, l.slots[k]? = some (slot, format) →
      p.vertexAttributes[loc + k]? = some ⟨a.binding, format,
        VertexLayout.alignUp (VertexLayout.extent 0 (VertexLayout.layouts c fs)) l.align + slot⟩
  glsl : ∀ t : Target, t.language = .glsl → (p.vertexLines c t)[i]? =
    some s!"layout(location = {loc}) in {c.spellType .glsl f.ty} {a.fieldName f.name};"
  hlsl : ∀ t : Target, t.language = .hlsl → (p.vertexLines c t)[i + 1]? =
    some ("    " ++ (if t = .vulkanSpirv then s!"[[vk::location({loc})]] " else "") ++
      s!"{c.spellType .hlsl f.ty} {a.fieldName f.name} : ATTR{loc};")
  metal : ∀ t : Target, t.language = .metal → c.column f.ty = none →
    (p.vertexLines c t)[loc + 1]? =
      some s!"    {c.spellType .metal f.ty} {a.fieldName f.name} [[attribute({loc})]];"
  metalColumns : ∀ t : Target, t.language = .metal →
    ∀ column dim, c.column f.ty = some (column, dim) → dim = c.attributeCount f.ty ∧
      ∀ k < dim, (p.vertexLines c t)[loc + k + 1]? =
        some s!"    {column} {a.fieldName f.name}_{k} [[attribute({loc + k})]];"

open VertexLayout

variable {p : Program} {c : Catalog} {as bs : List AttributeRecord} {a : AttributeRecord}
  {fs gs : List FieldDecl} {f : FieldDecl}

section
variable {before after : List (AttributeRecord × FieldDecl × Nat)} {loc : Nat} {t : Target}
  (hwalk : p.attributeLocations c = before ++ (a, f, loc) :: after)
include hwalk

theorem glsl_line (ht : t.language = .glsl) : (p.vertexLines c t)[before.length]? =
    some s!"layout(location = {loc}) in {c.spellType .glsl f.ty} {a.fieldName f.name};" := by
  simp [vertexLines, ht, Glsl.attributes, hwalk, Writer.typeName]

theorem hlsl_line (hdata : p.attributes.isEmpty = false) (ht : t.language = .hlsl) :
    (p.vertexLines c t)[before.length + 1]? = some ("    " ++
      (if t = .vulkanSpirv then s!"[[vk::location({loc})]] " else "") ++
      s!"{c.spellType .hlsl f.ty} {a.fieldName f.name} : ATTR{loc};") := by
  simp only [vertexLines, ht, Hlsl.vertexData, Hlsl.hasVertexData, hdata, hwalk, Writer.typeName]
  by_cases hv : t = .vulkanSpirv <;> simp [hv, toString, String.append_assoc]

theorem metal_line (hdata : p.attributes.isEmpty = false) (ht : t.language = .metal) {k : Nat}
    (hk : k < c.attributeCount f.ty) :
    (p.vertexLines c t)[(before.flatMap fun (a, f, loc) => Metal.columns ⟨p, c, .vertex, .metal⟩ a f
      loc).length + k + 1]? =
      (Metal.columns ⟨p, c, .vertex, .metal⟩ a f loc)[k]? := by
  rw [← Metal.columns_length ⟨p, c, .vertex, .metal⟩ a f loc] at hk
  have hlines : p.vertexLines c t = "struct host_vert_data \x7b" ::
      ((before.flatMap fun (a, f, loc) => Metal.columns ⟨p, c, .vertex, .metal⟩ a f loc) ++
        (Metal.columns ⟨p, c, .vertex, .metal⟩ a f loc ++
          ((after.flatMap fun (a, f, loc) => Metal.columns ⟨p, c, .vertex, .metal⟩ a f loc) ++
            ["\x7d;"]))) := by
    simp [vertexLines, ht, Metal.vertexData, Metal.hasVertexData, hdata, hwalk]
  rw [hlines, List.getElem?_cons_succ, getElem?_middle hk]

end

/-- Metal's lines for the fields before one are the entries that those fields take. -/
theorem columns_before (w : Writer) (h : ∀ x ∈ as, ∀ f ∈ x.fields, w.catalog.fieldFault f.ty = none)
    (hf : ∀ f ∈ fs, w.catalog.fieldFault f.ty = none) :
    ((locations w.catalog 0 (fieldsOf as ++ fs.map (a, ·))).flatMap
      fun (a, f, loc) => Metal.columns w a f loc).length =
      location w.catalog as fs := by
  rw [Metal.columns_total w 0, slotCount_sum h hf]
  simp only [fieldsOf, List.mem_append, List.mem_flatMap, List.mem_map]
  rintro _ (⟨x, hx, g, hg, rfl⟩ | ⟨g, hg, rfl⟩)
  · exact h x hx g hg
  · exact hf g hg

theorem locates (h : ∀ x ∈ p.attributes, ∀ f ∈ x.fields, c.fieldFault f.ty = none)
    (htable : p.vertexAttributes = p.attributes.flatMap (VertexLayout.attributes c))
    (hp : p.attributes = as ++ a :: bs) (ha : a.fields = fs ++ f :: gs) :
    p.Locates c a fs f ((fieldsOf as).length + fs.length) (location c as fs) := by
  have hdata : p.attributes.isEmpty = false := by simp [hp]
  rw [hp] at h
  have hf : c.fieldFault f.ty = none := h a (by simp) f (by simp [ha])
  have hbefore : ∀ x ∈ as, ∀ f ∈ x.fields, c.fieldFault f.ty = none :=
    fun x hx => h x (by simp [hx])
  have hfs : ∀ f ∈ fs, c.fieldFault f.ty = none := fun x hx => h a (by simp) x (by simp [ha, hx])
  have hcolumns := columns_before (a := a) ⟨p, c, .vertex, .metal⟩ hbefore hfs
  have hlen : (locations c 0 (fieldsOf as ++ fs.map (a, ·))).length =
      (fieldsOf as).length + fs.length := by
    rw [locations_length, List.length_append, List.length_map]
  -- all languages walk the same list of fields, so the field is found in it once
  obtain ⟨after, hafter⟩ := locations_fieldsOf h ha
  have hwalk : p.attributeLocations c =
      locations c 0 (fieldsOf as ++ fs.map (a, ·)) ++ (a, f, location c as fs) :: after := by
    rw [attributeLocations, hp]
    exact hafter
  have hmetal {t : Target} (ht : t.language = .metal) {k : Nat} (hk : k < c.attributeCount f.ty) :=
    metal_line hwalk hdata ht hk
  rw [hcolumns] at hmetal
  rw [← hlen]
  constructor
  case slots =>
    obtain ⟨l, hl, hcount⟩ := FieldLayout.of?_of_fieldFault hf
    refine ⟨l, hl, hcount, fun k slot format hk => ?_⟩
    rw [htable, hp]
    exact getElem?_attributes h ha hl hk
  case glsl => exact fun t ht => glsl_line hwalk ht
  case hlsl => exact fun t ht => hlsl_line hwalk hdata ht
  case metal =>
    intro t ht hc
    have hrows : c.matrixRows f.ty = none := by simpa [Catalog.column] using hc
    have hline := hmetal ht (k := 0) (by simp [Catalog.attributeCount, hrows])
    simpa [Metal.columns, hc, Writer.typeName] using hline
  case metalColumns =>
    intro t ht column dim hc
    have hrows : c.matrixRows f.ty = some dim := by
      obtain ⟨n, hn, heq⟩ := Option.map_eq_some_iff.1 hc
      rw [hn, (Prod.mk.inj heq).2]
    have hdim : dim = c.attributeCount f.ty := by
      rw [Catalog.attributeCount, hrows, Option.getD_some]
    refine ⟨hdim, fun k hk => ?_⟩
    rw [hmetal ht (hdim ▸ hk)]
    simp [Metal.columns, hc, hk]

end Program

theorem Pipeline.split_attributes {p : Pipeline} {prog : Program} {notices : List String}
    (h : p.split = (.ok prog, notices)) : prog.attributes = p.signature.attributes ∧
      prog.vertexAttributes = p.signature.attributes.flatMap
        (VertexLayout.attributes p.catalog) := by
  obtain ⟨draft, -, rfl⟩ := split_runs h
  exact ⟨rfl, rfl⟩

/-- Wherever a field of a vertex buffer is declared, its location is the position of its slots in
the table of vertex attributes, and the slots of all fields are the whole table. -/
theorem Pipeline.split_locations {c : Catalog} {d : DeclIndex} {f : PipelineFn} {p : Pipeline}
    {prog : Program} {notices : List String} (hp : check c d f = .ok p)
    (h : p.split = (.ok prog, notices)) :
    prog.vertexAttributes.length =
      (prog.attributes.map fun a => (a.fields.map fun x => c.attributeCount x.ty).sum).sum ∧
      (∀ t, ∃ before after, prog.stageText c t .vertex =
        "\n".intercalate (before ++ prog.vertexLines c t ++ after)) ∧
      ∀ as a bs fs x gs, prog.attributes = as ++ a :: bs → a.fields = fs ++ x :: gs →
        prog.Locates c a fs x ((as.map fun a => a.fields.length).sum + fs.length)
          ((as.map fun a => (a.fields.map fun x => c.attributeCount x.ty).sum).sum +
            (fs.map fun x => c.attributeCount x.ty).sum) := by
  obtain ⟨hattributes, htable⟩ := split_attributes h
  rw [check_catalog hp, ← hattributes] at htable
  have hfields := check_fieldFault hp
  rw [← hattributes] at hfields
  refine ⟨?_, fun t => prog.stageText_vertex c t, fun as a bs fs x gs ha hx => ?_⟩
  · rw [htable]
    exact VertexLayout.attributes_length hfields
  · have hlen : (VertexLayout.fieldsOf as).length = (as.map fun a => a.fields.length).sum := by
      simp [VertexLayout.fieldsOf, List.length_flatMap]
    rw [← hlen]
    exact Program.locates hfields htable ha hx

namespace Sample

open Workbench

/-- A buffer with a matrix and a vector for each vertex, and one with a number for each instance. -/
def buildMesh : Building PipelineFn := do
  let point ← ty "float4"
  let mesh ← record "Mesh" [("frame", ← ty "float4x4"), ("place", point)]
  let copy ← record "Copy" [("size", .float)]
  let ps : List Param :=
    [⟨"mesh", mesh, .vertexBuffer 0, .dummy⟩, ⟨"copy", copy, .instanceBuffer 1, .dummy⟩,
    ⟨"at", point, .position, .dummy⟩]
  let moved ← binary .mul (← member (← arg ps 0) "frame") (← member (← arg ps 0) "place")
  let at_ ← assign .assign (← arg ps 2) (← binary .mul moved (← member (← arg ps 1) "size"))
  return ⟨"meshed", ps, [at_], .dummy⟩

def meshed : PipelineFn := (buildMesh withRuntime).1

def meshIndex : DeclIndex := ⟨(buildMesh withRuntime).2.declarations⟩

def meshPipeline : Pipeline :=
  ⟨runtime, meshIndex, meshed, .ofParams runtime meshIndex meshed.params⟩

theorem check_meshed : Pipeline.check runtime meshIndex meshed = .ok meshPipeline :=
  Pipeline.check_of_isEmpty (by decide +kernel)

end Sample

open Sample in
/-- The matrix takes four locations and the vector one, so the number of an instance is
at location 5. -/
theorem Pipeline.split_locations_meshed :
    ∃ prog notices a b x, check runtime meshIndex meshed = .ok meshPipeline ∧
    meshPipeline.split = (.ok prog, notices) ∧ prog.attributes = [a] ++ b :: [] ∧
    b.fields = [] ++ x :: [] ∧
    prog.vertexAttributes.length = 6 ∧ prog.Locates runtime b [] x 2 5 := by
  obtain ⟨prog, notices, h, -⟩ := exists_of_splits meshPipeline (fun _ => true) (by decide +kernel)
  have hattributes := (split_attributes h).1
  have hsizes : meshPipeline.signature.attributes.map (fun a => a.fields.length) = [2, 1] := by
    decide +kernel
  have hcounts :
      meshPipeline.signature.attributes.map
        (fun a => (a.fields.map fun x => runtime.attributeCount x.ty).sum) =
      [5, 1] := by decide +kernel
  rw [← hattributes] at hsizes hcounts
  obtain ⟨a, b, hab⟩ : ∃ a b, prog.attributes = [a, b] :=
    List.length_eq_two.1 (by simpa using congrArg List.length hsizes)
  rw [hab] at hsizes hcounts
  simp only [List.map_cons, List.map_nil, List.cons.injEq, and_true] at hsizes hcounts
  obtain ⟨x, hx⟩ := List.length_eq_one_iff.1 hsizes.2
  obtain ⟨htotal, -, hlocates⟩ := split_locations check_meshed h
  refine ⟨prog, notices, a, b, x, check_meshed, h, hab, hx, ?_, ?_⟩
  · rw [htotal, hab]
    simp [hcounts]
  · simpa [hsizes, hcounts] using hlocates [a] b [] [] x [] hab hx

end ShaderSplit
