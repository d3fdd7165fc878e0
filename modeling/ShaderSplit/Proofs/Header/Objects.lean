import Mathlib.Data.List.Nodup
import ShaderSplit.Proofs.Generate.Isolation

namespace ShaderSplit

def objectLine (c : Catalog) (t : Target) (s : Stage) (x : ContentHash) : String :=
  let target := c.targetEnumerator t
  let stage := c.stageEnumerator s
  let hex := x.short
  s!"inline hsh::_HshShaderObject<{target}> _hsho_{hex}" ++
    s!"\x7b{stage}, \x7b_hshs_{hex}, 0x{hex}\x7d\x7d;"

def dataLine (c : Catalog) (name : String) (t : Target) (sizes : String) : String :=
  let data := c.runtimeName "_HshShaderData"
  let target := c.targetEnumerator t
  s!"template <> const {data}<{target}, {sizes}> {name}::data<{target}>\x7b"

theorem Blob.objectLine_mem (c : Catalog) (b : Blob) :
    objectLine c b.target b.stage b.hash ∈ b.lines c := by
  unfold objectLine lines
  dsimp only
  exact List.mem_append_right _ (List.mem_cons_of_mem _ List.mem_cons_self)

theorem infix_flatMap {α β : Type} {f : α → List β} {l : List α} {x : α} (h : x ∈ l) :
    f x <:+: l.flatMap f := by
  rw [List.flatMap_def]
  exact List.infix_of_mem_flatten (List.mem_map_of_mem h)

namespace Header

variable {h : Header} (c : Catalog) (d : DeclIndex) (fileName : String)

theorem objectLine_mem {b : Blob} (hb : b ∈ h.store.blobs) :
    objectLine c b.target b.stage b.hash ∈ h.lines c d fileName := by
  have hblobs : objectLine c b.target b.stage b.hash ∈ h.store.blobs.flatMap (Blob.lines c) :=
    List.mem_flatMap.2 ⟨b, hb, b.objectLine_mem c⟩
  simp [lines, hblobs]

theorem tableLines_isInfix {k : PipelineClass} (hk : k ∈ h.classes) {t : ShaderData}
    (ht : t ∈ k.tables) :
    PipelineClass.tableLines c k.program t <:+: h.lines c d fileName := by
  have htables : k.tables.flatMap (PipelineClass.tableLines c k.program) <:+: k.lines c d :=
    List.infix_append _ _ _
  have hclasses : h.classes.flatMap (PipelineClass.lines c d) <:+: h.lines c d fileName :=
    List.infix_append _ _ _
  exact (infix_flatMap ht).trans (htables.trans ((infix_flatMap hk).trans hclasses))

theorem listing_isInfix {k : PipelineClass} (hk : k ∈ h.classes) {t : ShaderData}
    (ht : t ∈ k.tables) :
    ∃ sizes, (dataLine c k.program.name t.target sizes ::
      t.objects.map fun x => s!"  _hsho_{x.short},") <:+: h.lines c d fileName := by
  have hstart : dataLine c k.program.name t.target (PipelineClass.sizes k.program) ::
      (t.objects.map fun x => s!"  _hsho_{x.short},") <+:
        PipelineClass.tableLines c k.program t := by
    unfold PipelineClass.tableLines
    rw [List.append_assoc, List.append_assoc]
    exact List.prefix_append _ _
  exact ⟨_, hstart.isInfix.trans (tableLines_isInfix c d fileName hk ht)⟩

end Header

/-- Lines that begin as the declaration of an object does. -/
def StartsObject (line : String) : Prop := "inline hsh::".toList <+: line.toList

instance (line : String) : Decidable (StartsObject line) := by
  unfold StartsObject
  infer_instance

theorem startsObject_objectLine (c : Catalog) (t : Target) (s : Stage) (x : ContentHash) :
    StartsObject (objectLine c t s x) := by
  unfold StartsObject objectLine
  dsimp only
  generalize c.targetEnumerator t = target, c.stageEnumerator s = stage, x.short = hex
  simp [toString]

/-- In a blob's lines an object is declared only where it should be, if not in the source that is
shown in the comment. -/
theorem Blob.eq_objectLine {c : Catalog} {b : Blob} {l : String} (hl : l ∈ b.lines c)
    (hs : StartsObject l) :
    l ∈ commentLines b.source.text ∨ l = objectLine c b.target b.stage b.hash := by
  simp only [lines, List.mem_append, List.mem_cons, List.mem_map, List.not_mem_nil, or_false] at hl
  rcases hl with ((((rfl | rfl) | hl) | rfl | rfl) | ⟨row, -, rfl⟩) | rfl | rfl | rfl
  · simp [StartsObject, toString] at hs
  · simp [StartsObject] at hs
  · exact .inl hl
  · simp [StartsObject] at hs
  · simp [StartsObject, toString] at hs
  · simp [StartsObject, rowText] at hs
  · simp [StartsObject] at hs
  · exact .inr rfl
  · simp [StartsObject] at hs

theorem PipelineClass.not_startsObject {c : Catalog} {p : Program} {t : ShaderData} {l : String}
    (hl : l ∈ tableLines c p t) : ¬ StartsObject l := by
  intro hs
  simp only [tableLines, List.mem_append, List.mem_cons, List.mem_map, List.not_mem_nil,
    or_false] at hl
  rcases hl with (((rfl | ⟨x, -, rfl⟩) | ⟨b, -, rfl⟩) | ⟨a, -, rfl⟩) | rfl
  · simp [StartsObject, toString] at hs
  · simp [StartsObject, toString] at hs
  · unfold bindingLine at hs
    generalize toString b.binding = binding, toString b.stride = stride at hs
    simp [StartsObject, toString] at hs
  · unfold attributeLine at hs
    generalize toString a.binding = binding, toString a.offset = offset at hs
    simp [StartsObject, toString] at hs
  · simp [StartsObject] at hs

/-- In a header an object is declared only as a stored blob, if not in a comment or within the
definition of a class. -/
theorem Header.exists_objectLine {h : Header} {c : Catalog} {d : DeclIndex} {fileName l : String}
    (hl : l ∈ h.lines c d fileName) (hs : StartsObject l) :
    (∃ b ∈ h.store.blobs, l ∈ Blob.commentLines b.source.text ∨
      l = objectLine c b.target b.stage b.hash) ∨
      ∃ k ∈ h.classes, l ∈ PipelineClass.definition c d k.program := by
  simp only [lines, List.mem_append, List.mem_cons, List.mem_flatMap, List.not_mem_nil,
    or_false] at hl
  rcases hl with ((((rfl | rfl) | ⟨b, hb, hl⟩) | rfl | rfl) | ⟨k, hk, hl⟩) | rfl
  · simp [StartsObject, toString] at hs
  · simp [StartsObject] at hs
  · exact .inl ⟨b, hb, Blob.eq_objectLine hl hs⟩
  · simp [StartsObject] at hs
  · simp [StartsObject] at hs
  · simp only [PipelineClass.lines, List.mem_append, List.mem_cons, List.mem_flatMap,
      List.not_mem_nil, or_false] at hl
    rcases hl with (hl | ⟨t, -, hl⟩) | rfl | rfl
    · exact .inr ⟨k, hk, hl⟩
    · exact absurd hs (PipelineClass.not_startsObject hl)
    · simp [StartsObject, toString] at hs
    · simp [StartsObject] at hs
  · simp [StartsObject] at hs

namespace BlobStore

theorem add_find? (s : BlobStore) (b : Blob) (x : ContentHash) :
    (s.add b).blobs.find? (·.hash == x) = (s.blobs ++ [b]).find? (·.hash == x) := by
  unfold add
  split
  next hmet =>
    obtain ⟨b', hb', he⟩ := List.any_eq_true.1 hmet
    rw [List.find?_append]
    cases hx : s.blobs.find? (·.hash == x) with
    | some _ => rfl
    | none =>
      -- a hash that was met is not the one that is missing
      have hne : (b'.hash == x) = false := by simpa using List.find?_eq_none.1 hx b' hb'
      rw [eq_of_beq he] at hne
      simp [hne]
  · rfl

theorem foldl_add_find? (bs : List Blob) (s : BlobStore) (x : ContentHash) :
    (bs.foldl add s).blobs.find? (·.hash == x) = (s.blobs ++ bs).find? (·.hash == x) := by
  induction bs generalizing s with
  | nil => simp
  | cons b bs ih =>
    rw [List.foldl_cons, ih, List.find?_append, add_find?, ← List.find?_append, List.append_assoc,
      List.singleton_append]

theorem add_nodup {s : BlobStore} (hs : (s.blobs.map (·.hash)).Nodup) (b : Blob) :
    ((s.add b).blobs.map (·.hash)).Nodup := by
  unfold add
  split
  · exact hs
  next hnew =>
    have hfresh : b.hash ∉ s.blobs.map (·.hash) := by
      intro hb
      obtain ⟨b', hb', he⟩ := List.mem_map.1 hb
      exact hnew (List.any_eq_true.2 ⟨b', hb', beq_iff_eq.2 he⟩)
    rw [List.map_append, List.map_singleton, ← List.concat_eq_append]
    exact List.Nodup.concat hfresh hs

theorem foldl_add_nodup (bs : List Blob) {s : BlobStore} (hs : (s.blobs.map (·.hash)).Nodup) :
    ((bs.foldl add s).blobs.map (·.hash)).Nodup := by
  induction bs generalizing s with
  | nil => exact hs
  | cons b bs ih => exact ih (add_nodup hs b)

end BlobStore

namespace FunctionRun

def blobs (r : FunctionRun) : List Blob :=
  match r.result with
  | .ok (_, outputs, _) => BlobStore.blobsOf outputs
  | .error _ => []

def classes (r : FunctionRun) : List PipelineClass :=
  match r.result with
  | .ok (program, outputs, _) => [.of program outputs]
  | .error _ => []

end FunctionRun

namespace Header

theorem addRun_store (h : Header) (r : FunctionRun) :
    (h.addRun r).store = r.blobs.foldl BlobStore.add h.store := by
  rcases r with ⟨_ | ⟨_, _, _⟩, _, _⟩ <;> rfl

theorem addRun_classes (h : Header) (r : FunctionRun) :
    (h.addRun r).classes = h.classes ++ r.classes := by
  rcases r with ⟨_ | ⟨_, _, _⟩, _, _⟩
  · exact (List.append_nil _).symm
  · rfl

theorem foldl_addRun_store (rs : List FunctionRun) (h : Header) :
    (rs.foldl addRun h).store = (rs.flatMap (·.blobs)).foldl BlobStore.add h.store := by
  induction rs generalizing h with
  | nil => rfl
  | cons r rs ih => rw [List.foldl_cons, ih, addRun_store, List.flatMap_cons, List.foldl_append]

theorem foldl_addRun_classes (rs : List FunctionRun) (h : Header) :
    (rs.foldl addRun h).classes = h.classes ++ rs.flatMap (·.classes) := by
  induction rs generalizing h with
  | nil => simp
  | cons r rs ih => rw [List.foldl_cons, ih, addRun_classes, List.flatMap_cons, List.append_assoc]

end Header

theorem BlobStore.exists_blob {o : TargetOutput} {os : List TargetOutput} (ho : o ∈ os)
    (hlen : o.binaries.length = o.sources.length) {x : ContentHash}
    (hx : x ∈ o.binaries.filterMap StageBinary.hash) :
    ∃ b ∈ blobsOf os, b.hash = x ∧ b.target = o.target := by
  obtain ⟨bin, hbin, hhash⟩ := List.mem_filterMap.1 hx
  obtain ⟨i, hi, rfl⟩ := List.getElem_of_mem hbin
  have hi' : i < o.sources.length := hlen ▸ hi
  refine ⟨⟨o.target, o.sources[i], o.binaries[i].stage, o.binaries[i].data, x⟩, ?_, rfl, rfl⟩
  refine List.mem_flatMap.2 ⟨o, ho, List.mem_filterMap.2 ⟨(o.sources[i], o.binaries[i]), ?_, ?_⟩⟩
  · exact List.mem_iff_getElem.2 ⟨i, by rw [List.length_zip]; omega, by simp⟩
  · simp [Blob.of?, hhash]

theorem PipelineFn.generate_listed (f : PipelineFn) {c : Catalog} {d : DeclIndex}
    {targets : List Target} {compiler : Option ShaderCompiler} {k : PipelineClass} {t : ShaderData}
    {x : ContentHash} (hk : k ∈ (f.generate c d targets compiler).classes) (ht : t ∈ k.tables)
    (hx : x ∈ t.objects) :
    ∃ b ∈ (f.generate c d targets compiler).blobs, b.hash = x ∧ b.target = t.target := by
  cases hr : (f.generate c d targets compiler).result with
  | error ds => simp [FunctionRun.classes, hr] at hk
  | ok r =>
    obtain ⟨p, os, ds⟩ := r
    simp only [FunctionRun.classes, hr, List.mem_singleton] at hk
    subst hk
    obtain ⟨o, ho, rfl⟩ := List.mem_map.1 ht
    obtain ⟨-, hserves, -⟩ := generate_serves hr
    have hbinaries := (Program.serves_of_mem hserves ho).binaries
    rw [show (f.generate c d targets compiler).blobs = BlobStore.blobsOf os by
      simp [FunctionRun.blobs, hr]]
    exact BlobStore.exists_blob ho hbinaries.length_eq.symm hx

namespace TranslationUnit

variable (u : TranslationUnit) (c : Catalog) (targets : List Target)
  (compiler : Option ShaderCompiler)

def blobs : List Blob := u.pipelines.flatMap fun f => (u.runOf c targets compiler f).blobs

theorem result_store : (u.result c targets compiler).header.store =
    (u.blobs c targets compiler).foldl BlobStore.add .empty := by
  rw [result_header, Header.foldl_addRun_store, List.flatMap_map]
  rfl

theorem result_classes : (u.result c targets compiler).header.classes =
    u.pipelines.flatMap fun f => (u.runOf c targets compiler f).classes := by
  rw [result_header, Header.foldl_addRun_classes, List.flatMap_map]
  rfl

theorem result_text : (u.result c targets compiler).text = "\n".intercalate
    ((u.result c targets compiler).header.lines c ⟨u.declarations⟩ u.fileName) ++ "\n" := rfl

/-- What is listed in a table is a blob of the table's own target, before blobs are shared. -/
theorem result_listed {k : PipelineClass} {t : ShaderData} {x : ContentHash}
    (hk : k ∈ (u.result c targets compiler).header.classes) (ht : t ∈ k.tables)
    (hx : x ∈ t.objects) :
    ∃ b ∈ u.blobs c targets compiler, b.hash = x ∧ b.target = t.target := by
  rw [result_classes] at hk
  obtain ⟨f, hf, hk⟩ := List.mem_flatMap.1 hk
  obtain ⟨b, hb, hbx, hbt⟩ := f.generate_listed hk ht hx
  exact ⟨b, List.mem_flatMap.2 ⟨f, hf, hb⟩, hbx, hbt⟩

/-- The header declares, under each hash, the first blob that has it. -/
theorem result_find? (x : ContentHash) :
    (u.result c targets compiler).header.store.blobs.find? (·.hash == x) =
    (u.blobs c targets compiler).find? (·.hash == x) := by
  rw [result_store, BlobStore.foldl_add_find?]
  rfl

theorem result_nodup : ((u.result c targets compiler).header.store.blobs.map (·.hash)).Nodup := by
  rw [result_store]
  exact BlobStore.foldl_add_nodup _ List.nodup_nil

variable {u c targets compiler}

/-- The objects that a table lists are declared in the same header, each for the target and stage
of the first blob of the run that has its content; and so for the target of the table, if no other
target has a blob of that content. -/
theorem generate_objects {g : Generated} (h : u.generate targets compiler = .ok g) :
    ∃ c lines, Catalog.build u.declarations = .ok c ∧
      lines = g.header.lines c ⟨u.declarations⟩ u.fileName ∧
      g.text = "\n".intercalate lines ++ "\n" ∧
      ∀ k ∈ g.header.classes, ∀ t ∈ k.tables,
        (∃ sizes, (dataLine c k.program.name t.target sizes ::
          t.objects.map fun x => s!"  _hsho_{x.short},") <:+: lines) ∧
        ∀ x ∈ t.objects,
          (∃ b ∈ g.header.store.blobs, b.hash = x ∧
            (∀ b' ∈ g.header.store.blobs, b'.hash = x → b' = b) ∧
            (u.blobs c targets compiler).find? (·.hash == x) = some b ∧
            objectLine c b.target b.stage x ∈ lines) ∧
          ((∀ b ∈ u.blobs c targets compiler, b.hash = x → b.target = t.target) →
            ∃ s, objectLine c t.target s x ∈ lines) := by
  obtain ⟨-, c, hc, rfl⟩ := generate_ok.1 h
  refine ⟨c, _, hc, rfl, u.result_text c _ _,
    fun k hk t ht => ⟨Header.listing_isInfix c _ _ hk ht, fun x hx => ?_⟩⟩
  -- the table's own blob has the hash, so some blob is the first with it, and that one is stored
  obtain ⟨b₀, hb₀, hb₀x, -⟩ := u.result_listed c targets compiler hk ht hx
  obtain ⟨b, hb⟩ : ∃ b, (u.blobs c targets compiler).find? (·.hash == x) = some b :=
    Option.isSome_iff_exists.1 (List.find?_isSome.2 ⟨b₀, hb₀, beq_iff_eq.2 hb₀x⟩)
  have hstored := (u.result_find? c targets compiler x).trans hb
  have hmem := List.mem_of_find?_eq_some hstored
  have hbx : b.hash = x := by simpa using List.find?_some hb
  have hline := Header.objectLine_mem c ⟨u.declarations⟩ u.fileName hmem
  rw [hbx] at hline
  refine ⟨⟨b, hmem, hbx, fun b' hb' hb'x => ?_, hb, hline⟩, fun hown => ?_⟩
  · have hnodup := u.result_nodup c targets compiler
    exact List.inj_on_of_nodup_map hnodup hb' hmem (hb'x.trans hbx.symm)
  · rw [hown b (List.mem_of_find?_eq_some hb) hbx] at hline
    exact ⟨_, hline⟩

end TranslationUnit

namespace Sample

open Workbench

theorem build_unit (name : String) (fs : List PipelineFn) :
    Catalog.build (withRuntime.unit name fs).declarations = .ok runtime := by
  simp only [Workbench.unit, build_runtime]

theorem generate_unit (name : String) (fs : List PipelineFn) {targets : List Target}
    (ht : targets.isEmpty = false) :
    (withRuntime.unit name fs).generate targets none =
      .ok ((withRuntime.unit name fs).result runtime targets none) :=
  TranslationUnit.generate_ok.2 ⟨ht, runtime, build_unit name fs, rfl⟩

def twins : TranslationUnit := withRuntime.unit "scene.cpp" [passed, { passed with name := "twin" }]

def lone : TranslationUnit := withRuntime.unit "scene.cpp" [passed]

/-- Whether there are two blobs of equal data, for two targets, and the source of the first has no
line that could be taken for a declaration. -/
def shares (t t' : Target) : List Blob → Bool
  | [b, b'] => b.target == t && b'.target == t' && b.data == b'.data &&
    (Blob.commentLines b.source.text).all (!StartsObject ·)
  | _ => false

end Sample

open Sample in
/-- Both functions list one object, which is declared for Metal. -/
theorem TranslationUnit.generate_objects_twins : ∃ g c, twins.generate [.metal] none = .ok g ∧
    Catalog.build twins.declarations = .ok c ∧
    (g.header.classes.map fun k => k.tables.map (·.objects.length)) = [[1], [1]] ∧
    ∀ k ∈ g.header.classes, ∀ t ∈ k.tables, ∀ x ∈ t.objects,
      (∀ b ∈ twins.blobs c [.metal] none, b.hash = x → b.target = t.target) ∧
        ∃ s, objectLine c t.target s x ∈ g.header.lines c ⟨twins.declarations⟩ twins.fileName := by
  have hg : twins.generate [.metal] none = .ok (twins.result runtime [.metal] none) :=
    generate_unit _ _ rfl
  obtain ⟨c, lines, hc, rfl, -, h⟩ := generate_objects hg
  have hcr : c = runtime := Except.ok.inj (hc.symm.trans (build_unit _ _))
  have hlisted : ((twins.result runtime [.metal] none).header.classes.map fun k =>
      k.tables.map (·.objects.length)) = [[1], [1]] := by
    rw [result_classes]
    decide +kernel
  refine ⟨_, c, hg, hc, hlisted, fun k hk t ht x hx => ?_⟩
  have hmetal : ((twins.blobs runtime [.metal] none).all (·.target == .metal) &&
      (twins.result runtime [.metal] none).header.classes.all fun k =>
        k.tables.all (·.target == .metal)) = true := by
    rw [result_classes]
    decide +kernel
  simp only [Bool.and_eq_true, List.all_eq_true, beq_iff_eq] at hmetal
  have hown : ∀ b ∈ twins.blobs c [.metal] none, b.hash = x → b.target = t.target := fun b hb _ =>
    (hmetal.1 b (hcr ▸ hb)).trans (hmetal.2 k hk t ht).symm
  exact ⟨hown, ((h k hk t ht).2 x hx).2 hown⟩

theorem BlobStore.add_twin {b b' : Blob} (h : b.hash = b'.hash) :
    ((empty.add b).add b').blobs = [b] := by
  simp [add, empty, h]

theorem BlobStore.blobsOf_hash {os : List TargetOutput} {b : Blob} (hb : b ∈ blobsOf os) :
    b.hash = .of b.data := by
  obtain ⟨o, -, hb⟩ := List.mem_flatMap.1 hb
  obtain ⟨⟨s, bin⟩, -, hb⟩ := List.mem_filterMap.1 hb
  obtain ⟨h, hh, rfl⟩ := Option.map_eq_some_iff.1 hb
  unfold StageBinary.hash at hh
  split at hh
  · cases hh
  · exact (Option.some.inj hh).symm

theorem TranslationUnit.blobs_hash {u : TranslationUnit} {c : Catalog} {targets : List Target}
    {compiler : Option ShaderCompiler} {b : Blob} (hb : b ∈ u.blobs c targets compiler) :
    b.hash = .of b.data := by
  obtain ⟨f, -, hb⟩ := List.mem_flatMap.1 hb
  unfold FunctionRun.blobs at hb
  split at hb
  · exact BlobStore.blobsOf_hash hb
  · cases hb

open Sample in
theorem Sample.objectLine_metal (s s' : Stage) (x x' : ContentHash) :
    objectLine runtime .metalBinMac s x ≠ objectLine runtime .metal s' x' := by
  have hmac : runtime.targetEnumerator .metalBinMac = "hsh::Target::METAL_BIN_MAC" := by
    decide +kernel
  have hmetal : runtime.targetEnumerator .metal = "hsh::Target::METAL" := by decide +kernel
  intro he
  unfold objectLine at he
  dsimp only at he
  rw [hmac, hmetal] at he
  generalize runtime.stageEnumerator s = stage, runtime.stageEnumerator s' = stage',
    x.short = hex, x'.short = hex' at he
  have hchars := congrArg String.toList he
  simp [toString] at hchars

open Sample in
/-- Metal text also serves the binary target of one system. The object in that target's table is
declared for Metal alone. -/
theorem TranslationUnit.generate_objects_mistyped :
    ∃ g c lines, lone.generate [.metal, .metalBinMac] none = .ok g ∧
      Catalog.build lone.declarations = .ok c ∧
      lines = g.header.lines c ⟨lone.declarations⟩ lone.fileName ∧
      g.text = "\n".intercalate lines ++ "\n" ∧
      ∃ k ∈ g.header.classes, ∃ t ∈ k.tables, ∃ x ∈ t.objects, t.target = .metalBinMac ∧
        (∃ s, objectLine c .metal s x ∈ lines) ∧ ∀ s, objectLine c t.target s x ∉ lines := by
  have htest : shares .metal .metalBinMac (lone.blobs runtime [.metal, .metalBinMac] none) := by
    decide +kernel
  have hclasses : (lone.result runtime [.metal, .metalBinMac] none).header.classes.all fun k =>
      (PipelineClass.definition runtime ⟨lone.declarations⟩ k.program).all (!StartsObject ·) := by
    rw [result_classes]
    decide +kernel
  have hlisted : (lone.result runtime [.metal, .metalBinMac] none).header.classes.any fun k =>
      k.tables.any fun t => t.target == .metalBinMac && !t.objects.isEmpty := by
    rw [result_classes]
    decide +kernel
  obtain ⟨k, hk, hlisted⟩ := List.any_eq_true.1 hlisted
  obtain ⟨t, ht, hlisted⟩ := List.any_eq_true.1 hlisted
  simp only [Bool.and_eq_true, Bool.not_eq_true', beq_iff_eq] at hlisted
  obtain ⟨x, hx⟩ := List.isEmpty_eq_false_iff_exists_mem.1 hlisted.2
  refine ⟨lone.result runtime [.metal, .metalBinMac] none, runtime, _, generate_unit _ _ rfl,
    build_unit _ _, rfl, result_text _ _ _ _, k, hk, t, ht, x, hx, hlisted.1, ?_⟩
  obtain ⟨b₀, hb₀, hb₀x, -⟩ := result_listed _ _ _ _ hk ht hx
  unfold shares at htest
  split at htest
  next b b' hblobs =>
    simp only [Bool.and_eq_true, beq_iff_eq] at htest
    obtain ⟨⟨⟨hb, hb'⟩, hdata⟩, hcomments⟩ := htest
    have hhash : b.hash = b'.hash := by
      rw [blobs_hash (hblobs ▸ List.mem_cons_self),
        blobs_hash (hblobs ▸ List.mem_cons_of_mem _ List.mem_cons_self), hdata]
    have hstore : (lone.result runtime [.metal, .metalBinMac] none).header.store.blobs = [b] := by
      rw [result_store, hblobs]
      exact BlobStore.add_twin hhash
    have hbx : b.hash = x := by
      rw [hblobs] at hb₀
      rcases List.mem_pair.1 hb₀ with rfl | rfl
      · exact hb₀x
      · exact hhash.trans hb₀x
    constructor
    · have hline := Header.objectLine_mem runtime ⟨lone.declarations⟩ lone.fileName
        (hstore ▸ List.mem_singleton_self b)
      rw [hb, hbx] at hline
      exact ⟨_, hline⟩
    · intro s hs
      rw [hlisted.1] at hs
      have hstarts := startsObject_objectLine runtime .metalBinMac s x
      rcases Header.exists_objectLine hs hstarts with ⟨b₁, hb₁, hl⟩ | ⟨k', hk', hl⟩
      · rw [hstore, List.mem_singleton] at hb₁
        subst hb₁
        rcases hl with hl | hl
        · simpa [hstarts] using List.all_eq_true.1 hcomments _ hl
        · rw [hb] at hl
          exact objectLine_metal _ _ _ _ hl
      · have hlines := List.all_eq_true.1 hclasses k' hk'
        simpa [hstarts] using List.all_eq_true.1 hlines _ hl
  · cases htest

end ShaderSplit
