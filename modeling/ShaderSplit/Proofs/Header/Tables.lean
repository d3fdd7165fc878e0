import Mathlib.Data.List.Forall2
import ShaderSplit.Proofs.Header.Objects
import ShaderSplit.Proofs.Shading.Locations

namespace ShaderSplit

theorem StageBinary.filterMap_hash {bs : List StageBinary} (h : ∀ b ∈ bs, b.data ≠ []) :
    bs.filterMap StageBinary.hash = bs.map fun b => ContentHash.of b.data := by
  induction bs with
  | nil => rfl
  | cons b bs ih =>
    obtain ⟨hb, hbs⟩ := List.forall_mem_cons.1 h
    have hhash : b.hash = some (.of b.data) := by simp [StageBinary.hash, hb]
    rw [List.filterMap_cons_some hhash, ih hbs, List.map_cons]

/-- A table lists an object for each device stage of the program, in order, and then the vertex
inputs; the line that opens it counts them. -/
structure ShaderData.Lists (c : Catalog) (compiler : Option ShaderCompiler) (p : Program)
    (t : ShaderData) : Prop where
  objects : List.Forall₂ (fun s x => ∃ data,
    t.target.Assembles compiler ⟨s, p.stageText c t.target s⟩ data ∧ x = ContentHash.of data)
    p.devices t.objects
  bindings : t.bindings = p.vertexBindings
  attributes : t.attributes = p.vertexAttributes
  lines : ∃ data target sizes, data = c.runtimeName "_HshShaderData" ∧
    target = c.targetEnumerator t.target ∧
    sizes = s!"{t.objects.length}, {t.bindings.length}, {t.attributes.length}" ∧
    PipelineClass.tableLines c p t =
      s!"template <> const {data}<{target}, {sizes}> {p.name}::data<{target}>\x7b" ::
      ((t.objects.map fun x => s!"  _hsho_{x.short},") ++
      (t.bindings.map fun b =>
        let rate := c.rateEnumerator b.rate
        s!"  hsh::_HshVertexBinding\x7b{b.binding}, {b.stride}, {rate}\x7d,") ++
      (t.attributes.map fun a =>
        let format := c.formatEnumerator a.format
        s!"  hsh::_HshVertexAttribute\x7b{a.binding}, {format}, {a.offset}\x7d,") ++ ["\x7d;"])

theorem PipelineClass.table_lists {c : Catalog} {compiler : Option ShaderCompiler} {p : Program}
    {t : Target} {o : TargetOutput} (h : p.Serves c compiler t o) :
    (table p o).Lists c compiler p := by
  obtain ⟨rfl, hsources, hbinaries⟩ := h
  rw [hsources, List.forall₂_map_left_iff] at hbinaries
  have hdata : ∀ b ∈ o.binaries, b.data ≠ [] := by
    intro b hb
    obtain ⟨i, hi, rfl⟩ := List.getElem_of_mem hb
    have hi' : i < p.devices.length := hbinaries.length_eq ▸ hi
    exact (hbinaries.get hi' hi).ne_nil
  have hobjects : (table p o).objects = o.binaries.map fun b => ContentHash.of b.data :=
    StageBinary.filterMap_hash hdata
  have hlength : (table p o).objects.length = p.devices.length := by
    rw [hobjects, List.length_map, hbinaries.length_eq]
  refine ⟨?_, rfl, rfl, _, _, _, rfl, rfl, rfl, ?_⟩
  · rw [hobjects, List.forall₂_map_right_iff]
    exact hbinaries.imp fun s b hb => ⟨b.data, hb, rfl⟩
  · rw [hlength]
    rfl

/-- What a run owes to the tables of a class: one for each target asked for, on its own lines
of the header. -/
structure TranslationUnit.Tabled (u : TranslationUnit) (targets : List Target)
    (compiler : Option ShaderCompiler) (c : Catalog) (g : Generated) (k : PipelineClass) :
    Prop where
  program : ∃ f ∈ u.pipelines, ∃ p notices, Pipeline.check c ⟨u.declarations⟩ f = .ok p ∧
    p.split = (.ok k.program, notices)
  stages : k.program.devices.Pairwise (· < ·) ∧
    ∀ s, s ∈ k.program.devices ↔ k.program.stages.contains s = true ∧ s ≠ .host
  once : (k.tables.map (·.target)).Nodup
  targets : ∀ t, t ∈ k.tables.map (·.target) ↔ t ∈ targets
  tables : ∀ t ∈ k.tables, t.Lists c compiler k.program ∧
    PipelineClass.tableLines c k.program t <:+: g.header.lines c ⟨u.declarations⟩ u.fileName

namespace Target

theorem mem_select {ts : List Target} {t : Target} : t ∈ select ts ↔ t ∈ ts := by
  have hall : t ∈ all := by cases t <;> decide
  simp [select, hall]

theorem select_nodup (ts : List Target) : (select ts).Nodup := List.Nodup.filter _ (by decide)

end Target

/-- The tables of a class list what they declare: an object for each device stage of the program,
made from the stage's text for the target, and the vertex inputs. -/
theorem TranslationUnit.generate_tables {u : TranslationUnit} {targets : List Target}
    {compiler : Option ShaderCompiler} {g : Generated} (h : u.generate targets compiler = .ok g) :
    ∃ c, Catalog.build u.declarations = .ok c ∧
      g.text = "\n".intercalate (g.header.lines c ⟨u.declarations⟩ u.fileName) ++ "\n" ∧
      ∀ k ∈ g.header.classes, u.Tabled targets compiler c g k := by
  obtain ⟨-, c, hc, rfl⟩ := generate_ok.1 h
  refine ⟨c, hc, rfl, fun k hk => ?_⟩
  -- a class comes from one emitted function, and its tables from that function's outputs
  have hclasses := hk
  rw [result_classes] at hclasses
  obtain ⟨f, hf, hrun⟩ := List.mem_flatMap.1 hclasses
  unfold FunctionRun.classes at hrun
  split at hrun
  next prog os ds hresult =>
    obtain rfl := List.mem_singleton.1 hrun
    obtain ⟨hprogram, houtputs, -⟩ := PipelineFn.generate_serves hresult
    have htargets : (PipelineClass.of prog os).tables.map (·.target) = Target.select targets := by
      rw [PipelineClass.of, List.map_map]
      exact Program.map_target houtputs
    refine ⟨⟨f, hf, hprogram⟩, ⟨StageSet.devices_sorted _, fun s => StageSet.mem_devices⟩, ?_,
      fun t => ?_, fun t ht => ?_⟩
    · rw [htargets]
      exact Target.select_nodup targets
    · rw [htargets]
      exact Target.mem_select
    · obtain ⟨o, ho, rfl⟩ := List.mem_map.1 ht
      have ho := Program.serves_of_mem houtputs ho
      exact ⟨PipelineClass.table_lists ho, Header.tableLines_isInfix c _ _ hk ht⟩
  · cases hrun

namespace Sample

open Workbench

def meshUnit : TranslationUnit := (buildMesh withRuntime).2.unit "mesh.cpp" [meshed]

end Sample

open Sample in
theorem TranslationUnit.generate_tables_meshed :
    ∃ g c, meshUnit.generate [.metal, .glsl] none = .ok g ∧
    Catalog.build meshUnit.declarations = .ok c ∧
    (g.header.classes.map fun k => k.tables.map fun t =>
      (t.target, t.objects.length, t.bindings.length, t.attributes.length)) =
        [[(.glsl, 1, 2, 6), (.metal, 1, 2, 6)]] ∧
    ∀ k ∈ g.header.classes, meshUnit.Tabled [.metal, .glsl] none c g k := by
  obtain ⟨g, hg, hsizes⟩ := exists_of_generates meshUnit [.metal, .glsl]
    (fun g => (g.header.classes.map fun k => k.tables.map fun t =>
      (t.target, t.objects.length, t.bindings.length, t.attributes.length)) ==
        [[(.glsl, 1, 2, 6), (.metal, 1, 2, 6)]])
    (by decide +kernel)
  obtain ⟨c, hc, -, htables⟩ := generate_tables hg
  exact ⟨g, c, hg, hc, by simpa using hsizes, htables⟩

end ShaderSplit
