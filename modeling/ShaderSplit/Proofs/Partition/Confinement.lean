import ShaderSplit.Proofs.Partition.Bounds

namespace ShaderSplit

namespace Pipeline

variable {p : Pipeline}

def ReadsInput (p : Pipeline) (s : Stage) : Prop :=
  ∃ n i q, .param n i ∈ p.scope.terms ∧ p.fn.params[i]? = some q ∧ q.role = .varyingInput s

/-- Stages that hold statements, and no limit on values. -/
def reach (p : Pipeline) : Limits where
  stage s := p.stages.contains s = true ∨ p.ReadsInput s ∨ s = .fragment ∧ ¬ p.BareSwizzles
  value _ := True
  field _ _ := True
  arrives _ _ _ _ _ _ := trivial

/-- A parameter of an accepted function is of an active stage, unless it is an input or a
fragment texture. -/
theorem check_role {c : Catalog} {d : DeclIndex} {f : PipelineFn} (h : check c d f = .ok p)
    {q : Param} (hq : q ∈ p.fn.params) :
    p.stages.contains q.role.stage = true ∨ q.role = .varyingInput q.role.stage ∨
    q.role.stage = .fragment := by
  have output : q.role.isOutput = true → p.stages.contains q.role.stage = true := fun hout =>
    (check_stages h).2 (.inr (.inr ⟨q, hq, hout, rfl⟩))
  have vertex : p.stages.contains .vertex = true := (check_stages h).2 (.inr (.inl rfl))
  cases hr : q.role with
  | captured => exact .inl ((check_stages h).2 (.inl rfl))
  | vertexBuffer | instanceBuffer | vertexTexture => exact .inl vertex
  | fragmentTexture => exact .inr (.inr rfl)
  | varyingInput s => exact .inr (.inl rfl)
  | position | colorTarget | varyingOutput => exact .inl (hr ▸ output (by rw [hr]; rfl))

/-- Where a value is placed no later than an active stage, or swizzles have arguments, its
stage is in reach. -/
theorem check_within {c : Catalog} {d : DeclIndex} {f : PipelineFn} (h : check c d f = .ok p)
    {u : Stage} (hu : p.BareSwizzles ∧ p.stages.contains u = true ∨ ¬ p.BareSwizzles ∧
      u = .fragment) : p.Within p.reach u where
  active s hs := .inl hs
  params n i q hmem hq hle := by
    rcases check_role h (List.mem_of_getElem? hq) with hactive | hinput | hfragment
    · exact .inl hactive
    · exact .inr (.inl ⟨n, i, q, hmem, hq, hinput⟩)
    · rcases hu with ⟨-, hactive⟩ | ⟨hargs, -⟩
      · rw [hfragment] at hle ⊢
        have hlast : u = .fragment := by
          cases u <;> first | rfl | exact absurd hle (by decide)
        exact .inl (hlast ▸ hactive)
      · exact .inr (.inr ⟨hfragment, hargs⟩)
  swizzles := hu.imp And.left And.right
  references _ _ _ _ _ _ _ := trivial
  computed _ _ _ _ _ _ := trivial

end Pipeline

/-- Statements stand in active stages, in stages whose inputs are read, or beside a swizzle with
arguments; a reference leads to an active stage, from one that is active or whose input is read. -/
structure Program.Confined (p : Pipeline) (prog : Program) : Prop where
  blocks : ∀ s, prog.blocks.get s ≠ [] →
    p.stages.contains s = true ∨ p.ReadsInput s ∨ s = .fragment ∧ ¬ p.BareSwizzles
  references : ∀ s, ∀ st ∈ prog.blocks.get s, ∀ n r, .interface n r ∈ st.terms →
    p.stages.contains r.dest = true ∧ (p.stages.contains r.source = true ∨ p.ReadsInput r.source)

namespace Draft

variable {p : Pipeline} {d : Draft}

theorem block_of_ne_host {m : StageSet} {s : Stage} (hs : s ≠ .host) :
    d.block m s = (d.queue s).tags.map (·.1) := by
  rw [← Queue.statements_eq]
  cases s <;> first | rfl | exact absurd rfl hs

theorem Bounded.blocks (h : d.Bounded p p.reach) (hhost : p.stages.contains .host = true)
    {s : Stage} (hs : d.block p.stages s ≠ []) : p.reach.stage s := by
  by_cases hh : s = .host
  · exact .inl (hh ▸ hhost)
  · rw [block_of_ne_host hh] at hs
    obtain ⟨st, hst⟩ := List.exists_mem_of_ne_nil _ hs
    obtain ⟨e, he, -⟩ := List.mem_map.1 hst
    exact (h.queued s e he).1

theorem Bounded.references (h : d.Bounded p p.reach) {s : Stage} {st : StageStmt}
    (hst : st ∈ d.block p.stages s) {n : Node} {r : InterfaceRef} (hr : .interface n r ∈ st.terms) :
    p.reach.stage r.source ∧ r.source < r.dest ∧ p.stages.contains r.dest = true := by
  obtain ⟨e, he, hre⟩ := List.mem_flatMap.1 hr
  obtain ⟨origin, htag⟩ := queued_of_block hst (List.ne_nil_of_mem he)
  exact (h.queued s (st, origin) htag).2 e he _ hre

end Draft

/-- Statements of an accepted function stand in its stages and in those of the inputs it reads, and
every reference leads to a stage of the function. -/
theorem Pipeline.split_confined {c : Catalog} {d : DeclIndex} {f : PipelineFn} {p : Pipeline}
    {prog : Program} {notices : List String} (hcheck : check c d f = .ok p)
    (h : p.split = (.ok prog, notices)) : prog.Confined p := by
  have hwithin : ∀ s ∈ p.stages.devices, ∃ u, s ≤ u ∧ p.Within p.reach u := by
    intro s hs
    by_cases hbare : p.BareSwizzles
    · exact ⟨s, le_refl s, check_within hcheck (.inl ⟨hbare, (StageSet.mem_devices.1 hs).1⟩)⟩
    · exact ⟨.fragment, by cases s <;> decide, check_within hcheck (.inr ⟨hbare, rfl⟩)⟩
  obtain ⟨d, hrun, rfl⟩ := split_runs h
  have hd := hrun.bounded_start (fun _ _ _ _ _ _ _ _ => trivial) hwithin
  refine ⟨fun s hs => ?_, fun s st hst n r hr => ?_⟩
  · rw [Draft.finish_block] at hs
    exact hd.blocks ((check_stages hcheck).2 (.inl rfl)) hs
  · rw [Draft.finish_block] at hst
    obtain ⟨hsource, hlt, hdest⟩ := hd.references hst hr
    refine ⟨hdest, ?_⟩
    -- nothing comes after the fragment stage, so no reference starts there
    have hne : r.source ≠ .fragment := by
      intro hfragment
      rw [hfragment] at hlt
      cases hlast : r.dest <;> rw [hlast] at hlt <;> exact absurd hlt (by decide)
    exact hsource.imp_right fun hs => hs.resolve_right fun hs => hne hs.1

namespace Sample

open Workbench

/-- An input of a stage that the function lacks, passed to the fragment stage. -/
def strayed : PipelineFn :=
  let ps := [param "k" (.varyingInput .control), param "o" (.varyingOutput .fragment)]
  fn "strayed" ps do return [← assign .assign (← arg ps 1) (← arg ps 0)]

def sources (block : List StageStmt) : List Stage :=
  (block.flatMap StageStmt.terms).filterMap fun
    | .interface _ r => some r.source
    | _ => none

end Sample

open Sample in
theorem Pipeline.split_confined_strayed :
    ∃ prog notices, Pipeline.check bare ⟨[]⟩ strayed = .ok (pipeline strayed) ∧
    (pipeline strayed).split = (.ok prog, notices) ∧ prog.blocks.get .fragment ≠ [] ∧
    prog.Confined (pipeline strayed) := by
  have hcheck : Pipeline.check bare ⟨[]⟩ strayed = .ok (pipeline strayed) :=
    check_pipeline (by decide +kernel)
  obtain ⟨prog, notices, h, hblock⟩ := exists_of_splits (pipeline strayed)
    (fun prog => !(prog.blocks.get .fragment).isEmpty) (by decide +kernel)
  exact ⟨prog, notices, hcheck, h, by simpa using hblock, Pipeline.split_confined hcheck h⟩

open Sample in
/-- The control stage is not active. It holds the statement that feeds the fragment stage
all the same. -/
theorem Pipeline.split_strayed :
    ∃ prog notices, Pipeline.check bare ⟨[]⟩ strayed = .ok (pipeline strayed) ∧
    (pipeline strayed).split = (.ok prog, notices) ∧
    (pipeline strayed).stages.contains .control = false ∧
    (prog.blocks.get .control).length = 1 ∧ sources (prog.blocks.get .fragment) = [.control] := by
  have hcheck : Pipeline.check bare ⟨[]⟩ strayed = .ok (pipeline strayed) :=
    check_pipeline (by decide +kernel)
  obtain ⟨prog, notices, h, htest⟩ := exists_of_splits (pipeline strayed) (fun prog =>
    (prog.blocks.get .control).length == 1 && sources (prog.blocks.get .fragment) == [.control])
      (by decide +kernel)
  simp only [Bool.and_eq_true, beq_iff_eq] at htest
  exact ⟨prog, notices, hcheck, h, by decide +kernel, htest.1, htest.2⟩

end ShaderSplit
