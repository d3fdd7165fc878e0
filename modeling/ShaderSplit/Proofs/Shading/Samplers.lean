import ShaderSplit.Proofs.Generate.Isolation
import ShaderSplit.Proofs.Partition.Sampling
import ShaderSplit.Proofs.Shading.Printing

namespace ShaderSplit

/-- What a program knows of a sample in stage `s`: its entry is for the stage, with the texture of
the sampled parameter and a sampler of the configuration that the argument asks for. Both are marked
for the stage, and so among those that are declared in it. -/
structure Program.Samples (prog : Program) (s : Stage) (id : NodeId) (param : Nat) (sampler : Expr)
    (call : SampleCall) (texture : TextureRecord) (state : SamplerRecord) : Prop where
  found : prog.sampleCall? id = some call
  inStage : call.stage = s
  textureAt : prog.textures[call.texture]? = some texture
  textureOf : texture.param = param
  textureMarked : texture.stages.contains s = true
  textureDeclared : (texture, call.texture) ∈ prog.texturesOf s
  samplerAt : prog.samplers[call.sampler]? = some state
  configured : SamplerConfig.ofExpr sampler = .ok state.config
  samplerMarked : state.stages.contains s = true
  samplerDeclared : (state, call.sampler) ∈ prog.samplersOf s

/-- The text of a stage shows a sample of the texture with its sampler, at the coordinate, and
declares both. In GLSL a sampler is part of the texture. -/
def Program.ShowsSample (prog : Program) (c : Catalog) (t : Target) (s : Stage) (object uv : Expr)
    (call : SampleCall) (texture : TextureRecord) : Prop :=
  ∃ lines type name coord, prog.stageText c t s = "\n".intercalate lines ∧
    type = c.spellType (.ofLanguage t.language) texture.ty ∧ name = texture.name ∧
    coord = Writer.text ⟨prog, c, s, .ofLanguage t.language⟩ uv ∧
    match t.language with
    | .glsl =>
      s!"layout(binding = {call.texture}) uniform {type} {name};" ∈ lines ∧
      ∃ line ∈ lines, Occurs s!"texture({name}, {coord})" line
    | .hlsl =>
      s!"{type} {name} : register(t{call.texture});" ∈ lines ∧
      s!"SamplerState _sampler{call.sampler} : register(s{call.sampler});" ∈ lines ∧
      ∃ line ∈ lines, Occurs s!"{name}.Sample(_sampler{call.sampler}, {coord})" line
    | .metal =>
      (∃ args, s!"{type} {name} [[texture({call.texture})]]" ∈ args ∧
        s!"sampler _sampler{call.sampler} [[sampler({call.sampler})]]" ∈ args ∧
        ∃ line ∈ lines, Occurs (" main0(" ++ ", ".intercalate args ++ ") \x7b") line) ∧
      ∃ line ∈ lines,
        if c.isTextureArray object.ty then
          ∃ x, x = (if uv.isBinary then "(" ++ coord ++ ")" else coord) ∧
            Occurs s!"{name}.sample(_sampler{call.sampler}, {x}.xy, uint({x}.z))" line
        else Occurs s!"{name}.sample(_sampler{call.sampler}, {coord})" line

/-- In a finished program, identities of entries are their own, so the entry is found. -/
theorem Draft.HasSample.samples {p : Pipeline} {d : Draft} {s : Stage} {id : NodeId} {param : Nat}
    {sampler : Expr} (h : d.HasSample s id param sampler)
    (hids : (d.sampleCalls.map (·.expr)).Nodup) :
    ∃ call texture state, (d.finish p).Samples s id param sampler call texture state := by
  obtain ⟨call, hcall, rfl, hstage, ⟨x, hx, hparam, hmark⟩, k, hk, hconfig, hmark'⟩ := h
  have hfind : d.sampleCalls.find? (·.expr == call.expr) = some call := by
    cases hf : d.sampleCalls.find? (·.expr == call.expr) with
    | none => simpa using List.find?_eq_none.1 hf call hcall
    | some call' =>
      have hid : call'.expr = call.expr := by simpa using List.find?_some hf
      exact congrArg some (List.inj_on_of_nodup_map hids (List.mem_of_find?_eq_some hf) hcall hid)
  have hdeclared : (x, call.texture) ∈ (d.finish p).texturesOf s :=
    List.mem_filter.2 ⟨List.mem_zipIdx_iff_getElem?.2 hx, hmark⟩
  have hdeclared' : (k, call.sampler) ∈ (d.finish p).samplersOf s :=
    List.mem_filter.2 ⟨List.mem_zipIdx_iff_getElem?.2 hk, hmark'⟩
  exact ⟨call, x, k, hfind, hstage, hx, hparam, hmark, hdeclared, hk, hconfig, hmark', hdeclared'⟩

theorem SamplerConfig.constant_of_ok {e : Expr} {config : SamplerConfig}
    (h : SamplerConfig.ofExpr e = .ok config) : ∃ n v, e = .constant n v := by
  cases e with
  | constant n v => exact ⟨n, v, rfl⟩
  | _ => cases h

theorem Signature.texture_eq_some {c : Catalog} {q : Param} {i : Nat} {y : TextureRecord}
    (h : Signature.texture c q i = some y) : y.param = i ∧ y.name = q.name ∧
      ((∃ b, q.role = .vertexTexture b) ∨ ∃ b, q.role = .fragmentTexture b) := by
  unfold Signature.texture at h
  obtain ⟨x, -, h⟩ := Option.bind_eq_some_iff.1 h
  split at h
  next b hb =>
    cases h
    exact ⟨rfl, rfl, .inl ⟨b, hb⟩⟩
  next b hb =>
    cases h
    exact ⟨rfl, rfl, .inr ⟨b, hb⟩⟩
  · cases h

theorem Catalog.build_method {ds : List Declaration} {c : Catalog} {m : DeclId} {f : BuiltinMethod}
    (h : Catalog.build ds = .ok c) (hf : c.method? m = some f) :
    f.isSwizzle = true ∨ f.isSample = true := by
  have hrows : ∀ row ∈ BuiltinMethod.rows, row.isSwizzle = true ∨ row.isSample = true := by
    decide +kernel
  unfold Catalog.build at h
  dsimp only at h
  split at h
  · cases h
    obtain ⟨x, hx, rfl⟩ := Option.map_eq_some_iff.1 hf
    obtain ⟨row, hrow, hid⟩ :=
      List.mem_filterMap.1 (List.mem_of_mem_filter (List.mem_of_getLast? hx))
    obtain ⟨_, -, rfl⟩ := Option.map_eq_some_iff.1 hid
    exact hrows row hrow
  · cases h

namespace Writer

variable {w : Writer}

def Resolves (w : Writer) : Expr → Prop
  | .methodCall n m _ _ => w.swizzle? m = none → (w.program.sampleCall? n.id).isSome = true
  | _ => True

theorem unresolvedIn_eq_zero {es : List Expr} (h : ∀ e ∈ es, w.unresolved e = 0) :
    w.unresolvedIn es = 0 := by
  induction es with
  | nil => rfl
  | cons e es ih => rw [unresolvedIn, h e (by simp), ih fun x hx => h x (by simp [hx])]

theorem unresolved_eq_zero {e : Expr} (h : e.All w.Resolves) : w.unresolved e = 0 := by
  induction e using Expr.ind with
  | literal | constant | param | localVar | interface | unsupported => rfl
  | binary n op lhs rhs hl hr =>
    rw [Expr.all_binary] at h
    rw [unresolved, hl h.2.1, hr h.2.2]
  | unary n op e ih | cast n e ih | member n e f ih =>
    simp only [Expr.all_unary, Expr.all_cast, Expr.all_member] at h
    rw [unresolved, ih h.2]
  | construct n args ih | initList n args ih | call n f args ih =>
    simp only [Expr.all_construct, Expr.all_initList, Expr.all_call] at h
    rw [unresolved, unresolvedIn_eq_zero fun e he => ih e he (h.2 e he)]
  | methodCall n m object args ho ih =>
    rw [Expr.all_methodCall] at h
    obtain ⟨hcall, hobject, hargs⟩ := h
    have hfound : w.swizzle? m = none → (w.program.sampleCall? n.id).isNone = false := by
      intro hm
      rw [← Option.not_isSome, hcall hm, Bool.not_true]
    cases args with
    | nil => cases hm : w.swizzle? m <;> simp [unresolved, hm, hfound, ho hobject]
    | cons coord rest =>
      have hcoord := ih coord (by simp) (hargs coord (by simp))
      cases hm : w.swizzle? m <;> simp [unresolved, hm, hfound, ho hobject, hcoord]

theorem unresolvedInBody_eq_zero (h : ∀ st ∈ w.block, ∀ x ∈ st.terms, w.Resolves x) :
    w.unresolvedInBody = 0 := by
  have hstmt : ∀ st ∈ w.block, unresolvedInBody.unresolvedInStmt w st = 0 := by
    intro st hst
    have hall : ∀ e ∈ st.exprs, e.All w.Resolves :=
      fun e he x hx => h st hst x (List.mem_flatMap.2 ⟨e, he, hx⟩)
    cases st with
    | decl d => exact unresolved_eq_zero (hall d.init (by simp [StageStmt.exprs]))
    | expr e => exact unresolved_eq_zero (hall e (by simp [StageStmt.exprs]))
    | bindingDecl | pushUniform => rfl
  unfold unresolvedInBody
  generalize w.block = block at hstmt
  induction block with
  | nil => rfl
  | cons st block ih =>
    rw [List.foldl_cons, hstmt st (by simp)]
    exact ih fun x hx => hstmt x (by simp [hx])

end Writer

namespace Pipeline

theorem block_logged {p : Pipeline} {d : Draft} (hb : d.Logbook p) {s : Stage} {st : StageStmt}
    (hst : st ∈ (d.finish p).blocks.get s) : ∀ x ∈ st.terms, d.Logs p s x := by
  rw [Draft.finish_block] at hst
  intro x hx
  obtain ⟨e, he, hxe⟩ := List.mem_flatMap.1 hx
  obtain ⟨origin, htag⟩ := Draft.queued_of_block hst (List.ne_nil_of_mem he)
  exact hb.queued s (st, origin) htag e he x hxe

end Pipeline

theorem Writer.swizzle?_eq_none {w : Writer} {m : DeclId} {b : BuiltinMethod}
    (hm : w.catalog.method? m = some b) : w.swizzle? m = none ↔ b.isSwizzle = false := by
  cases hs : b.isSwizzle <;> simp [swizzle?, hm, hs]

namespace Draft.Logbook

variable {p : Pipeline} {d : Draft} {ds : List Declaration} {w : Writer} {st : StageStmt}

/-- A method that is written in a finished block is a swizzle without arguments, or a sample with an
entry. -/
theorem methods (hb : d.Logbook p) (hcatalog : Catalog.build ds = .ok w.catalog)
    (hc : p.catalog = w.catalog) (hprog : w.program = d.finish p) (hst : st ∈ w.block) {n : Node}
    {m : DeclId} {object : Expr} {args : List Expr} (hx : .methodCall n m object args ∈ st.terms) :
    (w.swizzle? m ≠ none → args = []) ∧ (w.swizzle? m = none →
      ∃ n' i uv sampler call texture state, object = .param n' i ∧ args = [uv, sampler] ∧
        w.program.Samples w.stage n.id i sampler call texture state) := by
  obtain ⟨b, hm, hbare, hlog⟩ := Pipeline.block_logged hb (s := w.stage) (hprog ▸ hst) _ hx
  rw [hc] at hm
  rw [ne_eq, Writer.swizzle?_eq_none hm]
  refine ⟨fun hswizzle => hbare ?_, fun hswizzle => ?_⟩
  · simp [BuiltinMethod.isSample, hswizzle]
  · have hsample := (Catalog.build_method hcatalog hm).resolve_left (by simp [hswizzle])
    obtain ⟨n', i, uv, sampler, rfl, rfl, hhas⟩ := hlog hsample
    obtain ⟨call, texture, state, hsamples⟩ := hhas.samples (p := p) hb.ids
    exact ⟨n', i, uv, sampler, call, texture, state, rfl, rfl, hprog ▸ hsamples⟩

theorem unresolvedInBody (hb : d.Logbook p) (hcatalog : Catalog.build ds = .ok w.catalog)
    (hc : p.catalog = w.catalog) (hprog : w.program = d.finish p) : w.unresolvedInBody = 0 := by
  apply Writer.unresolvedInBody_eq_zero
  intro st hst x hx
  unfold Writer.Resolves
  split
  next n m object args =>
    intro hswizzle
    obtain ⟨_, _, _, _, _, _, _, -, -, hsamples⟩ := (hb.methods hcatalog hc hprog hst hx).2 hswizzle
    rw [hsamples.found]
    rfl
  · trivial

theorem legible (hb : d.Logbook p) (hcatalog : Catalog.build ds = .ok w.catalog)
    (hc : p.catalog = w.catalog) (hprog : w.program = d.finish p) (hst : st ∈ w.block) :
    ∀ x ∈ st.terms, w.Legible x := by
  intro x hx
  unfold Writer.Legible
  split
  next n m object args =>
    obtain ⟨hbare, hsample⟩ := hb.methods hcatalog hc hprog hst hx
    refine ⟨hbare, fun hswizzle => ?_⟩
    obtain ⟨_, _, uv, sampler, _, _, _, -, rfl, hsamples⟩ := hsample hswizzle
    obtain ⟨n', v, rfl⟩ := SamplerConfig.constant_of_ok hsamples.configured
    exact ⟨uv, n', v, rfl⟩
  · trivial

theorem paramName {c : Catalog} {decls : DeclIndex} {f : PipelineFn} (hb : d.Logbook p)
    (hcheck : Pipeline.check c decls f = .ok p) {x : TextureRecord} (hx : x ∈ d.textures)
    (l : Dialect) (s : Stage) : (d.finish p).paramName l s x.param = x.name := by
  obtain ⟨y, hy, heq⟩ := hb.bound x hx
  obtain ⟨rfl, hsignature⟩ := Pipeline.check_fn hcheck
  rw [hsignature] at hy
  obtain ⟨⟨q, i⟩, hq, htexture⟩ := List.mem_filterMap.1 hy
  obtain ⟨rfl, hname, hrole⟩ := Signature.texture_eq_some htexture
  have hparam : (d.finish p).params[y.param]? = some q := List.mem_zipIdx_iff_getElem?.1 hq
  rw [heq]
  dsimp only
  unfold Program.paramName
  rw [hparam, hname]
  rcases hrole with ⟨b, hb⟩ | ⟨b, hb⟩ <;> cases l <;> simp [hb]

end Draft.Logbook

namespace Program.Samples

variable {prog : Program} {s : Stage} {n : Node} {i : Nat} {sampler : Expr} {call : SampleCall}
  {texture : TextureRecord} {state : SamplerRecord}

theorem samplerOf (h : prog.Samples s n.id i sampler call texture state) (c : Catalog)
    (l : Dialect) :
    Writer.samplerOf ⟨prog, c, s, l⟩ n.id = toString call.sampler := by
  simp [Writer.samplerOf, h.found]

theorem shows (h : prog.Samples s n.id i sampler call texture state) {c : Catalog} {m : DeclId}
    {n' : Node} {uv : Expr} (hname : ∀ l, prog.paramName l s i = texture.name)
    (hm : ∀ l, Writer.swizzle? ⟨prog, c, s, l⟩ m = none)
    (hbody : ∀ l, ∃ line ∈ Writer.body ⟨prog, c, s, l⟩ "    ",
      Occurs (Writer.text ⟨prog, c, s, l⟩ (.methodCall n m (.param n' i) [uv, sampler])) line)
    (t : Target) : prog.ShowsSample c t s (.param n' i) uv call texture := by
  have htext (l : Dialect) :
      Writer.text ⟨prog, c, s, l⟩ (.methodCall n m (.param n' i) [uv, sampler]) =
      Writer.sample ⟨prog, c, s, l⟩ n.id (.param n' i) texture.name [uv, sampler]
        [Writer.text ⟨prog, c, s, l⟩ uv, Writer.text ⟨prog, c, s, l⟩ sampler] := by
    rw [Writer.text_sample (hm l), Writer.text, hname l, List.map_cons, List.map_singleton]
  simp only [htext] at hbody
  unfold Program.ShowsSample Program.stageText
  -- the languages differ in where a texture and its sampler are declared
  cases t.language with
  | glsl =>
    obtain ⟨lines, hsource, htextures, hlines⟩ := Glsl.exists_lines prog c s
    obtain ⟨line, hline, hshown⟩ := hbody .glsl
    refine ⟨lines, _, _, _, hsource, rfl, rfl, rfl, htextures ?_, line, hlines hline, hshown⟩
    exact List.mem_map.2 ⟨_, h.textureDeclared, rfl⟩
  | hlsl =>
    obtain ⟨lines, hsource, hresources, hlines⟩ := Hlsl.exists_lines (t == .vulkanSpirv) prog c s
    obtain ⟨line, hline, hshown⟩ := hbody .hlsl
    rw [Writer.sample, h.samplerOf] at hshown
    refine ⟨lines, _, _, _, hsource, rfl, rfl, rfl, hresources ?_, hresources ?_, line,
      hlines hline, hshown⟩
    · exact List.mem_append_left _ (List.mem_map.2 ⟨_, h.textureDeclared, rfl⟩)
    · exact List.mem_append_right _ (List.mem_map.2 ⟨_, h.samplerDeclared, rfl⟩)
  | metal =>
    obtain ⟨lines, hsource, hentry, hlines⟩ := Metal.exists_lines prog c s
    obtain ⟨line, hline, hshown⟩ := hbody .metal
    rw [Writer.sample, Writer.metalSample, h.samplerOf] at hshown
    refine ⟨lines, _, _, _, hsource, rfl, rfl, rfl, ⟨_, ?_, ?_, hentry⟩, line, hlines hline, ?_⟩
    · refine List.mem_append_left _ (List.mem_append_right _ ?_)
      exact List.mem_map.2 ⟨_, h.textureDeclared, rfl⟩
    · exact List.mem_append_right _ (List.mem_map.2 ⟨_, h.samplerDeclared, rfl⟩)
    · dsimp only at hshown
      split at hshown
      next harray =>
        rw [if_pos harray]
        exact ⟨_, rfl, hshown⟩
      next harray =>
        rw [if_neg harray]
        exact hshown

end Program.Samples

namespace Pipeline

/-- Every sample in a block finds its own texture and sampler, and is printed over them; none is
left to the first sampler. -/
theorem split_samples {ds : List Declaration} {c : Catalog} {f : PipelineFn} {p : Pipeline}
    {prog : Program} {notices : List String} (hcatalog : Catalog.build ds = .ok c)
    (hcheck : check c ⟨ds⟩ f = .ok p) (hbare : p.BareSwizzles)
    (h : p.split = (.ok prog, notices)) :
    (∀ s, ∀ st ∈ prog.blocks.get s, ∀ n m object args b, .methodCall n m object args ∈ st.terms →
      c.method? m = some b → b.isSample = true → ∃ n' i uv sampler call texture state,
        object = .param n' i ∧ args = [uv, sampler] ∧
        prog.Samples s n.id i sampler call texture state ∧
        ∀ t, prog.ShowsSample c t s object uv call texture) ∧
    ∀ t s, prog.unresolvedSamples c t s = 0 := by
  obtain ⟨d, hrun, rfl⟩ := split_runs h
  have hb := hrun.logbook hbare (start_logbook p)
  have hc : p.catalog = c := check_catalog hcheck
  refine ⟨fun s st hst n m object args b hx hm hsample => ?_, fun t s => ?_⟩
  · have hswizzle (l : Dialect) : Writer.swizzle? ⟨d.finish p, c, s, l⟩ m = none := by
      refine (Writer.swizzle?_eq_none hm).2 ?_
      simp only [BuiltinMethod.isSample, Bool.and_eq_true, Bool.not_eq_true'] at hsample
      exact hsample.1
    -- what the tables say of the sample is the same for all languages
    obtain ⟨n', i, uv, sampler, call, texture, state, rfl, rfl, hsamples⟩ :=
      (hb.methods (w := ⟨d.finish p, c, s, .glsl⟩) hcatalog hc rfl hst hx).2 (hswizzle .glsl)
    refine ⟨n', i, uv, sampler, call, texture, state, rfl, rfl, hsamples, ?_⟩
    refine hsamples.shows (fun l => ?_) hswizzle fun l => ?_
    · rw [← hsamples.textureOf]
      exact hb.paramName hcheck (List.mem_of_getElem? hsamples.textureAt) l s
    · exact Writer.occurs_body hst (hb.legible hcatalog hc rfl hst) hx "    "
  · unfold Program.unresolvedSamples
    split
    · rfl
    · exact hb.unresolvedInBody hcatalog hc rfl

end Pipeline

namespace Sample

open Workbench

/-- A sample of the fragment stage is shared by two outputs; the coordinate comes from the vertex
stage, which samples a texture of its own for the second output. -/
def textured : PipelineFn :=
  (build withRuntime).1
where
  build : Building PipelineFn := do
    let texture ← ty "texture2d<float>"
    let pair ← ty "float2"
    let color ← ty "float4"
    let ps : List Param :=
      [⟨"near", texture, .vertexTexture 0, .dummy⟩, ⟨"far", texture, .fragmentTexture 0, .dummy⟩,
      ⟨"uv", pair, .varyingInput .vertex, .dummy⟩, ⟨"o", color, .colorTarget 0, .dummy⟩,
      ⟨"q", color, .colorTarget 1, .dummy⟩]
    let (da, a) ← declare "a" color (← Workbench.sample (← arg ps 1) (← arg ps 2) (← sampler 0 1))
    let o ← assign .assign (← arg ps 3) (← useLocal a)
    let b ← Workbench.sample (← arg ps 0) (← arg ps 2) (← sampler 1 1)
    let q ← assign .assign (← arg ps 4) (← binary .mul (← useLocal a) b)
    return ⟨"textured", ps, [da, o, q], .dummy⟩

def overRuntime (f : PipelineFn) : Pipeline :=
  ⟨runtime, ⟨withRuntime.declarations⟩, f, .ofParams runtime ⟨withRuntime.declarations⟩ f.params⟩

theorem check_overRuntime {f : PipelineFn}
    (h : (Signature.diagnostics runtime ⟨withRuntime.declarations⟩ f).isEmpty = true) :
    Pipeline.check runtime ⟨withRuntime.declarations⟩ f = .ok (overRuntime f) :=
  Pipeline.check_of_isEmpty h

end Sample

open Sample Workbench in
theorem Pipeline.split_samples_textured : ∃ prog notices,
    Catalog.build withRuntime.declarations = .ok runtime ∧
    check runtime ⟨withRuntime.declarations⟩ textured = .ok (overRuntime textured) ∧
    (overRuntime textured).BareSwizzles ∧ (overRuntime textured).split = (.ok prog, notices) ∧
    (∃ st ∈ prog.blocks.get .vertex, ∃ n m object args b, .methodCall n m object args ∈ st.terms ∧
      runtime.method? m = some b ∧ b.isSample = true ∧ ∃ n' i uv sampler call texture state,
        object = .param n' i ∧ args = [uv, sampler] ∧
        prog.Samples .vertex n.id i sampler call texture state ∧
        ∀ t, prog.ShowsSample runtime t .vertex object uv call texture) ∧
    prog.sampleCalls.length = 3 ∧ ∀ t s, prog.unresolvedSamples runtime t s = 0 := by
  have hcheck := check_overRuntime (f := textured) (by decide +kernel)
  have hbare : (overRuntime textured).BareSwizzles := by decide +kernel
  obtain ⟨prog, notices, h, htest⟩ := exists_of_splits (overRuntime textured)
    (fun prog => prog.sampleCalls.length == 3 && (prog.blocks.get .vertex).any
      fun st => st.terms.any fun e =>
      match e with
      | .methodCall _ m _ _ => (runtime.method? m).any (·.isSample)
      | _ => false) (by decide +kernel)
  obtain ⟨hsamples, hunresolved⟩ := split_samples build_runtime hcheck hbare h
  simp only [Bool.and_eq_true, beq_iff_eq, List.any_eq_true] at htest
  obtain ⟨hlength, st, hst, e, he, hmethod⟩ := htest
  refine ⟨prog, notices, build_runtime, hcheck, hbare, h, ⟨st, hst, ?_⟩, hlength, hunresolved⟩
  split at hmethod
  next n m object args =>
    obtain ⟨b, hb, hsample⟩ := (Option.any_eq_true _ _).1 hmethod
    exact ⟨n, m, object, args, b, he, hb, hsample,
      hsamples .vertex st hst n m object args b he hb hsample⟩
  · cases hmethod

end ShaderSplit
