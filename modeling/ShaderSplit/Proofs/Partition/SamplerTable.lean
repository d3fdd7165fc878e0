import ShaderSplit.Proofs.Partition.VertexSamples

namespace ShaderSplit

/-- Expression `expr` of a stage samples the texture of parameter `param` with the sampler that
`arg` asks for. -/
structure SampleRequest where
  stage : Stage
  expr : NodeId
  param : Nat
  arg : Expr

theorem Signature.texture_stages {c : Catalog} {p : Param} {i : Nat} {x : TextureRecord}
    (h : texture c p i = some x) : x.stages = .empty := by
  obtain ⟨t, -, h⟩ := Option.bind_eq_some_iff.1 h
  split at h
  all_goals cases h
  all_goals rfl

namespace Draft

def configs (d : Draft) : List SamplerConfig := d.samplers.map (·.config)

/-- The mask of each entry of a table holds the stages of the calls that use the entry. -/
def MarksOf {α : Type} (mask : α → StageSet) (slot : SampleCall → Nat) (calls : List SampleCall)
    (table : List α) : Prop :=
  ∀ (i : Nat) x, table[i]? = some x → ∀ s, (mask x).contains s = true ↔
    ∃ call ∈ calls, slot call = i ∧ call.stage = s

structure SampleTables (d : Draft) : Prop where
  distinct : d.configs.Nodup
  bounded : d.samplers.length ≤ maxSamplers
  within : ∀ call ∈ d.sampleCalls, call.sampler < d.samplers.length ∧
    call.texture < d.textures.length
  samplers : MarksOf SamplerRecord.stages SampleCall.sampler d.sampleCalls d.samplers
  textures : MarksOf TextureRecord.stages SampleCall.texture d.sampleCalls d.textures

def Binds (d : Draft) (p : Pipeline) : Prop :=
  d.textures.map (·.param) = p.signature.textures.map (·.param)

theorem Binds.iff {d : Draft} {p : Pipeline} {q : Nat} (h : d.Binds p) :
    (∃ x ∈ d.textures, x.param = q) ↔ ∃ x ∈ p.signature.textures, x.param = q := by
  have hmem := congrArg (q ∈ ·) h
  simpa only [List.mem_map, eq_iff_iff] using hmem

section

variable {ks ks' : List SamplerRecord} {config : SamplerConfig} {i : Nat}

/-- A configuration that was interned before, or a new one at the end. -/
theorem internSampler_cases (h : internSampler ks config = some (i, ks')) :
    config ∈ ks.map (·.config) ∧ ks' = ks ∨
      config ∉ ks.map (·.config) ∧ ks.length < maxSamplers ∧ i = ks.length ∧
      ks' = ks ++ [⟨config, .empty⟩] := by
  unfold internSampler at h
  split at h
  next j hj =>
    cases h
    obtain ⟨hlt, hc, -⟩ := List.findIdx?_eq_some_iff_getElem.1 hj
    exact .inl ⟨List.mem_map.2 ⟨_, List.getElem_mem hlt, by simpa using hc⟩, rfl⟩
  next hnone =>
    rw [List.findIdx?_eq_none_iff] at hnone
    split at h
    next hlt =>
      cases h
      exact .inr ⟨by simpa using hnone, hlt, rfl, rfl⟩
    · cases h

theorem internSampler_none (h : internSampler ks config = none) :
    config ∉ ks.map (·.config) ∧ maxSamplers ≤ ks.length := by
  unfold internSampler at h
  split at h
  · cases h
  next hnone =>
    rw [List.findIdx?_eq_none_iff] at hnone
    split at h
    · cases h
    next hfull => exact ⟨by simpa using hnone, Nat.le_of_not_lt hfull⟩

/-- No other entry has the configuration, so the search ends at its own. -/
theorem internSampler_known {k : SamplerRecord} (hn : (ks.map (·.config)).Nodup)
    (hi : ks[i]? = some k) :
    internSampler ks k.config = some (i, ks) := by
  obtain ⟨hlt, rfl⟩ := List.getElem?_eq_some_iff.1 hi
  have hfind : ks.findIdx? (·.config == ks[i].config) = some i := by
    refine List.findIdx?_eq_some_iff_getElem.2 ⟨hlt, by simp, fun j hj => ?_⟩
    have hne := List.pairwise_iff_getElem.1 hn j i (by rw [List.length_map]; omega)
      (by rwa [List.length_map]) hj
    simpa using hne
  simp only [internSampler, hfind]

end

section

variable {α : Type} {mask : α → StageSet} {slot : SampleCall → Nat} {calls : List SampleCall}
  {table table' : List α}

theorem MarksOf.push {x : α} (h : MarksOf mask slot calls table) (hx : mask x = .empty)
    (hslots : ∀ call ∈ calls, slot call < table.length) :
    MarksOf mask slot calls (table ++ [x]) := by
  intro i y hy s
  rcases Nat.lt_or_ge i table.length with hi | hi
  · rw [List.getElem?_append_left hi] at hy
    exact h i y hy s
  · rw [List.getElem?_append_right hi] at hy
    obtain rfl : y = x := List.mem_singleton.1 (List.mem_of_getElem? hy)
    rw [hx, StageSet.contains_empty]
    simp only [Bool.false_eq_true, false_iff, not_exists, not_and]
    intro call hcall hslot
    exact absurd (hslot ▸ hslots call hcall) (Nat.not_lt.2 hi)

theorem MarksOf.record {call : SampleCall} {mark : α → α} (h : MarksOf mask slot calls table)
    (hmark : ∀ x, mask (mark x) = (mask x).insert call.stage)
    (htable : ∀ i : Nat, table'[i]? = table[i]?.map fun x => if slot call = i then mark x else x) :
    MarksOf mask slot (calls ++ [call]) table' := by
  intro i y hy s
  rw [htable, Option.map_eq_some_iff] at hy
  obtain ⟨x, hx, rfl⟩ := hy
  have hold := h i x hx s
  by_cases hi : slot call = i
  · simp only [if_pos hi, hmark, StageSet.contains_insert, Bool.or_eq_true, beq_iff_eq, hold,
      List.mem_append, List.mem_singleton]
    grind
  · simp only [if_neg hi, hold, List.mem_append, List.mem_singleton]
    grind

end

end Draft

namespace SampleRequest

variable {p : Pipeline} {r : SampleRequest} {d d' : Draft} {i : Nat} {config : SamplerConfig}

def run (r : SampleRequest) : Drafting Nat := Draft.sample r.stage r.expr r.param r.arg

/-- The draft that a request leaves behind, granted or not. -/
def after (r : SampleRequest) (d : Draft) : Draft :=
  match r.run d with
  | .ok _ d' | .error _ d' => d'

inductive Outcome (r : SampleRequest) (d : Draft) : EStateM.Result TraceError Draft Nat → Prop
  | argument {fault : SamplerFault} :
      SamplerConfig.ofExpr r.arg = .error fault →
        Outcome r d (.error ⟨.samplerArgument fault, r.arg.span⟩ d)
  | unbound : (∀ x ∈ d.textures, x.param ≠ r.param) →
      Outcome r d (.error ⟨.unboundTexture, r.arg.span⟩ d)
  | full {config : SamplerConfig} {x : TextureRecord} :
      SamplerConfig.ofExpr r.arg = .ok config → x ∈ d.textures → x.param = r.param →
        config ∉ d.configs → maxSamplers ≤ d.samplers.length →
        Outcome r d (.error ⟨.samplerLimit, r.arg.span⟩ d)
  | granted {config : SamplerConfig} {t i : Nat} {x : TextureRecord} {ks : List SamplerRecord} :
      SamplerConfig.ofExpr r.arg = .ok config → d.textures[t]? = some x → x.param = r.param →
        Draft.internSampler d.samplers config = some (i, ks) →
        Outcome r d (.ok i (d.recordSample ks ⟨r.expr, t, i, r.stage⟩))

theorem run_outcome (r : SampleRequest) (d : Draft) : r.Outcome d (r.run d) := by
  unfold run Draft.sample
  split
  next hconfig => exact .argument hconfig
  next config hconfig =>
    split
    next hnone =>
      rw [List.findIdx?_eq_none_iff] at hnone
      exact .unbound fun x hx => by simpa using hnone x hx
    next t ht =>
      obtain ⟨hlt, hparam, -⟩ := List.findIdx?_eq_some_iff_getElem.1 ht
      replace hparam : d.textures[t].param = r.param := by simpa using hparam
      split
      next hfull =>
        obtain ⟨hnew, hlen⟩ := Draft.internSampler_none hfull
        exact .full hconfig (List.getElem_mem hlt) hparam hnew hlen
      next i ks hks => exact .granted hconfig (List.getElem?_eq_getElem hlt) hparam hks

theorem after_cases (r : SampleRequest) (d : Draft) :
    r.after d = d ∨ ∃ config t ks i x, d.textures[t]? = some x ∧
    Draft.internSampler d.samplers config = some (i, ks) ∧
      r.after d = d.recordSample ks ⟨r.expr, t, i, r.stage⟩ := by
  have ho := r.run_outcome d
  unfold after
  cases hx : r.run d <;> rw [hx] at ho <;> cases ho
  case ok.granted hconfig ht _ hks => exact .inr ⟨_, _, _, _, _, ht, hks, rfl⟩
  all_goals exact .inl rfl

end SampleRequest

namespace Draft

variable {d d' : Draft} {r : SampleRequest} {rs : List SampleRequest} {i : Nat}
  {config : SamplerConfig}

theorem recordSample_configs (d : Draft) (ks : List SamplerRecord) (call : SampleCall) :
    (d.recordSample ks call).configs = ks.map (·.config) := by
  apply List.ext_getElem?
  intro j
  rw [configs, List.getElem?_map, List.getElem?_map, recordSample_samplers, Option.map_map]
  congr 1
  funext k
  simp only [Function.comp_apply]
  split <;> rfl

theorem SampleTables.record {t : Nat} {x : TextureRecord} {ks : List SamplerRecord} {expr : NodeId}
    {s : Stage} (h : d.SampleTables) (ht : d.textures[t]? = some x)
    (hks : internSampler d.samplers config = some (i, ks)) :
    (d.recordSample ks ⟨expr, t, i, s⟩).SampleTables := by
  obtain ⟨-, k, hk, -⟩ := internSampler_some hks
  have hi : i < ks.length := (List.getElem?_eq_some_iff.1 hk).1
  have hlt : t < d.textures.length := (List.getElem?_eq_some_iff.1 ht).1
  -- what interning does before the call is logged: a new sampler is at the end, where no
  -- call has been
  have hgrown :
      (ks.map (·.config)).Nodup ∧ ks.length ≤ maxSamplers ∧ d.samplers.length ≤ ks.length ∧
      MarksOf SamplerRecord.stages SampleCall.sampler d.sampleCalls ks := by
    rcases internSampler_cases hks with ⟨-, rfl⟩ | ⟨hnew, hroom, rfl, rfl⟩
    · exact ⟨h.distinct, h.bounded, Nat.le_refl _, h.samplers⟩
    · refine ⟨?_, ?_, ?_, h.samplers.push rfl fun call hcall => (h.within call hcall).1⟩
      · rw [List.map_append, List.map_singleton, ← List.concat_eq_append]
        exact List.Nodup.concat hnew h.distinct
      · rw [List.length_append, List.length_singleton]
        exact hroom
      · rw [List.length_append]
        exact Nat.le_add_right _ _
  obtain ⟨hdistinct, hbounded, hlen, hmarks⟩ := hgrown
  refine ⟨?_, ?_, fun call hcall => ?_, hmarks.record (fun _ => rfl) (recordSample_samplers d ks _),
    h.textures.record (fun _ => rfl) (recordSample_textures d ks _)⟩
  · rwa [recordSample_configs]
  · simpa [recordSample] using hbounded
  · simp only [recordSample, List.length_modify]
    rcases List.mem_append.1 hcall with hcall | hcall
    · have := h.within call hcall
      omega
    · rw [List.mem_singleton.1 hcall]
      exact ⟨hi, hlt⟩

theorem SampleTables.after (h : d.SampleTables) (r : SampleRequest) : (r.after d).SampleTables := by
  rcases r.after_cases d with hd | ⟨config, t, ks, i, x, ht, hks, hd⟩
  · rwa [hd]
  · rw [hd]
    exact h.record ht hks

/-- Requests one after the other, each on the draft that the one before left behind. -/
def asked (d : Draft) (rs : List SampleRequest) : Draft := rs.foldl (fun d r => r.after d) d

theorem SampleTables.asked (h : d.SampleTables) (rs : List SampleRequest) :
    (d.asked rs).SampleTables := by
  induction rs generalizing d with
  | nil => exact h
  | cons r rs ih => exact ih (h.after r)

theorem asked_logGrows (d : Draft) (rs : List SampleRequest) : LogGrows d (d.asked rs) := by
  induction rs generalizing d with
  | nil => exact (Mute.refl d).logGrows
  | cons r rs ih =>
    refine LogGrows.trans ?_ (ih (r.after d))
    rcases r.after_cases d with hd | ⟨config, t, ks, i, x, -, hks, hd⟩
    · rw [hd]
      exact (Mute.refl d).logGrows
    · rw [hd]
      exact recordSample_logGrows (internSampler_some hks).1 _

theorem asked_params (d : Draft) (rs : List SampleRequest) :
    (d.asked rs).textures.map (·.param) = d.textures.map (·.param) := by
  induction rs generalizing d with
  | nil => rfl
  | cons r rs ih =>
    refine (ih (r.after d)).trans ?_
    rcases r.after_cases d with hd | ⟨config, t, ks, i, x, -, -, hd⟩
    · rw [hd]
    · rw [hd]
      exact (recordSample_alike ..).textures.symm

theorem start_sampleTables {c : Catalog} {x : DeclIndex} {f : PipelineFn} {p : Pipeline}
    (h : Pipeline.check c x f = .ok p) : (start p).SampleTables := by
  refine ⟨.nil, Nat.zero_le _, nofun, nofun, fun i t ht s => ?_⟩
  have hempty : t.stages = .empty := by
    have hmem : t ∈ (Signature.ofParams c x f.params).textures :=
      (Pipeline.check_fn h).2 ▸ List.mem_of_getElem? ht
    obtain ⟨⟨q, j⟩, -, hq⟩ := List.mem_filterMap.1 hmem
    exact Signature.texture_stages hq
  rw [hempty, StageSet.contains_empty]
  simp [start]

end Draft

namespace SampleRequest

variable {p : Pipeline} {r r' : SampleRequest} {d d' : Draft} {i : Nat} {config : SamplerConfig}
  {e : TraceError}

/-- The argument is a configuration, and the function declares a texture for the parameter. -/
structure Valid (p : Pipeline) (r : SampleRequest) (config : SamplerConfig) : Prop where
  config : SamplerConfig.ofExpr r.arg = .ok config
  texture : ∃ x ∈ p.signature.textures, x.param = r.param

structure Answered (p : Pipeline) (d : Draft) (r : SampleRequest) : Prop where
  /-- It is granted if it is valid and its configuration is known or has room. -/
  granted : (∃ i d', r.run d = .ok i d') ↔
    ∃ config, r.Valid p config ∧ (config ∈ d.configs ∨ d.samplers.length < maxSamplers)
  /-- It is refused for the limit if it is valid, and its configuration is new and has no room. -/
  limit : (∃ e d', r.run d = .error e d' ∧ e.fault = .samplerLimit) ↔
    ∃ config, r.Valid p config ∧ config ∉ d.configs ∧ d.samplers.length = maxSamplers
  /-- Failure changes nothing. -/
  atomic : ∀ e d', r.run d = .error e d' → d' = d
  /-- Success logs the sample, with the texture of the parameter and the sampler of the argument. -/
  logged : ∀ i d', r.run d = .ok i d' →
    ∃ t x k, d'.sampleCalls = d.sampleCalls ++ [⟨r.expr, t, i, r.stage⟩] ∧
    d'.textures[t]? = some x ∧ x.param = r.param ∧ d'.samplers[i]? = some k ∧
    SamplerConfig.ofExpr r.arg = .ok k.config
  /-- The position is given to all later requests for the configuration. -/
  lasting : ∀ i d' config, r.run d = .ok i d' → SamplerConfig.ofExpr r.arg = .ok config →
    ∀ (rs : List SampleRequest) (r' : SampleRequest), r'.Valid p config →
    ∃ d'', r'.run (d'.asked rs) = .ok i d''

theorem run_atomic (h : r.run d = .error e d') : d' = d := by
  have ho := r.run_outcome d
  rw [h] at ho
  cases ho <;> rfl

theorem run_logged (h : r.run d = .ok i d') :
    ∃ t x k, d'.sampleCalls = d.sampleCalls ++ [⟨r.expr, t, i, r.stage⟩] ∧
    d'.textures[t]? = some x ∧
      x.param = r.param ∧ d'.samplers[i]? = some k ∧ SamplerConfig.ofExpr r.arg = .ok k.config := by
  have ho := r.run_outcome d
  rw [h] at ho
  cases ho with
  | @granted config t _ x ks hconfig ht hparam hks =>
    obtain ⟨-, k, hk, rfl⟩ := Draft.internSampler_some hks
    have htexture := Draft.recordSample_textures d ks ⟨r.expr, t, i, r.stage⟩ t
    have hsampler := Draft.recordSample_samplers d ks ⟨r.expr, t, i, r.stage⟩ i
    rw [ht, Option.map_some, if_pos rfl] at htexture
    rw [hk, Option.map_some, if_pos rfl] at hsampler
    exact ⟨t, _, _, rfl, htexture, hparam, hsampler, hconfig⟩

theorem after_eq (h : r.run d = .ok i d') : r.after d = d' := by
  rw [after, h]

theorem Valid.run_known {k : SamplerRecord} (hr : r.Valid p config) (ht : d.SampleTables)
    (hd : d.Binds p) (hk : d.samplers[i]? = some k) (hc : k.config = config) :
    ∃ d', r.run d = .ok i d' := by
  subst hc
  have hmem : k.config ∈ d.configs := List.mem_map.2 ⟨k, List.mem_of_getElem? hk, rfl⟩
  obtain ⟨x, hx, hparam⟩ := hd.iff.2 hr.texture
  have ho := r.run_outcome d
  generalize r.run d = result at ho ⊢
  cases ho with
  | argument hbad =>
    rw [hr.config] at hbad
    cases hbad
  | unbound hnone => exact absurd hparam (hnone x hx)
  | full hconfig _ _ hnew =>
    rw [hr.config] at hconfig
    cases hconfig
    exact absurd hmem hnew
  | granted hconfig _ _ hks =>
    rw [hr.config] at hconfig
    cases hconfig
    -- no other sampler has this configuration, so interning finds this one
    cases (Draft.internSampler_known ht.distinct hk).symm.trans hks
    exact ⟨_, rfl⟩

/-- Whatever is asked after a request was granted, its configuration stays where it is. -/
theorem run_lasting (h : r.run d = .ok i d') (ht : d.SampleTables) (hd : d.Binds p)
    (hconfig : SamplerConfig.ofExpr r.arg = .ok config) (rs : List SampleRequest)
    (hr : r'.Valid p config) :
    ∃ d'', r'.run (d'.asked rs) = .ok i d'' := by
  obtain ⟨-, -, k, -, -, -, hk, hkc⟩ := run_logged h
  obtain ⟨k', hk', hkc', -⟩ := (d'.asked_logGrows rs).samplers i k hk
  have hsame : k'.config = config := by
    rw [hkc', ← Except.ok.inj (hkc.symm.trans hconfig)]
  obtain rfl := after_eq h
  exact hr.run_known ((ht.after r).asked rs) ((Draft.asked_params d (r :: rs)).trans hd) hk' hsame

theorem Valid.unique {config' : SamplerConfig} (h : r.Valid p config) (h' : r.Valid p config') :
    config = config' :=
  Except.ok.inj (h.config.symm.trans h'.config)

theorem run_cases (r : SampleRequest) (hd : d.Binds p) :
    (∃ e, r.run d = .error e d ∧ e.fault ≠ .samplerLimit ∧ ∀ config, ¬ r.Valid p config) ∨
      (∃ config, r.run d = .error ⟨.samplerLimit, r.arg.span⟩ d ∧ r.Valid p config ∧
        config ∉ d.configs ∧
        maxSamplers ≤ d.samplers.length) ∨
      ∃ config i d', r.run d = .ok i d' ∧ r.Valid p config ∧
        (config ∈ d.configs ∨ d.samplers.length < maxSamplers) := by
  have ho := r.run_outcome d
  generalize r.run d = result at ho ⊢
  cases ho with
  | argument hbad =>
    refine .inl ⟨_, rfl, nofun, fun config hr => ?_⟩
    rw [hr.config] at hbad
    cases hbad
  | unbound hnone =>
    refine .inl ⟨_, rfl, nofun, fun config hr => ?_⟩
    obtain ⟨x, hx, hparam⟩ := hd.iff.2 hr.texture
    exact hnone x hx hparam
  | full hconfig hx hparam hnew hlen =>
    exact .inr (.inl ⟨_, rfl, ⟨hconfig, hd.iff.1 ⟨_, hx, hparam⟩⟩, hnew, hlen⟩)
  | granted hconfig ht hparam hks =>
    refine .inr (.inr ⟨_, _, _, rfl, ⟨hconfig, hd.iff.1 ⟨_, List.mem_of_getElem? ht, hparam⟩⟩, ?_⟩)
    exact (Draft.internSampler_cases hks).imp And.left fun h => h.2.1

theorem answered (ht : d.SampleTables) (hd : d.Binds p) : r.Answered p d where
  granted := by
    rcases r.run_cases hd with ⟨e, he, -, hr⟩ | ⟨config, he, hr, hnew, hlen⟩
      | ⟨config, i, d', hok, hr, hroom⟩
    · simp [he, hr]
    · simp only [he, reduceCtorEq, exists_false, false_iff, not_exists, not_and]
      rintro config' hr' hroom
      obtain rfl := hr.unique hr'
      exact hroom.elim hnew (Nat.not_lt.2 hlen)
    · exact ⟨fun _ => ⟨config, hr, hroom⟩, fun _ => ⟨i, d', hok⟩⟩
  limit := by
    rcases r.run_cases hd with ⟨e, he, hfault, hr⟩ | ⟨config, he, hr, hnew, hlen⟩
      | ⟨config, i, d', hok, hr, hroom⟩
    · simp [he, hfault, hr]
    · exact ⟨fun _ => ⟨config, hr, hnew, Nat.le_antisymm ht.bounded hlen⟩, fun _ => ⟨_, d, he, rfl⟩⟩
    · simp only [hok, reduceCtorEq, false_and, exists_false, false_iff, not_exists, not_and]
      rintro config' hr' hnew hlen
      obtain rfl := hr.unique hr'
      exact hroom.elim hnew (Nat.not_lt.2 (Nat.le_of_eq hlen.symm))
  atomic _ _ := run_atomic
  logged _ _ := run_logged
  lasting _ _ _ h hconfig rs _ hr := run_lasting h ht hd hconfig rs hr

end SampleRequest

/-- Over any run of requests the tables agree with the log, and each request is answered by what the
run has interned. -/
theorem Draft.asked_answered {c : Catalog} {x : DeclIndex} {f : PipelineFn} {p : Pipeline}
    (h : Pipeline.check c x f = .ok p) (rs : List SampleRequest) :
    ((start p).asked rs).SampleTables ∧ ∀ r : SampleRequest, r.Answered p ((start p).asked rs) := by
  have ht := (start_sampleTables h).asked rs
  exact ⟨ht, fun r => SampleRequest.answered ht (asked_params (start p) rs)⟩

namespace Sample

def filtered (filter : Nat) : SampleRequest :=
  ⟨.vertex, 0, 0,
    .constant ⟨1, (Workbench.ty "sampler" Workbench.withRuntime).1, .dummy⟩
      (.aggregate [.int filter, .int 0])⟩

/-- As many filters as there is room for, each asked for twice. -/
def crowd : List SampleRequest := (List.range maxSamplers ++ List.range maxSamplers).map filtered

end Sample

open Sample in
/-- A full table still knows its own configurations, and has no room for another. -/
theorem Draft.asked_answered_crowd : Pipeline.check runtime copyIndex marked = .ok markedPipeline ∧
    ((start markedPipeline).asked crowd).samplers.length = maxSamplers ∧
    ((start markedPipeline).asked crowd).sampleCalls.length = 2 * maxSamplers ∧
    (filtered 7).Valid markedPipeline ⟨7, 0⟩ ∧ (filtered 99).Valid markedPipeline ⟨99, 0⟩ ∧
    ((start markedPipeline).asked crowd).SampleTables ∧
    ∀ r : SampleRequest, r.Answered markedPipeline ((start markedPipeline).asked crowd) := by
  refine ⟨check_marked,
    by decide +kernel, by decide +kernel, ⟨rfl, ?_⟩, ⟨rfl, ?_⟩, asked_answered check_marked crowd⟩
  all_goals decide +kernel

end ShaderSplit
