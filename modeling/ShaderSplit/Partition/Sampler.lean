import ShaderSplit.Partition.Draft

namespace ShaderSplit.Draft

def internSampler (samplers : List SamplerRecord) (config : SamplerConfig) :
    Option (Nat × List SamplerRecord) :=
  match samplers.findIdx? (·.config == config) with
  | some i => some (i, samplers)
  | none =>
    if samplers.length < maxSamplers then some (samplers.length, samplers ++ [⟨config, .empty⟩])
    else none

def recordSample (d : Draft) (samplers : List SamplerRecord) (call : SampleCall) : Draft :=
  { d with
    samplers := samplers.modify call.sampler fun s =>
      { s with stages := s.stages.insert call.stage }
    textures := d.textures.modify call.texture fun t =>
      { t with stages := t.stages.insert call.stage }
    sampleCalls := d.sampleCalls ++ [call] }

/-- Notes that expression `id` samples the texture of `param` in a stage; gives the
sampler's position. -/
def sample (stage : Stage) (id : NodeId) (param : Nat) (arg : Expr) : Drafting Nat := fun d =>
  match SamplerConfig.ofExpr arg with
  | .error fault => .error ⟨.samplerArgument fault, arg.span⟩ d
  | .ok config =>
    match d.textures.findIdx? (·.param == param) with
    | none => .error ⟨.unboundTexture, arg.span⟩ d
    | some texture =>
      match internSampler d.samplers config with
      | none => .error ⟨.samplerLimit, arg.span⟩ d
      | some (sampler, samplers) =>
        .ok sampler (d.recordSample samplers ⟨id, texture, sampler, stage⟩)

end ShaderSplit.Draft
