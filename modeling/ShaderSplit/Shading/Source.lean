import ShaderSplit.Shading.Glsl
import ShaderSplit.Shading.Hlsl
import ShaderSplit.Shading.Metal

namespace ShaderSplit

structure StageSource where
  stage : Stage
  text : String
  deriving DecidableEq, Repr

def Language.supports : Language → Stage → Bool
  | .metal, s => s = .vertex || s = .fragment
  | _, _ => true

structure StageLack where
  language : Language
  stage : Stage
  deriving DecidableEq, Repr

def StageLack.diagnostic (l : StageLack) : Diagnostic :=
  .error s!"{l.language.name} does not support the {l.stage} stage" .dummy (some .structural)

namespace Program

variable (p : Program) (c : Catalog) (t : Target)

def stageText (s : Stage) : String :=
  match t.language with
  | .glsl => Glsl.source p c s
  | .hlsl => Hlsl.source (t == .vulkanSpirv) p c s
  | .metal => Metal.source p c s

def sources : Except StageLack (List StageSource) :=
  match p.devices.find? fun s => !t.language.supports s with
  | some s => .error ⟨t.language, s⟩
  | none => .ok (p.devices.map fun s => ⟨s, p.stageText c t s⟩)

/-- Samples without a known sampler, where the language names samplers. -/
def unresolvedSamples (s : Stage) : Nat :=
  match t.language with
  | .glsl => 0
  | l => Writer.unresolvedInBody ⟨p, c, s, .ofLanguage l⟩

def sourceNotices : List String :=
  (p.devices.takeWhile t.language.supports).flatMap fun s =>
    List.replicate (p.unresolvedSamples c t s) s!"{p.name}: sample call without a resolved sampler"

def hostBody (indent : String) : List String := Writer.body ⟨p, c, .host, .host⟩ indent

end Program
end ShaderSplit
