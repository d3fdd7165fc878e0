import ShaderSplit.Builtin.Catalog
import ShaderSplit.Interface.Resource

namespace ShaderSplit

def maxSamplers : Nat := 32

inductive TraceFault where
  | stageOrder (source dest : Stage)
  | noInterface (source dest : Stage)
  | lateValue (stage target : Stage)
  | unknownParam (index : Nat)
  | unreached (name : String)
  | valueType
  | castType
  | constructType
  | unknownFunction
  | unknownMethod
  | capturedType (param : String) (fault : Catalog.FieldFault)
  | unsupported (construct : String)
  | sampledObject
  | sampledRole
  | sampleArity
  | samplerArgument (fault : SamplerFault)
  | unboundTexture
  | samplerLimit
  deriving DecidableEq, Repr

namespace TraceFault

def kind : TraceFault → ErrorKind
  | valueType | castType | constructType | unknownFunction | unknownMethod
  | capturedType .. => .type
  | samplerArgument _ | samplerLimit => .sampler
  | _ => .structural

def message : TraceFault → String
  | stageOrder s d => s!"value is only available in the {s} stage but is needed in the {d} stage"
  | noInterface s d => s!"no active interface carries values from {s} to {d}"
  | lateValue s t => s!"value computed in the {s} stage cannot be assigned in the {t} stage"
  | unknownParam i => s!"reference to unknown parameter {i}"
  | unreached name => s!"unsupported reference to `{name}`: no assignment reaches this use"
  | valueType => "references to values are limited to hsh types"
  | castType => "type casts are limited to hsh types"
  | constructType => "constructors are limited to hsh types"
  | unknownFunction => "function calls are limited to hsh intrinsics"
  | unknownMethod => "method calls are limited to hsh intrinsics"
  | capturedType _ fault => fault.message
  | unsupported construct => s!"expressions of type {construct} are not supported"
  | sampledObject => "texture samples must be performed on pipeline parameters"
  | sampledRole | unboundTexture =>
    "sampled textures must be attributed as vertex or fragment textures"
  | sampleArity => "texture samples take a coordinate and a sampler"
  | samplerArgument .notConstant => "sampler arguments must be constant expressions"
  | samplerArgument .malformed => "sampler structure is not consistent"
  | samplerLimit => s!"maximum sampler limit of {maxSamplers} reached"

def notes : TraceFault → List String
  | noInterface .. => ["the destination stage has no outputs in this pipeline"]
  | capturedType param _ => [s!"`{param}` is captured from the host"]
  | _ => []

def isUnbound : TraceFault → Bool
  | unboundTexture => true
  | _ => false

def isStageOrder : TraceFault → Bool
  | stageOrder .. => true
  | _ => false

end TraceFault

structure TraceError where
  fault : TraceFault
  span : Span
  deriving DecidableEq, Repr

def TraceError.diagnostic (e : TraceError) : Diagnostic :=
  { Diagnostic.error e.fault.message e.span (some e.fault.kind) with notes := e.fault.notes }

/-- Ways out that tracing has and that an accepted function never takes. -/
inductive Breach where
  | unsupported
  | uninitialized
  | unbound
  | late
  | unrebuilt
  deriving DecidableEq

end ShaderSplit
