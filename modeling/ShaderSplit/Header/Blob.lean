import ShaderSplit.Artifact.Compile

namespace ShaderSplit

namespace Catalog

def targetEnumerator (c : Catalog) (t : Target) : String :=
  (c.enumerator "Target" t.runtimeValue).getD (c.runtimeName "Target" ++ "::" ++ t.runtimeName)

def rateEnumerator (c : Catalog) (r : InputRate) : String :=
  (c.enumerator "_HshInputRate" r.runtimeValue).getD (runtimeNamespace ++ "::" ++ r.name)

def formatEnumerator (c : Catalog) (f : VertexFormat) : String :=
  (c.enumerator "_HshFormat" f.runtimeValue).getD (runtimeNamespace ++ "::" ++ f.name)

end Catalog

structure TargetOutput where
  target : Target
  sources : List StageSource
  binaries : List StageBinary

structure Blob where
  target : Target
  source : StageSource
  stage : Stage
  data : List UInt8
  hash : ContentHash

namespace Blob

def of? (t : Target) (s : StageSource) (b : StageBinary) : Option Blob :=
  b.hash.map fun h => ⟨t, s, b.stage, b.data, h⟩

/-- Puts a blank into every comment terminator. -/
def breakTerminator : List Char → List Char
  | [] => []
  | '*' :: '/' :: rest => '*' :: ' ' :: '/' :: breakTerminator rest
  | c :: rest => c :: breakTerminator rest

def commentLines (text : String) : List String :=
  (Text.lines text.toList).map fun l => String.ofList (breakTerminator l)

def rows (data : List UInt8) : List (List UInt8) :=
  (List.range ((data.length + 15) / 16)).map fun i => (data.drop (16 * i)).take 16

def rowText (row : List UInt8) : String :=
  "  " ++ ", ".intercalate (row.map fun b => "0x" ++ String.ofList (Hex.byte Hex.lower b)) ++ ","

def lines (c : Catalog) (b : Blob) : List String :=
  let hex := b.hash.short
  [s!"/* {b.source.stage} source targeting {b.target}", ""] ++ commentLines b.source.text
    ++ ["*/", s!"inline const unsigned char _hshs_{hex}[] = \x7b"] ++ (rows b.data).map rowText
    ++ ["\x7d;",
      s!"inline hsh::_HshShaderObject<{c.targetEnumerator b.target}> _hsho_{hex}" ++
        s!"\x7b{c.stageEnumerator b.stage}, \x7b_hshs_{hex}, 0x{hex}\x7d\x7d;",
      ""]

end Blob

/-- Blobs in order of first appearance, and how often one was met again. -/
structure BlobStore where
  blobs : List Blob
  shared : Nat

namespace BlobStore

def empty : BlobStore := ⟨[], 0⟩

def add (s : BlobStore) (b : Blob) : BlobStore :=
  if s.blobs.any (·.hash == b.hash) then { s with shared := s.shared + 1 }
  else { s with blobs := s.blobs ++ [b] }

def blobsOf (outputs : List TargetOutput) : List Blob :=
  outputs.flatMap fun o => (o.sources.zip o.binaries).filterMap fun (s, b) => Blob.of? o.target s b

def addAll (s : BlobStore) (outputs : List TargetOutput) : BlobStore :=
  (blobsOf outputs).foldl add s

end BlobStore
end ShaderSplit
