import ShaderSplit.Artifact.Blake3
import ShaderSplit.Text.Hex

namespace ShaderSplit

structure ContentHash where
  digest : List UInt8
  deriving DecidableEq, Repr

namespace ContentHash

def of (data : List UInt8) : ContentHash := ⟨Blake3.hash data⟩

def hex (h : ContentHash) : String := Hex.encode Hex.lower h.digest

/-- The first eight bytes as a number, the first byte highest. -/
def leading (h : ContentHash) : Nat := (h.digest.take 8).foldl (fun n b => 256 * n + b.toNat) 0

/-- The first eight bytes in capital digits, as generated identifiers have them. -/
def short (h : ContentHash) : String := Hex.encode Hex.upper (h.digest.take 8)

end ContentHash
end ShaderSplit
