import ShaderSplit.Header.Class

namespace ShaderSplit

structure Header where
  store : BlobStore
  classes : List PipelineClass

namespace Header

def empty : Header := ⟨.empty, []⟩

def add (h : Header) (p : Program) (outputs : List TargetOutput) : Header :=
  ⟨h.store.addAll outputs, h.classes ++ [.of p outputs]⟩

def lines (c : Catalog) (d : DeclIndex) (fileName : String) (h : Header) : List String :=
  [s!"/* Auto-generated hshhead for {fileName} */", ""] ++ h.store.blobs.flatMap (Blob.lines c)
    ++ ["namespace \x7b", ""] ++ h.classes.flatMap (PipelineClass.lines c d) ++ ["\x7d"]

def text (c : Catalog) (d : DeclIndex) (fileName : String) (h : Header) : String :=
  "\n".intercalate (h.lines c d fileName) ++ "\n"

end Header
end ShaderSplit
