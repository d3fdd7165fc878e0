import ShaderSplit.Builtin.Catalog
import ShaderSplit.Interface.Resource

namespace ShaderSplit

/-- Size, alignment, and offset and format of each attribute within the field. -/
structure FieldLayout where
  size : Nat
  align : Nat
  slots : List (Nat × VertexFormat)
  deriving DecidableEq, Repr

structure VertexBinding where
  binding : Nat
  stride : Nat
  rate : InputRate
  deriving DecidableEq, Repr

structure VertexAttribute where
  binding : Nat
  format : VertexFormat
  offset : Nat
  deriving DecidableEq, Repr

namespace FieldLayout

def single (size : Nat) (format : VertexFormat) : FieldLayout := ⟨size, size, [(0, format)]⟩

def ofShape : TypeClass → Option FieldLayout
  | .vector elem width => some (single (if width = 2 then 8 else 16) (.vector elem width))
  | .matrix dim =>
    some ⟨16 * dim, 16, (List.range dim).map fun row => (row * 16, .vector .float dim)⟩
  | .texture .. => none

/-- Scalars take their size, two-component vectors 8 bytes, wider ones 16, and a matrix a column of
16 bytes for each row. -/
def of? (c : Catalog) (t : Ty) : Option FieldLayout :=
  match t with
  | .scalar .float => some (single 4 (.single .float))
  | .scalar (.int 32) => some (single 4 (.single .int))
  | .scalar (.uint 32) => some (single 4 (.single .uint))
  | .scalar .double => some (single 8 .double)
  | _ => (c.type? t).bind fun b => ofShape b.shape

end FieldLayout

namespace VertexLayout

/-- The least multiple of `align` that is not less. -/
def alignUp (n align : Nat) : Nat := (n + align - 1) / align * align

/-- Each layout placed at the first aligned offset from `offset` on. -/
def place : Nat → List FieldLayout → List (Nat × FieldLayout)
  | _, [] => []
  | offset, l :: ls =>
    let at_ := alignUp offset l.align
    (at_, l) :: place (at_ + l.size) ls

def extent : Nat → List FieldLayout → Nat
  | offset, [] => offset
  | offset, l :: ls => extent (alignUp offset l.align + l.size) ls

def maxAlign (ls : List FieldLayout) : Nat := ls.foldl (fun a l => max a l.align) 1

def layouts (c : Catalog) (fields : List FieldDecl) : List FieldLayout :=
  fields.filterMap fun f => FieldLayout.of? c f.ty

def stride (c : Catalog) (fields : List FieldDecl) : Nat :=
  alignUp (extent 0 (layouts c fields)) (maxAlign (layouts c fields))

def binding (c : Catalog) (a : AttributeRecord) : VertexBinding :=
  ⟨a.binding, stride c a.fields, a.rate⟩

def attributes (c : Catalog) (a : AttributeRecord) : List VertexAttribute :=
  (place 0 (layouts c a.fields)).flatMap fun (offset, l) =>
    l.slots.map fun (slot, format) => ⟨a.binding, format, offset + slot⟩

/-- Attributes that a field takes: one, or one for each row of a matrix. -/
def slotCount (c : Catalog) (t : Ty) : Nat :=
  match FieldLayout.of? c t with
  | some l => l.slots.length
  | none => 1

def locations (c : Catalog) :
    Nat → List (AttributeRecord × FieldDecl) → List (AttributeRecord × FieldDecl × Nat)
  | _, [] => []
  | loc, (a, f) :: rest => (a, f, loc) :: locations c (loc + slotCount c f.ty) rest

end VertexLayout
end ShaderSplit
