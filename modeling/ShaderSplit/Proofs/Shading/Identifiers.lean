import Mathlib.Data.List.Forall2
import Mathlib.Data.List.Nodup
import Mathlib.Data.Prod.Basic
import ShaderSplit.Proofs.Partition.Labels
import ShaderSplit.Proofs.Shading.Literals
import ShaderSplit.Proofs.Shading.Locations

namespace ShaderSplit

mutual
def Stmt.blocks : Stmt → List (List Stmt)
  | .block _ _ body => body :: Stmt.blocksOf body
  | .decl .. | .expr .. | .null .. | .unsupported .. => []
def Stmt.blocksOf : List Stmt → List (List Stmt)
  | [] => []
  | s :: ss => s.blocks ++ Stmt.blocksOf ss
end

def PipelineFn.blocks (f : PipelineFn) : List (List Stmt) := f.body :: Stmt.blocksOf f.body

def Stmt.declared? : Stmt → Option (LocalId × String)
  | .decl _ _ v name _ _ => some (v, name)
  | .expr .. | .block .. | .null .. | .unsupported .. => none

/-- The locals that a block declares, without those of the blocks in it. -/
def Stmt.declared (block : List Stmt) : List (LocalId × String) := block.filterMap Stmt.declared?

mutual
theorem Stmt.declare_mem_steps {i : NodeId} {d : LocalDecl} :
    ∀ s : Stmt, ⟨i, .declare d⟩ ∈ s.steps →
    s.declared? = some (d.var, d.name) ∨ ∃ b ∈ s.blocks, (d.var, d.name) ∈ declared b
  | .decl _ _ _ _ _ (some _), h => by
    cases List.mem_singleton.1 h
    exact .inl rfl
  | .block _ _ body, h => by
    rcases List.mem_cons.1 h with h | h
    · cases h
    · exact .inr (declare_mem_stepsOf body h)
  | .decl _ _ _ _ _ none, h | .expr .., h | .null .., h | .unsupported .., h => by
    cases List.mem_singleton.1 h
theorem Stmt.declare_mem_stepsOf {i : NodeId} {d : LocalDecl} :
    ∀ body : List Stmt, ⟨i, .declare d⟩ ∈ stepsOf body →
    ∃ b ∈ body :: blocksOf body, (d.var, d.name) ∈ declared b
  | [], h => nomatch h
  | s :: ss, h => by
    rcases List.mem_append.1 h with h | h
    · rcases declare_mem_steps s h with hs | ⟨b, hb, hd⟩
      · exact ⟨s :: ss, List.mem_cons_self, List.mem_filterMap.2 ⟨s, List.mem_cons_self, hs⟩⟩
      · exact ⟨b, List.mem_cons_of_mem _ (List.mem_append_left _ hb), hd⟩
    · obtain ⟨b, hb, hd⟩ := declare_mem_stepsOf ss h
      rcases List.mem_cons.1 hb with rfl | hb
      · obtain ⟨x, hx, hxd⟩ := List.mem_filterMap.1 hd
        exact ⟨s :: b, List.mem_cons_self, List.mem_filterMap.2 ⟨x, List.mem_cons_of_mem _ hx, hxd⟩⟩
      · exact ⟨b, List.mem_cons_of_mem _ (List.mem_append_right _ hb), hd⟩
end

def Expr.Spells (x : LocalId × String) : Expr → Prop
  | localVar _ v name => v = x.1 → name = x.2
  | _ => True

instance (x : LocalId × String) : DecidablePred (Expr.Spells x)
  | .localVar _ v name => inferInstanceAs (Decidable (v = x.1 → name = x.2))
  | .literal .. | .constant .. | .param .. | .binary .. | .unary .. | .construct .. | .cast ..
  | .initList .. | .call ..
  | .methodCall .. | .member .. | .interface .. | .unsupported .. =>
    inferInstanceAs (Decidable True)

/-- The names that a function has to keep apart, and references by the names of their
declarations. -/
structure Pipeline.WellNamed (p : Pipeline) : Prop where
  params : (p.fn.params.map (·.name)).Nodup
  fields : ∀ a ∈ p.signature.attributes, (a.fields.map (·.name)).Nodup
  locals : ∀ b ∈ p.fn.blocks, ((Stmt.declared b).map (·.2)).Nodup
  spelled : ∀ e ∈ p.scope.terms, ∀ b ∈ p.fn.blocks, ∀ x ∈ Stmt.declared b, e.Spells x

theorem Pipeline.WellNamed.labels {p : Pipeline} (h : p.WellNamed) :
    p.scope.Labels fun v name => ∃ b ∈ p.fn.blocks, (v, name) ∈ Stmt.declared b := by
  constructor
  · intro s hs decl hdecl
    obtain ⟨i, action⟩ := s
    cases hdecl
    exact Stmt.declare_mem_stepsOf p.fn.body hs
  · rintro n v name hterm name' ⟨b, hb, hname'⟩
    obtain rfl : name = name' := h.spelled _ hterm b hb _ hname' rfl
    exact ⟨b, hb, hname'⟩

def StageStmt.declared? : StageStmt → Option (LocalId × String)
  | .decl d => some (d.var, d.name)
  | .expr _ | .bindingDecl _ | .pushUniform _ => none

def Program.locals (p : Program) (s : Stage) : List (LocalId × String) :=
  (p.blocks.get s).filterMap StageStmt.declared?

theorem Program.mem_locals {p : Program} {s : Stage} {x : LocalId × String} :
    x ∈ p.locals s ↔ ∃ decl, .decl decl ∈ p.blocks.get s ∧ (decl.var, decl.name) = x := by
  constructor
  · intro h
    obtain ⟨st, hst, hx⟩ := List.mem_filterMap.1 h
    cases st with
    | decl decl => exact ⟨decl, hst, Option.some.inj hx⟩
    | expr | bindingDecl | pushUniform => cases hx
  · rintro ⟨decl, hdecl, rfl⟩
    exact List.mem_filterMap.2 ⟨_, hdecl, rfl⟩

/-- Lines of a text declare the given names one by one. -/
def Declares {α : Type} (text : String) (declaration : α → String → Prop) (xs : List α) : Prop :=
  ∃ all lines, text = "\n".intercalate all ∧ lines.Sublist all ∧ List.Forall₂ declaration xs lines

def LocalLine (x : LocalId × String) (line : String) : Prop :=
  ∃ type init, line = "    " ++ (type ++ " " ++ x.2 ++ " = " ++ init ++ ";")

theorem Writer.body_declare (w : Writer) : ∃ lines, lines.Sublist (w.body "    ") ∧
    List.Forall₂ LocalLine (w.program.locals w.stage) lines := by
  unfold body block Program.locals
  induction w.program.blocks.get w.stage with
  | nil => exact ⟨[], .slnil, .nil⟩
  | cons st sts ih =>
    obtain ⟨lines, hsub, hlines⟩ := ih
    rw [List.filterMap_cons, List.filterMap_cons]
    cases st with
    | decl d => exact ⟨_ :: lines, hsub.cons_cons _, .cons ⟨_, _, rfl⟩ hlines⟩
    | expr e => exact ⟨lines, hsub.cons _, hlines⟩
    | bindingDecl s | pushUniform s =>
      refine ⟨lines, ?_, hlines⟩
      split
      · exact hsub
      · exact hsub.cons _

theorem Program.stageText_body (p : Program) (c : Catalog) (t : Target) (s : Stage) :
    ∃ before after,
    p.stageText c t s =
      "\n".intercalate
      (before ++ Writer.body ⟨p, c, s, .ofLanguage t.language⟩ "    " ++ after) := by
  unfold stageText
  cases t.language with
  | glsl =>
    simp only [Glsl.source, Glsl.entry, ← List.append_assoc]
    simp only [List.append_assoc _ ["\x7d"]]
    exact ⟨_, _, rfl⟩
  | hlsl =>
    simp only [Hlsl.source, Hlsl.entry, ← List.append_assoc]
    simp only [List.append_assoc _ [_, "\x7d"]]
    exact ⟨_, _, rfl⟩
  | metal =>
    simp only [Metal.source, Metal.entry, ← List.append_assoc]
    simp only [List.append_assoc _ [_, "\x7d"]]
    exact ⟨_, _, rfl⟩

theorem Program.declares_locals (p : Program) (c : Catalog) (t : Target) (s : Stage) :
    Declares (p.stageText c t s) LocalLine (p.locals s) := by
  obtain ⟨before, after, htext⟩ := p.stageText_body c t s
  obtain ⟨lines, hsub, hlines⟩ := Writer.body_declare ⟨p, c, s, .ofLanguage t.language⟩
  exact ⟨_, lines, htext, hsub.trans (List.infix_append ..).sublist, hlines⟩

/-- A left part that is longer runs over the joint. -/
theorem joint_cases {a b x y : String} {m : List Char} (hb : b.toList = a.toList ++ m)
    (hx : '_' :: x.toList = m ++ '_' :: y.toList) :
    (a = b ∧ x = y) ∨ ∃ r, b = a ++ "_" ++ r ∧ x = r ++ "_" ++ y := by
  cases m with
  | nil =>
    rw [List.append_nil] at hb
    exact .inl ⟨String.toList_inj.1 hb.symm, String.toList_inj.1 (List.cons.inj hx).2⟩
  | cons _ r =>
    obtain ⟨rfl, hx⟩ := List.cons.inj hx
    refine .inr ⟨String.ofList r, String.toList_inj.1 ?_, String.toList_inj.1 ?_⟩
    · simpa using hb
    · simpa using hx

theorem joined_eq_iff {a b x y : String} : a ++ "_" ++ x = b ++ "_" ++ y ↔ (a = b ∧ x = y) ∨
    (∃ r, b = a ++ "_" ++ r ∧ x = r ++ "_" ++ y) ∨ ∃ r, a = b ++ "_" ++ r ∧ y = r ++ "_" ++ x := by
  constructor
  · intro h
    have hlist : a.toList ++ '_' :: x.toList = b.toList ++ '_' :: y.toList := by
      simpa using congrArg String.toList h
    rcases List.append_eq_append_iff.1 hlist with ⟨m, hb, hx⟩ | ⟨m, ha, hy⟩
    · exact (joint_cases hb hx).imp_right .inl
    · exact (joint_cases ha hy).imp (fun ⟨hba, hyx⟩ => ⟨hba.symm, hyx.symm⟩) .inr
  · rintro (⟨rfl, rfl⟩ | ⟨r, rfl, rfl⟩ | ⟨r, rfl, rfl⟩)
    · rfl
    all_goals simp only [String.append_assoc]

theorem toString_inj_of_nat {k j : Nat} (h : toString k = toString j) : k = j := by
  have hdigits : Nat.toDigits 10 k = Nat.toDigits 10 j := by
    simpa [Nat.toString_eq_repr, Nat.toList_repr] using congrArg String.toList h
  rw [← Nat.ofDigitChars_toDigits (n := k) (by decide) (le_refl 10), hdigits,
    Nat.ofDigitChars_toDigits (by decide) (le_refl 10)]

/-- A number has no joint in it, so it ends a name unambiguously. -/
theorem joined_number_eq_iff {a b : String} {k j : Nat} :
    a ++ "_" ++ toString k = b ++ "_" ++ toString j ↔ a = b ∧ k = j := by
  have no_joint (k : Nat) (r y : String) : toString k ≠ r ++ "_" ++ y := by
    intro h
    have hmem : '_' ∈ (toString k).toList := by simp [h]
    exact absurd (Token.digits_toString k '_' hmem) (by decide)
  rw [joined_eq_iff]
  constructor
  · rintro (⟨rfl, h⟩ | ⟨r, -, h⟩ | ⟨r, -, h⟩)
    · exact ⟨rfl, toString_inj_of_nat h⟩
    · exact (no_joint k r _ h).elim
    · exact (no_joint j r _ h).elim
  · rintro ⟨rfl, rfl⟩
    exact .inl ⟨rfl, rfl⟩

/-- A field of a buffer, or one column of it. -/
structure VertexInput where
  buffer : AttributeRecord
  field : FieldDecl
  column : Option Nat
  deriving DecidableEq

namespace VertexInput

/-- What follows the buffer in the name. -/
def part (x : VertexInput) : String :=
  match x.column with
  | none => x.field.name
  | some k => x.field.name ++ "_" ++ toString k

def identifier (x : VertexInput) : String := x.buffer.fieldName x.part

/-- The buffer of `y` is called like the buffer of `x` and the beginning of its part. -/
def Overruns (x y : VertexInput) : Prop :=
  ∃ r, y.buffer.name = x.buffer.name ++ "_" ++ r ∧ x.part = r ++ "_" ++ y.part

/-- A whole field that is called like a column of another one. -/
def Mimics (x y : VertexInput) : Prop :=
  x.buffer = y.buffer ∧ x.column = none ∧ ∃ k, y.column = some k ∧
    x.field.name = y.field.name ++ "_" ++ toString k

variable {x y : VertexInput}

/-- Within a buffer whose fields have different names, only a whole field and a column can be
called alike. -/
theorem part_eq_iff (hb : x.buffer = y.buffer) (hx : x.field ∈ x.buffer.fields)
    (hy : y.field ∈ y.buffer.fields) (hnames : (x.buffer.fields.map (·.name)).Nodup) (hxy : x ≠ y) :
    x.part = y.part ↔ x.Mimics y ∨ y.Mimics x := by
  obtain ⟨a, f, i⟩ := x
  obtain ⟨b, g, j⟩ := y
  obtain rfl : a = b := hb
  have hfields (hname : f.name = g.name) : f = g := List.inj_on_of_nodup_map hnames hx hy hname
  cases i with
  | none =>
    cases j with
    | none =>
      have hne : f.name ≠ g.name := fun hname => hxy (by rw [hfields hname])
      simpa [part, Mimics] using hne
    | some k => simp [part, Mimics]
  | some k =>
    cases j with
    | none => simpa [part, Mimics] using eq_comm
    | some j =>
      have hne : ¬ (f.name = g.name ∧ k = j) := fun ⟨hname, hk⟩ => hxy (by rw [hfields hname, hk])
      simpa only [part, joined_number_eq_iff, Mimics, reduceCtorEq, false_and, and_false, or_self,
        iff_false] using hne

theorem identifier_eq_iff (hbuffers : x.buffer.name = y.buffer.name → x.buffer = y.buffer)
    (hx : x.field ∈ x.buffer.fields) (hy : y.field ∈ y.buffer.fields)
    (hnames : (x.buffer.fields.map (·.name)).Nodup) (hxy : x ≠ y) :
    x.identifier = y.identifier ↔ x.Overruns y ∨ y.Overruns x ∨ x.Mimics y ∨ y.Mimics x := by
  unfold identifier AttributeRecord.fieldName
  rw [joined_eq_iff]
  constructor
  · rintro (⟨hb, hpart⟩ | h | h)
    · exact .inr (.inr ((part_eq_iff (hbuffers hb) hx hy hnames hxy).1 hpart))
    · exact .inl h
    · exact .inr (.inl h)
  · rintro (h | h | h)
    · exact .inr (.inl h)
    · exact .inr (.inr h)
    · have hb : x.buffer = y.buffer := h.elim (·.1) (·.1.symm)
      exact .inl ⟨by rw [hb], (part_eq_iff hb hx hy hnames hxy).2 h⟩

def ofField (c : Catalog) (l : Language) (a : AttributeRecord) (f : FieldDecl) : List VertexInput :=
  match l, c.column f.ty with
  | .metal, some (_, dim) => (List.range dim).map fun k => ⟨a, f, some k⟩
  | _, _ => [⟨a, f, none⟩]

def typeName (c : Catalog) (d : Dialect) (x : VertexInput) : String :=
  match x.column, c.column x.field.ty with
  | some _, some (column, _) => column
  | _, _ => c.spellType d x.field.ty

def declaration (c : Catalog) (t : Target) (x : VertexInput) (loc : Nat) : String :=
  match t.language with
  | .glsl => s!"layout(location = {loc}) in {x.typeName c .glsl} {x.identifier};"
  | .hlsl => "    " ++ (if t = .vulkanSpirv then s!"[[vk::location({loc})]] " else "") ++
    s!"{x.typeName c .hlsl} {x.identifier} : ATTR{loc};"
  | .metal => s!"    {x.typeName c .metal} {x.identifier} [[attribute({loc})]];"

def Line (c : Catalog) (t : Target) (x : VertexInput) (line : String) : Prop :=
  ∃ loc, line = x.declaration c t loc

variable {c : Catalog} {l : Language} {a : AttributeRecord} {f : FieldDecl}

theorem mem_ofField (h : x ∈ ofField c l a f) :
    x.buffer = a ∧ x.field = f ∧ (l ≠ .metal → x.column = none) := by
  unfold ofField at h
  split at h
  · obtain ⟨k, -, rfl⟩ := List.mem_map.1 h
    exact ⟨rfl, rfl, fun hl => absurd rfl hl⟩
  · cases List.mem_singleton.1 h
    exact ⟨rfl, rfl, fun _ => rfl⟩

theorem ofField_nodup : (ofField c l a f).Nodup := by
  unfold ofField
  split
  · refine List.Nodup.map (fun i j hij => ?_) List.nodup_range
    exact Option.some.inj (congrArg column hij)
  · exact List.nodup_singleton _

theorem forall₂_locations {R : VertexInput → String → Prop}
    {lines : AttributeRecord × FieldDecl × Nat → List String}
    (h : ∀ a f loc, List.Forall₂ R (ofField c l a f) (lines (a, f, loc)))
    (xs : List (AttributeRecord × FieldDecl))
    (loc : Nat) : List.Forall₂ R (xs.flatMap fun x => ofField c l x.1 x.2)
      ((VertexLayout.locations c loc xs).flatMap lines) := by
  induction xs generalizing loc with
  | nil => exact .nil
  | cons x xs ih =>
    rw [List.flatMap_cons, VertexLayout.locations, List.flatMap_cons]
    exact List.rel_append (h x.1 x.2 loc) (ih _)

end VertexInput

namespace Metal

theorem columns_declare (p : Program) (c : Catalog) {t : Target} (ht : t.language = .metal)
    (a : AttributeRecord)
    (f : FieldDecl) (loc : Nat) :
    List.Forall₂ (VertexInput.Line c t) (VertexInput.ofField c .metal a f)
      (columns ⟨p, c, .vertex, .metal⟩ a f loc) := by
  unfold columns VertexInput.ofField
  cases hc : c.column f.ty with
  | none =>
    refine .cons ⟨loc, ?_⟩ .nil
    simp [VertexInput.declaration, ht, VertexInput.typeName, VertexInput.identifier,
      VertexInput.part, Writer.typeName]
  | some column =>
    simp only [List.forall₂_map_left_iff, List.forall₂_map_right_iff, List.forall₂_same]
    refine fun k _ => ⟨loc + k, ?_⟩
    simp [VertexInput.declaration, ht, VertexInput.typeName, VertexInput.identifier,
      VertexInput.part, hc, AttributeRecord.fieldName, String.append_assoc, toString]

end Metal

namespace Program

variable {p : Program} {c : Catalog} {l : Language}

def vertexInputs (p : Program) (c : Catalog) (l : Language) : List VertexInput :=
  (VertexLayout.fieldsOf p.attributes).flatMap fun x => VertexInput.ofField c l x.1 x.2

theorem mem_vertexInputs {x : VertexInput} (h : x ∈ p.vertexInputs c l) :
    x.buffer ∈ p.attributes ∧ x.field ∈ x.buffer.fields ∧ (l ≠ .metal → x.column = none) := by
  obtain ⟨⟨a, f⟩, haf, hx⟩ := List.mem_flatMap.1 h
  obtain ⟨b, hb, hf⟩ := List.mem_flatMap.1 haf
  obtain ⟨g, hg, heq⟩ := List.mem_map.1 hf
  cases heq
  obtain ⟨rfl, rfl, hl⟩ := VertexInput.mem_ofField hx
  exact ⟨hb, hg, hl⟩

theorem vertexInputs_nodup (hbuffers : (p.attributes.map (·.name)).Nodup)
    (hfields : ∀ a ∈ p.attributes, (a.fields.map (·.name)).Nodup) : (p.vertexInputs c l).Nodup := by
  have hwalk : (VertexLayout.fieldsOf p.attributes).Nodup := by
    refine List.nodup_flatMap.2 ⟨fun a ha => ?_, ?_⟩
    · exact (hfields a ha).of_map.map (Prod.mk_right_injective a)
    · refine hbuffers.of_map.imp fun hab => ?_
      simp [Function.onFun, List.disjoint_left, hab.symm]
  refine List.nodup_flatMap.2 ⟨fun _ _ => VertexInput.ofField_nodup, hwalk.imp fun hne => ?_⟩
  refine List.disjoint_left.2 fun x hx hy => hne ?_
  obtain ⟨hxa, hxf, -⟩ := VertexInput.mem_ofField hx
  obtain ⟨hya, hyf, -⟩ := VertexInput.mem_ofField hy
  exact Prod.ext (hxa.symm.trans hya) (hxf.symm.trans hyf)

theorem vertexLines_declare (p : Program) (c : Catalog) (t : Target) :
    ∃ lines, lines.Sublist (p.vertexLines c t) ∧
    List.Forall₂ (VertexInput.Line c t) (p.vertexInputs c t.language) lines := by
  have hempty (l : Language) (h : p.attributes.isEmpty = true) : p.vertexInputs c l = [] := by
    simp [vertexInputs, VertexLayout.fieldsOf, List.isEmpty_iff.1 h]
  cases ht : t.language with
  | glsl =>
    refine ⟨_, .refl _, ?_⟩
    simp only [vertexLines, ht, Glsl.attributes, if_true, List.map_eq_flatMap]
    refine VertexInput.forall₂_locations (fun a f loc => .cons ⟨loc, ?_⟩ .nil) _ 0
    simp [VertexInput.declaration, ht, VertexInput.typeName, VertexInput.identifier,
      VertexInput.part, Writer.typeName]
  | hlsl =>
    simp only [vertexLines, ht, Hlsl.vertexData, Hlsl.hasVertexData]
    cases hdata : p.attributes.isEmpty with
    | true => exact ⟨[], List.nil_sublist _, hempty .hlsl hdata ▸ .nil⟩
    | false =>
      refine ⟨_, (List.infix_append ..).sublist, ?_⟩
      rw [List.map_eq_flatMap]
      refine VertexInput.forall₂_locations (fun a f loc => .cons ⟨loc, ?_⟩ .nil) _ 0
      simp only [VertexInput.declaration, ht, VertexInput.typeName, VertexInput.identifier,
        VertexInput.part, Writer.typeName]
      by_cases hv : t = .vulkanSpirv <;> simp [hv, String.append_assoc, toString]
  | metal =>
    simp only [vertexLines, ht, Metal.vertexData, Metal.hasVertexData]
    cases hdata : p.attributes.isEmpty with
    | true => exact ⟨[], List.nil_sublist _, hempty .metal hdata ▸ .nil⟩
    | false =>
      refine ⟨_, (List.infix_append ..).sublist, ?_⟩
      exact VertexInput.forall₂_locations (fun a f loc => Metal.columns_declare p c ht a f loc) _ 0

theorem declares_vertexInputs (p : Program) (c : Catalog) (t : Target) :
    Declares (p.stageText c t .vertex) (VertexInput.Line c t) (p.vertexInputs c t.language) := by
  obtain ⟨before, after, htext⟩ := p.stageText_vertex c t
  obtain ⟨lines, hsub, hlines⟩ := p.vertexLines_declare c t
  exact ⟨_, lines, htext, hsub.trans (List.infix_append ..).sublist, hlines⟩

end Program

theorem Signature.buffer_name {d : DeclIndex} {q : Param} {i : Nat} {a : AttributeRecord}
    (h : buffer d q i = some a) : a.name = q.name := by
  obtain ⟨fields, -, hrole⟩ := Option.bind_eq_some_iff.1 h
  cases hr : q.role <;> simp only [hr] at hrole <;> cases hrole <;> rfl

theorem Signature.attributes_names (c : Catalog) (d : DeclIndex) (params : List Param) :
    ((ofParams c d params).attributes.map (·.name)).Sublist (params.map (·.name)) := by
  have walk {g : Param × Nat → Option AttributeRecord} (h : ∀ q a, g q = some a → a.name = q.1.name)
      (qs : List (Param × Nat)) :
      ((qs.filterMap g).map (·.name)).Sublist ((qs.map Prod.fst).map (·.name)) := by
    induction qs with
    | nil => exact .slnil
    | cons q qs ih =>
      cases hb : g q with
      | none =>
        rw [List.filterMap_cons_none hb]
        exact ih.cons _
      | some a =>
        rw [List.filterMap_cons_some hb, List.map_cons, List.map_cons, List.map_cons, h q a hb]
        exact ih.cons_cons _
  have hwalk := walk (g := fun q => buffer d q.1 q.2) (fun _ _ => buffer_name) params.zipIdx
  rwa [List.zipIdx_map_fst] at hwalk

namespace Pipeline

variable {c : Catalog} {d : DeclIndex} {f : PipelineFn} {p : Pipeline} {prog : Program}
  {notices : List String}

/-- A stage declares its locals and vertex inputs one by one. Locals that are called alike without
being the same come from two blocks of the body. Inputs are called alike exactly if a buffer is
called like another one and the beginning of its field, or in Metal if a field is called like a
column of another one. -/
theorem split_identifiers (hp : check c d f = .ok p) (h : p.split = (.ok prog, notices))
    (hnames : p.WellNamed) :
    (∀ t s, Declares (prog.stageText c t s) LocalLine (prog.locals s)) ∧
    (∀ s, ∀ x ∈ prog.locals s, ∃ b ∈ f.blocks, x ∈ Stmt.declared b) ∧
    (∀ s, ∀ x ∈ prog.locals s, ∀ y ∈ prog.locals s, x.1 ≠ y.1 → x.2 = y.2 →
      ∃ b ∈ f.blocks, ∃ b' ∈ f.blocks, b ≠ b' ∧ x ∈ Stmt.declared b ∧ y ∈ Stmt.declared b') ∧
    (∀ t, Declares (prog.stageText c t .vertex) (VertexInput.Line c t)
      (prog.vertexInputs c t.language)) ∧
    ∀ l, (prog.vertexInputs c l).Nodup ∧
    ∀ x ∈ prog.vertexInputs c l, ∀ y ∈ prog.vertexInputs c l, x ≠ y →
      (x.identifier = y.identifier ↔ x.Overruns y ∨ y.Overruns x ∨ l = .metal ∧
        (x.Mimics y ∨ y.Mimics x)) := by
  obtain ⟨hfn, hsignature⟩ := check_fn hp
  have hblocks {s : Stage} {x : LocalId × String} (hx : x ∈ prog.locals s) :
      ∃ b ∈ f.blocks, x ∈ Stmt.declared b := by
    obtain ⟨decl, hdecl, rfl⟩ := Program.mem_locals.1 hx
    exact hfn ▸ split_labeled h hnames.labels hdecl
  have hbuffers : (prog.attributes.map (·.name)).Nodup := by
    rw [(split_attributes h).1, hsignature]
    exact (Signature.attributes_names c d f.params).nodup (hfn ▸ hnames.params)
  have hfields : ∀ a ∈ prog.attributes, (a.fields.map (·.name)).Nodup :=
    (split_attributes h).1 ▸ hnames.fields
  refine ⟨prog.declares_locals c, fun s x => hblocks, fun s x hx y hy hvar hname => ?_,
    prog.declares_vertexInputs c,
    fun l => ⟨Program.vertexInputs_nodup hbuffers hfields, fun x hx y hy hxy => ?_⟩⟩
  · -- a block tells its locals apart by name, so two that are called alike come from two blocks
    obtain ⟨b, hb, hxb⟩ := hblocks hx
    obtain ⟨b', hb', hyb'⟩ := hblocks hy
    refine ⟨b, hb, b', hb', ?_, hxb, hyb'⟩
    rintro rfl
    have hone : x = y := List.inj_on_of_nodup_map (hnames.locals b (hfn ▸ hb)) hxb hyb' hname
    exact hvar (congrArg Prod.fst hone)
  · obtain ⟨hxb, hxf, hxl⟩ := Program.mem_vertexInputs hx
    obtain ⟨hyb, hyf, hyl⟩ := Program.mem_vertexInputs hy
    rw [VertexInput.identifier_eq_iff (List.inj_on_of_nodup_map hbuffers hxb hyb) hxf hyf
      (hfields _ hxb) hxy]
    -- a column is mimicked, and only Metal declares columns
    have hmetal (hm : x.Mimics y ∨ y.Mimics x) : l = .metal := by
      by_contra hl
      rcases hm with ⟨-, -, k, hk, -⟩ | ⟨-, -, k, hk, -⟩
      · cases (hyl hl).symm.trans hk
      · cases (hxl hl).symm.trans hk
    exact or_congr_right (or_congr_right ⟨fun hm => ⟨hmetal hm, hm⟩, And.right⟩)

end Pipeline

namespace Sample

open Workbench

/-- Two blocks that call a local alike, and buffers whose fields are called alike once
they are joined. -/
def buildCrowd : Building PipelineFn := do
  let near ← record "Near" [("b_c", .float), ("frame", ← ty "float4x4"), ("frame_1", .float)]
  let far ← record "Far" [("c", .float)]
  let ps : List Param :=
    [⟨"a", near, .vertexBuffer 0, .dummy⟩, ⟨"a_b", far, .vertexBuffer 1, .dummy⟩,
    ⟨"o", .float, .varyingOutput .vertex, .dummy⟩, ⟨"q", .float, .varyingOutput .vertex, .dummy⟩]
  let (decl, c) ← declare "c" .float (← member (← arg ps 0) "b_c")
  let first ← block [decl, ← assign .assign (← arg ps 2) (← useLocal c)]
  let (decl, c) ← declare "c" .float (← member (← arg ps 1) "c")
  let second ← block [decl, ← assign .assign (← arg ps 3) (← useLocal c)]
  return ⟨"crowded", ps, [first, second], .dummy⟩

def crowded : PipelineFn := (buildCrowd withRuntime).1

def crowdIndex : DeclIndex := ⟨(buildCrowd withRuntime).2.declarations⟩

def crowdPipeline : Pipeline :=
  ⟨runtime, crowdIndex, crowded, .ofParams runtime crowdIndex crowded.params⟩

theorem check_crowded : Pipeline.check runtime crowdIndex crowded = .ok crowdPipeline :=
  Pipeline.check_of_isEmpty (by decide +kernel)

theorem crowded_wellNamed : crowdPipeline.WellNamed :=
  ⟨by decide +kernel, by decide +kernel, by decide +kernel, by decide +kernel⟩

def repeatsLocal (prog : Program) : Bool :=
  (prog.locals .vertex).any fun x => (prog.locals .vertex).any fun y => x.1 ≠ y.1 && x.2 = y.2

def repeatsInput (l : Language) (prog : Program) : Bool :=
  (prog.vertexInputs runtime l).any fun x => (prog.vertexInputs runtime l).any fun y =>
    x ≠ y && x.identifier = y.identifier

theorem exists_local {prog : Program} (h : repeatsLocal prog = true) :
    ∃ x ∈ prog.locals .vertex, ∃ y ∈ prog.locals .vertex, x.1 ≠ y.1 ∧ x.2 = y.2 := by
  simpa [repeatsLocal] using h

theorem exists_input {l : Language} {prog : Program} (h : repeatsInput l prog = true) :
    ∃ x ∈ prog.vertexInputs runtime l, ∃ y ∈ prog.vertexInputs runtime l, x ≠ y ∧
    x.identifier = y.identifier := by
  simpa [repeatsInput] using h

theorem crowded_splits : ∃ prog notices, crowdPipeline.split = (.ok prog, notices) ∧
    repeatsLocal prog = true ∧
    ∀ l, repeatsInput l prog = true := by
  obtain ⟨prog, notices, h, htest⟩ := exists_of_splits crowdPipeline
    (fun prog => repeatsLocal prog && [.glsl, .hlsl, .metal].all (repeatsInput · prog))
      (by decide +kernel)
  simp only [Bool.and_eq_true, List.all_cons, List.all_nil] at htest
  refine ⟨prog, notices, h, htest.1, fun l => ?_⟩
  cases l with
  | glsl => exact htest.2.1
  | hlsl => exact htest.2.2.1
  | metal => exact htest.2.2.2.1

end Sample

namespace Pipeline

open Sample

/-- The two locals come from two blocks, and one of the buffers runs over the joint of the other. -/
theorem split_identifiers_crowded :
    ∃ prog notices, check runtime crowdIndex crowded = .ok crowdPipeline ∧
    crowdPipeline.WellNamed ∧ crowdPipeline.split = (.ok prog, notices) ∧
    (∃ x ∈ prog.locals .vertex, ∃ y ∈ prog.locals .vertex, x.1 ≠ y.1 ∧
      ∃ b ∈ crowded.blocks, ∃ b' ∈ crowded.blocks, b ≠ b' ∧ x ∈ Stmt.declared b ∧
      y ∈ Stmt.declared b') ∧
    ∃ x ∈ prog.vertexInputs runtime .glsl, ∃ y ∈ prog.vertexInputs runtime .glsl, x ≠ y ∧
    (x.Overruns y ∨ y.Overruns x) := by
  obtain ⟨prog, notices, h, hlocal, hinput⟩ := crowded_splits
  obtain ⟨-, -, hblocks, -, hinputs⟩ := split_identifiers check_crowded h crowded_wellNamed
  refine ⟨prog, notices, check_crowded, crowded_wellNamed, h, ?_, ?_⟩
  · obtain ⟨x, hx, y, hy, hvar, hname⟩ := exists_local hlocal
    exact ⟨x, hx, y, hy, hvar, hblocks .vertex x hx y hy hvar hname⟩
  · obtain ⟨x, hx, y, hy, hxy, hid⟩ := exists_input (hinput .glsl)
    refine ⟨x, hx, y, hy, hxy, ?_⟩
    simpa using ((hinputs .glsl).2 x hx y hy hxy).1 hid

/-- Names that are told apart in every block and every buffer are not told apart in a stage. -/
theorem split_repeats_identifiers :
    ∃ prog notices, check runtime crowdIndex crowded = .ok crowdPipeline ∧
    crowdPipeline.WellNamed ∧ crowdPipeline.split = (.ok prog, notices) ∧
    (∃ x ∈ prog.locals .vertex, ∃ y ∈ prog.locals .vertex, x.1 ≠ y.1 ∧ x.2 = y.2) ∧
    ∀ l, ∃ x ∈ prog.vertexInputs runtime l, ∃ y ∈ prog.vertexInputs runtime l, x ≠ y ∧
    x.identifier = y.identifier := by
  obtain ⟨prog, notices, h, hlocal, hinput⟩ := crowded_splits
  exact ⟨prog, notices, check_crowded, crowded_wellNamed, h, exists_local hlocal,
    fun l => exists_input (hinput l)⟩

end Pipeline
end ShaderSplit
