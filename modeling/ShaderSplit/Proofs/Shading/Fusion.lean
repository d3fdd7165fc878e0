import ShaderSplit.Proofs.Partition.Recursion
import ShaderSplit.Proofs.Shading.Reading

namespace ShaderSplit

open Token Phrase

namespace Writer

variable {w : Writer}

def parts (w : Writer) : Expr → List Expr
  | .binary _ _ lhs rhs => [lhs, rhs]
  | .unary _ _ e | .cast _ e => [e]
  | .construct _ args | .initList _ args | .call _ _ args => args
  | .methodCall _ m object args =>
    if (w.swizzle? m).isSome then [object]
    else object :: (if w.dialect = .host then args else args.take 1)
  | .member _ base _ => if (w.buffer? base).isSome then [] else [base]
  | _ => []

/-- The text of the second expression is in the text of the first. -/
def Prints (w : Writer) : Expr → Expr → Prop := Relation.ReflTransGen fun e x => x ∈ w.parts e

theorem parts_subset {e x : Expr} (h : x ∈ w.parts e) : x ∈ e.operands := by
  cases e with
  | literal | constant | param | localVar | interface | unsupported => cases h
  | binary | unary | cast | construct | initList | call => exact h
  | methodCall n m object args =>
    rw [parts] at h
    split at h
    · exact List.mem_cons.2 (.inl (List.mem_singleton.1 h))
    · refine List.mem_cons.2 ((List.mem_cons.1 h).imp id fun h => ?_)
      split at h
      · exact h
      · exact List.mem_of_mem_take h
  | member n base field =>
    rw [parts] at h
    split at h
    · cases h
    · exact h

theorem ind_parts {P : Expr → Prop} (h : ∀ e, (∀ x ∈ w.parts e, P x) → P e) (e : Expr) : P e := by
  induction hn : sizeOf e using Nat.strongRecOn generalizing e with
  | ind n ih =>
    subst hn
    exact h e fun x hx => ih _ (Expr.sizeOf_operand (parts_subset hx)) x rfl

theorem mem_subterms_of_prints {e x : Expr} (h : w.Prints e x) : x ∈ e.subterms := by
  induction h using Relation.ReflTransGen.head_induction_on with
  | refl => exact x.self_mem_subterms
  | head hy _ ih => exact Expr.mem_subterms.2 (.inr ⟨_, parts_subset hy, ih⟩)

theorem forall_prints {Q : Expr → Prop} {e : Expr} :
    (∀ x, w.Prints e x → Q x) ↔ Q e ∧ ∀ y ∈ w.parts e, ∀ x, w.Prints y x → Q x := by
  constructor
  · exact fun h => ⟨h e .refl, fun y hy x hx => h x (.head hy hx)⟩
  · rintro ⟨he, h⟩ x hx
    rcases hx.cases_head with rfl | ⟨y, hy, hyx⟩
    · exact he
    · exact h y hy x hyx

/-- An expression whose own names are words, and which the writer can spell. -/
def Spelled : Expr → Prop
  | .localVar _ _ name => IsWord name
  | .member _ _ field => IsWord field
  | .unsupported .. => False
  | _ => True

/-- The names of a program are words, and its builtins are those of the tables. -/
structure Named (w : Writer) : Prop where
  catalog : w.catalog.Tabled
  params : ∀ q ∈ w.program.params, IsWord q.name
  attributes : ∀ a ∈ w.program.attributes, IsWord a.name

def sign? (w : Writer) : Expr → Option UnaryOp
  | .literal _ v => v.sign?
  | .constant _ v => v.sign?
  | .unary _ op _ => some op
  | .methodCall _ m object _ =>
    if (w.swizzle? m).isSome || w.dialect ≠ .glsl then w.sign? object else none
  | .member _ base _ => if (w.buffer? base).isSome then none else w.sign? base
  | _ => none

def endsInNumber : Expr → Bool
  | .literal _ v => v.isNumber
  | .constant _ v => v.isNumber
  | .unary _ _ e => endsInNumber e
  | _ => false

/-- A sign before an operand that starts with the same sign, or a point after an operand that
ends in a number. -/
def fuses (w : Writer) : Expr → Bool
  | .unary _ op e => op.doubles && w.sign? e == some op
  | .methodCall _ m object args =>
    if (w.swizzle? m).isSome then endsInNumber object
    else w.dialect ≠ .glsl && endsInNumber object
      || w.dialect = .metal && w.catalog.isTextureArray object.ty && args.head?.any endsInNumber
  | .member _ base _ => (w.buffer? base).isNone && endsInNumber base
  | _ => false

theorem operandPhrase_leading (e : Expr) (p : Phrase) :
    (operandPhrase e p).leading = if e.isBinary then none else p.leading := by
  unfold operandPhrase
  split <;> rfl

theorem operandPhrase_trailing (e : Expr) (p : Phrase) :
    (operandPhrase e p).trailing = if e.isBinary then false else p.trailing := by
  unfold operandPhrase
  split <;> rfl

def Plain (p : Phrase) : Prop := p.leading = none ∧ p.trailing = false

theorem typePhrase_plain (t : Ty) : Plain (w.typePhrase t) := by
  unfold typePhrase Dialect.scalarPhrase Dialect.typePhrase
  split
  · exact ⟨rfl, rfl⟩
  · split <;> exact ⟨rfl, rfl⟩
  · split
    · split <;> exact ⟨rfl, rfl⟩
    · exact ⟨rfl, rfl⟩

theorem functionPhrase_plain (f : DeclId) : Plain (w.functionPhrase f) := by
  unfold functionPhrase Dialect.functionPhrase
  split
  · split <;> exact ⟨rfl, rfl⟩
  · exact ⟨rfl, rfl⟩

theorem apply_plain {head : Phrase} (h : Plain head) (args : List Phrase) :
    Plain (Phrase.apply head args) :=
  ⟨h.1, rfl⟩

theorem paramPhrase_plain (i : Nat) : Plain (w.program.paramPhrase w.dialect w.stage i) := by
  unfold Program.paramPhrase
  split
  · exact ⟨rfl, rfl⟩
  · split <;> exact ⟨rfl, rfl⟩

theorem interfacePhrase_plain (r : InterfaceRef) : Plain (w.dialect.interfacePhrase r) := by
  unfold Dialect.interfacePhrase
  split
  · exact ⟨rfl, rfl⟩
  · split <;> exact ⟨rfl, rfl⟩

theorem constructPhrase_plain (t : Ty) (args : List Expr) (ps : List Phrase) :
    Plain (w.constructPhrase t args ps) := by
  have htype := apply_plain (typePhrase_plain (w := w) t)
  unfold constructPhrase
  split
  · split
    · split
      · exact ⟨rfl, rfl⟩
      · exact ⟨rfl, rfl⟩
      · exact htype _
    · exact htype _
  · exact htype _

theorem initListPhrase_plain (t : Ty) (args : List Expr) (ps : List Phrase) :
    Plain (w.initListPhrase t args ps) := by
  unfold initListPhrase
  split
  · exact ⟨(typePhrase_plain t).1, rfl⟩
  · exact constructPhrase_plain t args ps

theorem vertexFieldPhrase_plain (a : AttributeRecord) (field : String) (t : Ty) :
    Plain (w.vertexFieldPhrase a field t) := by
  unfold vertexFieldPhrase
  split
  · exact ⟨rfl, rfl⟩
  · exact ⟨rfl, rfl⟩
  · exact ⟨rfl, rfl⟩
  · split
    · exact apply_plain (typePhrase_plain t) _
    · exact ⟨rfl, rfl⟩

theorem samplePhrase_ends (call : NodeId) (texture : Expr) (p : Phrase) (args : List Expr)
    (ps : List Phrase) :
    (w.samplePhrase call texture p args ps).leading =
        (if w.dialect = .glsl then none else (operandPhrase texture p).leading) ∧
      (w.samplePhrase call texture p args ps).trailing = false := by
  unfold samplePhrase metalSamplePhrase
  cases w.dialect with
  | glsl | hlsl | host => exact ⟨rfl, rfl⟩
  | metal =>
    dsimp only
    split
    · split <;> exact ⟨rfl, rfl⟩
    · exact ⟨rfl, rfl⟩

theorem swizzlePhrase_ends (object : Expr) (p : Phrase) (name : String) :
    (w.swizzlePhrase object p name).leading = (operandPhrase object p).leading ∧
      (w.swizzlePhrase object p name).trailing = false := by
  unfold swizzlePhrase
  split <;> exact ⟨rfl, rfl⟩

/-- The text of an operand starts and ends as its expression says. -/
theorem operandPhrase_ends (e : Expr) : (operandPhrase e (w.phrase e)).leading = w.sign? e ∧
    (operandPhrase e (w.phrase e)).trailing = endsInNumber e := by
  rw [operandPhrase_leading, operandPhrase_trailing]
  induction e using Expr.ind with
  | literal n v => exact ⟨v.leading_phrase _, v.trailing_phrase _⟩
  | constant n v => exact ⟨v.leading_phrase, v.trailing_phrase⟩
  | param n i => exact paramPhrase_plain i
  | unary n op e ih =>
    rw [← operandPhrase_trailing] at ih
    exact ⟨rfl, ih.2⟩
  | localVar | binary | unsupported => exact ⟨rfl, rfl⟩
  | cast n e => exact apply_plain (typePhrase_plain n.ty) [w.phrase e]
  | construct n args => exact constructPhrase_plain ..
  | initList n args => exact initListPhrase_plain ..
  | call n f args => exact apply_plain (functionPhrase_plain f) (w.phrases args)
  | methodCall n m object args ho =>
    rw [← operandPhrase_leading] at ho
    rw [phrase, sign?, ← ho.1]
    cases w.swizzle? m with
    | some name => exact swizzlePhrase_ends object _ name
    | none =>
      have h := samplePhrase_ends (w := w) n.id object (w.phrase object) args (w.phrases args)
      refine ⟨h.1.trans ?_, h.2⟩
      by_cases hd : w.dialect = .glsl <;> simp [hd]
  | member n base field ih =>
    rw [← operandPhrase_leading] at ih
    rw [phrase, sign?, ← ih.1, memberPhrase]
    cases w.buffer? base with
    | some a => exact vertexFieldPhrase_plain a field n.ty
    | none => exact ⟨rfl, rfl⟩
  | interface n r => exact interfacePhrase_plain r

theorem clear_operandPhrase {e : Expr} {p : Phrase} : (operandPhrase e p).Clear ↔ p.Clear := by
  unfold operandPhrase
  split
  · exact and_iff_right trivial
  · rfl

theorem clear_infixPhrase {op : BinaryOp} {lhs rhs : Expr} {l r : Phrase} :
    (infixPhrase op lhs rhs l r).Clear ↔ l.Clear ∧ r.Clear := by
  unfold infixPhrase
  split <;> simp only [Clear, clear_operandPhrase]

theorem clear_binaryPhrase {op : BinaryOp} {lhs rhs : Expr} {l r : Phrase} :
    (w.binaryPhrase op lhs rhs l r).Clear ↔ l.Clear ∧ r.Clear := by
  unfold binaryPhrase
  split
  · split
    · simp [clear_apply, Clear]
    · simp [clear_apply, Clear]
    · exact clear_infixPhrase
  · exact clear_infixPhrase

theorem clear_typePhrase (t : Ty) : (w.typePhrase t).Clear := by
  unfold typePhrase Dialect.scalarPhrase Dialect.typePhrase
  split
  · trivial
  · split <;> trivial
  · split
    · split <;> trivial
    · trivial

theorem clear_functionPhrase (f : DeclId) : (w.functionPhrase f).Clear := by
  unfold functionPhrase Dialect.functionPhrase
  split
  · split <;> trivial
  · trivial

theorem clear_columnPhrase {m : Phrase} {k : Nat} : (columnPhrase m k).Clear ↔ m.Clear := by
  simp [columnPhrase, Clear, Phrase.trailing]

theorem clear_constructPhrase {t : Ty} {args : List Expr} {ps : List Phrase} :
    (w.constructPhrase t args ps).Clear ↔ ∀ p ∈ ps, p.Clear := by
  have htype : ∀ qs, (Phrase.apply (w.typePhrase t) qs).Clear ↔ ∀ p ∈ qs, p.Clear := fun qs => by
    rw [clear_apply, and_iff_right (clear_typePhrase t)]
  unfold constructPhrase
  split
  · split
    · split
      · simp [clear_apply, Clear]
      · simp [clear_apply, clear_columnPhrase, clear_operandPhrase, Clear, List.range_succ]
      · exact htype _
    · exact htype _
  · exact htype _

theorem clear_initListPhrase {t : Ty} {args : List Expr} {ps : List Phrase} :
    (w.initListPhrase t args ps).Clear ↔ ∀ p ∈ ps, p.Clear := by
  unfold initListPhrase
  split
  · rw [Clear, clear_listed, and_iff_right (clear_typePhrase t)]
  · exact clear_constructPhrase

theorem clear_swizzlePhrase {object : Expr} {p : Phrase} {name : String} :
    (w.swizzlePhrase object p name).Clear ↔
      (operandPhrase object p).trailing = false ∧ p.Clear := by
  unfold swizzlePhrase
  split <;> simp [clear_apply, Clear, clear_operandPhrase]

theorem clear_samplePhrase {call : NodeId} {object : Expr} {args : List Expr} :
    (w.samplePhrase call object (w.phrase object) args (w.phrases args)).Clear ↔
      (w.dialect ≠ .glsl && endsInNumber object
        || w.dialect = .metal && w.catalog.isTextureArray object.ty &&
          args.head?.any endsInNumber) = false ∧
      (w.phrase object).Clear ∧ ∀ x ∈ if w.dialect = .host then args else args.take 1,
        (w.phrase x).Clear := by
  have htrail (e : Expr) : (operandPhrase e (w.phrase e)).trailing = endsInNumber e :=
    (operandPhrase_ends e).2
  unfold samplePhrase metalSamplePhrase
  cases hd : w.dialect with
  | host =>
    simp [clear_apply, Clear, htrail, clear_operandPhrase, phrases_eq, and_assoc]
  | glsl | hlsl =>
    cases args <;>
      simp [clear_apply, Clear, htrail, clear_operandPhrase, phrases, samplerPhrase, and_assoc]
  | metal =>
    cases args with
    | nil => simp [clear_apply, Clear, htrail, clear_operandPhrase, samplerPhrase]
    | cons coord args =>
      cases w.catalog.isTextureArray object.ty <;>
        simp [clear_apply, Clear, htrail, clear_operandPhrase, phrases, samplerPhrase, and_assoc]
      tauto

theorem clear_vertexFieldPhrase (a : AttributeRecord) (field : String) (t : Ty) :
    (w.vertexFieldPhrase a field t).Clear := by
  unfold vertexFieldPhrase
  split
  · trivial
  · trivial
  · exact ⟨rfl, trivial⟩
  · split
    · refine clear_apply.2 ⟨clear_typePhrase t, fun p hp => ?_⟩
      obtain ⟨k, -, rfl⟩ := List.mem_map.1 hp
      exact ⟨rfl, trivial⟩
    · exact ⟨rfl, trivial⟩

theorem clear_paramPhrase (i : Nat) : (w.program.paramPhrase w.dialect w.stage i).Clear := by
  unfold Program.paramPhrase
  split
  · trivial
  · split
    · trivial
    · exact ⟨rfl, trivial⟩
    · exact ⟨rfl, trivial⟩
    · exact ⟨rfl, trivial⟩
    · exact ⟨rfl, trivial⟩
    · trivial

theorem clear_interfacePhrase (r : InterfaceRef) : (w.dialect.interfacePhrase r).Clear := by
  unfold Dialect.interfacePhrase
  split
  · trivial
  · split <;> exact ⟨rfl, trivial⟩

/-- A phrase is clear if its parts are and none runs together with what the expression adds. -/
theorem clear_phrase {e : Expr} :
    (w.phrase e).Clear ↔ w.fuses e = false ∧ ∀ x ∈ w.parts e, (w.phrase x).Clear := by
  cases e with
  | literal n v => simp [phrase, v.clear_phrase, fuses, parts]
  | constant n v => simp [phrase, v.sound_phrase, fuses, parts]
  | param n i => simp [phrase, clear_paramPhrase, fuses, parts]
  | localVar n v name => simp [phrase, Clear, fuses, parts]
  | binary n op l r => simp [phrase, clear_binaryPhrase, fuses, parts]
  | unary n op e =>
    simp [phrase, Clear, (operandPhrase_ends e).1, clear_operandPhrase, fuses, parts]
  | construct n args => simp [phrase, clear_constructPhrase, phrases_eq, fuses, parts]
  | cast n e => simp [phrase, clear_apply, clear_typePhrase, fuses, parts]
  | initList n items => simp [phrase, clear_initListPhrase, phrases_eq, fuses, parts]
  | call n f args => simp [phrase, clear_apply, clear_functionPhrase, phrases_eq, fuses, parts]
  | methodCall n m object args =>
    rw [phrase, fuses, parts]
    cases w.swizzle? m with
    | some name =>
      refine clear_swizzlePhrase.trans ?_
      simp [(operandPhrase_ends object).2]
    | none =>
      refine clear_samplePhrase.trans ?_
      simp
  | member n base field =>
    rw [phrase, memberPhrase, fuses, parts]
    cases w.buffer? base with
    | some a => simpa using clear_vertexFieldPhrase a field n.ty
    | none => simp [Clear, (operandPhrase_ends base).2, clear_operandPhrase]
  | interface n r => simp [phrase, clear_interfacePhrase, fuses, parts]
  | unsupported n what => simp [phrase, Clear, fuses, parts]

theorem inWord_toString (n : Nat) : ∀ c ∈ (toString n).toList, inWord c := fun c hc =>
  inWord_of_isDigit (digits_toString n c hc)

theorem isWord_fieldName (r : InterfaceRef) : IsWord r.fieldName := by
  refine IsWord.append ?_ (inWord_toString _)
  cases r.source <;> cases r.dest <;> decide

theorem isWord_stage (s : Stage) : IsWord ("_to_" ++ s.name) ∧ IsWord ("_from_" ++ s.name) := by
  cases s <;> decide

theorem isWord_attribute {a : AttributeRecord} {field : String} (ha : IsWord a.name)
    (hf : IsWord field) : IsWord (a.fieldName field) :=
  (ha.append (by simp [inWord, startsWord])).append fun _ => inWord_of_mem hf

theorem valid_scalarPhrase (d : Dialect) (s : ScalarType) : (d.scalarPhrase s).Valid := by
  unfold Dialect.scalarPhrase
  split
  · exact ⟨by decide, by decide⟩
  next hpair =>
    change IsWord (d.scalar s)
    revert hpair
    unfold Dialect.scalar
    split
    · unfold ScalarType.hostName
      split
      case h_9 => exact fun h => absurd rfl h
      all_goals decide
    all_goals decide

theorem valid_builtinPhrase (d : Dialect) {b : BuiltinType} (hb : b ∈ BuiltinType.rows) :
    (d.typePhrase b).Valid := by
  have hnames : ∀ b ∈ BuiltinType.rows, IsWord b.name ∧ IsWord (Dialect.glsl.builtinType b) := by
    decide +kernel
  have hplain : ∀ d ∈ [Dialect.hlsl, .metal], ∀ b ∈ BuiltinType.rows, b.isTexture = false →
      IsWord (d.builtinType b) := by
    decide +kernel
  have helem : ∀ e : ElemKind, IsWord e.name ∧ IsWord (e.name ++ "4") := by
    intro e
    cases e <;> decide
  cases d with
  | host => exact ⟨by decide, (hnames b hb).1⟩
  | glsl => exact (hnames b hb).2
  | hlsl =>
    unfold Dialect.typePhrase
    cases hs : b.shape with
    | texture elem array => exact ⟨by cases array <;> decide, (helem elem).2⟩
    | vector | matrix => exact hplain _ (by decide) b hb (by simp [BuiltinType.isTexture, hs])
  | metal =>
    unfold Dialect.typePhrase
    cases hs : b.shape with
    | texture elem array => exact ⟨(hnames b hb).1, (helem elem).1⟩
    | vector | matrix => exact hplain _ (by decide) b hb (by simp [BuiltinType.isTexture, hs])

theorem valid_typePhrase (hc : w.catalog.Tabled) (t : Ty) : (w.typePhrase t).Valid := by
  unfold typePhrase
  split
  · exact (by decide : IsWord "void")
  · exact valid_scalarPhrase ..
  · split
    next b hb => exact valid_builtinPhrase _ (hc.types hb)
    next => exact IsWord.append (s := "__decl") (by decide) (inWord_toString _)

theorem valid_functionPhrase (hc : w.catalog.Tabled) (f : DeclId) : (w.functionPhrase f).Valid := by
  have hrows : ∀ d ∈ [Dialect.glsl, .hlsl, .metal], ∀ b ∈ BuiltinFunction.rows, IsWord b.name ∧
      IsWord (d.function b) := by
    decide +kernel
  unfold functionPhrase
  split
  next b hb =>
    have hrow := fun d hd => hrows d hd b (hc.functions hb)
    unfold Dialect.functionPhrase
    split
    · exact ⟨by decide, (hrow .glsl (by decide)).1⟩
    next hd =>
      refine (hrow w.dialect ?_).2
      revert hd
      cases w.dialect <;> decide
  next => exact IsWord.append (s := "__func") (by decide) (inWord_toString _)

theorem valid_interfacePhrase (r : InterfaceRef) : (w.dialect.interfacePhrase r).Valid := by
  unfold Dialect.interfacePhrase
  split
  · exact isWord_fieldName r
  · split
    · exact ⟨(isWord_stage _).1, isWord_fieldName r⟩
    · exact ⟨(isWord_stage _).2, isWord_fieldName r⟩

theorem valid_paramPhrase (hw : w.Named) (i : Nat) :
    (w.program.paramPhrase w.dialect w.stage i).Valid := by
  have hvar : IsWord (w.program.outputNames w.stage).2 := by
    unfold Program.outputNames
    split
    · exact (isWord_stage _).1
    · exact (by decide : IsWord "_out")
  unfold Program.paramPhrase
  split
  · exact IsWord.append (s := "__param") (by decide) (inWord_toString _)
  next q hq =>
    have hname := hw.params q (List.mem_of_getElem? hq)
    split
    · exact (by decide : IsWord "gl_Position")
    · exact ⟨hvar, by decide⟩
    · exact ⟨hvar, by decide⟩
    · exact ⟨(by decide : IsWord "_targets_out"), hname⟩
    · exact ⟨(by decide : IsWord "_targets_out"), hname⟩
    · exact hname

theorem valid_operandPhrase {e : Expr} {p : Phrase} (hp : p.Valid) : (operandPhrase e p).Valid := by
  unfold operandPhrase
  split
  · exact ⟨trivial, hp⟩
  · exact hp

theorem valid_infixPhrase {op : BinaryOp} {lhs rhs : Expr} {l r : Phrase} (hl : l.Valid)
    (hr : r.Valid) :
    (infixPhrase op lhs rhs l r).Valid := by
  unfold infixPhrase
  split
  · exact ⟨hl, hr⟩
  · exact ⟨valid_operandPhrase hl, valid_operandPhrase hr⟩

theorem valid_binaryPhrase {op : BinaryOp} {lhs rhs : Expr} {l r : Phrase} (hl : l.Valid)
    (hr : r.Valid) :
    (w.binaryPhrase op lhs rhs l r).Valid := by
  have hmul : (Phrase.apply (.word "mul") [l, r]).Valid :=
    valid_apply.2 ⟨(by decide : IsWord "mul"), by simp [hl, hr]⟩
  unfold binaryPhrase
  split
  · split
    · exact hmul
    · exact ⟨hl, hmul⟩
    · exact valid_infixPhrase hl hr
  · exact valid_infixPhrase hl hr

theorem valid_constructPhrase (hc : w.catalog.Tabled) {t : Ty} {args : List Expr} {ps : List Phrase}
    (h : ∀ p ∈ ps, p.Valid) : (w.constructPhrase t args ps).Valid := by
  have htype : (Phrase.apply (w.typePhrase t) ps).Valid := valid_apply.2 ⟨valid_typePhrase hc t, h⟩
  unfold constructPhrase
  split
  next arg p =>
    have hp : p.Valid := h p (by simp)
    split
    · split
      · exact valid_apply.2 ⟨(by decide : IsWord "float4x4_to_float3x3"), h⟩
      · refine valid_apply.2 ⟨(by decide : IsWord "float3x3"), fun q hq => ?_⟩
        obtain ⟨k, -, rfl⟩ := List.mem_map.1 hq
        exact ⟨⟨valid_operandPhrase hp, isNumber_toString k⟩, by decide⟩
      · exact htype
    · exact htype
  · exact htype

theorem valid_initListPhrase (hc : w.catalog.Tabled) {t : Ty} {args : List Expr} {ps : List Phrase}
    (h : ∀ p ∈ ps, p.Valid) : (w.initListPhrase t args ps).Valid := by
  unfold initListPhrase
  split
  · exact ⟨valid_typePhrase hc t, valid_listed.2 h⟩
  · exact valid_constructPhrase hc h

theorem valid_vertexFieldPhrase (hc : w.catalog.Tabled) {a : AttributeRecord} {field : String}
    (ha : IsWord a.name) (hf : IsWord field) (t : Ty) : (w.vertexFieldPhrase a field t).Valid := by
  have hname := isWord_attribute ha hf
  have hdata : IsWord "_vert_data" := by decide
  unfold vertexFieldPhrase
  split
  · exact hname
  · exact hname
  · exact ⟨hdata, hname⟩
  · split
    · refine valid_apply.2 ⟨valid_typePhrase hc t, fun p hp => ?_⟩
      obtain ⟨k, -, rfl⟩ := List.mem_map.1 hp
      exact ⟨hdata, (hname.append (by simp [inWord, startsWord])).append (inWord_toString k)⟩
    · exact ⟨hdata, hname⟩

theorem valid_swizzlePhrase {object : Expr} {p : Phrase} {name : String} (hp : p.Valid)
    (hn : IsWord name) :
    (w.swizzlePhrase object p name).Valid := by
  have hselect : (Phrase.select (operandPhrase object p) name).Valid := ⟨valid_operandPhrase hp, hn⟩
  unfold swizzlePhrase
  split
  · exact valid_apply.2 ⟨hselect, by simp⟩
  · exact hselect

theorem valid_samplePhrase {call : NodeId} {object : Expr} {p : Phrase} {args : List Expr}
    (hp : p.Valid) (h : ∀ x ∈ if w.dialect = .host then args else args.take 1, (w.phrase x).Valid) :
    (w.samplePhrase call object p args (w.phrases args)).Valid := by
  have hselect : ∀ name, IsWord name → (Phrase.select (operandPhrase object p) name).Valid :=
      fun name hn =>
    ⟨valid_operandPhrase hp, hn⟩
  have hsampler : (w.samplerPhrase call).Valid :=
    IsWord.append (s := "_sampler") (by decide) (inWord_toString _)
  have hfirst : ((w.phrases args).headD .empty).Valid := by
    cases args with
    | nil => trivial
    | cons x args => exact h x (by split <;> simp)
  have hpair {p q : Phrase} (hp : p.Valid) (hq : q.Valid) : ∀ x ∈ [p, q], x.Valid :=
    List.forall_mem_cons.2 ⟨hp, List.forall_mem_singleton.2 hq⟩
  -- the dialects differ in what they print of the arguments, so only those need to be valid
  unfold samplePhrase
  split
  · exact valid_apply.2 ⟨(by decide : IsWord "texture"), hpair hp hfirst⟩
  · exact valid_apply.2 ⟨hselect _ (by decide), hpair hsampler hfirst⟩
  · unfold metalSamplePhrase
    cases args with
    | nil => exact valid_apply.2 ⟨hselect _ (by decide), List.forall_mem_singleton.2 hsampler⟩
    | cons coord args =>
      have hcoord : (operandPhrase coord (w.phrase coord)).Valid := valid_operandPhrase hfirst
      dsimp only [phrases]
      split
      · refine valid_apply.2
          ⟨hselect _ (by decide), List.forall_mem_cons.2 ⟨hsampler, hpair ⟨hcoord, by decide⟩ ?_⟩⟩
        exact valid_apply.2 ⟨(by decide : IsWord "uint"),
          List.forall_mem_singleton.2 ⟨hcoord, by decide⟩⟩
      · exact valid_apply.2 ⟨hselect _ (by decide), hpair hsampler hfirst⟩
  next hd =>
    rw [if_pos hd] at h
    refine valid_apply.2 ⟨hselect _ (by decide), ?_⟩
    simpa [phrases_eq] using h

theorem isWord_swizzle (hc : w.catalog.Tabled) {m : DeclId} {name : String}
    (h : w.swizzle? m = some name) : IsWord name := by
  have hrows : ∀ b ∈ BuiltinMethod.rows, IsWord b.name := by decide +kernel
  obtain ⟨b, hb, rfl⟩ := Option.map_eq_some_iff.1 h
  exact hrows b (hc.methods (Option.filter_eq_some_iff.1 hb).1)

theorem mem_of_buffer? {e : Expr} {a : AttributeRecord} (h : w.buffer? e = some a) :
    a ∈ w.program.attributes := by
  unfold buffer? at h
  split at h
  · exact List.mem_of_find?_eq_some h
  · cases h

theorem valid_phrase (hw : w.Named) {e : Expr} (he : Spelled e)
    (h : ∀ x ∈ w.parts e, (w.phrase x).Valid) : (w.phrase e).Valid := by
  cases e with
  | literal n v => exact v.valid_phrase _
  | constant n v => exact v.sound_phrase.1
  | param n i => exact valid_paramPhrase hw i
  | localVar n v name => exact he
  | binary n op l r => exact valid_binaryPhrase (h l (by simp [parts])) (h r (by simp [parts]))
  | unary n op e => exact valid_operandPhrase (h e (by simp [parts]))
  | construct n args =>
    exact valid_constructPhrase hw.catalog (by simpa [phrases_eq, parts] using h)
  | cast n e =>
    exact valid_apply.2 ⟨valid_typePhrase hw.catalog n.ty, by simpa using h e (by simp [parts])⟩
  | initList n items => exact valid_initListPhrase hw.catalog (by simpa [phrases_eq, parts] using h)
  | call n f args =>
    exact valid_apply.2 ⟨valid_functionPhrase hw.catalog f, by simpa [phrases_eq, parts] using h⟩
  | methodCall n m object args =>
    rw [phrase]
    rw [parts] at h
    cases hm : w.swizzle? m with
    | some name =>
      exact valid_swizzlePhrase (h object (by simp [hm])) (isWord_swizzle hw.catalog hm)
    | none =>
      simp only [hm, Option.isSome_none, Bool.false_eq_true, ↓reduceIte, List.forall_mem_cons] at h
      exact valid_samplePhrase h.1 h.2
  | member n base field =>
    rw [phrase, memberPhrase]
    rw [parts] at h
    cases hb : w.buffer? base with
    | some a =>
      exact valid_vertexFieldPhrase hw.catalog (hw.attributes a (mem_of_buffer? hb)) he n.ty
    | none => exact ⟨valid_operandPhrase (h base (by simp [hb])), he⟩
  | interface n r => exact valid_interfacePhrase r
  | unsupported n what => exact he.elim

theorem valid_of_spelled (hw : w.Named) {e : Expr} (he : ∀ x, w.Prints e x → Spelled x) :
    (w.phrase e).Valid := by
  refine ind_parts (w := w) (P := fun e => (∀ x, w.Prints e x → Spelled x) → (w.phrase e).Valid)
    (fun e ih he => ?_) e he
  obtain ⟨hself, hparts⟩ := forall_prints.1 he
  exact valid_phrase hw hself fun x hx => ih x hx (hparts x hx)

theorem clear_iff_prints (e : Expr) :
    (w.phrase e).Clear ↔ ∀ x, w.Prints e x → w.fuses x = false := by
  refine ind_parts (w := w) (P := fun e => (w.phrase e).Clear ↔ ∀ x, w.Prints e x →
    w.fuses x = false) (fun e ih => ?_) e
  rw [clear_phrase, forall_prints]
  exact and_congr_right' (forall₂_congr ih)

/-- Splitting the text of an expression into tokens gives those of the phrase that the writer means,
if and only if nothing printed in it fuses: no sign stands before an operand that starts with the
same sign, and no operand that ends in a number stands before a point. -/
theorem text_lexes_iff {ds : List Declaration} (hc : Catalog.build ds = .ok w.catalog)
    (hparams : ∀ q ∈ w.program.params, IsWord q.name)
    (hattributes : ∀ a ∈ w.program.attributes, IsWord a.name) (e : Expr)
    (he : ∀ x, w.Prints e x → Spelled x) :
    (w.phrase e).text = w.text e ∧
      (Lexes (w.text e).toList (w.phrase e).tokens ↔ ∀ x, w.Prints e x → w.fuses x = false) := by
  have htabled := Catalog.build_tabled hc
  have htext := text_phrase htabled e
  refine ⟨htext, ?_⟩
  rw [← htext, lexes_iff (valid_of_spelled ⟨htabled, hparams, hattributes⟩ he), clear_iff_prints]

end Writer

namespace Sample

open Workbench

def passing : Pipeline :=
  ⟨runtime, ⟨withRuntime.declarations⟩, passed, .ofParams runtime ⟨withRuntime.declarations⟩
    passed.params⟩

def writer (d : Dialect) : Writer := ⟨(Draft.start passing).finish passing, runtime, .vertex, d⟩

def plainNode (id : NodeId) : Node := ⟨id, .float, .dummy⟩

/-- Two signs, of which one is before a difference with a negative literal. -/
def signs : Expr :=
  .unary (plainNode 5) .plus (.unary (plainNode 4) .neg
    (.binary (plainNode 3) .sub (.param (plainNode 1) 0) (.literal (plainNode 2) (.int (-2)))))

def restored : Expr :=
  .unary (plainNode 3) .neg (.unary (plainNode 2) .neg (.param (plainNode 1) 0))

theorem writer_names (d : Dialect) : (∀ q ∈ (writer d).program.params, IsWord q.name) ∧
    ∀ a ∈ (writer d).program.attributes, IsWord a.name := by
  constructor
  · change ∀ q ∈ passed.params, IsWord q.name
    decide +kernel
  · change ∀ a ∈ (Signature.ofParams runtime ⟨withRuntime.declarations⟩ passed.params).attributes,
      IsWord a.name
    decide +kernel

end Sample

open Sample Workbench in
theorem Writer.text_lexes_iff_signs :
    Catalog.build withRuntime.declarations = .ok (writer .hlsl).catalog ∧
    (∀ q ∈ (writer .hlsl).program.params, IsWord q.name) ∧
    (∀ a ∈ (writer .hlsl).program.attributes, IsWord a.name) ∧
    (∀ x, (writer .hlsl).Prints signs x → Spelled x) ∧ (writer .hlsl).text signs = "+-(v - -2)" ∧
    Lexes "+-(v - -2)".toList ["+", "-", "(", "v", "-", "-", "2", ")"] := by
  have hspelled : ∀ x ∈ signs.subterms, Spelled x := by simp [signs, Spelled]
  have hfuses : ∀ x ∈ signs.subterms, (writer .hlsl).fuses x = false := by
    simp [signs, fuses, sign?]
  have htext : (writer .hlsl).text signs = "+-(v - -2)" := by decide +kernel
  have htokens : ((writer .hlsl).phrase signs).tokens =
      ["+", "-", "(", "v", "-", "-", "2", ")"] := by
    decide +kernel
  have hprints : ∀ x, (writer .hlsl).Prints signs x → Spelled x :=
    fun x hx => hspelled x (mem_subterms_of_prints hx)
  have h := text_lexes_iff (w := writer .hlsl) build_runtime (writer_names .hlsl).1
      (writer_names .hlsl).2 signs hprints
  have hlex := h.2.2 fun x hx => hfuses x (mem_subterms_of_prints hx)
  rw [htext, htokens] at hlex
  exact ⟨build_runtime, (writer_names .hlsl).1, (writer_names .hlsl).2, hprints, htext, hlex⟩

open Sample Workbench in
/-- The negative of a negative prints as a decrement. -/
theorem Writer.not_lexes_restored :
    Catalog.build withRuntime.declarations = .ok (writer .glsl).catalog ∧
    (∀ q ∈ (writer .glsl).program.params, IsWord q.name) ∧
    (∀ a ∈ (writer .glsl).program.attributes, IsWord a.name) ∧
    (∀ x, (writer .glsl).Prints restored x → Spelled x) ∧
    ((writer .glsl).phrase restored).tokens = ["-", "-", "v"] ∧
    Lexes ((writer .glsl).text restored).toList ["--", "v"] ∧
    ¬ Lexes ((writer .glsl).text restored).toList ["-", "-", "v"] := by
  have htext : (writer .glsl).text restored = "--v" := by decide +kernel
  have hspelled : ∀ x ∈ restored.subterms, Spelled x := by simp [restored, Spelled]
  have hlex : Lexes "--v".toList ["--", "v"] := by
    have hop : "--" ∈ operators := by simp only [operators, List.mem_cons, true_or, or_true]
    have hv : Longest "v" [] := .of_not_continues (.inl (by decide)) fun c hc => by cases hc
    refine .token (s := "--") (.of_not_continues (.inr (.inr hop)) fun c hc => ?_)
      (.token (s := "v") hv .nil)
    cases hc
    exact not_continues_of_not_mem hop (not_mem_of_inWord (by decide)) (by decide)
  rw [htext]
  refine ⟨build_runtime, (writer_names .glsl).1, (writer_names .glsl).2, ?_,
    by decide +kernel, hlex, fun h => ?_⟩
  · exact fun x hx => hspelled x (mem_subterms_of_prints hx)
  · exact absurd (hlex.unique h) (by decide)

end ShaderSplit
