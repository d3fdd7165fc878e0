import ShaderSplit.Proofs.Builtin.Identification
import ShaderSplit.Proofs.Shading.Literals
import ShaderSplit.Proofs.Shading.Printing

namespace ShaderSplit

open Token Phrase

namespace Phrase

def apply (head : Phrase) (args : List Phrase) : Phrase := bracketed .round head (listed args)

def group (p : Phrase) : Phrase := bracketed .round empty p

@[simp] theorem text_apply (head : Phrase) (args : List Phrase) :
    (apply head args).text = head.text ++ "(" ++ ", ".intercalate (args.map text) ++ ")" := by
  rw [apply, text_bracketed, text_listed]
  rfl

theorem valid_apply {head : Phrase} {args : List Phrase} :
    (apply head args).Valid ↔ head.Valid ∧ ∀ p ∈ args, p.Valid := by
  rw [apply, Valid, valid_listed]

theorem clear_apply {head : Phrase} {args : List Phrase} :
    (apply head args).Clear ↔ head.Clear ∧ ∀ p ∈ args, p.Clear := by
  rw [apply, Clear, clear_listed]

end Phrase

namespace Dialect

def typePhrase (d : Dialect) (b : BuiltinType) : Phrase :=
  match d, b.shape with
  | host, _ => .qualified runtimeNamespace b.name
  | hlsl, .texture elem array =>
    .template (if array then "Texture2DArray" else "Texture2D") (elem.name ++ "4")
  | metal, .texture elem _ => .template b.name elem.name
  | _, _ => .word (d.builtinType b)

def functionPhrase (d : Dialect) (f : BuiltinFunction) : Phrase :=
  if d = host then .qualified runtimeNamespace f.name else .word (d.function f)

def scalarPhrase (d : Dialect) (s : ScalarType) : Phrase :=
  if d.scalar s = "unsigned int" then .pair "unsigned" "int" else .word (d.scalar s)

def interfacePhrase (d : Dialect) (r : InterfaceRef) : Phrase :=
  if (d = .glsl || d = .hlsl) && r.source = .host && r.side = .consumer then .word r.fieldName
  else
    match r.side with
    | .producer => .select (.word ("_to_" ++ r.dest.name)) r.fieldName
    | .consumer => .select (.word ("_from_" ++ r.source.name)) r.fieldName

end Dialect

def Program.paramPhrase (p : Program) (d : Dialect) (s : Stage) (index : Nat) : Phrase :=
  match p.params[index]? with
  | none => .word ("__param" ++ toString index)
  | some q =>
    match d, q.role with
    | .glsl, .position => .word "gl_Position"
    | .hlsl, .position | .metal, .position => .select (.word (p.outputNames s).2) "_position"
    | .hlsl, .colorTarget _ | .metal, .colorTarget _ => .select (.word "_targets_out") q.name
    | _, _ => .word q.name

namespace Writer

variable (w : Writer)

def typePhrase (t : Ty) : Phrase :=
  match t with
  | .void => .word "void"
  | .scalar s => w.dialect.scalarPhrase s
  | .decl id =>
    match w.catalog.type? t with
    | some b => w.dialect.typePhrase b
    | none => .word ("__decl" ++ toString id)

def functionPhrase (f : DeclId) : Phrase :=
  match w.catalog.function? f with
  | some b => w.dialect.functionPhrase b
  | none => .word ("__func" ++ toString f)

def operandPhrase (e : Expr) (p : Phrase) : Phrase := if e.isBinary then .group p else p

def infixPhrase (op : BinaryOp) (lhs rhs : Expr) (l r : Phrase) : Phrase :=
  if op.isAssignment then .infixed op l r
  else .infixed op (operandPhrase lhs l) (operandPhrase rhs r)

def binaryPhrase (op : BinaryOp) (lhs rhs : Expr) (l r : Phrase) : Phrase :=
  if w.dialect = .hlsl && (w.catalog.isMatrix lhs.ty || w.catalog.isMatrix rhs.ty) then
    match op with
    | .mul => .apply (.word "mul") [l, r]
    | .mulAssign => .infixed .assign l (.apply (.word "mul") [l, r])
    | _ => infixPhrase op lhs rhs l r
  else infixPhrase op lhs rhs l r

def columnPhrase (m : Phrase) (k : Nat) : Phrase :=
  .select (.bracketed .square m (.number (toString k))) "xyz"

def constructPhrase (t : Ty) (args : List Expr) (ps : List Phrase) : Phrase :=
  match args, ps with
  | [arg], [p] =>
    if w.catalog.matrixRows t = some 3 && w.catalog.matrixRows arg.ty = some 4 then
      match w.dialect with
      | .hlsl => .apply (.word "float4x4_to_float3x3") [p]
      | .metal =>
        .apply (.word "float3x3") ((List.range 3).map (columnPhrase (operandPhrase arg p)))
      | _ => .apply (w.typePhrase t) [p]
    else .apply (w.typePhrase t) [p]
  | _, ps => .apply (w.typePhrase t) ps

def initListPhrase (t : Ty) (args : List Expr) (ps : List Phrase) : Phrase :=
  match w.dialect with
  | .host => .bracketed .curly (w.typePhrase t) (.listed ps)
  | _ => w.constructPhrase t args ps

def swizzlePhrase (object : Expr) (p : Phrase) (name : String) : Phrase :=
  if w.dialect = .host then .apply (.select (operandPhrase object p) name) []
  else .select (operandPhrase object p) name

def samplerPhrase (call : NodeId) : Phrase := .word ("_sampler" ++ w.samplerOf call)

def metalSamplePhrase (call : NodeId) (texture : Expr) (p : Phrase) (args : List Expr)
    (ps : List Phrase) : Phrase :=
  let head := .select (operandPhrase texture p) "sample"
  match args, ps with
  | coord :: _, q :: _ =>
    if w.catalog.isTextureArray texture.ty then
      .apply head [w.samplerPhrase call, .select (operandPhrase coord q) "xy",
        .apply (.word "uint") [.select (operandPhrase coord q) "z"]]
    else .apply head [w.samplerPhrase call, q]
  | _, _ => .apply head [w.samplerPhrase call]

def samplePhrase (call : NodeId) (texture : Expr) (p : Phrase) (args : List Expr)
    (ps : List Phrase) : Phrase :=
  match w.dialect with
  | .glsl => .apply (.word "texture") [p, ps.headD .empty]
  | .hlsl =>
    .apply (.select (operandPhrase texture p) "Sample") [w.samplerPhrase call, ps.headD .empty]
  | .metal => w.metalSamplePhrase call texture p args ps
  | .host => .apply (.select (operandPhrase texture p) "sample") ps

def vertexFieldPhrase (a : AttributeRecord) (field : String) (t : Ty) : Phrase :=
  match w.dialect with
  | .glsl | .host => .word (a.fieldName field)
  | .hlsl => .select (.word "_vert_data") (a.fieldName field)
  | .metal =>
    match w.catalog.column t with
    | some (_, dim) =>
      .apply (w.typePhrase t)
        ((List.range dim).map
          fun k => .select (.word "_vert_data") (a.fieldName field ++ "_" ++ toString k))
    | none => .select (.word "_vert_data") (a.fieldName field)

def memberPhrase (t : Ty) (base : Expr) (p : Phrase) (field : String) : Phrase :=
  match w.buffer? base with
  | some a => w.vertexFieldPhrase a field t
  | none => .select (operandPhrase base p) field

mutual
/-- What the text of an expression means to be. -/
def phrase : Expr → Phrase
  | .literal _ v => v.phrase w.dialect
  | .constant _ v => v.phrase
  | .param _ i => w.program.paramPhrase w.dialect w.stage i
  | .localVar _ _ name => .word name
  | .binary _ op lhs rhs => w.binaryPhrase op lhs rhs (phrase lhs) (phrase rhs)
  | .unary _ op e => .prefixed op (operandPhrase e (phrase e))
  | .construct n args => w.constructPhrase n.ty args (phrases args)
  | .cast n e => .apply (w.typePhrase n.ty) [phrase e]
  | .initList n items => w.initListPhrase n.ty items (phrases items)
  | .call _ f args => .apply (w.functionPhrase f) (phrases args)
  | .methodCall n m object args =>
    match w.swizzle? m with
    | some name => w.swizzlePhrase object (phrase object) name
    | none => w.samplePhrase n.id object (phrase object) args (phrases args)
  | .member n base field => w.memberPhrase n.ty base (phrase base) field
  | .interface _ r => w.dialect.interfacePhrase r
  | .unsupported _ what => .word ("/* " ++ what ++ " */")
def phrases : List Expr → List Phrase
  | [] => []
  | e :: es => phrase e :: phrases es
end

end Writer

/-- Everything that the catalog identifies is a row of the tables. -/
structure Catalog.Tabled (c : Catalog) : Prop where
  types : ∀ {t b}, c.type? t = some b → b ∈ BuiltinType.rows
  functions : ∀ {f b}, c.function? f = some b → b ∈ BuiltinFunction.rows
  methods : ∀ {m b}, c.method? m = some b → b ∈ BuiltinMethod.rows

theorem Catalog.mem_of_lookupLast {α β : Type} [BEq α] [LawfulBEq α] {k : α} {v : β}
    {l : List (α × β)} (h : lookupLast k l = some v) : (k, v) ∈ l := by
  obtain ⟨x, hx, rfl⟩ := Option.map_eq_some_iff.1 h
  obtain ⟨hmem, hk⟩ := List.mem_filter.1 (List.mem_of_getLast? hx)
  obtain rfl : x.1 = k := by simpa using hk
  exact hmem

theorem Catalog.build_tabled {ds : List Declaration} {c : Catalog} (h : Catalog.build ds = .ok c) :
    c.Tabled := by
  obtain rfl : collect (visible ds) = c := by
    unfold build at h
    dsimp only at h
    split at h
    · exact Except.ok.inj h
    · cases h
  refine ⟨fun {t b} ht => ?_, fun hf => (mem_functions.1 (mem_of_lookupLast hf)).1,
    fun hm => (mem_methods.1 (mem_of_lookupLast hm)).1⟩
  cases t with
  | decl id => exact (mem_types.1 (mem_of_lookupLast ht)).1
  | void | scalar => cases ht

namespace Writer

variable {w : Writer}

theorem phrases_eq (es : List Expr) : w.phrases es = es.map w.phrase := by
  induction es with
  | nil => rfl
  | cons e es ih => rw [phrases, ih, List.map_cons]

theorem text_typePhrase (hc : w.catalog.Tabled) (t : Ty) :
    (w.typePhrase t).text = w.typeName t := by
  have hrows : ∀ d : Dialect, ∀ b ∈ BuiltinType.rows, (d.typePhrase b).text = d.builtinType b := by
    intro d
    cases d <;> decide +kernel
  unfold typePhrase typeName Catalog.spellType
  cases t with
  | void => exact text_word _
  | scalar s =>
    dsimp only [Dialect.scalarPhrase]
    split
    next h => rw [h, text_pair]; rfl
    next => exact text_word _
  | decl id =>
    dsimp only
    cases hb : w.catalog.type? (.decl id) with
    | none => exact text_word _
    | some b => exact hrows _ b (hc.types hb)

theorem text_functionPhrase (f : DeclId) : (w.functionPhrase f).text = w.function f := by
  unfold functionPhrase function
  cases w.catalog.function? f with
  | none => exact text_word _
  | some b =>
    dsimp only [Dialect.functionPhrase]
    split
    next h => rw [h, text_qualified]; rfl
    next => exact text_word _

theorem text_interfacePhrase (d : Dialect) (r : InterfaceRef) :
    (d.interfacePhrase r).text = d.interface r := by
  unfold Dialect.interfacePhrase Dialect.interface InterfaceRef.access
  split
  · exact text_word _
  · cases r.side <;> simp

theorem text_paramPhrase (p : Program) (d : Dialect) (s : Stage) (i : Nat) :
    (p.paramPhrase d s i).text = p.paramName d s i := by
  unfold Program.paramPhrase Program.paramName
  cases p.params[i]? with
  | none => exact text_word _
  | some q =>
    dsimp only
    split <;> simp [*, String.append_assoc]

theorem text_operandPhrase (e : Expr) (p : Phrase) :
    (operandPhrase e p).text = operand e p.text := by
  unfold operandPhrase operand
  split
  · rw [group, text_bracketed, text_empty, String.empty_append]
    rfl
  · rfl

theorem text_infixPhrase (op : BinaryOp) (lhs rhs : Expr) (l r : Phrase) :
    (infixPhrase op lhs rhs l r).text = infixText op lhs rhs l.text r.text := by
  unfold infixPhrase infixText
  split <;> simp [text_operandPhrase]

theorem text_binaryPhrase (op : BinaryOp) (lhs rhs : Expr) (l r : Phrase) :
    (w.binaryPhrase op lhs rhs l r).text = w.binary op lhs rhs l.text r.text := by
  unfold binaryPhrase binary
  split
  · cases op
    case mul => simp [String.append_assoc]
    case mulAssign =>
      apply String.toList_inj.1
      simp [BinaryOp.spelling]
    all_goals exact text_infixPhrase ..
  · exact text_infixPhrase ..

theorem text_plainConstruct (hc : w.catalog.Tabled) (t : Ty) (ps : List Phrase) :
    (Phrase.apply (w.typePhrase t) ps).text = w.plainConstruct t (ps.map Phrase.text) := by
  rw [text_apply, text_typePhrase hc]
  rfl

theorem text_columnPhrases (m : Phrase) :
    (Phrase.apply (.word "float3x3") ((List.range 3).map (columnPhrase m))).text =
    "float3x3(" ++ m.text ++ "[0].xyz, " ++ m.text ++ "[1].xyz, " ++ m.text ++ "[2].xyz)" := by
  have hrange : List.range 3 = [0, 1, 2] := rfl
  have hdigit : toString 0 = "0" ∧ toString 1 = "1" ∧ toString 2 = "2" := by decide
  apply String.toList_inj.1
  simp [columnPhrase, hrange, hdigit, Bracket.opening, Bracket.closing, -Nat.toString_eq_repr]

theorem text_constructPhrase (hc : w.catalog.Tabled) (t : Ty) (args : List Expr)
    (ps : List Phrase) :
    (w.constructPhrase t args ps).text = w.construct t args (ps.map Phrase.text) := by
  unfold constructPhrase construct
  rcases args with _ | ⟨arg, _ | ⟨arg', args⟩⟩ <;> rcases ps with _ | ⟨p, _ | ⟨p', ps⟩⟩
  case cons.nil.cons.nil =>
    rw [List.map_cons, List.map_nil]
    dsimp only
    cases decide (w.catalog.matrixRows t = some 3) &&
        decide (w.catalog.matrixRows arg.ty = some 4) with
    | false => exact text_plainConstruct hc t [p]
    | true =>
      cases w.dialect with
      | hlsl => simp
      | metal => exact (text_columnPhrases _).trans (by rw [text_operandPhrase]; rfl)
      | glsl | host => exact text_plainConstruct hc t [p]
  all_goals exact text_plainConstruct hc t _

theorem text_initListPhrase (hc : w.catalog.Tabled) (t : Ty) (args : List Expr) (ps : List Phrase) :
    (w.initListPhrase t args ps).text = w.initList t args (ps.map Phrase.text) := by
  unfold initListPhrase initList
  cases w.dialect with
  | host =>
    dsimp only
    rw [text_bracketed, text_listed, text_typePhrase hc]
    rfl
  | glsl | hlsl | metal => exact text_constructPhrase hc ..

theorem text_swizzlePhrase (object : Expr) (p : Phrase) (name : String) :
    (w.swizzlePhrase object p name).text = w.swizzle object p.text name := by
  unfold swizzlePhrase swizzle
  split <;> simp [text_operandPhrase, String.append_assoc]

theorem text_metalSamplePhrase (call : NodeId) (texture : Expr) (p : Phrase) (args : List Expr)
    (ps : List Phrase) :
    (w.metalSamplePhrase call texture p args ps).text = w.metalSample call texture p.text args
      (ps.map Phrase.text) := by
  unfold metalSamplePhrase metalSample
  rcases args with _ | ⟨coord, args⟩ <;> rcases ps with _ | ⟨q, ps⟩
  case cons.cons =>
    dsimp only [List.map_cons]
    split <;> apply String.toList_inj.1 <;> simp [samplerPhrase, text_operandPhrase]
  all_goals
    apply String.toList_inj.1
    simp [samplerPhrase, text_operandPhrase]

theorem text_samplePhrase (call : NodeId) (texture : Expr) (p : Phrase) (args : List Expr)
    (ps : List Phrase) :
    (w.samplePhrase call texture p args ps).text = w.sample call texture p.text args
      (ps.map Phrase.text) := by
  have hhead : (ps.headD .empty).text = (ps.map Phrase.text).headD "" := by cases ps <;> rfl
  unfold samplePhrase sample
  cases w.dialect with
  | metal => exact text_metalSamplePhrase ..
  | glsl | hlsl | host =>
    apply String.toList_inj.1
    simp [← hhead, samplerPhrase, text_operandPhrase, commas, -List.headD_eq_head?_getD]

theorem text_vertexFieldPhrase (hc : w.catalog.Tabled) (a : AttributeRecord)
    (field : String) (t : Ty) :
    (w.vertexFieldPhrase a field t).text = w.vertexField a field t := by
  unfold vertexFieldPhrase vertexField
  cases w.dialect with
  | glsl | host => exact text_word _
  | hlsl => simp
  | metal =>
    cases w.catalog.column t with
    | none => simp
    | some x =>
      dsimp only
      rw [text_plainConstruct hc, List.map_map]
      simp [Function.comp_def, String.append_assoc]

theorem text_memberPhrase (hc : w.catalog.Tabled) (t : Ty) (base : Expr) (p : Phrase)
    (field : String) :
    (w.memberPhrase t base p field).text = w.member t base p.text field := by
  unfold memberPhrase member
  cases w.buffer? base with
  | some a => exact text_vertexFieldPhrase hc a field t
  | none => exact (text_select ..).trans (by rw [text_operandPhrase])

theorem text_phrase (hc : w.catalog.Tabled) (e : Expr) : (w.phrase e).text = w.text e := by
  have hlist : ∀ es : List Expr, (∀ e ∈ es, (w.phrase e).text = w.text e) →
      (w.phrases es).map Phrase.text = w.texts es := by
    intro es h
    rw [phrases_eq, texts_eq, List.map_map]
    exact List.map_congr_left h
  induction e using Expr.ind with
  | literal n v => exact v.text_phrase _
  | constant n v => exact v.text_phrase
  | param n i => exact text_paramPhrase ..
  | localVar n v name => exact text_word name
  | binary n op l r hl hr => rw [phrase, text_binaryPhrase, hl, hr, text]
  | unary n op e ih => rw [phrase, text_prefixed, text_operandPhrase, ih, text]
  | construct n args ih => rw [phrase, text_constructPhrase hc, hlist args ih, text]
  | cast n e ih => rw [phrase, text_plainConstruct hc, List.map_singleton, ih, text]
  | initList n items ih => rw [phrase, text_initListPhrase hc, hlist items ih, text]
  | call n f args ih =>
    rw [phrase, text_apply, text_functionPhrase, hlist args ih, text]
    rfl
  | methodCall n m object args ho ih =>
    rw [phrase, text]
    cases w.swizzle? m with
    | some name => exact (text_swizzlePhrase ..).trans (by rw [ho])
    | none => exact (text_samplePhrase ..).trans (by rw [ho, hlist args ih])
  | member n base field ih => rw [phrase, text_memberPhrase hc, ih, text]
  | interface n r => exact text_interfacePhrase ..
  | unsupported n what => exact text_word _

end Writer
end ShaderSplit
