import ShaderSplit.Proofs.Partition.Wiring
import ShaderSplit.Shading.Source

namespace ShaderSplit

def Occurs (part whole : String) : Prop := ∃ before after, whole = before ++ part ++ after

namespace Occurs

variable {s t u : String}

theorem refl (s : String) : Occurs s s := ⟨"", "", by simp⟩

theorem append_left (a : String) (h : Occurs s t) : Occurs s (a ++ t) := by
  obtain ⟨before, after, rfl⟩ := h
  exact ⟨a ++ before, after, by simp [String.append_assoc]⟩

theorem append_right (b : String) (h : Occurs s t) : Occurs s (t ++ b) := by
  obtain ⟨before, after, rfl⟩ := h
  exact ⟨before, after ++ b, by simp [String.append_assoc]⟩

theorem trans (h : Occurs s t) (k : Occurs t u) : Occurs s u := by
  obtain ⟨before, after, rfl⟩ := k
  exact (h.append_left before).append_right after

theorem intercalate {sep : String} {l : List String} (h : s ∈ l) :
    Occurs s (sep.intercalate l) := by
  induction l with
  | nil => cases h
  | cons a l ih =>
    cases l with
    | nil =>
      rw [List.mem_singleton.1 h, String.intercalate_singleton]
      exact refl a
    | cons b l =>
      rw [String.intercalate_cons_cons]
      rcases List.mem_cons.1 h with rfl | h
      · exact ((refl s).append_right sep).append_right _
      · exact (ih h).append_left _

end Occurs

namespace Writer

variable {w : Writer} {s : String}

theorem occurs_operand (e : Expr) (s : String) : Occurs s (operand e s) := by
  unfold operand
  split
  · exact ⟨"(", ")", rfl⟩
  · exact .refl s

theorem occurs_commas {texts : List String} (h : s ∈ texts) : Occurs s (commas texts) :=
  .intercalate h

theorem occurs_infixText (op : BinaryOp) (lhs rhs : Expr) (l r : String) :
    Occurs l (infixText op lhs rhs l r) ∧ Occurs r (infixText op lhs rhs l r) := by
  have sides (a b : String) : Occurs a (a ++ " " ++ op.spelling ++ " " ++ b) ∧
      Occurs b (a ++ " " ++ op.spelling ++ " " ++ b) :=
    ⟨⟨"", " " ++ op.spelling ++ " " ++ b, by simp [String.append_assoc]⟩,
      (Occurs.refl b).append_left _⟩
  unfold infixText
  split
  · exact sides l r
  · exact (sides (operand lhs l) (operand rhs r)).imp (occurs_operand lhs l).trans
      (occurs_operand rhs r).trans

theorem occurs_binary (w : Writer) (op : BinaryOp) (lhs rhs : Expr) (l r : String) :
    Occurs l (w.binary op lhs rhs l r) ∧ Occurs r (w.binary op lhs rhs l r) := by
  unfold binary
  split
  · split
    · exact ⟨⟨"mul(", ", " ++ r ++ ")", by simp [String.append_assoc]⟩,
        ⟨"mul(" ++ l ++ ", ", ")", rfl⟩⟩
    · exact ⟨⟨"", " = mul(" ++ l ++ ", " ++ r ++ ")", by simp [String.append_assoc]⟩,
        ⟨l ++ " = mul(" ++ l ++ ", ", ")", rfl⟩⟩
    · exact occurs_infixText op lhs rhs l r
  · exact occurs_infixText op lhs rhs l r

theorem occurs_plainConstruct (t : Ty) {texts : List String} (h : s ∈ texts) :
    Occurs s (w.plainConstruct t texts) :=
  (occurs_commas h).trans ⟨w.typeName t ++ "(", ")", rfl⟩

theorem occurs_construct (t : Ty) (args : List Expr) {texts : List String} (h : s ∈ texts) :
    Occurs s (w.construct t args texts) := by
  unfold construct
  split
  next arg text =>
    obtain rfl := List.mem_singleton.1 h
    split
    · split
      · exact ⟨"float4x4_to_float3x3(", ")", rfl⟩
      · refine (occurs_operand arg s).trans ?_
        exact ⟨"float3x3(", "[0].xyz, " ++ operand arg s ++ "[1].xyz, " ++ operand arg s ++
          "[2].xyz)", by simp [String.append_assoc]⟩
      · exact occurs_plainConstruct t h
    · exact occurs_plainConstruct t h
  · exact occurs_plainConstruct t h

theorem occurs_initList (t : Ty) (args : List Expr) {texts : List String} (h : s ∈ texts) :
    Occurs s (w.initList t args texts) := by
  unfold initList
  split
  · exact (occurs_commas h).trans ⟨w.typeName t ++ "\x7b", "\x7d", rfl⟩
  · exact occurs_construct t args h

theorem occurs_swizzle (object : Expr) (s name : String) : Occurs s (w.swizzle object s name) := by
  unfold swizzle
  exact (((occurs_operand object s).append_right _).append_right _).append_right _

theorem occurs_sample (id : NodeId) (texture coord : Expr) (rest : List Expr) (s c : String)
    (texts : List String) : Occurs s (w.sample id texture s (coord :: rest) (c :: texts)) ∧
      Occurs c (w.sample id texture s (coord :: rest) (c :: texts)) := by
  have hs := occurs_operand texture s
  unfold sample
  split
  · exact ⟨⟨"texture(", ", " ++ c ++ ")", by simp [String.append_assoc]⟩,
      ⟨"texture(" ++ s ++ ", ", ")", rfl⟩⟩
  · refine ⟨hs.trans ?_, ?_⟩
    · exact ⟨"", ".Sample(_sampler" ++ w.samplerOf id ++ ", " ++ c ++ ")",
        by simp [String.append_assoc]⟩
    · exact ⟨operand texture s ++ ".Sample(_sampler" ++ w.samplerOf id ++ ", ", ")", rfl⟩
  · have head : Occurs s (operand texture s ++ ".sample(_sampler" ++ w.samplerOf id) :=
      (hs.append_right _).append_right _
    unfold metalSample
    dsimp only
    split
    · refine ⟨(((((head.append_right _).append_right _).append_right _).append_right _).append_right
        _), ?_⟩
      refine (occurs_operand coord c).trans ?_
      exact ((((Occurs.refl _).append_left _).append_right _).append_right _).append_right _
    · exact ⟨((head.append_right _).append_right _).append_right _,
        ((Occurs.refl c).append_left _).append_right _⟩
  · refine ⟨((hs.append_right _).append_right _).append_right _, ?_⟩
    exact ((occurs_commas List.mem_cons_self).append_left _).append_right _

theorem occurs_member (t : Ty) {base : Expr} (s field : String) (h : w.buffer? base = none) :
    Occurs s (w.member t base s field) := by
  unfold member
  rw [h]
  exact ((occurs_operand base s).append_right _).append_right _

theorem texts_eq (w : Writer) (es : List Expr) : w.texts es = es.map w.text := by
  induction es with
  | nil => rfl
  | cons e es ih => rw [texts, ih, List.map_cons]

theorem text_swizzle {n : Node} {m : DeclId} {object : Expr} {args : List Expr} {name : String}
    (h : w.swizzle? m = some name) :
    w.text (.methodCall n m object args) = w.swizzle object (w.text object) name := by
  rw [text, h]

theorem text_sample {n : Node} {m : DeclId} {object : Expr} {args : List Expr}
    (h : w.swizzle? m = none) : w.text (.methodCall n m object args) =
      w.sample n.id object (w.text object) args (args.map w.text) := by
  rw [text, h, texts_eq]

/-- A method that is printed with all its parts: a swizzle has no arguments, and a sample has a
coordinate and a constant sampler. -/
def Legible (w : Writer) : Expr → Prop
  | .methodCall _ m _ args => (w.swizzle? m ≠ none → args = []) ∧
      (w.swizzle? m = none → ∃ coord n v, args = [coord, .constant n v])
  | _ => True

/-- The text of a method stands in the text of whatever it is a part of. -/
theorem occurs_text {e x : Expr} (he : e.All w.Legible) (hx : x ∈ e.subterms)
    (hm : ∃ n m object args, x = .methodCall n m object args) : Occurs (w.text x) (w.text e) := by
  obtain ⟨n₀, m₀, object₀, args₀, rfl⟩ := hm
  induction e using Expr.ind with
  | literal | constant | param | localVar | interface | unsupported => simp at hx
  | binary n op lhs rhs hl hr =>
    rw [Expr.all_binary] at he
    rw [Expr.subterms, List.mem_cons, List.mem_append] at hx
    rcases hx with heq | hx | hx
    · cases heq
    · exact (hl he.2.1 hx).trans (occurs_binary w op lhs rhs _ _).1
    · exact (hr he.2.2 hx).trans (occurs_binary w op lhs rhs _ _).2
  | unary n op e ih =>
    rw [Expr.all_unary] at he
    rw [Expr.subterms, List.mem_cons] at hx
    rcases hx with heq | hx
    · cases heq
    · exact ((ih he.2 hx).trans (occurs_operand e _)).append_left _
  | cast n e ih =>
    rw [Expr.all_cast] at he
    rw [Expr.subterms, List.mem_cons] at hx
    rcases hx with heq | hx
    · cases heq
    · exact (ih he.2 hx).trans (occurs_plainConstruct n.ty (by simp))
  | construct n args ih =>
    rw [Expr.all_construct] at he
    rw [Expr.subterms, List.mem_cons, Expr.subtermsOf_eq, List.mem_flatMap] at hx
    rcases hx with heq | ⟨arg, harg, hx⟩
    · cases heq
    · refine (ih arg harg (he.2 arg harg) hx).trans (occurs_construct n.ty args ?_)
      exact texts_eq w args ▸ List.mem_map_of_mem harg
  | initList n items ih =>
    rw [Expr.all_initList] at he
    rw [Expr.subterms, List.mem_cons, Expr.subtermsOf_eq, List.mem_flatMap] at hx
    rcases hx with heq | ⟨item, hitem, hx⟩
    · cases heq
    · refine (ih item hitem (he.2 item hitem) hx).trans (occurs_initList n.ty items ?_)
      exact texts_eq w items ▸ List.mem_map_of_mem hitem
  | call n f args ih =>
    rw [Expr.all_call] at he
    rw [Expr.subterms, List.mem_cons, Expr.subtermsOf_eq, List.mem_flatMap] at hx
    rcases hx with heq | ⟨arg, harg, hx⟩
    · cases heq
    · have hcommas : Occurs (w.text arg) (commas (w.texts args)) :=
        occurs_commas (texts_eq w args ▸ List.mem_map_of_mem harg)
      exact ((ih arg harg (he.2 arg harg) hx).trans hcommas).append_left _ |>.append_right _
  | methodCall n m object args ho ih =>
    rw [Expr.all_methodCall] at he
    obtain ⟨hlegible, hobject, hargs⟩ := he
    rw [Expr.subterms, List.mem_cons, List.mem_append] at hx
    rcases hx with heq | hx
    · cases heq
      exact .refl _
    cases hname : w.swizzle? m with
    | some name =>
      obtain rfl := hlegible.1 (by simp [hname])
      rw [text_swizzle hname]
      exact (ho hobject (hx.resolve_right (by simp))).trans (occurs_swizzle object _ name)
    | none =>
      obtain ⟨coord, n', v, rfl⟩ := hlegible.2 hname
      obtain ⟨hshown, hshown'⟩ := occurs_sample (w := w) n.id object coord [.constant n' v]
        (w.text object) (w.text coord) [w.text (.constant n' v)]
      rw [text_sample hname]
      rcases hx with hx | hx
      · exact (ho hobject hx).trans hshown
      · have hx : .methodCall n₀ m₀ object₀ args₀ ∈ coord.subterms := by simpa using hx
        exact (ih coord (by simp) (hargs coord (by simp)) hx).trans hshown'
  | member n base field ih =>
    rw [Expr.all_member] at he
    rw [Expr.subterms, List.mem_cons] at hx
    rcases hx with heq | hx
    · cases heq
    · refine (ih he.2 hx).trans (occurs_member n.ty _ field ?_)
      -- only a parameter is a buffer, and it has no parts
      cases base with
      | param => simp at hx
      | _ => rfl

theorem occurs_body {st : StageStmt} {n : Node} {m : DeclId} {object : Expr} {args : List Expr}
    (hst : st ∈ w.block) (hlegible : ∀ x ∈ st.terms, w.Legible x)
    (hx : .methodCall n m object args ∈ st.terms) (indent : String) :
    ∃ line ∈ w.body indent, Occurs (w.text (.methodCall n m object args)) line := by
  obtain ⟨e, he, hxe⟩ := List.mem_flatMap.1 hx
  have hall : e.All w.Legible := fun y hy => hlegible y (List.mem_flatMap.2 ⟨e, he, hy⟩)
  have hoccurs := occurs_text hall hxe ⟨n, m, object, args, rfl⟩
  have shown (line : String) (hline : w.statement st = some line) (h : Occurs (w.text e) line) :
      ∃ line ∈ w.body indent, Occurs (w.text (.methodCall n m object args)) line := by
    refine ⟨indent ++ line, List.mem_map_of_mem ?_, (hoccurs.trans h).append_left indent⟩
    exact List.mem_filterMap.2 ⟨st, hst, hline⟩
  cases st with
  | decl d =>
    obtain rfl := List.mem_singleton.1 he
    exact shown _ rfl ⟨w.typeName d.ty ++ " " ++ d.name ++ " = ", ";", rfl⟩
  | expr e' =>
    obtain rfl := List.mem_singleton.1 he
    exact shown _ rfl ⟨"", ";", by simp⟩
  | bindingDecl | pushUniform => cases he

end Writer

theorem Glsl.exists_lines (p : Program) (c : Catalog) (s : Stage) :
    ∃ lines, Glsl.source p c s = "\n".intercalate lines ∧
      Glsl.textures ⟨p, c, s, .glsl⟩ ⊆ lines ∧ Writer.body ⟨p, c, s, .glsl⟩ "    " ⊆ lines := by
  unfold Glsl.source
  refine ⟨_, rfl, fun l hl => ?_, fun l hl => ?_⟩
  · simp [hl]
  · simp [Glsl.entry, hl]

theorem Hlsl.exists_lines (vulkan : Bool) (p : Program) (c : Catalog) (s : Stage) :
    ∃ lines, Hlsl.source vulkan p c s = "\n".intercalate lines ∧
      Hlsl.resources ⟨p, c, s, .hlsl⟩ ⊆ lines ∧ Writer.body ⟨p, c, s, .hlsl⟩ "    " ⊆ lines := by
  unfold Hlsl.source
  refine ⟨_, rfl, fun l hl => ?_, fun l hl => ?_⟩
  · simp [hl]
  · simp [Hlsl.entry, hl]

theorem Metal.exists_lines (p : Program) (c : Catalog) (s : Stage) :
    ∃ lines, Metal.source p c s = "\n".intercalate lines ∧
      (∃ line ∈ lines,
        Occurs (" main0(" ++ Writer.commas (Metal.arguments ⟨p, c, s, .metal⟩) ++ ") \x7b") line) ∧
      Writer.body ⟨p, c, s, .metal⟩ "    " ⊆ lines := by
  unfold Metal.source
  refine ⟨_, rfl, ?_, fun l hl => ?_⟩
  · let w : Writer := ⟨p, c, s, .metal⟩
    let qualifier := if w.stage = .vertex then "vertex" else "fragment"
    let type := (Metal.returns w).1
    refine ⟨s!"{qualifier} {type} main0({Writer.commas (Metal.arguments w)}) \x7b", ?_, ?_⟩
    · simp [Metal.entry, w, qualifier, type]
    · exact ⟨qualifier ++ " " ++ type, "", by simp [toString, String.append_assoc, w]⟩
  · simp [Metal.entry, hl]

end ShaderSplit
