import ShaderSplit.Proofs.Shading.Tokens

namespace ShaderSplit

open Token Piece

inductive Bracket where
  | round | square | curly
  deriving DecidableEq, Repr

namespace Bracket

def opening : Bracket → String
  | round => "(" | square => "[" | curly => "\x7b"

def closing : Bracket → String
  | round => ")" | square => "]" | curly => "\x7d"

end Bracket

/-- An operator that written twice is another operator. -/
def UnaryOp.doubles : UnaryOp → Bool
  | neg | plus => true
  | not | bitNot => false

/-- The parts of a text. A list of operands is a phrase with commas, and the empty
phrase has no text. -/
inductive Phrase where
  | empty
  | word (s : String)
  | number (s : String)
  | prefixed (op : UnaryOp) (p : Phrase)
  | infixed (op : BinaryOp) (l r : Phrase)
  | comma (l r : Phrase)
  | bracketed (b : Bracket) (head items : Phrase)
  | select (p : Phrase) (name : String)
  | pair (s t : String)
  | template (name arg : String)
  | qualified (space name : String)
  deriving DecidableEq, Repr

namespace Phrase

def pieces : Phrase → List Piece
  | empty => []
  | word s | number s => [token s]
  | prefixed op p => token op.spelling :: p.pieces
  | infixed op l r => l.pieces ++ blank :: token op.spelling :: blank :: r.pieces
  | comma l r => l.pieces ++ token "," :: blank :: r.pieces
  | bracketed b head items => head.pieces ++ token b.opening :: (items.pieces ++ [token b.closing])
  | select p name => p.pieces ++ [token ".", token name]
  | pair s t => [token s, blank, token t]
  | template name arg => [token name, token "<", token arg, token ">"]
  | qualified space name => [token space, token "::", token name]

def text (p : Phrase) : String := spell p.pieces

def tokens (p : Phrase) : List String := Piece.tokens p.pieces

def Valid : Phrase → Prop
  | empty => True
  | word s => IsWord s
  | number s => IsNumber s
  | prefixed _ p => p.Valid
  | infixed _ l r | comma l r | bracketed _ l r => l.Valid ∧ r.Valid
  | select p name => p.Valid ∧ IsWord name
  | pair s t | template s t | qualified s t => IsWord s ∧ IsWord t

def leading : Phrase → Option UnaryOp
  | prefixed op _ => some op
  | infixed _ l _ | comma l _ | bracketed _ l _ | select l _ => l.leading
  | _ => none

def trailing : Phrase → Bool
  | number _ => true
  | prefixed _ r | infixed _ _ r | comma _ r => r.trailing
  | _ => false

/-- No sign stands before itself, and no point after a number. -/
def Clear : Phrase → Prop
  | prefixed op p => ¬ (op.doubles ∧ p.leading = some op) ∧ p.Clear
  | infixed _ l r | comma l r | bracketed _ l r => l.Clear ∧ r.Clear
  | select p _ => p.trailing = false ∧ p.Clear
  | _ => True

end Phrase

namespace Token

/-- Operators that no other operator starts with. -/
def closed : List String := ["(", ")", "[", "]", "\x7b", "\x7d", ","]

/-- Operators in phrases that are not of operations. -/
def marks : List String := "." :: "<" :: ">" :: "::" :: closed

/-- Characters before which words and numbers end. -/
def stops : List Char := [' ', '(', ')', '[', ']', '\x7b', '\x7d', ',']

theorem mem_operators_of_mark {s : String} (hs : s ∈ marks) : s ∈ operators := by
  simp only [marks, closed, List.mem_cons, List.not_mem_nil, or_false] at hs
  rcases hs with rfl | rfl | rfl | rfl | rfl | rfl | rfl | rfl | rfl | rfl | rfl <;>
    simp only [operators, List.mem_cons, true_or, or_true]

theorem mem_marks_of_closed {s : String} (hs : s ∈ closed) : s ∈ marks := by simp [marks, hs]

theorem closed_chars : ∀ s ∈ closed, s.toList ≠ [] ∧ ∀ c ∈ s.toList, c ∈ stops := by
  simp [closed, stops]

theorem not_continues_closed {s : String} (hs : s ∈ closed) (c : Char) : ¬ Continues s c := by
  have hself : ∀ s ∈ closed, s ≠ "." ∧ ∀ o ∈ operators, s.toList <+: o.toList → o = s := by
    decide +kernel
  obtain ⟨hne, huniq⟩ := hself s hs
  refine not_continues_operator (mem_operators_of_mark (mem_marks_of_closed hs))
    (fun o ho hpre => ?_) (absurd · hne)
  obtain rfl := huniq o ho ((List.prefix_append ..).trans hpre)
  exact absurd hpre.length_le (by simp)

/-- An operator ends before a character that is in no operator. -/
theorem not_continues_of_not_mem {s : String} {c : Char} (hs : s ∈ operators)
    (hc : ∀ o ∈ operators, c ∉ o.toList) (hp : s = "." → c.isDigit = false) : ¬ Continues s c :=
  not_continues_operator hs (fun o ho hpre => hc o ho (hpre.subset (by simp))) hp

theorem not_mem_of_inWord {c : Char} (hc : inWord c) : ∀ o ∈ operators, c ∉ o.toList :=
    fun o ho hmem =>
  Bool.false_ne_true ((operators_chars o ho c hmem).1.symm.trans hc)

theorem blank_not_mem : ∀ o ∈ operators, ' ' ∉ o.toList :=
  fun o ho hmem => (operators_chars o ho ' ' hmem).2 rfl

theorem not_continues_number_stop {s : String} {c : Char} (hs : IsNumber s) (hc : c ∈ stops) :
    ¬ Continues s c := by
  have hstops : ∀ c ∈ stops, inWord c = false ∧ c ≠ '.' ∧ c ∉ ['+', '-'] := by
    simp [stops, inWord, startsWord]
  obtain ⟨hword, hpoint, hsign⟩ := hstops c hc
  refine not_continues_number hs fun a h => ?_
  rcases h with h | h | ⟨-, h⟩
  · exact Bool.false_ne_true (hword.symm.trans h)
  · exact hpoint h
  · exact hsign h

theorem unary_mem_operators (op : UnaryOp) : op.spelling ∈ operators := by
  cases op <;> simp only [UnaryOp.spelling, operators, List.mem_cons, true_or, or_true]

theorem binary_mem_operators (op : BinaryOp) : op.spelling ∈ operators := by
  cases op <;> simp only [BinaryOp.spelling, operators, List.mem_cons, true_or, or_true]

theorem unary_ne_point (op : UnaryOp) : op.spelling ≠ "." := by
  cases op <;> decide

theorem unary_toList (op : UnaryOp) : ∃ d, op.spelling.toList = [d] ∧ d ∈ ['-', '+', '!', '~'] := by
  cases op <;> exact ⟨_, rfl, by decide⟩

/-- What makes a prefix operator longer: itself, or one of these characters. -/
theorem operators_second : ∀ o ∈ operators, ∀ d ∈ ['-', '+', '!', '~'], o.toList.head? = some d →
    ∀ c ∈ o.toList.tail.take 1, c ∈ ['=', '>', '*'] ∨ c = d ∧ d ∈ ['-', '+'] := by
  have h : (operators.all fun o => ['-', '+', '!', '~'].all fun d => o.toList.head? == some d →
      (o.toList.tail.take 1).all fun c => ['=', '>', '*'].contains c || c == d &&
        ['-', '+'].contains d) = true := by
    decide +kernel
  simpa only [List.all_eq_true, decide_eq_true_eq, Bool.or_eq_true, Bool.and_eq_true, beq_iff_eq,
    List.contains_iff_mem] using h

theorem not_continues_of_second (op : UnaryOp) {c : Char} (hc : c ∉ ['=', '>', '*'])
    (hself : op.doubles → op.spelling.toList ≠ [c]) : ¬ Continues op.spelling c := by
  refine not_continues_operator (unary_mem_operators op) (fun o ho hpre => ?_)
    (absurd · (unary_ne_point op))
  obtain ⟨d, hd, hmem⟩ := unary_toList op
  obtain ⟨r, hr⟩ := hpre
  rw [hd] at hr
  rcases operators_second o ho d hmem (by simp [← hr]) c (by simp [← hr]) with h | ⟨rfl, h⟩
  · exact hc h
  · refine hself ?_ hd
    cases op with
    | neg | plus => rfl
    | not | bitNot =>
      cases hd
      exact absurd h (by decide)

def lengthening : List Char := ['+', '-', '=', '>', '*']

theorem not_continues_unary (op : UnaryOp) {c : Char} (hc : c ∉ lengthening) :
    ¬ Continues op.spelling c := by
  refine not_continues_of_second op (fun h => hc (List.mem_append_right ['+', '-'] h))
    fun hd heq => hc ?_
  cases op with
  | neg | plus =>
    cases heq
    decide
  | not | bitNot => cases hd

/-- Two prefix operators stay apart unless they are the same sign. -/
theorem not_continues_unary_unary {op op' : UnaryOp} (h : ¬ (op.doubles ∧ op' = op)) {c : Char}
    (hc : op'.spelling.toList = [c]) : ¬ Continues op.spelling c := by
  refine not_continues_of_second op ?_ fun hd heq => h ⟨hd, ?_⟩
  · cases op' <;> cases hc <;> decide
  · rw [← hc] at heq
    cases op <;> cases op' <;> first | rfl | cases heq

theorem not_longest_of_doubles {op : UnaryOp} (h : op.doubles) (cs : List Char) :
    ¬ Longest op.spelling (op.spelling.toList ++ cs) := by
  have hdouble : "--" ∈ operators ∧ "++" ∈ operators := by
    simp only [operators, List.mem_cons, true_or, or_true, and_self]
  cases op with
  | neg => exact not_longest (t := "--") (.inr (.inr hdouble.1)) rfl
  | plus => exact not_longest (t := "++") (.inr (.inr hdouble.2)) rfl
  | not | bitNot => cases h

end Token

namespace Phrase

theorem isToken_of_mem {p : Phrase} (hp : p.Valid) {s : String} (hs : token s ∈ p.pieces) :
    IsToken s := by
  have hop {s : String} (h : s ∈ marks) : IsToken s := .inr (.inr (mem_operators_of_mark h))
  induction p with
  | empty => cases hs
  | word t =>
    cases List.mem_singleton.1 hs
    exact .inl hp
  | number t =>
    cases List.mem_singleton.1 hs
    exact .inr (.inl hp)
  | prefixed op p ih =>
    rw [pieces, List.mem_cons, token.injEq] at hs
    rcases hs with rfl | hs
    · exact .inr (.inr (unary_mem_operators op))
    · exact ih hp hs
  | infixed op l r ihl ihr =>
    simp only [pieces, List.mem_append, List.mem_cons, token.injEq, reduceCtorEq, false_or] at hs
    rcases hs with hs | rfl | hs
    · exact ihl hp.1 hs
    · exact .inr (.inr (binary_mem_operators op))
    · exact ihr hp.2 hs
  | comma l r ihl ihr =>
    simp only [pieces, List.mem_append, List.mem_cons, token.injEq, reduceCtorEq, false_or] at hs
    rcases hs with hs | rfl | hs
    · exact ihl hp.1 hs
    · exact hop (by decide)
    · exact ihr hp.2 hs
  | bracketed b l r ihl ihr =>
    simp only [pieces, List.mem_append, List.mem_cons, token.injEq, List.not_mem_nil,
      or_false] at hs
    rcases hs with hs | rfl | hs | rfl
    · exact ihl hp.1 hs
    · exact hop (by cases b <;> decide)
    · exact ihr hp.2 hs
    · exact hop (by cases b <;> decide)
  | select p name ih =>
    simp only [pieces, List.mem_append, List.mem_cons, token.injEq, List.not_mem_nil,
      or_false] at hs
    rcases hs with hs | rfl | rfl
    · exact ih hp.1 hs
    · exact hop (by decide)
    · exact .inl hp.2
  | pair t u =>
    simp only [pieces, List.mem_cons, token.injEq, reduceCtorEq, false_or, List.not_mem_nil,
      or_false] at hs
    rcases hs with rfl | rfl
    · exact .inl hp.1
    · exact .inl hp.2
  | template t u =>
    simp only [pieces, List.mem_cons, token.injEq, List.not_mem_nil, or_false] at hs
    rcases hs with rfl | rfl | rfl | rfl
    · exact .inl hp.1
    · exact hop (by decide)
    · exact .inl hp.2
    · exact hop (by decide)
  | qualified t u =>
    simp only [pieces, List.mem_cons, token.injEq, List.not_mem_nil, or_false] at hs
    rcases hs with rfl | rfl | rfl
    · exact .inl hp.1
    · exact hop (by decide)
    · exact .inl hp.2

theorem pieces_of_leading {p : Phrase} {op : UnaryOp} (h : p.leading = some op) :
    ∃ ps, p.pieces = token op.spelling :: ps := by
  induction p with
  | prefixed op' p =>
    cases h
    exact ⟨_, rfl⟩
  | infixed _ l _ ih | comma l _ ih | bracketed _ l _ ih | select l _ ih =>
    obtain ⟨ps, hps⟩ := ih h
    exact ⟨_, by rw [pieces, hps, List.cons_append]⟩
  | _ => cases h

theorem pieces_of_trailing {p : Phrase} (hp : p.Valid) (h : p.trailing) :
    ∃ ps s, IsNumber s ∧ p.pieces = ps ++ [token s] := by
  induction p with
  | number s => exact ⟨[], s, hp, rfl⟩
  | prefixed op r ih =>
    obtain ⟨ps, s, hs, hr⟩ := ih hp h
    exact ⟨_ :: ps, s, hs, by rw [pieces, hr, List.cons_append]⟩
  | infixed op l r _ ih =>
    obtain ⟨ps, s, hs, hr⟩ := ih hp.2 h
    exact ⟨l.pieces ++ blank :: token op.spelling :: blank :: ps, s, hs, by simp [pieces, hr]⟩
  | comma l r _ ih =>
    obtain ⟨ps, s, hs, hr⟩ := ih hp.2 h
    exact ⟨l.pieces ++ token "," :: blank :: ps, s, hs, by simp [pieces, hr]⟩
  | _ => cases h

/-- A point right after a number becomes a part of it. -/
theorem not_reads_point {p : Phrase} (hp : p.Valid) (h : p.trailing) (qs : List Piece) :
    ¬ Reads (p.pieces ++ token "." :: qs) := by
  intro hr
  obtain ⟨ps, s, hs, hps⟩ := pieces_of_trailing hp h
  rw [hps, List.append_assoc, List.singleton_append] at hr
  have hread := reads_of_append (fun t ht => isToken_of_mem hp (hps ▸ List.mem_append_left _ ht)) hr
  have hlong := ((reads_token (.inr (.inl hs))).1 hread).1
  have hpoint : IsNumber (s ++ ".") := hs.append (by simp)
  rw [spell, String.toList_append] at hlong
  exact not_longest (.inr (.inl hpoint)) String.toList_append hlong

/-- What may stand after a phrase: a character that ends words and numbers, or a point if the phrase
does not end in a number. -/
def Before (p : Phrase) (qs : List Piece) : Prop :=
  ∀ c, next qs = some c → c ∈ stops ∨ c = '.' ∧ p.trailing = false

theorem before_blank (p : Phrase) (qs : List Piece) : p.Before (blank :: qs) := by
  intro c hc
  rw [next_blank] at hc
  cases hc
  exact .inl (by decide)

theorem before_closed (p : Phrase) {s : String} (hs : s ∈ closed) (qs : List Piece) :
    p.Before (token s :: qs) := by
  obtain ⟨hne, hstops⟩ := closed_chars s hs
  intro c hc
  rw [next_token hne] at hc
  exact .inl (hstops c (List.mem_of_head? hc))

theorem before_point {p : Phrase} (h : p.trailing = false) (qs : List Piece) :
    p.Before (token "." :: qs) := by
  intro c hc
  rw [next_token (by decide)] at hc
  cases hc
  exact .inr ⟨rfl, h⟩

theorem reads_closed {s : String} (hs : s ∈ closed) {qs : List Piece} :
    Reads (token s :: qs) ↔ Reads qs := by
  have hop : s ∈ operators := mem_operators_of_mark (mem_marks_of_closed hs)
  exact reads_token_of_next (.inr (.inr hop)) fun c _ => not_continues_closed hs c

theorem reads_operator_blank {s : String} (hs : s ∈ operators) {qs : List Piece} :
    Reads (token s :: blank :: qs) ↔ Reads qs := by
  rw [reads_token_of_next (.inr (.inr hs)), reads_blank]
  intro c hc
  rw [next_blank] at hc
  cases hc
  exact not_continues_of_not_mem hs blank_not_mem fun _ => by decide

theorem reads_operator_word {s t : String} (hs : s ∈ operators) (ht : IsWord t) {qs : List Piece} :
    Reads (token s :: token t :: qs) ↔ Reads (token t :: qs) := by
  refine reads_token_of_next (.inr (.inr hs)) fun c hc => ?_
  rw [next_token (IsToken.ne_nil (.inl ht))] at hc
  have hstart := ht.head hc
  refine not_continues_of_not_mem hs (not_mem_of_inWord (by simp [inWord, hstart])) fun _ => ?_
  rw [← Bool.not_eq_true]
  exact fun hd => Bool.false_ne_true ((startsWord_eq_false (.inl hd)).symm.trans hstart)

theorem reads_word {s : String} (hs : IsWord s) {qs : List Piece}
    (h : ∀ c, next qs = some c → inWord c = false) : Reads (token s :: qs) ↔ Reads qs :=
  reads_token_of_next (.inl hs) fun c hc => not_continues_word hs (h c hc)

theorem reads_word_operator {s t : String} (hs : IsWord s) (ht : t ∈ operators) {qs : List Piece} :
    Reads (token s :: token t :: qs) ↔ Reads (token t :: qs) := by
  refine reads_word hs fun c hc => ?_
  rw [next_token (operators_ne_nil t ht)] at hc
  exact (operators_chars t ht c (List.mem_of_head? hc)).1

theorem Before.not_lengthening {p : Phrase} {qs : List Piece} (h : p.Before qs) {c : Char}
    (hc : next qs = some c) : c ∉ lengthening := by
  have hstops : ∀ c ∈ stops, c ∉ lengthening := by simp [stops, lengthening]
  rcases h c hc with h | ⟨rfl, -⟩
  · exact hstops c h
  · decide

theorem Before.inWord_eq_false {p : Phrase} {qs : List Piece} (h : p.Before qs) {c : Char}
    (hc : next qs = some c) : inWord c = false := by
  have hstops : ∀ c ∈ stops, inWord c = false := by simp [stops, inWord, startsWord]
  rcases h c hc with h | ⟨rfl, -⟩
  · exact hstops c h
  · decide

/-- The end of a template's argument, which other operators start with. -/
theorem Before.reads_angle {p : Phrase} {qs : List Piece} (h : p.Before qs) :
    Reads (token ">" :: qs) ↔ Reads qs := by
  have hop : ">" ∈ operators := mem_operators_of_mark (by decide)
  have hstops : ∀ c ∈ '.' :: stops, ∀ o ∈ operators, ¬ ">".toList ++ [c] <+: o.toList := by
    have h : (('.' :: stops).all fun c => operators.all fun o => !(">".toList ++ [c]).isPrefixOf
          o.toList) = true := by
      decide +kernel
    simpa only [List.all_eq_true, Bool.not_eq_true', ← Bool.not_eq_true,
      List.isPrefixOf_iff_prefix] using h
  refine reads_token_of_next (.inr (.inr hop)) fun c hc => ?_
  refine not_continues_operator hop (hstops c ?_) fun h => absurd h (by decide)
  exact List.mem_cons.2 ((h c hc).symm.imp And.left id)

/-- A phrase that starts with no prefix operator does not make the operator before it longer, unless
what stands after it does. -/
theorem next_of_leading_eq_none {p : Phrase} (hp : p.Valid) (h : p.leading = none) {qs : List Piece}
    (hq : ∀ c, next qs = some c → c ∉ lengthening) {c : Char}
    (hc : next (p.pieces ++ qs) = some c) : c ∉ lengthening := by
  have hword : ∀ c ∈ lengthening, startsWord c = false ∧ c.isDigit = false ∧ c ≠ '.' := by
    simp [lengthening, startsWord]
  have next_word : ∀ {s : String} {ps : List Piece}, IsWord s → next (token s :: ps) = some c →
      c ∉ lengthening := by
    intro s ps hs hc hmem
    rw [next_token (IsToken.ne_nil (.inl hs))] at hc
    exact Bool.false_ne_true ((hword c hmem).1.symm.trans (hs.head hc))
  have after_closed : ∀ {s : String} {ps : List Piece}, s ∈ "." :: closed →
      ∀ c, next (token s :: ps) = some c → c ∉ lengthening := by
    have hall : ∀ s ∈ "." :: closed, s.toList ≠ [] ∧ ∀ c ∈ s.toList, c ∉ lengthening := by
      simp [closed, lengthening]
    intro s ps hs c hc
    rw [next_token (hall s hs).1] at hc
    exact (hall s hs).2 c (List.mem_of_head? hc)
  -- the first character is that of the leftmost part
  induction p generalizing qs with
  | empty => exact hq c hc
  | word s => exact next_word hp hc
  | pair s t | template s t | qualified s t => exact next_word hp.1 hc
  | number s =>
    rw [pieces, List.singleton_append, next_token (IsToken.ne_nil (.inr (.inl hp)))] at hc
    intro hmem
    obtain ⟨-, hdigit, hpoint⟩ := hword c hmem
    exact (hp.head hc).elim (fun hd => Bool.false_ne_true (hdigit.symm.trans hd)) hpoint
  | prefixed op p => cases h
  | infixed op l r ih =>
    rw [pieces, List.append_assoc] at hc
    refine ih hp.1 h (fun c hc => ?_) hc
    rw [List.cons_append, next_blank] at hc
    cases hc
    decide
  | comma l r ih =>
    rw [pieces, List.append_assoc] at hc
    exact ih hp.1 h (after_closed (by decide)) hc
  | bracketed b l r ih =>
    rw [pieces, List.append_assoc] at hc
    exact ih hp.1 h (after_closed (by cases b <;> decide)) hc
  | select l name ih =>
    rw [pieces, List.append_assoc] at hc
    exact ih hp.1 h (after_closed (by decide)) hc

/-- A prefix operator reads as a token of its own, unless it doubles the one that its
phrase starts with. -/
theorem reads_prefixed {p : Phrase} (hp : p.Valid) (op : UnaryOp) {qs : List Piece}
    (hq : p.Before qs) :
    Reads (token op.spelling :: (p.pieces ++ qs)) ↔ ¬ (op.doubles ∧ p.leading = some op) ∧
    Reads (p.pieces ++ qs) := by
  have hop : IsToken op.spelling := .inr (.inr (unary_mem_operators op))
  by_cases hd : op.doubles ∧ p.leading = some op
  · obtain ⟨ps, hps⟩ := pieces_of_leading hd.2
    have hnot := not_longest_of_doubles hd.1 (spell (ps ++ qs)).toList
    rw [reads_token hop, hps, List.cons_append, spell, String.toList_append]
    simp [hd, hnot, Piece.text]
  · rw [reads_token_of_next hop, iff_and_self]
    · exact fun _ => hd
    intro c hc
    cases hlead : p.leading with
    | none =>
      exact not_continues_unary op
        (next_of_leading_eq_none hp hlead (fun _ => hq.not_lengthening) hc)
    | some op' =>
      obtain ⟨ps, hps⟩ := pieces_of_leading hlead
      obtain ⟨d, hd', -⟩ := unary_toList op'
      rw [hps, List.cons_append, next_token (by simp [hd']), hd'] at hc
      cases hc
      exact not_continues_unary_unary (by simpa [hlead] using hd) hd'

theorem reads_append {p : Phrase} (hp : p.Valid) {qs : List Piece} (hq : p.Before qs) :
    Reads (p.pieces ++ qs) ↔ p.Clear ∧ Reads qs := by
  -- a phrase is read from the left, each part in front of the piece that comes next
  induction p generalizing qs with
  | empty => simp [pieces, Clear]
  | word s =>
    have hs := reads_word hp fun _ => hq.inWord_eq_false
    simpa [pieces, Clear] using hs
  | number s =>
    have hnext : ∀ c, next qs = some c → ¬ Continues s c := fun c hc =>
      not_continues_number_stop hp ((hq c hc).resolve_right (fun h => by cases h.2))
    simpa [pieces, Clear] using reads_token_of_next (.inr (.inl hp)) hnext
  | prefixed op p ih =>
    rw [pieces, List.cons_append, Clear, and_assoc, ← ih hp hq]
    exact reads_prefixed (p := p) hp op hq
  | infixed op l r ihl ihr =>
    rw [pieces, List.append_assoc, List.cons_append, ihl hp.1 (before_blank l _), reads_blank,
      List.cons_append, List.cons_append, reads_operator_blank (binary_mem_operators op),
      ihr hp.2 hq, Clear, and_assoc]
  | comma l r ihl ihr =>
    rw [pieces, List.append_assoc, List.cons_append, ihl hp.1 (before_closed _ (by decide) _),
      reads_closed (by decide), List.cons_append, reads_blank, ihr hp.2 hq, Clear, and_assoc]
  | bracketed b l r ihl ihr =>
    have hb : b.opening ∈ closed ∧ b.closing ∈ closed := by cases b <;> decide
    rw [pieces, List.append_assoc, List.cons_append, ihl hp.1 (before_closed _ hb.1 _),
      reads_closed hb.1, List.append_assoc, List.singleton_append,
      ihr hp.2 (before_closed _ hb.2 _), reads_closed hb.2, Clear, and_assoc]
  | select p name ih =>
    rw [pieces, List.append_assoc, List.cons_append, List.singleton_append, Clear, and_assoc]
    cases ht : p.trailing with
    | true => simpa using not_reads_point hp.1 ht _
    | false =>
      rw [ih hp.1 (before_point ht _), reads_operator_word (mem_operators_of_mark (by decide)) hp.2,
        reads_word hp.2 fun _ => hq.inWord_eq_false, eq_self, true_and]
  | pair t u =>
    have hu := reads_word hp.2 fun _ => hq.inWord_eq_false
    have ht : Reads (token t :: blank :: token u :: qs) ↔ Reads (token u :: qs) := by
      rw [reads_word hp.1 fun c hc => ?_, reads_blank]
      rw [next_blank] at hc
      cases hc
      rfl
    simpa [pieces, Clear] using ht.trans hu
  | template t u =>
    have hopen : "<" ∈ operators := mem_operators_of_mark (by decide)
    have hclose : ">" ∈ operators := mem_operators_of_mark (by decide)
    change Reads (token t :: token "<" :: token u :: token ">" :: qs) ↔ True ∧ Reads qs
    rw [reads_word_operator hp.1 hopen, reads_operator_word hopen hp.2,
      reads_word_operator hp.2 hclose, hq.reads_angle, true_and]
  | qualified t u =>
    have hop : "::" ∈ operators := mem_operators_of_mark (by decide)
    change Reads (token t :: token "::" :: token u :: qs) ↔ True ∧ Reads qs
    rw [reads_word_operator hp.1 hop, reads_operator_word hop hp.2, reads_word hp.2
      fun _ => hq.inWord_eq_false, true_and]

/-- The text of a phrase reads back as its tokens if and only if nothing in it runs together. -/
theorem lexes_iff {p : Phrase} (hp : p.Valid) : Lexes p.text.toList p.tokens ↔ p.Clear := by
  have hend : p.Before [] := fun c hc => by cases hc
  have h := reads_append hp hend
  rw [List.append_nil, and_iff_left reads_nil] at h
  exact h

end Phrase
end ShaderSplit
