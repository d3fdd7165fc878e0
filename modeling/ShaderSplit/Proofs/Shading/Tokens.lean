import Mathlib.Data.List.Chain
import Mathlib.Data.List.Infix
import ShaderSplit.Shading.Text

namespace ShaderSplit

namespace Token

/-- Letters, the underscore and everything outside ASCII. -/
def startsWord (c : Char) : Bool := c.isAlpha || c == '_' || 128 ≤ c.toNat

def inWord (c : Char) : Bool := startsWord c || c.isDigit

/-- Punctuators, with those that only C++ has and the two openers of a comment. -/
def operators : List String :=
  ["[", "]", "(", ")", "\x7b", "\x7d", ".", "->", "++", "--", "&", "*", "+", "-", "~",
    "!", "/", "%",
    "<<", ">>", "<", ">", "<=", ">=", "==", "!=", "^", "|", "&&", "||", "?", ":", ";",
    "...", "=", "*=",
    "/=", "%=", "+=", "-=", "<<=", ">>=", "&=", "^=", "|=", ",", "#", "##", "<:", ":>",
    "<%", "%>", "%:",
    "%:%:", "::", ".*", "->*", "<=>", "//", "/*"]

def IsWord (s : String) : Prop := ∃ c cs, s.toList = c :: cs ∧ startsWord c ∧ ∀ d ∈ cs, inWord d

/-- What may stand after `a` in a number. A sign does after the letter of an exponent. -/
def InNumber (a b : Char) : Prop := inWord b ∨ b = '.' ∨ a ∈ ['e', 'E', 'p', 'P'] ∧ b ∈ ['+', '-']

/-- A number starts with a digit, or with a point and a digit, and takes in all that it can. -/
def IsNumber (s : String) : Prop :=
  (∃ c cs, c.isDigit ∧ (s.toList = c :: cs ∨ s.toList = '.' :: c :: cs)) ∧ s.toList.IsChain InNumber

end Token

open Token

def IsToken (s : String) : Prop := IsWord s ∨ IsNumber s ∨ s ∈ operators

/-- `s` is the longest token at the front of its own text and `cs`. -/
def Longest (s : String) (cs : List Char) : Prop :=
  IsToken s ∧ ∀ t, IsToken t → t.toList <+: s.toList ++ cs → t.length ≤ s.length

inductive Lexes : List Char → List String → Prop
  | nil : Lexes [] []
  | blank {cs : List Char} {ts : List String} : Lexes cs ts → Lexes (' ' :: cs) ts
  | token {s : String} {cs : List Char} {ts : List String} :
      Longest s cs → Lexes cs ts → Lexes (s.toList ++ cs) (s :: ts)

/-- Some token goes on with `c` after `s`. -/
def Continues (s : String) (c : Char) : Prop := ∃ t, IsToken t ∧ s.toList ++ [c] <+: t.toList

namespace Token

instance (s : String) : Decidable (IsWord s) :=
  decidable_of_iff (s.toList.head?.any startsWord ∧ s.toList.tail.all inWord) <| by
    unfold IsWord
    cases s.toList <;> simp

theorem inWord_of_mem {s : String} (h : IsWord s) {c : Char} (hc : c ∈ s.toList) : inWord c := by
  obtain ⟨d, ds, hs, hd, hds⟩ := h
  rw [hs, List.mem_cons] at hc
  rcases hc with rfl | hc
  · simp [inWord, hd]
  · exact hds c hc

theorem IsWord.append {s t : String} (hs : IsWord s) (ht : ∀ c ∈ t.toList, inWord c) :
    IsWord (s ++ t) := by
  obtain ⟨c, cs, hs, hc, hcs⟩ := hs
  refine ⟨c, cs ++ t.toList, by rw [String.toList_append, hs, List.cons_append], hc, fun d hd => ?_⟩
  exact (List.mem_append.1 hd).elim (hcs d) (ht d)

theorem not_isAlpha_of_isDigit {c : Char} (h : c.isDigit) : c.isAlpha = false := by
  have hdigit : c.toNat ≤ '9'.toNat := (Char.isDigit_iff_toNat.1 h).2
  rw [← Bool.not_eq_true]
  intro halpha
  have hcases : c.isUpper || c.isLower := halpha
  rcases Bool.or_eq_true_iff.1 hcases with hupper | hlower
  · have hrange : 'A'.val ≤ c.val ∧ c.val ≤ 'Z'.val := of_decide_eq_true hupper
    exact absurd (hdigit.trans_lt (by decide)) (Nat.not_lt.2 (UInt32.le_iff_toNat_le.1 hrange.1))
  · have hlow : 'a'.val ≤ c.val := of_decide_eq_true (Bool.and_eq_true_iff.1 hlower).1
    exact absurd (hdigit.trans_lt (by decide)) (Nat.not_lt.2 (UInt32.le_iff_toNat_le.1 hlow))

theorem startsWord_eq_false {c : Char} (h : c.isDigit ∨ c = '.') : startsWord c = false := by
  rcases h with h | rfl
  · have hdigit : c.toNat ≤ '9'.toNat := (Char.isDigit_iff_toNat.1 h).2
    have hunder : c ≠ '_' := by
      rintro rfl
      exact absurd hdigit (by decide)
    have hascii : ¬ 128 ≤ c.toNat := Nat.not_le.2 (hdigit.trans_lt (by decide))
    simp [startsWord, not_isAlpha_of_isDigit h, hunder, hascii]
  · decide

theorem operators_chars : ∀ o ∈ operators, ∀ c ∈ o.toList, inWord c = false ∧ c ≠ ' ' := by
  have h : (operators.all fun o => o.toList.all fun c => !inWord c && c != ' ') = true := by
    decide +kernel
  simpa only [List.all_eq_true, Bool.and_eq_true, Bool.not_eq_true', bne_iff_ne] using h

theorem operators_ne_nil : ∀ o ∈ operators, o.toList ≠ [] := by
  decide +kernel

theorem IsNumber.exists_digit {s : String} (h : IsNumber s) : ∃ c ∈ s.toList, c.isDigit := by
  obtain ⟨⟨c, cs, hc, hs | hs⟩, -⟩ := h <;> exact ⟨c, by simp [hs], hc⟩

theorem IsNumber.head {s : String} (h : IsNumber s) {c : Char} (hc : s.toList.head? = some c) :
    c.isDigit ∨ c = '.' := by
  obtain ⟨⟨d, ds, hd, hs | hs⟩, -⟩ := h <;> rw [hs, List.head?_cons, Option.some_inj] at hc
  · exact .inl (hc ▸ hd)
  · exact .inr hc.symm

theorem IsWord.head {s : String} (h : IsWord s) {c : Char} (hc : s.toList.head? = some c) :
    startsWord c := by
  obtain ⟨d, ds, hs, hd, -⟩ := h
  rw [hs, List.head?_cons, Option.some_inj] at hc
  exact hc ▸ hd

end Token

theorem IsToken.ne_nil {s : String} (h : IsToken s) : s.toList ≠ [] := by
  rcases h with ⟨c, cs, hs, -⟩ | ⟨⟨c, cs, -, hs | hs⟩, -⟩ | h
  · simp [hs]
  · simp [hs]
  · simp [hs]
  · exact operators_ne_nil s h

theorem IsToken.head_ne_blank {s : String} (h : IsToken s) : s.toList.head? ≠ some ' ' := by
  intro hb
  rcases h with h | h | h
  · exact absurd (h.head hb) (by decide)
  · exact absurd (h.head hb) (by decide)
  · exact (operators_chars s h ' ' (List.mem_of_head? hb)).2 rfl

theorem Longest.of_not_continues {s : String} {cs : List Char} (hs : IsToken s)
    (h : ∀ c, cs.head? = some c → ¬ Continues s c) : Longest s cs := by
  refine ⟨hs, fun t ht hpre => ?_⟩
  by_contra hlen
  rw [← String.length_toList, ← String.length_toList, not_le] at hlen
  -- a longer token would start with `s` and the next character
  obtain ⟨xs, hx⟩ : s.toList <+: t.toList :=
    List.prefix_of_prefix_length_le (List.prefix_append ..) hpre hlen.le
  cases xs with
  | nil => simp [← hx] at hlen
  | cons c xs =>
    rw [← hx, List.prefix_append_right_inj] at hpre
    refine h c ?_ ⟨t, ht, xs, by simp [← hx]⟩
    obtain ⟨ys, rfl⟩ := hpre
    rfl

theorem not_longest {s t : String} {c : Char} {cs : List Char} (ht : IsToken t)
    (h : t.toList = s.toList ++ [c]) : ¬ Longest s (c :: cs) := by
  rintro ⟨-, hmax⟩
  have hlen := hmax t ht (by rw [h]; exact ⟨cs, by simp⟩)
  rw [← String.length_toList, ← String.length_toList, h, List.length_append] at hlen
  exact absurd hlen (by simp)

theorem Lexes.of_blank {cs : List Char} {ts : List String} (h : Lexes (' ' :: cs) ts) :
    Lexes cs ts := by
  generalize hds : ' ' :: cs = ds at h
  cases h with
  | nil => cases hds
  | blank h =>
    cases hds
    exact h
  | token hs =>
    have hhead := congrArg List.head? hds
    rw [List.head?_append_of_ne_nil _ hs.1.ne_nil] at hhead
    exact absurd hhead.symm hs.1.head_ne_blank

theorem Lexes.exists_longest {s : String} {cs : List Char} {us : List String} (hs : IsToken s)
    (h : Lexes (s.toList ++ cs) us) :
    ∃ t ds ts, us = t :: ts ∧ s.toList ++ cs = t.toList ++ ds ∧ Longest t ds ∧ Lexes ds ts := by
  generalize hes : s.toList ++ cs = es at h
  cases h with
  | nil => exact absurd (List.append_eq_nil_iff.1 hes).1 hs.ne_nil
  | blank =>
    have hhead := congrArg List.head? hes
    rw [List.head?_append_of_ne_nil _ hs.ne_nil] at hhead
    exact absurd hhead hs.head_ne_blank
  | token ht h => exact ⟨_, _, _, rfl, rfl, ht, h⟩

/-- Longest match leaves no choice. -/
theorem Lexes.unique {cs : List Char} {ts us : List String} (h : Lexes cs ts) (h' : Lexes cs us) :
    ts = us := by
  induction h generalizing us with
  | nil =>
    generalize hcs : ([] : List Char) = cs at h'
    cases h' with
    | nil => rfl
    | blank => cases hcs
    | token hs => exact absurd (List.append_eq_nil_iff.1 hcs.symm).1 hs.1.ne_nil
  | blank _ ih => exact ih h'.of_blank
  | @token s cs ts hs _ ih =>
    obtain ⟨t, ds, us, rfl, heq, ht, h'⟩ := h'.exists_longest hs.1
    have hle := hs.2 t ht.1 (heq ▸ List.prefix_append ..)
    have hge := ht.2 s hs.1 (heq ▸ List.prefix_append ..)
    obtain ⟨hst, rfl⟩ := List.append_inj heq (by simp only [String.length_toList]; omega)
    rw [String.toList_inj.1 hst, ih h']

theorem not_continues_word {s : String} {c : Char} (hs : IsWord s) (hc : inWord c = false) :
    ¬ Continues s c := by
  rintro ⟨t, ht, hpre⟩
  obtain ⟨d, ds, hd, hstart, -⟩ := id hs
  have hhead : t.toList.head? = some d := by
    obtain ⟨r, hr⟩ := hpre
    simp [← hr, hd]
  have hmem : c ∈ t.toList := hpre.subset (by simp)
  rcases ht with ht | ht | ht
  · exact Bool.false_ne_true (hc.symm.trans (inWord_of_mem ht hmem))
  · exact Bool.false_ne_true ((startsWord_eq_false (ht.head hhead)).symm.trans hstart)
  · have hd := (operators_chars t ht d (List.mem_of_head? hhead)).1
    simp [inWord, hstart] at hd

theorem not_continues_number {s : String} {c : Char} (hs : IsNumber s) (hc : ∀ a, ¬ InNumber a c) :
    ¬ Continues s c := by
  rintro ⟨t, ht, hpre⟩
  obtain ⟨d, hd, hdigit⟩ := hs.exists_digit
  have hmem : d ∈ t.toList := hpre.subset (List.mem_append_left _ hd)
  rcases ht with ht | ht | ht
  · have hne : s.toList ≠ [] := List.ne_nil_of_mem hd
    obtain ⟨r, hr⟩ := hpre
    have hhead : t.toList.head? = some (s.toList.head hne) := by
      rw [← hr, List.append_assoc, List.head?_append_of_ne_nil _ hne, List.head?_eq_some_head]
    have hstart := startsWord_eq_false (hs.head (List.head?_eq_some_head hne))
    exact Bool.false_ne_true (hstart.symm.trans (ht.head hhead))
  · obtain ⟨r, hr⟩ := hpre
    have hchain : (s.toList ++ [c]).IsChain InNumber := (List.isChain_append.1 (hr ▸ ht.2)).1
    have hne : s.toList ≠ [] := List.ne_nil_of_mem hd
    rw [List.isChain_append] at hchain
    exact hc _ (hchain.2.2 _ (List.getLast?_eq_some_getLast hne) c rfl)
  · have := (operators_chars t ht d hmem).1
    simp [inWord, hdigit] at this

/-- An operator ends where no operator is longer. A point also ends before what is no digit. -/
theorem not_continues_operator {s : String} {c : Char} (hs : s ∈ operators)
    (ho : ∀ o ∈ operators, ¬ s.toList ++ [c] <+: o.toList) (hp : s = "." → c.isDigit = false) :
    ¬ Continues s c := by
  rintro ⟨t, ht, hpre⟩
  rcases ht with ht | ht | ht
  · obtain ⟨d, ds, hd⟩ := List.exists_cons_of_ne_nil (operators_ne_nil s hs)
    have hmem : d ∈ t.toList := hpre.subset (by simp [hd])
    have hword := (operators_chars s hs d (by simp [hd])).1
    exact Bool.false_ne_true (hword.symm.trans (inWord_of_mem ht hmem))
  · -- of the operators only a point starts a number, and the second character is a digit then
    obtain ⟨⟨d, ds, hdigit, ht⟩, -⟩ := ht
    have hnot : d ∉ s.toList := by
      intro hmem
      have hword := (operators_chars s hs d hmem).1
      simp [inWord, hdigit] at hword
    obtain ⟨x, xs, hx⟩ := List.exists_cons_of_ne_nil (operators_ne_nil s hs)
    rcases ht with ht | ht <;> rw [hx, ht, List.cons_append, List.cons_prefix_cons] at hpre
    · exact hnot (by simp [hx, hpre.1])
    · cases xs with
      | nil =>
        have hsp : s = "." := String.toList_inj.1 (by rw [hx, hpre.1]; rfl)
        have hcd : c = d := (List.cons_prefix_cons.1 hpre.2).1
        exact Bool.false_ne_true ((hp hsp).symm.trans (hcd ▸ hdigit))
      | cons y ys =>
        have hyd : y = d := (List.cons_prefix_cons.1 hpre.2).1
        exact hnot (by simp [hx, hyd])
  · exact ho t ht hpre

theorem Token.IsNumber.append {s t : String} (hs : IsNumber s)
    (ht : ∀ c ∈ t.toList, inWord c ∨ c = '.') : IsNumber (s ++ t) := by
  have hin : ∀ a, ∀ c ∈ t.toList, InNumber a c := fun a c hc => (ht c hc).imp id .inl
  refine ⟨?_, ?_⟩
  · obtain ⟨⟨c, cs, hc, hs⟩, -⟩ := hs
    refine ⟨c, cs ++ t.toList, hc, ?_⟩
    rw [String.toList_append]
    exact hs.imp (fun h => by simp [h]) (fun h => by simp [h])
  · rw [String.toList_append, List.isChain_append]
    refine ⟨hs.2, ?_, fun a _ c hc => hin a c (List.mem_of_head? hc)⟩
    exact (List.pairwise_of_forall_mem_list fun a _ c hc => hin a c hc).isChain

inductive Piece where
  | blank
  | token (s : String)
  deriving DecidableEq, Repr

namespace Piece

def text : Piece → String
  | blank => " "
  | token s => s

def spell : List Piece → String
  | [] => ""
  | p :: ps => p.text ++ spell ps

def tokens (ps : List Piece) : List String :=
  ps.filterMap fun p =>
    match p with
    | blank => none
    | token s => some s

/-- Splitting the text of the pieces gives their tokens. -/
def Reads (ps : List Piece) : Prop := Lexes (spell ps).toList (tokens ps)

theorem spell_append (ps qs : List Piece) : spell (ps ++ qs) = spell ps ++ spell qs := by
  induction ps with
  | nil => simp [spell]
  | cons p ps ih => rw [List.cons_append, spell, spell, ih, String.append_assoc]

def next (ps : List Piece) : Option Char := (spell ps).toList.head?

theorem next_blank (ps : List Piece) : next (blank :: ps) = some ' ' := by
  rw [next, spell, String.toList_append]
  rfl

theorem next_token {s : String} (hs : s.toList ≠ []) (ps : List Piece) :
    next (token s :: ps) = s.toList.head? := by
  rw [next, spell, String.toList_append]
  exact List.head?_append_of_ne_nil _ hs

theorem reads_nil : Reads [] := .nil

theorem reads_blank {ps : List Piece} : Reads (blank :: ps) ↔ Reads ps := by
  have hcons : (spell (blank :: ps)).toList = ' ' :: (spell ps).toList := by
    rw [spell, String.toList_append]
    rfl
  rw [Reads, hcons]
  exact ⟨Lexes.of_blank, .blank⟩

theorem reads_token {s : String} (hs : IsToken s) {ps : List Piece} :
    Reads (token s :: ps) ↔ Longest s (spell ps).toList ∧ Reads ps := by
  have hcons : (spell (token s :: ps)).toList = s.toList ++ (spell ps).toList := by
    rw [spell, String.toList_append]
    rfl
  rw [Reads, hcons]
  constructor
  · intro h
    obtain ⟨t, ds, ts, hts, heq, hlong, hlex⟩ := h.exists_longest hs
    obtain ⟨rfl, rfl⟩ : s = t ∧ tokens ps = ts := List.cons.inj hts
    cases List.append_cancel_left heq
    exact ⟨hlong, hlex⟩
  · rintro ⟨hlong, hlex⟩
    exact .token hlong hlex

theorem reads_token_of_next {s : String} (hs : IsToken s) {ps : List Piece}
    (h : ∀ c, next ps = some c → ¬ Continues s c) : Reads (token s :: ps) ↔ Reads ps := by
  rw [reads_token hs]
  exact and_iff_right (.of_not_continues hs h)

/-- What stands after valid tokens reads back if all of it does. -/
theorem reads_of_append {ps qs : List Piece} (hps : ∀ s, token s ∈ ps → IsToken s)
    (h : Reads (ps ++ qs)) : Reads qs := by
  induction ps with
  | nil => exact h
  | cons p ps ih =>
    refine ih (fun s hs => hps s (List.mem_cons_of_mem _ hs)) ?_
    cases p with
    | blank => exact reads_blank.1 h
    | token s => exact ((reads_token (hps s List.mem_cons_self)).1 h).2

end Piece
end ShaderSplit
