import ShaderSplit.Proofs.Shading.Phrases

namespace ShaderSplit

open Token Piece

namespace Phrase

def signed (negative : Bool) (p : Phrase) : Phrase := if negative then prefixed .neg p else p

def listed : List Phrase → Phrase
  | [] => empty
  | [p] => p
  | p :: q :: ps => comma p (listed (q :: ps))

section
variable (p l r : Phrase) (s t : String)

@[simp] theorem text_empty : empty.text = "" := rfl

@[simp] theorem text_word : (word s).text = s := by simp [text, pieces, spell, Piece.text]

@[simp] theorem text_number : (number s).text = s := by simp [text, pieces, spell, Piece.text]

@[simp] theorem text_prefixed (op : UnaryOp) : (prefixed op p).text = op.spelling ++ p.text := rfl

@[simp] theorem text_infixed (op : BinaryOp) :
    (infixed op l r).text = l.text ++ " " ++ op.spelling ++ " " ++ r.text := by
  simp [text, pieces, spell, spell_append, Piece.text, String.append_assoc]

@[simp] theorem text_comma : (comma l r).text = l.text ++ ", " ++ r.text := by
  have hsep : "," ++ (" " ++ r.text) = ", " ++ r.text := (String.append_assoc ..).symm
  simpa [text, pieces, spell, spell_append, Piece.text, String.append_assoc] using hsep

@[simp] theorem text_bracketed (b : Bracket) :
    (bracketed b l r).text = l.text ++ b.opening ++ r.text ++ b.closing := by
  simp [text, pieces, spell, spell_append, Piece.text, String.append_assoc]

@[simp] theorem text_select : (select p s).text = p.text ++ "." ++ s := by
  simp [text, pieces, spell, spell_append, Piece.text, String.append_assoc]

@[simp] theorem text_pair : (pair s t).text = s ++ " " ++ t := by
  simp [text, pieces, spell, Piece.text, String.append_assoc]

@[simp] theorem text_template : (template s t).text = s ++ "<" ++ t ++ ">" := by
  simp [text, pieces, spell, Piece.text, String.append_assoc]

@[simp] theorem text_qualified : (qualified s t).text = s ++ "::" ++ t := by
  simp [text, pieces, spell, Piece.text, String.append_assoc]

end

@[simp] theorem text_listed (ps : List Phrase) :
    (listed ps).text = ", ".intercalate (ps.map text) := by
  induction ps with
  | nil => rfl
  | cons p ps ih =>
    cases ps with
    | nil => simp [listed]
    | cons q ps => simp only [listed, text_comma, ih, List.map_cons, String.intercalate_cons_cons]

theorem valid_listed {ps : List Phrase} : (listed ps).Valid ↔ ∀ p ∈ ps, p.Valid := by
  induction ps with
  | nil => simp [listed, Valid]
  | cons p ps ih =>
    cases ps with
    | nil => simp [listed]
    | cons q ps => simp only [listed, Valid, ih, List.forall_mem_cons]

theorem clear_listed {ps : List Phrase} : (listed ps).Clear ↔ ∀ p ∈ ps, p.Clear := by
  induction ps with
  | nil => simp [listed, Clear]
  | cons p ps ih =>
    cases ps with
    | nil => simp [listed]
    | cons q ps => simp only [listed, Clear, ih, List.forall_mem_cons]

section
variable {negative : Bool} {p : Phrase}

theorem text_signed : (signed negative p).text = (if negative then "-" else "") ++ p.text := by
  cases negative
  · simp [signed]
  · rfl

theorem valid_signed (h : p.Valid) : (signed negative p).Valid := by
  cases negative <;> exact h

theorem clear_signed (h : p.Clear) (hl : p.leading = none) : (signed negative p).Clear := by
  cases negative
  · exact h
  · exact ⟨fun hd => by simp [hl] at hd, h⟩

theorem leading_signed :
    (signed negative p).leading = if negative then some .neg else p.leading := by
  cases negative <;> rfl

theorem trailing_signed : (signed negative p).trailing = p.trailing := by
  cases negative <;> rfl

end
end Phrase

namespace Token

theorem isNumber_of_digit {s : String} {c : Char} (hhead : s.toList.head? = some c) (hc : c.isDigit)
    (h : ∀ d ∈ s.toList, inWord d ∨ d = '.') : IsNumber s := by
  obtain ⟨cs, hs⟩ := List.head?_eq_some_iff.1 hhead
  refine ⟨⟨c, cs, hc, .inl hs⟩, (List.pairwise_of_forall_mem_list fun a _ d hd => ?_).isChain⟩
  exact (h d hd).imp id .inl

theorem inWord_of_isDigit {c : Char} (h : c.isDigit) : inWord c := by simp [inWord, h]

theorem IsNumber.exponentSign {s : String} (h : IsNumber (s ++ "e")) :
    IsNumber (s ++ "e" ++ "-") := by
  refine ⟨?_, ?_⟩
  · obtain ⟨⟨c, cs, hc, hs⟩, -⟩ := h
    refine ⟨c, cs ++ ['-'], hc, ?_⟩
    rw [String.toList_append]
    exact hs.imp (fun h => by simp [h]) (fun h => by simp [h])
  · rw [String.toList_append, List.isChain_append]
    refine ⟨h.2, .singleton _, fun a ha c hc => .inr (.inr ⟨?_, ?_⟩)⟩
    · have he : (s ++ "e").toList = s.toList ++ ['e'] := String.toList_append
      rw [he, List.getLast?_concat] at ha
      cases ha
      decide
    · cases hc
      decide

theorem digits_toString (n : Nat) : ∀ c ∈ (toString n).toList, c.isDigit := by
  intro c hc
  rw [Nat.toString_eq_repr, Nat.toList_repr] at hc
  exact Nat.isDigit_of_mem_toDigits (by decide) (by decide) hc

theorem isNumber_toString (n : Nat) : IsNumber (toString n) := by
  have hdigits := digits_toString n
  have hne : (toString n).toList ≠ [] := by
    rw [Nat.toString_eq_repr, Nat.toList_repr]
    exact Nat.toDigits_ne_nil
  have hhead := List.head?_eq_some_head hne
  exact isNumber_of_digit hhead (hdigits _ (List.head_mem hne)) fun d hd =>
    .inl (inWord_of_isDigit (hdigits d hd))

end Token

namespace Decimal

theorem zeros_chars (n : Nat) : ∀ c ∈ (zeros n).toList, c.isDigit := by
  intro c hc
  rw [zeros, String.toList_ofList] at hc
  rw [List.eq_of_mem_replicate hc]
  decide

theorem isNumber_positional {ds : List Char} (hds : ∀ c ∈ ds, c.isDigit) (hne : ds ≠ []) (k : Int) :
    IsNumber (positional ds k) := by
  have hin : ∀ c ∈ ds, inWord c ∨ c = '.' := fun c hc => .inl (inWord_of_isDigit (hds c hc))
  have hzeros : ∀ n, ∀ c ∈ (zeros n).toList, inWord c ∨ c = '.' := fun n c hc =>
    .inl (inWord_of_isDigit (zeros_chars n c hc))
  rw [positional]
  split
  · refine (IsNumber.append ?_ (hzeros _)).append ?_
    · exact isNumber_of_digit rfl rfl (by simp [inWord, startsWord])
    · rwa [String.toList_ofList]
  · rename_i hk
    have hpos : 0 < k.toNat := by omega
    obtain ⟨c, cs, rfl⟩ := List.exists_cons_of_ne_nil hne
    have hwhole : IsNumber (String.ofList ((c :: cs).take k.toNat)) := by
      refine isNumber_of_digit (c := c) ?_ (hds c List.mem_cons_self) ?_
      · rw [String.toList_ofList, List.head?_take]
        simp [hpos.ne']
      · rw [String.toList_ofList]
        exact fun d hd => hin d (List.mem_of_mem_take hd)
    refine ((hwhole.append (hzeros _)).append (by simp)).append ?_
    split
    · simp [inWord, startsWord]
    · rw [String.toList_ofList]
      exact fun d hd => hin d (List.mem_of_mem_drop hd)

theorem isNumber_scientific {ds : List Char} (hds : ∀ c ∈ ds, c.isDigit) (hne : ds ≠ []) (k : Int) :
    IsNumber (scientific ds k) := by
  have hin : ∀ c ∈ ds, inWord c ∨ c = '.' := fun c hc => .inl (inWord_of_isDigit (hds c hc))
  have hdigits : ∀ n : Nat, ∀ c ∈ (toString n).toList, inWord c ∨ c = '.' := fun n c hc =>
    .inl (inWord_of_isDigit (digits_toString n c hc))
  obtain ⟨c, cs, rfl⟩ := List.exists_cons_of_ne_nil hne
  have hfirst : IsNumber (String.ofList ((c :: cs).take 1)) := by
    refine isNumber_of_digit (c := c) (by simp) (hds c List.mem_cons_self) ?_
    simpa using hin c List.mem_cons_self
  have hletter : IsNumber (String.ofList ((c :: cs).take 1)
      ++ (if (c :: cs).length ≤ 1 then "" else "." ++ String.ofList ((c :: cs).drop 1)) ++
        "e") := by
    refine (hfirst.append ?_).append (by simp [inWord, startsWord])
    split
    · simp
    · intro d hd
      rw [String.toList_append, List.mem_append] at hd
      rcases hd with hd | hd
      · exact .inr (by simpa using hd)
      · rw [String.toList_ofList] at hd
        exact hin d (List.mem_of_mem_drop hd)
  rw [scientific]
  -- a sign may only follow the letter of the exponent
  generalize k - 1 = e
  cases e with
  | ofNat n => exact hletter.append (hdigits n)
  | negSucc n =>
    have hminus : toString (Int.negSucc n) = "-" ++ toString (n + 1) := rfl
    rw [hminus, ← String.append_assoc]
    exact hletter.exponentSign.append (hdigits (n + 1))

theorem isNumber_text (d : Decimal) : IsNumber d.text := by
  have hds : ∀ c ∈ Nat.toDigits 10 d.digits, c.isDigit := fun c hc =>
    Nat.isDigit_of_mem_toDigits (by decide) (by decide) hc
  rw [text]
  split
  · exact isNumber_positional hds Nat.toDigits_ne_nil _
  · exact isNumber_scientific hds Nat.toDigits_ne_nil _

end Decimal

namespace Binary64

def isFinite (x : Binary64) : Bool :=
  match x.magnitude with
  | .finite .. => true
  | _ => false

/-- The sign that the text starts with. -/
def sign? (x : Binary64) : Option UnaryOp :=
  match x.magnitude with
  | .nan => none
  | _ => if x.negative then some .neg else none

def phrase (suffix : String) (x : Binary64) : Phrase :=
  match x.magnitude with
  | .nan => .word ("NaN" ++ suffix)
  | .infinite => .signed x.negative (.word ("inf" ++ suffix))
  | .finite 0 _ => .signed x.negative (.number ("0.0" ++ suffix))
  | .finite m q =>
    .signed x.negative
      (.number ((Decimal.shortest .up m q (x.fractionField = 0 && 1 < x.exponentField)).text ++
        suffix))

variable (suffix : String) (x : Binary64)

theorem text_phrase : (x.phrase suffix).text = x.text ++ suffix := by
  unfold phrase text textWith
  split <;> simp [Phrase.text_signed, String.append_assoc, *]

theorem leading_phrase : (x.phrase suffix).leading = x.sign? := by
  unfold phrase sign?
  split <;> simp [Phrase.leading_signed, Phrase.leading, *]

theorem trailing_phrase : (x.phrase suffix).trailing = x.isFinite := by
  unfold phrase isFinite
  split <;> simp [Phrase.trailing_signed, Phrase.trailing, *]

theorem clear_phrase : (x.phrase suffix).Clear := by
  unfold phrase
  split
  · trivial
  all_goals exact Phrase.clear_signed trivial rfl

theorem valid_phrase (h : ∀ c ∈ suffix.toList, inWord c) : (x.phrase suffix).Valid := by
  have hnumber : ∀ {s : String}, IsNumber s → IsNumber (s ++ suffix) :=
    fun hs => hs.append fun c hc => .inl (h c hc)
  unfold phrase
  split
  · exact IsWord.append (s := "NaN") (by decide) h
  · exact Phrase.valid_signed (IsWord.append (s := "inf") (by decide) h)
  · exact Phrase.valid_signed (hnumber (isNumber_of_digit rfl rfl (by simp [inWord, startsWord])))
  · exact Phrase.valid_signed (hnumber (Decimal.isNumber_text _))

end Binary64

def intPhrase (v : Int) : Phrase := .signed (v < 0) (.number (toString v.natAbs))

theorem text_intPhrase (v : Int) : (intPhrase v).text = toString v := by
  rw [intPhrase, Phrase.text_signed, Phrase.text_number]
  cases v with
  | ofNat n =>
    have hneg : decide (Int.ofNat n < 0) = false := by simp
    rw [hneg]
    exact String.empty_append
  | negSucc n =>
    have hneg : decide (Int.negSucc n < 0) = true := by simp
    rw [hneg]
    rfl

def wordOfBool (b : Bool) : Phrase := .word (toString b)

theorem valid_wordOfBool (b : Bool) : (wordOfBool b).Valid := by
  change IsWord (toString b)
  revert b
  decide

namespace Literal

def phrase (d : Dialect) : Literal → Phrase
  | .int v => intPhrase v
  | .uint v => .number (toString v ++ "u")
  | .float v => v.phrase (if d = .host then "f" else "")
  | .bool v => wordOfBool v

def sign? : Literal → Option UnaryOp
  | .int v => if v < 0 then some .neg else none
  | .float v => v.sign?
  | .uint _ | .bool _ => none

def isNumber : Literal → Bool
  | .int _ | .uint _ => true
  | .float v => v.isFinite
  | .bool _ => false

variable (d : Dialect) (v : Literal)

theorem text_phrase : (v.phrase d).text = d.literal v := by
  cases v with
  | int v => exact text_intPhrase v
  | uint v => exact Phrase.text_number _
  | float v => exact v.text_phrase _
  | bool v => exact Phrase.text_word _

theorem leading_phrase : (v.phrase d).leading = v.sign? := by
  cases v with
  | int v => simp [phrase, intPhrase, Phrase.leading_signed, Phrase.leading, sign?]
  | float v => exact v.leading_phrase _
  | uint _ | bool _ => rfl

theorem trailing_phrase : (v.phrase d).trailing = v.isNumber := by
  cases v with
  | int v => exact Phrase.trailing_signed
  | float v => exact v.trailing_phrase _
  | uint _ | bool _ => rfl

theorem clear_phrase : (v.phrase d).Clear := by
  cases v with
  | int v => exact Phrase.clear_signed trivial rfl
  | float v => exact v.clear_phrase _
  | uint _ | bool _ => trivial

theorem valid_phrase : (v.phrase d).Valid := by
  cases v with
  | int v => exact Phrase.valid_signed (isNumber_toString _)
  | uint v => exact (isNumber_toString v).append (by simp [inWord, startsWord])
  | float v => exact v.valid_phrase _ (by split <;> simp [inWord, startsWord])
  | bool v => exact valid_wordOfBool v

end Literal

mutual
def ConstValue.phrase : ConstValue → Phrase
  | .int v => intPhrase v
  | .float v => v.phrase ""
  | .bool v => wordOfBool v
  | .aggregate fields => .bracketed .curly .empty (.listed (ConstValue.phrases fields))
def ConstValue.phrases : List ConstValue → List Phrase
  | [] => []
  | v :: vs => v.phrase :: ConstValue.phrases vs
end

namespace ConstValue

def sign? : ConstValue → Option UnaryOp
  | .int v => if v < 0 then some .neg else none
  | .float v => v.sign?
  | .bool _ | .aggregate _ => none

def isNumber : ConstValue → Bool
  | .int _ => true
  | .float v => v.isFinite
  | .bool _ | .aggregate _ => false

theorem leading_phrase (v : ConstValue) : v.phrase.leading = v.sign? := by
  cases v with
  | int v => simp [phrase, intPhrase, Phrase.leading_signed, Phrase.leading, sign?]
  | float v => exact v.leading_phrase _
  | bool _ => rfl
  | aggregate _ => simp [phrase, Phrase.leading, sign?]

theorem trailing_phrase (v : ConstValue) : v.phrase.trailing = v.isNumber := by
  cases v with
  | int v => exact Phrase.trailing_signed
  | float v => exact v.trailing_phrase _
  | bool _ => rfl
  | aggregate _ => simp [phrase, Phrase.trailing, isNumber]

mutual
theorem text_phrase : ∀ v : ConstValue, v.phrase.text = v.text
  | .int v => text_intPhrase v
  | .float v => by rw [phrase, v.text_phrase, text, String.append_empty]
  | .bool _ => Phrase.text_word _
  | .aggregate fields => by
    rw [phrase, Phrase.text_bracketed, Phrase.text_listed, text_phrases fields, text]
    rfl
theorem text_phrases : ∀ vs : List ConstValue, (phrases vs).map Phrase.text = texts vs
  | [] => rfl
  | v :: vs => by rw [phrases, List.map_cons, text_phrase v, text_phrases vs, texts]
end

mutual
theorem sound_phrase : ∀ v : ConstValue, v.phrase.Valid ∧ v.phrase.Clear
  | .int v => ⟨Phrase.valid_signed (isNumber_toString _), Phrase.clear_signed trivial rfl⟩
  | .float v => ⟨v.valid_phrase _ (by simp), v.clear_phrase _⟩
  | .bool v => ⟨valid_wordOfBool v, trivial⟩
  | .aggregate fields => by
    have h := sound_phrases fields
    rw [phrase]
    exact ⟨⟨trivial, Phrase.valid_listed.2 fun p hp => (h p hp).1⟩, trivial, Phrase.clear_listed.2
      fun p hp => (h p hp).2⟩
theorem sound_phrases : ∀ vs : List ConstValue, ∀ p ∈ phrases vs, p.Valid ∧ p.Clear
  | [] => by simp [phrases]
  | v :: vs => by
    rw [phrases, List.forall_mem_cons]
    exact ⟨sound_phrase v, sound_phrases vs⟩
end

end ConstValue
end ShaderSplit
