import Mathlib.Data.List.Chain
import ShaderSplit.Command.Dependency

namespace ShaderSplit.Dependency

def cut (mark : List Char) : List Char → Option (List Char × List Char)
  | [] => none
  | c :: cs =>
    if mark.isPrefixOf (c :: cs) then some ([], (c :: cs).drop mark.length)
    else (cut mark cs).map fun (before, after) => (c :: before, after)

def joint : List Char := [' ', '\\', '\n', ' ', ' ']

theorem length_cut_joint {text before after : List Char}
    (h : cut joint text = some (before, after)) : after.length < text.length := by
  induction text generalizing before with
  | nil => cases h
  | cons c cs ih =>
    rw [cut] at h
    split at h
    · cases h
      rw [List.length_drop]
      exact Nat.sub_lt (Nat.succ_pos _) (by decide)
    · obtain ⟨⟨b, a⟩, hcut, hpair⟩ := Option.map_eq_some_iff.1 h
      cases hpair
      exact Nat.lt_succ_of_lt (ih hcut)

def unescape : List Char → List Char
  | '\\' :: ' ' :: cs => ' ' :: unescape cs
  | '\\' :: '#' :: cs => '#' :: unescape cs
  | '$' :: '$' :: cs => '$' :: unescape cs
  | c :: cs => c :: unescape cs
  | [] => []

def readPaths (text : List Char) : List String :=
  match _h : cut joint text with
  | some (path, rest) => String.ofList (unescape path) :: readPaths rest
  | none => [String.ofList (unescape text)]
termination_by text.length
decreasing_by exact length_cut_joint _h

def read (text : String) : Option (String × List String) :=
  (cut [':', ' '] text.toList).map fun (target, paths) =>
    (String.ofList (unescape target), readPaths paths.dropLast)

section Cut

variable {mark before after text : List Char}

/-- A mark that does not begin earlier, not even across its own place, is the first. -/
theorem cut_append (hmark : mark ≠ []) (h : ¬ mark <:+: before ++ mark.dropLast) :
    cut mark (before ++ mark ++ after) = some (before, after) := by
  induction before with
  | nil =>
    obtain ⟨c, cs, rfl⟩ := List.exists_cons_of_ne_nil hmark
    rw [List.nil_append, List.cons_append, cut, if_pos (by simp)]
    simp
  | cons c before ih =>
    have hlater : ¬ mark <:+: before ++ mark.dropLast :=
      fun hin => h (hin.trans (List.suffix_cons c _).isInfix)
    have hhere : ¬ mark <+: c :: (before ++ mark ++ after) := by
      intro hpre
      have hshort : c :: before ++ mark.dropLast <+: c :: (before ++ mark ++ after) := by
        rw [List.cons_append, List.cons_prefix_cons, List.append_assoc]
        exact ⟨rfl, (List.prefix_append_right_inj before).2
          ((List.dropLast_prefix mark).trans (List.prefix_append ..))⟩
      have hlen : mark.length ≤ (c :: before ++ mark.dropLast).length := by simp; omega
      exact h (List.prefix_of_prefix_length_le hpre hshort hlen).isInfix
    rw [List.cons_append, List.cons_append, cut, if_neg (by simpa using hhere), ih hlater]
    rfl

theorem cut_eq_none (h : ¬ mark <:+: text) : cut mark text = none := by
  induction text with
  | nil => rfl
  | cons c cs ih =>
    rw [cut, if_neg fun hpre => h (List.isPrefixOf_iff_prefix.1 hpre).isInfix,
      ih fun hin => h (hin.trans (List.suffix_cons c _).isInfix)]
    rfl

end Cut

/-- A blank comes right after a backslash. So a colon or a line break with a blank behind it is
never inside an escaped path, although a path may end with what looks like the joint of two. -/
def Quoted (a b : Char) : Prop := b = ' ' → a = '\\'

theorem isChain_escapeChars (x : Char) (cs : List Char) :
    List.IsChain Quoted (x :: escapeChars cs) := by
  induction cs generalizing x with
  | nil => exact .singleton x
  | cons c cs ih =>
    rw [escapeChars]
    split
    · exact .cons_cons (by simp [Quoted]) (.cons_cons (by simp [Quoted]) (ih ' '))
    · split
      · exact .cons_cons (by simp [Quoted]) (.cons_cons (by simp [Quoted]) (ih '#'))
      · split
        · exact .cons_cons (by simp [Quoted]) (.cons_cons (by simp [Quoted]) (ih '$'))
        · rename_i hblank _ _
          exact .cons_cons (fun h => absurd h hblank) (ih c)

/-- No other character has a blank behind it. -/
theorem not_infix_escapeChars {x : Char} (hx : x ≠ '\\') (cs : List Char) :
    ¬ [x, ' '] <:+: escapeChars cs := by
  intro h
  have hchain : List.IsChain Quoted [x, ' '] :=
    List.IsChain.infix (isChain_escapeChars x cs) (h.trans (List.suffix_cons x _).isInfix)
  simp [Quoted, hx] at hchain

theorem infix_concat {l text : List Char} {a : Char} (hl : l ≠ []) (h : l <:+: text ++ [a]) :
    (l.getLast? = some a ∧ l.dropLast <:+ text) ∨ l <:+: text := by
  rcases List.infix_concat_iff.1 h with hsuffix | h
  · rcases List.suffix_concat_iff.1 hsuffix with hnil | ⟨t, rfl, ht⟩
    · exact absurd hnil hl
    · exact .inl (by simpa using ht)
  · exact .inr h

theorem not_infix_target (cs : List Char) : ¬ [':', ' '] <:+: escapeChars cs ++ [':'] := by
  intro h
  rcases infix_concat (by simp) h with ⟨hlast, -⟩ | h
  · cases hlast
  · exact not_infix_escapeChars (by decide) cs h

theorem not_infix_joint (cs : List Char) : ¬ joint <:+: escapeChars cs := fun h =>
  not_infix_escapeChars (x := '\n') (by decide) cs (List.IsInfix.trans ⟨[' ', '\\'], [' '], rfl⟩ h)

/-- A joint that begins in a path or in the joint behind it would have a line break in the path,
with a blank behind it. -/
theorem not_infix_joined (cs : List Char) : ¬ joint <:+: escapeChars cs ++ joint.dropLast := by
  have hsplit :
      escapeChars cs ++ joint.dropLast = escapeChars cs ++ [' '] ++ ['\\'] ++ ['\n'] ++ [' '] := by
    simp [joint]
  have hjoint : joint ≠ [] := List.cons_ne_nil _ _
  rw [hsplit]
  intro h
  rcases infix_concat hjoint h with ⟨-, hend⟩ | h
  · -- the joint would end with the last blank, behind a blank
    rcases List.suffix_concat_iff.1 hend with hnil | ⟨t, ht, -⟩
    · cases hnil
    · exact absurd (congrArg List.getLast? ht) (by simp [joint])
  rcases infix_concat hjoint h with ⟨hlast, -⟩ | h
  · cases hlast
  rcases infix_concat hjoint h with ⟨hlast, -⟩ | h
  · cases hlast
  rcases infix_concat hjoint h with ⟨-, hend⟩ | h
  · exact not_infix_escapeChars (x := '\n') (by decide) cs
      (List.IsInfix.trans ⟨[' ', '\\'], [], rfl⟩ hend.isInfix)
  · exact not_infix_joint cs h

theorem head?_escapeChars (cs : List Char) :
    (escapeChars cs).head? ≠ some ' ' ∧ (escapeChars cs).head? ≠ some '#' := by
  cases cs with
  | nil => simp [escapeChars]
  | cons c cs => grind [escapeChars]

theorem unescape_cons {c : Char} {cs : List Char} (hdollar : c ≠ '$')
    (hslash : c = '\\' → cs.head? ≠ some ' ' ∧ cs.head? ≠ some '#') :
    unescape (c :: cs) = c :: unescape cs := by
  rw [unescape.eq_def]
  split <;> simp_all

theorem unescape_escapeChars (cs : List Char) : unescape (escapeChars cs) = cs := by
  induction cs with
  | nil => rfl
  | cons c cs ih =>
    rw [escapeChars]
    split
    · rename_i hc
      simp [unescape, ih, hc]
    · split
      · rename_i hc
        simp [unescape, ih, hc]
      · split
        · rename_i hc
          simp [unescape, ih, hc]
        · rename_i hdollar
          rw [List.singleton_append, unescape_cons hdollar fun _ => head?_escapeChars cs, ih]

theorem readPaths_cut {text path rest : List Char} (h : cut joint text = some (path, rest)) :
    readPaths text = String.ofList (unescape path) :: readPaths rest := by
  rw [readPaths]
  split <;> simp_all

theorem readPaths_last {text : List Char} (h : cut joint text = none) :
    readPaths text = [String.ofList (unescape text)] := by
  rw [readPaths]
  split <;> simp_all

theorem readPaths_intercalate (path : String) (paths : List String) :
    readPaths (joint.intercalate ((path :: paths).map fun p => escapeChars p.toList)) =
      path :: paths := by
  induction paths generalizing path with
  | nil =>
    rw [List.map_singleton, List.intercalate_singleton,
      readPaths_last (cut_eq_none (not_infix_joint _)), unescape_escapeChars, String.ofList_toList]
  | cons next paths ih =>
    rw [List.map_cons, List.map_cons, List.intercalate_cons_cons,
      readPaths_cut (cut_append (List.cons_ne_nil _ _) (not_infix_joined _)), unescape_escapeChars,
      String.ofList_toList]
    exact congrArg (path :: ·) (ih next)

theorem firsts_eq (seen paths : List String) :
    firsts seen paths = (paths.filter fun p => !seen.contains p).eraseDups := by
  induction paths generalizing seen with
  | nil => rfl
  | cons p ps ih =>
    rw [firsts, List.filter_cons]
    by_cases hp : seen.contains p = true
    · rw [if_pos hp, ih, if_neg (by simpa using hp)]
    · rw [if_neg hp, ih, if_pos (by simpa using hp), List.eraseDups_cons, List.filter_filter]
      refine congrArg (p :: ·.eraseDups) (List.filter_congr fun q _ => ?_)
      rw [List.contains_cons, Bool.not_or]

theorem prerequisites_eq (input : String) (dependencies : List String) :
    prerequisites input dependencies = (input :: dependencies).eraseDups := by
  rw [prerequisites, firsts_eq]
  simp

theorem toList_rule (target input : String) (dependencies : List String) :
    (rule target input dependencies).toList = escapeChars target.toList ++ [':', ' '] ++
      (joint.intercalate ((prerequisites input dependencies).map fun p => escapeChars p.toList) ++
        ['\n']) := by
  have hpaths : (prerequisites input dependencies).map (String.toList ∘ escape) =
      (prerequisites input dependencies).map fun p => escapeChars p.toList :=
    List.map_congr_left fun p _ => by simp [escape]
  simp [rule, escape, joint, String.toList_intercalate, hpaths]

/-- Reading finds the target and the paths of every rule. -/
theorem read_rule (target input : String) (dependencies : List String) :
    read (rule target input dependencies) = some (target, (input :: dependencies).eraseDups) := by
  rw [read, toList_rule, cut_append (List.cons_ne_nil _ _) (not_infix_target _), prerequisites_eq,
    List.eraseDups_cons]
  simp only [Option.map_some, List.dropLast_concat, readPaths_intercalate, unescape_escapeChars,
    String.ofList_toList]

/-- Two rules are the same text exactly when they have the same target and, of each list of paths,
the first occurrences are the same in the same order. Whatever characters the paths are made of,
both are read back from the text. -/
theorem rule_eq_iff (target target' input input' : String)
    (dependencies dependencies' : List String) :
    (rule target input dependencies = rule target' input' dependencies' ↔
      target = target' ∧ (input :: dependencies).eraseDups = (input' :: dependencies').eraseDups) ∧
    read (rule target input dependencies) = some (target, (input :: dependencies).eraseDups) := by
  refine ⟨⟨fun h => ?_, ?_⟩, read_rule ..⟩
  · have hread := congrArg read h
    rw [read_rule, read_rule] at hread
    simpa using hread
  · rintro ⟨rfl, h⟩
    rw [rule, rule, prerequisites_eq, prerequisites_eq, h]

example : rule "t" "a\\" ["b"] = "t: a\\ \\\n  b\n" ∧
    rule "t" "a \\\n  b" [] = "t: a\\ \\\n\\ \\ b\n" := by
  decide

end ShaderSplit.Dependency
