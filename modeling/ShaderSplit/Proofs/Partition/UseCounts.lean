import Mathlib.Data.List.Induction
import ShaderSplit.Proofs.Partition.Queue

namespace ShaderSplit

/-- A change of the queues that names the origin of what it moves. -/
inductive Edit where
  | add (stage : Stage) (stmt : StageStmt) (origin : NodeId)
  | lift (decl : LocalDecl) (source dest : Stage) (origin : NodeId)

abbrev Counters := Stage → NodeId → Nat

namespace Counters

def zero : Counters := fun _ _ => 0

def incr (c : Counters) (s : Stage) (o : NodeId) : Counters :=
  fun t i => if s = t ∧ o = i then c t i + 1 else c t i

def decr (c : Counters) (s : Stage) (o : NodeId) : Counters :=
  fun t i => if s = t ∧ o = i then c t i - 1 else c t i

end Counters

namespace Edit

def origin : Edit → NodeId
  | add _ _ o | lift _ _ _ o => o

def apply (d : Draft) : Edit → Draft
  | add s st o => d.add s st (some o)
  | lift decl s t o => d.liftDeclaration decl s t o

def count (c : Counters) : Edit → Counters
  | add s _ o => c.incr s o
  | lift _ s t o => (c.incr t o).decr s o

def gives (s : Stage) (o : NodeId) : Edit → Option StageStmt
  | add t st i => if t = s ∧ i = o then some st else none
  | lift decl _ t i => if t = s ∧ i = o then some (.decl decl) else none

def counters (es : List Edit) : Counters := es.foldl count .zero

/-- `st` was given when the counter last left zero. -/
def LastGiven (es : List Edit) (s : Stage) (o : NodeId) (st : StageStmt) : Prop :=
  ∃ l e r, es = l ++ e :: r ∧ counters l s o = 0 ∧ e.gives s o = some st ∧
    ∀ r', r' <+: r → 0 < counters (l ++ e :: r') s o

variable {es : List Edit} {e : Edit} {s : Stage} {o : NodeId} {st : StageStmt}

theorem counters_concat (es : List Edit) (e : Edit) :
    counters (es ++ [e]) = e.count (counters es) := by
  simp [counters]

theorem counters_le_length (es : List Edit) (s : Stage) (o : NodeId) :
    counters es s o ≤ es.length := by
  induction es using List.reverseRecOn with
  | nil => exact Nat.le_refl 0
  | append_singleton es e ih =>
    rw [counters_concat, List.length_append, List.length_singleton]
    cases e with
    | add t st i =>
      simp only [count, Counters.incr]
      split <;> omega
    | lift decl t u i =>
      simp only [count, Counters.decr, Counters.incr]
      split <;> split <;> omega

theorem LastGiven.first (hzero : counters es s o = 0) (hst : e.gives s o = some st)
    (hpos : 0 < counters (es ++ [e]) s o) : LastGiven (es ++ [e]) s o st := by
  refine ⟨es, e, [], rfl, hzero, hst, fun r' hr => ?_⟩
  rw [List.prefix_nil.1 hr]
  exact hpos

theorem LastGiven.concat (h : LastGiven es s o st) (hpos : 0 < counters (es ++ [e]) s o) :
    LastGiven (es ++ [e]) s o st := by
  obtain ⟨l, x, r, rfl, hzero, hst, hr⟩ := h
  refine ⟨l, x, r ++ [e], by simp, hzero, hst, fun r' hr' => ?_⟩
  rcases List.prefix_concat_iff.1 hr' with rfl | hr'
  · simpa using hpos
  · exact hr r' hr'

/-- Of two last edits that give the same, what one leaves the other leaves, if its
counter is positive. -/
theorem LastGiven.swap {e' : Edit} (h : LastGiven (es ++ [e]) s o st)
    (hgives : e'.gives s o = e.gives s o) (hpos : 0 < counters (es ++ [e']) s o) :
    LastGiven (es ++ [e']) s o st := by
  obtain ⟨l, x, r, heq, hzero, hst, hr⟩ := h
  rcases List.eq_nil_or_concat r with rfl | ⟨r, y, rfl⟩
  · obtain ⟨rfl, hx⟩ := List.append_inj' heq rfl
    obtain rfl : e = x := by simpa using hx
    exact .first hzero (hgives.trans hst) hpos
  · have hsplit : es ++ [e] = (l ++ x :: r) ++ [y] := by simpa using heq
    obtain ⟨rfl, -⟩ := List.append_inj' hsplit rfl
    refine .concat ⟨l, x, r, rfl, hzero, hst, fun r' hr' => ?_⟩ hpos
    exact hr r' (hr'.trans (by simp))

end Edit

def Draft.edited (d : Draft) (es : List Edit) : Draft := es.foldl Edit.apply d

namespace Queue

variable {q : Queue} {c c' : NodeId → Nat} {given given' : NodeId → StageStmt → Prop} {o : NodeId}
  {stmt : StageStmt}

/-- One entry for each origin with a positive counter, which it holds, and no others. -/
structure Tallies (c : NodeId → Nat) (given : NodeId → StageStmt → Prop) (q : Queue) : Prop where
  once : (q.map (·.origin)).Nodup
  present : ∀ o, (∃ x ∈ q, x.origin = some o) ↔ 0 < c o
  entry : ∀ x ∈ q, ∃ o, x.origin = some o ∧ x.uses = c o ∧ given o x.stmt

def others (q : Queue) (o : NodeId) : Queue := q.filter fun x => decide (x.origin ≠ some o)

theorem others_use (q : Queue) (stmt : StageStmt) (o : NodeId) :
    (q.use stmt o).others o = q.others o := by
  rcases lacks_or_cut q o with hl | ⟨l, e, r, hc⟩
  · rw [use_lacks hl]
    simp [others]
  · rw [use_cut hc, hc.eq]
    simp [others, hc.origin]

theorem others_release (q : Queue) (o : NodeId) : (q.release o).others o = q.others o := by
  rcases lacks_or_cut q o with hl | ⟨l, e, r, hc⟩
  · rw [release_lacks hl]
  · rw [release_cut hc, hc.eq]
    split <;> simp [others, hc.origin]

theorem Tallies.zero_of_lacks (h : q.Tallies c given) (hl : Lacks q o) : c o = 0 := by
  refine Nat.eq_zero_of_not_pos fun hpos => ?_
  obtain ⟨x, hx, hxo⟩ := (h.present o).2 hpos
  exact hl x hx hxo

theorem Tallies.congr (h : q.Tallies c given) (hc : ∀ i, c' i = c i) : q.Tallies c' given := by
  obtain rfl : c' = c := funext hc
  exact h

theorem Tallies.mono (h : q.Tallies c given) (hg : ∀ i st, 0 < c i → given i st → given' i st) :
    q.Tallies c given' := by
  refine ⟨h.once, h.present, fun x hx => ?_⟩
  obtain ⟨i, hi, huses, hst⟩ := h.entry x hx
  exact ⟨i, hi, huses, hg i _ ((h.present i).1 ⟨x, hx, hi⟩) hst⟩

theorem Tallies.remove {l r : Queue} {e : Entry} (h : q.Tallies c given) (hcut : Cut q o l e r) :
    Tallies (fun i => if o = i then 0 else c i) given (l ++ r) := by
  have hperm : q.Perm (e :: (l ++ r)) := hcut.eq ▸ List.perm_middle
  have honce := (hperm.map (·.origin)).nodup_iff.1 h.once
  rw [List.map_cons, List.nodup_cons] at honce
  have hlacks : ∀ x ∈ l ++ r, x.origin ≠ some o := fun x hx ho =>
    honce.1 (List.mem_map.2 ⟨x, hx, ho.trans hcut.origin.symm⟩)
  have hmem {x : Entry} (hx : x ∈ l ++ r) : x ∈ q := hperm.mem_iff.2 (List.mem_cons_of_mem _ hx)
  refine ⟨honce.2, fun i => ?_, fun x hx => ?_⟩
  · by_cases hi : o = i
    · subst hi
      simpa using fun x hx => hlacks x (List.mem_append.2 hx)
    · rw [if_neg hi, ← h.present]
      constructor
      · rintro ⟨x, hx, hxi⟩
        exact ⟨x, hmem hx, hxi⟩
      · rintro ⟨x, hx, hxi⟩
        rcases List.mem_cons.1 (hperm.mem_iff.1 hx) with rfl | hx
        · exact absurd (Option.some.inj (hcut.origin.symm.trans hxi)) hi
        · exact ⟨x, hx, hxi⟩
  · obtain ⟨i, hi, huses, hst⟩ := h.entry x (hmem hx)
    have hne : o ≠ i := fun ho => hlacks x hx (ho ▸ hi)
    exact ⟨i, hi, by rw [if_neg hne, huses], hst⟩

theorem Tallies.insert {l r : Queue} {e : Entry} (h : Tallies c given (l ++ r)) (hzero : c o = 0)
    (he : e.origin = some o) (hpos : 0 < e.uses) (hst : given o e.stmt) :
    Tallies (fun i => if o = i then e.uses else c i) given (l ++ e :: r) := by
  have hperm : (l ++ e :: r).Perm (e :: (l ++ r)) := List.perm_middle
  have hlacks : ∀ x ∈ l ++ r, x.origin ≠ some o := by
    intro x hx ho
    have := (h.present o).1 ⟨x, hx, ho⟩
    omega
  refine ⟨?_, fun i => ?_, fun x hx => ?_⟩
  · rw [(hperm.map (·.origin)).nodup_iff, List.map_cons, List.nodup_cons]
    refine ⟨fun hmem => ?_, h.once⟩
    obtain ⟨x, hx, hxe⟩ := List.mem_map.1 hmem
    exact hlacks x hx (hxe.trans he)
  · have hsplit : (∃ x ∈ l ++ e :: r, x.origin = some i) ↔ o = i ∨ 0 < c i := by
      rw [← h.present i]
      simp only [hperm.mem_iff, List.mem_cons, or_and_right, exists_or, exists_eq_left, he,
        Option.some.injEq]
    rw [hsplit]
    split <;> simp_all
  · rcases List.mem_cons.1 (hperm.mem_iff.1 hx) with rfl | hx
    · exact ⟨o, he, by simp, hst⟩
    · obtain ⟨i, hi, huses, hst⟩ := h.entry x hx
      have hne : o ≠ i := fun ho => hlacks x hx (ho ▸ hi)
      exact ⟨i, hi, by rw [if_neg hne, huses], hst⟩

theorem Tallies.cut {l r : Queue} {e : Entry} (h : q.Tallies c given) (hcut : Cut q o l e r) :
    e.uses = c o ∧ 0 < c o ∧ given o e.stmt := by
  have he : e ∈ q := by simp [hcut.eq]
  obtain ⟨i, hi, huses, hst⟩ := h.entry e he
  obtain rfl : o = i := Option.some.inj (hcut.origin.symm.trans hi)
  exact ⟨huses, (h.present o).1 ⟨e, he, hi⟩, hst⟩

theorem Tallies.use (h : q.Tallies c given) (hc : ∀ i, c' i = if o = i then c i + 1 else c i)
    (hnew : c o = 0 → given o stmt) : (q.use stmt o).Tallies c' given := by
  rcases lacks_or_cut q o with hl | ⟨l, e, r, hcut⟩
  · have hzero := h.zero_of_lacks hl
    rw [use_lacks hl]
    rw [← List.append_nil q] at h
    refine (h.insert (e := ⟨stmt, some o, 1⟩) hzero rfl Nat.one_pos (hnew hzero)).congr fun i => ?_
    rw [hc]
    split
    · simp_all
    · rfl
  · obtain ⟨huses, -, hst⟩ := h.cut hcut
    rw [use_cut hcut]
    -- the entry is taken out and put back where it was, with one more use
    refine ((h.remove hcut).insert (e := { e with uses := e.uses + 1 }) (by simp) hcut.origin
      (Nat.succ_pos _) hst).congr fun i => ?_
    rw [hc]
    split
    · simp_all
    · rfl

theorem Tallies.release (h : q.Tallies c given) (hc : ∀ i, c' i = if o = i then c i - 1 else c i) :
    (q.release o).Tallies c' given := by
  rcases lacks_or_cut q o with hl | ⟨l, e, r, hcut⟩
  · have hzero := h.zero_of_lacks hl
    rw [release_lacks hl]
    refine h.congr fun i => ?_
    rw [hc]
    split
    · simp_all
    · rfl
  · obtain ⟨huses, -, hst⟩ := h.cut hcut
    rw [release_cut hcut]
    split
    -- the last use takes the entry along
    · refine (h.remove hcut).congr fun i => ?_
      rw [hc]
      split
      · subst_vars
        omega
      · rfl
    · rename_i hmany
      have hpos : 0 < e.uses - 1 := by omega
      refine ((h.remove hcut).insert (e := { e with uses := e.uses - 1 }) (by simp) hcut.origin hpos
        hst).congr fun i => ?_
      rw [hc]
      split
      · simp_all
      · rfl

/-- The entry from `o` keeps its place as long as it stays. -/
theorem Tallies.origins_use (h : q.Tallies c given) (hpos : 0 < c o) :
    (q.use stmt o).map (·.origin) = q.map (·.origin) := by
  rcases lacks_or_cut q o with hl | ⟨l, e, r, hcut⟩
  · have hzero := h.zero_of_lacks hl
    omega
  · rw [use_cut hcut, hcut.eq]
    simp

theorem Tallies.origins_release (h : q.Tallies c given) (hpos : 1 < c o) :
    (q.release o).map (·.origin) = q.map (·.origin) := by
  rcases lacks_or_cut q o with hl | ⟨l, e, r, hcut⟩
  · rw [release_lacks hl]
  · obtain ⟨huses, -, -⟩ := h.cut hcut
    rw [release_cut hcut, if_neg (by omega), hcut.eq]
    simp

end Queue

namespace Draft

variable {d : Draft} {es : List Edit} {e : Edit} {s t x : Stage} {o : NodeId}

theorem edited_concat (d : Draft) (es : List Edit) (e : Edit) :
    d.edited (es ++ [e]) = e.apply (d.edited es) := by
  simp [edited]

def Tallied (d : Draft) (es : List Edit) (x : Stage) : Prop :=
  (d.queue x).Tallies (Edit.counters es x) (Edit.LastGiven es x)

theorem Tallied.add {st : StageStmt} (h : d.Tallied es x) :
    (d.add s st (some o)).Tallied (es ++ [.add s st o]) x := by
  have hcount (i : NodeId) : Edit.counters (es ++ [.add s st o]) x i =
      if s = x ∧ o = i then Edit.counters es x i + 1 else Edit.counters es x i := by
    rw [Edit.counters_concat]
    rfl
  have hkeep :
      (d.queue x).Tallies (Edit.counters es x) (Edit.LastGiven (es ++ [.add s st o]) x) := by
    refine h.mono fun i st' hpos hst => hst.concat ?_
    rw [hcount]
    split <;> omega
  unfold Tallied
  rw [add_queue]
  split
  · rename_i hs
    subst hs
    refine hkeep.use (fun i => by simp [hcount]) fun hzero => ?_
    exact .first hzero (by simp [Edit.gives]) (by simp [hcount])
  · rename_i hs
    exact hkeep.congr fun i => by simp [hcount, hs]

/-- A lift is an addition in one stage, and a release in the other, or in the same. -/
theorem Tallied.lift {decl : LocalDecl} (h : d.Tallied es x) :
    (d.liftDeclaration decl s t o).Tallied (es ++ [.lift decl s t o]) x := by
  have hcount (i : NodeId) : Edit.counters (es ++ [.lift decl s t o]) x i =
      if s = x ∧ o = i then Edit.counters (es ++ [.add t (.decl decl) o]) x i - 1
      else Edit.counters (es ++ [.add t (.decl decl) o]) x i := by
    rw [Edit.counters_concat, Edit.counters_concat]
    rfl
  have hadd : (d.add t (.decl decl) (some o)).Tallied (es ++ [.add t (.decl decl) o]) x := h.add
  -- what a lift gives is what the addition gives, so only the counters have to be compared
  suffices hmoved :
      ((d.liftDeclaration decl s t o).queue x).Tallies (Edit.counters (es ++ [.lift decl s t o]) x)
      (Edit.LastGiven (es ++ [.add t (.decl decl) o]) x) from
    hmoved.mono fun i st hpos hst => hst.swap rfl hpos
  rw [liftDeclaration, onQueue_queue]
  split
  · rename_i hs
    subst hs
    exact hadd.release fun i => by simp [hcount]
  · rename_i hs
    exact hadd.congr fun i => by simp [hcount, hs]

theorem Tallied.apply (h : d.Tallied es x) : (e.apply d).Tallied (es ++ [e]) x := by
  cases e with
  | add s st o => exact h.add
  | lift decl s t o => exact h.lift

theorem start_edited_tallied (p : Pipeline) (es : List Edit) (x : Stage) :
    ((start p).edited es).Tallied es x := by
  induction es using List.reverseRecOn with
  | nil =>
    have hempty : (start p).queue x = [] := PerStage.get_const [] x
    rw [edited, List.foldl_nil, Tallied, hempty]
    exact ⟨List.nodup_nil, by simp [Edit.counters, Counters.zero], by simp⟩
  | append_singleton es e ih =>
    rw [edited_concat]
    exact ih.apply

/-- For fewer than `2 ^ 32` edits, uses that are counted in 32 bits are the same. -/
theorem start_edited_uses (p : Pipeline) {es : List Edit} (h : es.length < UInt32.size)
    (x : Stage) : ∀ y ∈ ((start p).edited es).queue x, y.uses.toUInt32.toNat = y.uses := by
  intro y hy
  obtain ⟨o, -, huses, -⟩ := (start_edited_tallied p es x).entry y hy
  have hle := Edit.counters_le_length es x o
  rw [Nat.toUInt32_eq, UInt32.toNat_ofNat_of_lt']
  omega

theorem others_apply (d : Draft) (e : Edit) (x : Stage) :
    ((e.apply d).queue x).others e.origin = (d.queue x).others e.origin := by
  cases e with
  | add s st o =>
    rw [Edit.apply, add_queue]
    split
    · exact Queue.others_use ..
    · rfl
  | lift decl s t o =>
    rw [Edit.apply, liftDeclaration, onQueue_queue, add_queue]
    have hadd : (if t = x then (d.queue x).add (.decl decl) (some o) else d.queue x).others o =
        (d.queue x).others o := by
      split
      · exact Queue.others_use ..
      · rfl
    split
    · exact (Queue.others_release ..).trans hadd
    · exact hadd

theorem Tallied.origins_apply (h : d.Tallied es x) (hbefore : 0 < Edit.counters es x e.origin)
    (hafter : 0 < Edit.counters (es ++ [e]) x e.origin) :
    ((e.apply d).queue x).map (·.origin) = (d.queue x).map (·.origin) := by
  cases e with
  | add s st o =>
    rw [Edit.apply, add_queue]
    split
    · exact h.origins_use hbefore
    · rfl
  | lift decl s t o =>
    have hadd : (d.add t (.decl decl) (some o)).Tallied (es ++ [.add t (.decl decl) o]) x := h.add
    have hkept :
        ((d.add t (.decl decl) (some o)).queue x).map (·.origin) = (d.queue x).map (·.origin) := by
      rw [add_queue]
      split
      · exact h.origins_use hbefore
      · rfl
    rw [Edit.apply, liftDeclaration, onQueue_queue]
    split
    · rename_i hs
      subst hs
      -- after the release the counter is still positive, so more than one use was counted before
      have hmany : 1 < Edit.counters (es ++ [.add t (.decl decl) o]) s o := by
        rw [Edit.counters_concat] at hafter ⊢
        simp only [Edit.count, Edit.origin, Counters.decr, and_self, if_true] at hafter ⊢
        omega
      exact (hadd.origins_release hmany).trans hkept
    · exact hkept

end Draft

/-- After any edits of a fresh draft, the queue of a stage has at most one entry for each origin,
and has one exactly where the counter is positive. An entry's uses are the counter, and its
statement is the one that was given when the counter last left zero. A lift takes its use from an
entry that has one, after the addition too. A further edit leaves the entries of other origins as
they are and where they are, and does not move its own entry either, if that stays. -/
theorem Draft.start_edited_counts (p : Pipeline) (es : List Edit) (s : Stage) :
    (((start p).edited es).queue s |>.map (·.origin)).Nodup ∧
    (∀ o, (∃ x ∈ ((start p).edited es).queue s, x.origin = some o) ↔ 0 < Edit.counters es s o) ∧
    (∀ x ∈ ((start p).edited es).queue s, ∃ o, x.origin = some o ∧ x.uses = Edit.counters es s o ∧
      Edit.LastGiven es s o x.stmt) ∧
    (∀ decl t o, ∀ x ∈ (((start p).edited es).add t (.decl decl) (some o)).queue s, 0 < x.uses) ∧
    ∀ e : Edit,
      (((start p).edited (es ++ [e])).queue s).filter (·.origin ≠ some e.origin) =
        (((start p).edited es).queue s).filter (·.origin ≠ some e.origin) ∧
      (0 < Edit.counters es s e.origin → 0 < Edit.counters (es ++ [e]) s e.origin →
        (((start p).edited (es ++ [e])).queue s).map (·.origin) =
          (((start p).edited es).queue s).map (·.origin)) := by
  have h := start_edited_tallied p es s
  refine ⟨h.once, h.present, h.entry, fun decl t o x hx => ?_, fun e => ?_⟩
  · -- the queue in the middle of a lift is that of a history, which ends with an addition
    have hadd : (((start p).edited es).add t (.decl decl) (some o)).Tallied
        (es ++ [.add t (.decl decl) o]) s := h.add
    obtain ⟨i, hi, huses, -⟩ := hadd.entry x hx
    rw [huses]
    exact (hadd.present i).1 ⟨x, hx, hi⟩
  · rw [edited_concat]
    exact ⟨others_apply _ e s, h.origins_apply⟩

end ShaderSplit
