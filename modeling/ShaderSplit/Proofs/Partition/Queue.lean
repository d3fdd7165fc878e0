import ShaderSplit.Partition.Draft

namespace ShaderSplit

namespace Queue

variable {q : Queue} {o : NodeId} {stmt : StageStmt}

def Lacks (q : Queue) (o : NodeId) : Prop := ∀ e ∈ q, e.origin ≠ some o

/-- The first entry from `o` is `e`: origins are looked up from the front. -/
structure Cut (q : Queue) (o : NodeId) (l : Queue) (e : Entry) (r : Queue) : Prop where
  eq : q = l ++ e :: r
  lacks : Lacks l o
  origin : e.origin = some o

theorem lacks_or_cut (q : Queue) (o : NodeId) : Lacks q o ∨ ∃ l e r, Cut q o l e r := by
  induction q with
  | nil => exact .inl (by simp [Lacks])
  | cons x q ih =>
    by_cases hx : x.origin = some o
    · exact .inr ⟨[], x, q, rfl, by simp [Lacks], hx⟩
    · rcases ih with h | ⟨l, e, r, h⟩
      · exact .inl (by simpa [Lacks, hx] using h)
      · refine .inr ⟨x :: l, e, r, by simp [h.eq], ?_, h.origin⟩
        simpa [Lacks, hx] using h.lacks

theorem use_lacks (h : Lacks q o) : q.use stmt o = q ++ [⟨stmt, some o, 1⟩] := by
  induction q with
  | nil => rfl
  | cons x q ih =>
    have hx : x.origin ≠ some o := h x (by simp)
    have hq : Lacks q o := fun e he => h e (by simp [he])
    rw [use, if_neg hx, ih hq, List.cons_append]

theorem use_cut {l r : Queue} {e : Entry} (h : Cut q o l e r) :
    q.use stmt o = l ++ { e with uses := e.uses + 1 } :: r := by
  obtain ⟨rfl, hl, he⟩ := h
  induction l with
  | nil => simp [use, he]
  | cons x l ih =>
    have hx : x.origin ≠ some o := hl x (by simp)
    rw [List.cons_append, use, if_neg hx, ih fun e he => hl e (by simp [he]), List.cons_append]

theorem release_lacks (h : Lacks q o) : q.release o = q := by
  induction q with
  | nil => rfl
  | cons x q ih =>
    have hx : x.origin ≠ some o := h x (by simp)
    have hq : Lacks q o := fun e he => h e (by simp [he])
    rw [release, if_neg hx, ih hq]

theorem release_cut {l r : Queue} {e : Entry} (h : Cut q o l e r) :
    q.release o = if e.uses ≤ 1 then l ++ r else l ++ { e with uses := e.uses - 1 } :: r := by
  obtain ⟨rfl, hl, he⟩ := h
  induction l with
  | nil => simp [release, he]
  | cons x l ih =>
    have hx : x.origin ≠ some o := hl x (by simp)
    rw [List.cons_append, release, if_neg hx, ih fun e he => hl e (by simp [he])]
    split <;> simp

theorem addOnce_cases (q : Queue) (stmt : StageStmt) :
    (q.addOnce stmt = q ∧ ∃ e ∈ q, e.origin = none ∧ e.stmt.same stmt = true) ∨
      q.addOnce stmt = q ++ [⟨stmt, none, 1⟩] := by
  unfold addOnce
  split
  · rename_i h
    obtain ⟨e, he, hs⟩ := List.any_eq_true.1 h
    have hs' : e.origin = none ∧ e.stmt.same stmt = true := by simpa using hs
    exact .inl ⟨rfl, e, he, hs'⟩
  · exact .inr rfl

theorem insertAfter?_none {fits : Entry → Bool} {entry : Entry}
    (h : q.insertAfter? fits entry = none) : ∀ e ∈ q, fits e = false := by
  induction q with
  | nil => simp
  | cons x q ih =>
    rw [insertAfter?] at h
    cases hq : insertAfter? fits entry q with
    | some q₁ => simp [hq] at h
    | none =>
      have hx : fits x = false := by simpa [hq] using h
      simpa [hx] using ih hq

theorem insertAfter?_some {fits : Entry → Bool} {entry : Entry} {q' : Queue}
    (h : q.insertAfter? fits entry = some q') :
    ∃ l r, q = l ++ r ∧ q' = l ++ entry :: r ∧ ∀ e ∈ r, fits e = false := by
  induction q generalizing q' with
  | nil => simp [insertAfter?] at h
  | cons x q ih =>
    rw [insertAfter?] at h
    cases hq : insertAfter? fits entry q with
    | some q₁ =>
      obtain ⟨l, r, rfl, rfl, hr⟩ := ih hq
      rw [hq] at h
      exact ⟨x :: l, r, rfl, by simpa using h.symm, hr⟩
    | none =>
      rw [hq] at h
      dsimp only at h
      split at h
      · exact ⟨[x], q, rfl, by simpa using h.symm, insertAfter?_none hq⟩
      · simp at h

/-- An inserted statement has behind it none of the writes that reach it. -/
theorem insertReached_cases (reaching : List NodeId) (stmt : StageStmt) (q : Queue) :
    ∃ l r, q = l ++ r ∧ q.insertReached reaching stmt = l ++ ⟨stmt, none, 1⟩ :: r ∧
      ∀ o ∈ reaching, Lacks r o := by
  unfold insertReached
  cases h : q.insertAfter? (fun e => e.origin.any reaching.contains) ⟨stmt, none, 1⟩ with
  | none => exact ⟨q, [], by simp, by simp [h], by simp [Lacks]⟩
  | some q' =>
    obtain ⟨l, r, hq, rfl, hr⟩ := insertAfter?_some h
    refine ⟨l, r, hq, by simp [h], fun o ho e he heo => ?_⟩
    have := hr e he
    simp [heo, ho] at this

/-- What a queue holds, without counts. -/
def tags (q : Queue) : List (StageStmt × Option NodeId) := q.map fun e => (e.stmt, e.origin)

theorem statements_eq (q : Queue) : q.statements = q.tags.map (·.1) := by
  simp [statements, tags]

theorem tags_add (q : Queue) (stmt : StageStmt) (origin : Option NodeId) :
    (q.add stmt origin).tags = q.tags ∨ (q.add stmt origin).tags = q.tags ++ [(stmt, origin)] := by
  cases origin with
  | none =>
    rcases addOnce_cases q stmt with ⟨h, _⟩ | h
    · exact .inl (by rw [add, h])
    · exact .inr (by simp [add, h, tags])
  | some o =>
    rcases lacks_or_cut q o with hl | ⟨l, e, r, hc⟩
    · exact .inr (by simp [add, use_lacks hl, tags])
    · exact .inl (by rw [add, use_cut hc, hc.eq]; simp [tags])

theorem tags_release (q : Queue) (o : NodeId) : (q.release o).tags = q.tags ∨
    ∃ l st r, q.tags = l ++ (st, some o) :: r ∧ (q.release o).tags = l ++ r := by
  rcases lacks_or_cut q o with hl | ⟨l, e, r, hc⟩
  · exact .inl (by rw [release_lacks hl])
  · rw [release_cut hc]
    split
    · exact .inr ⟨tags l, e.stmt, tags r, by simp [hc.eq, tags, hc.origin], by simp [tags]⟩
    · exact .inl (by simp [hc.eq, tags])

section
variable {e : StageStmt × Option NodeId}

theorem mem_statements {st : StageStmt} : st ∈ q.statements ↔ ∃ origin, (st, origin) ∈ q.tags := by
  simp [statements_eq]

theorem tags_subset_add (q : Queue) (stmt : StageStmt) (origin : Option NodeId) :
    q.tags ⊆ (q.add stmt origin).tags := by
  rcases tags_add q stmt origin with h | h <;> simp [h]

theorem mem_tags_add {origin : Option NodeId} (h : e ∈ (q.add stmt origin).tags) :
    e ∈ q.tags ∨ e = (stmt, origin) := by
  rcases tags_add q stmt origin with ht | ht
  · exact .inl (ht ▸ h)
  · rwa [ht, List.mem_append, List.mem_singleton] at h

theorem mem_tags_release (h : e ∈ (q.release o).tags) : e ∈ q.tags := by
  rcases tags_release q o with ht | ⟨l, st, r, hq, ht⟩
  · exact ht ▸ h
  · rw [ht] at h
    rw [hq]
    exact (List.Sublist.append_left (List.sublist_cons_self _ _) l).subset h

theorem mem_tags_of_ne (h : e ∈ q.tags) (ho : e.2 ≠ some o) : e ∈ (q.release o).tags := by
  rcases tags_release q o with ht | ⟨l, st, r, hq, ht⟩
  · rwa [ht]
  · rw [hq, List.mem_append, List.mem_cons] at h
    rw [ht, List.mem_append]
    -- the entry that is dropped comes from `o`
    exact h.imp_right fun hr => hr.resolve_left fun heq => ho (heq ▸ rfl)

theorem mem_tags_insertReached {reaching : List NodeId} :
    e ∈ (q.insertReached reaching stmt).tags ↔ e ∈ q.tags ∨ e = (stmt, none) := by
  obtain ⟨l, r, rfl, hins, -⟩ := insertReached_cases reaching stmt q
  rw [hins]
  simp only [tags, List.map_append, List.map_cons, List.mem_append, List.mem_cons]
  rw [or_left_comm, or_comm]

end

end Queue

namespace Draft

@[simp] theorem onQueue_queue (d : Draft) (s t : Stage) (f : Queue → Queue) :
    (d.onQueue s f).queue t = if s = t then f (d.queue t) else d.queue t := by
  unfold onQueue queue
  rw [PerStage.get_set]
  split
  · rename_i h
    rw [h]
  · rfl

@[simp] theorem add_queue (d : Draft) (s t : Stage) (stmt : StageStmt) (origin : Option NodeId) :
    (d.add s stmt origin).queue t = if s = t then (d.queue t).add stmt origin else d.queue t :=
  onQueue_queue ..

section
variable {d : Draft} {s x : Stage} {e : StageStmt × Option NodeId}

theorem mem_tags_add {st : StageStmt} {origin : Option NodeId}
    (h : e ∈ ((d.add s st origin).queue x).tags) :
    e ∈ (d.queue x).tags ∨ s = x ∧ e = (st, origin) := by
  rw [add_queue] at h
  split at h
  · rename_i hsx
    exact (Queue.mem_tags_add h).imp_right fun he => ⟨hsx, he⟩
  · exact .inl h

theorem mem_tags_release {o : NodeId} (h : e ∈ ((d.onQueue s (·.release o)).queue x).tags) :
    e ∈ (d.queue x).tags := by
  rw [onQueue_queue] at h
  split at h
  · exact Queue.mem_tags_release h
  · exact h

end

@[simp] theorem setRebuilt_queue (d : Draft) (o : NodeId) (s t : Stage) (decl : LocalDecl) :
    (d.setRebuilt o s decl).queue t = d.queue t := rfl

@[simp] theorem setRecord_queue (d : Draft) (s t x : Stage) (r : InterfaceRecord) :
    (d.setRecord s t r).queue x = d.queue x := by
  unfold setRecord
  split <;> rfl

end Draft
end ShaderSplit
