import ShaderSplit.Proofs.Meaning.Outputs
import ShaderSplit.Proofs.Meaning.Straight

namespace ShaderSplit

def Role.onVertex : Role → Bool
  | vertexBuffer _ | instanceBuffer _ | position | varyingOutput .vertex => true
  | _ => false

theorem Role.stage_of_onVertex {r : Role} (h : r.onVertex = true) : r.stage = .vertex := by
  unfold Role.onVertex at h
  split at h
  · rfl
  · rfl
  · rfl
  · rfl
  · cases h

def origins (q : List (StageStmt × Option NodeId)) : List NodeId := q.filterMap (·.2)

@[simp] theorem origins_nil : origins [] = [] := rfl

@[simp] theorem origins_some (q : List (StageStmt × Option NodeId)) (st : StageStmt) (o : NodeId) :
    origins (q ++ [(st, some o)]) = origins q ++ [o] := by
  simp [origins]

@[simp] theorem origins_none (q : List (StageStmt × Option NodeId)) (st : StageStmt) :
    origins (q ++ [(st, none)]) = origins q := by
  simp [origins]

theorem origins_subset {q q' : List (StageStmt × Option NodeId)} (h : q ⊆ q') :
    origins q ⊆ origins q' := by
  intro o ho
  obtain ⟨t, ht, hto⟩ := List.mem_filterMap.1 ho
  exact List.mem_filterMap.2 ⟨t, h ht, hto⟩

/-- A step is issued at its first use. -/
theorem Queue.tags_use (q : Queue) (st : StageStmt) (o : NodeId) :
    (o ∈ origins q.tags ∧ (q.use st o).tags = q.tags) ∨
      (o ∉ origins q.tags ∧ (q.use st o).tags = q.tags ++ [(st, some o)]) := by
  rcases lacks_or_cut q o with hl | ⟨l, e, r, hc⟩
  · refine .inr ⟨fun ho => ?_, by simp [use_lacks hl, tags]⟩
    obtain ⟨t, ht, hto⟩ := List.mem_filterMap.1 ho
    obtain ⟨e, he, rfl⟩ := List.mem_map.1 ht
    exact hl e he hto
  · refine .inl ⟨?_, by rw [use_cut hc, hc.eq]; simp [tags]⟩
    refine List.mem_filterMap.2 ⟨(e.stmt, e.origin), ?_, hc.origin⟩
    simp [hc.eq, tags]

def Step.Makes (s : Step) (st : StageStmt) : Prop :=
  match s.action, st with
  | .declare d, .decl d' => d'.var = d.var ∧ d'.init = d.init
  | .run e, .expr e' => e' = e
  | _, _ => False

namespace Pipeline

variable (p : Pipeline)

def VertexOnly : Prop := ∀ q ∈ p.fn.params, q.role.onVertex = true

instance : Decidable p.VertexOnly := inferInstanceAs (Decidable (∀ q ∈ p.fn.params, _))

/-- A local is reached by a step in `os`; parameters are there. -/
def Available (sc : Scope) (os : List NodeId) : Expr → Prop
  | .localVar _ v _ => ∃ w, sc.find (.localVar v) = some w ∧ w.step ∈ os
  | .param _ i => i < p.fn.params.length
  | .interface .. | .unsupported .. => False
  | _ => True

/-- Steps are issued one after the other, each behind the writes that reach it. -/
inductive Issued : List (StageStmt × Option NodeId) → Prop
  | nil : Issued []
  | write {q : List (StageStmt × Option NodeId)} {s : Step} {st : StageStmt} {v : LocalId}
      {e : Expr} (hq : Issued q) (hs : s ∈ p.scope) (hst : s.Makes st)
      (hv : s.gives = some (.localVar v, e)) (hnew : s.id ∉ origins q)
      (hr : ∀ x ∈ s.exprs, x.All (p.Available (p.scope.upTo s.id) (origins q))) :
      Issued (q ++ [(st, some s.id)])
  | output {q : List (StageStmt × Option NodeId)} {i : Nat} {x : Expr} {o : NodeId} (hq : Issued q)
      (hw : p.scope.find (.param i) = some ⟨.assignment x, o⟩)
      (hr : x.All (p.Available (p.scope.upTo o) (origins q))) : Issued (q ++ [(.expr x, none)])

variable {p} {sc : Scope} {os os' : List NodeId} {q : List (StageStmt × Option NodeId)} {s t : Step}
  {v : LocalId} {e : Expr}

theorem Available.mono (h : os ⊆ os') {x : Expr} (hx : p.Available sc os x) :
    p.Available sc os' x := by
  cases x with
  | localVar n v name =>
    obtain ⟨w, hw, ho⟩ := hx
    exact ⟨w, hw, h ho⟩
  | _ => exact hx

theorem all_available_mono (h : os ⊆ os') (he : e.All (p.Available sc os)) :
    e.All (p.Available sc os') :=
  he.mono fun _ hx => hx.mono h

/-- A step that gives a local a value declares it, or a write that has been issued reaches it. -/
theorem declares_or_reached (hv : s.gives = some (.localVar v, e))
    (hr : ∀ x ∈ s.exprs, x.All (p.Available sc os)) :
    (∃ d, s.action = .declare d ∧ d.var = v) ∨ ∃ w, sc.find (.localVar v) = some w ∧
    w.step ∈ os := by
  rcases Step.gives_cases hv with ⟨d, hd, heq, -⟩
    | ⟨n, lhs, hrun, ⟨_, _, -, heq⟩ | ⟨n', i, name, rfl, heq⟩⟩
  · cases heq
    exact .inl ⟨d, hd, rfl⟩
  · cases heq
  · cases heq
    have hmem : .binary n .assign (.localVar n' v name) e ∈ s.exprs := by simp [Step.exprs, hrun]
    exact .inr (Expr.all_binary.1 (hr _ hmem)).2.1.self

namespace StraightLine

variable (h : p.StraightLine)
include h

theorem declared_before (hq : p.Issued q) (hs : s ∈ p.scope) (ho : s.id ∈ origins q)
    (hv : s.gives = some (.localVar v, e)) : ∃ t ∈ p.scope, ∃ d, t.action = .declare d ∧ d.var = v ∧
      p.scope.rank t.id ≤ p.scope.rank s.id := by
  induction hq generalizing s e with
  | nil => simp at ho
  | output _ _ _ ih => exact ih hs (by simpa using ho) hv
  | @write q u st v' e' hq hu hst hv' hnew hr ih =>
    rw [origins_some, List.mem_append, List.mem_singleton] at ho
    rcases ho with ho | ho
    · exact ih hs ho hv
    · obtain rfl := Scope.eq_of_id h.steps hs hu ho
      rcases declares_or_reached hv hr with ⟨d, hd, hdv⟩ | ⟨w, hw, hwo⟩
      · exact ⟨s, hs, d, hd, hdv, Nat.le_refl _⟩
      · obtain ⟨t, ht, e'', htv, hstep, -⟩ := h.find_last hw
        have hlt := (Scope.mem_upTo_iff h.steps (Scope.upTo_subset ht)).1 ht
        obtain ⟨u, hu, d, hd, hdv, hle⟩ := ih (Scope.upTo_subset ht) (hstep ▸ hwo) htv
        exact ⟨u, hu, d, hd, hdv, by omega⟩

/-- The writes to a local before one that has been issued have been issued too, from its
declaration on. -/
theorem written_before {d : LocalDecl} {e' : Expr} {u : Step} (hq : p.Issued q) (hs : s ∈ p.scope)
    (ho : s.id ∈ origins q) (hv : s.gives = some (.localVar v, e)) (ht : t ∈ p.scope)
    (hv' : t.gives = some (.localVar v, e')) (hts : p.scope.rank t.id < p.scope.rank s.id)
    (hu : u ∈ p.scope) (hd : u.action = .declare d) (hdv : d.var = v)
    (hut : p.scope.rank u.id ≤ p.scope.rank t.id) : t.id ∈ origins q := by
  induction hq generalizing s e with
  | nil => simp at ho
  | output _ _ _ ih => simpa using ih hs (by simpa using ho) hv hts
  | @write q x st v₁ e₁ hq hx hst hv₁ hnew hr ih =>
    rw [origins_some, List.mem_append, List.mem_singleton] at ho ⊢
    rcases ho with ho | ho
    · exact .inl (ih hs ho hv hts)
    · obtain rfl := Scope.eq_of_id h.steps hs hx ho
      rcases declares_or_reached hv hr with ⟨d', hd', hdv'⟩ | ⟨w, hw, hwo⟩
      · -- The local would be declared twice.
        obtain rfl := h.declared_once hu hs hd hd' (hdv.trans hdv'.symm)
        omega
      · obtain ⟨y, hy, e'', hyv, hstep, hlast⟩ := h.find_last hw
        have hyscope := Scope.upTo_subset hy
        have hle := hlast t ((Scope.mem_upTo_iff h.steps ht).2 hts) e' hv'
        rcases Nat.lt_or_eq_of_le hle with hlt | heq
        · exact .inl (ih hyscope (hstep ▸ hwo) hyv hlt)
        · obtain rfl := Scope.rank_inj h.steps ht hyscope heq
          exact .inl (hstep ▸ hwo)

/-- A write that is issued comes behind all earlier writes to the local. -/
theorem issued_in_order {e' : Expr} (hq : p.Issued q) (hs : s ∈ p.scope)
    (hv : s.gives = some (.localVar v, e)) (hnew : s.id ∉ origins q)
    (hr : ∀ x ∈ s.exprs, x.All (p.Available (p.scope.upTo s.id) (origins q))) (ht : t ∈ p.scope)
    (ho : t.id ∈ origins q) (hv' : t.gives = some (.localVar v, e')) :
    p.scope.rank t.id < p.scope.rank s.id := by
  obtain ⟨u, hu, d, hd, hdv, hle⟩ : ∃ u ∈ p.scope, ∃ d, u.action = .declare d ∧ d.var = v ∧
      p.scope.rank u.id ≤ p.scope.rank s.id := by
    rcases declares_or_reached hv hr with ⟨d, hd, hdv⟩ | ⟨w, hw, hwo⟩
    · exact ⟨s, hs, d, hd, hdv, Nat.le_refl _⟩
    · obtain ⟨y, hy, e'', hyv, hstep, -⟩ := h.find_last hw
      have hyscope := Scope.upTo_subset hy
      have hlt := (Scope.mem_upTo_iff h.steps hyscope).1 hy
      obtain ⟨u, hu, d, hd, hdv, hle⟩ := h.declared_before hq hyscope (hstep ▸ hwo) hyv
      exact ⟨u, hu, d, hd, hdv, by omega⟩
  by_contra hnot
  rcases Nat.lt_or_eq_of_le (Nat.le_of_not_lt hnot) with hlt | heq
  · exact hnew (h.written_before hq ht ho hv' hs hv hlt hu hd hdv hle)
  · exact hnew (Scope.rank_inj h.steps hs ht heq ▸ ho)

end StraightLine

theorem Issued.use {q : Queue} {st : StageStmt} (hq : p.Issued q.tags) (hs : s ∈ p.scope)
    (hst : s.Makes st) (hv : s.gives = some (.localVar v, e))
    (hr : ∀ x ∈ s.exprs, x.All (p.Available (p.scope.upTo s.id) (origins q.tags))) :
    p.Issued (q.use st s.id).tags ∧ q.tags ⊆ (q.use st s.id).tags ∧
    s.id ∈ origins (q.use st s.id).tags := by
  rcases q.tags_use st s.id with ⟨hmem, heq⟩ | ⟨hnew, heq⟩
  · rw [heq]
    exact ⟨hq, fun _ ht => ht, hmem⟩
  · rw [heq]
    exact ⟨.write hq hs hst hv hnew hr, by simp, by simp⟩

end Pipeline

namespace Aim

variable {a : Aim} {sc : Scope} {d d' : Draft}

/-- Tracing leaves expressions as they are, and what it issues is available. -/
structure Keeps (a : Aim) (sc : Scope) (es : List Expr) (d : Draft) (ts : List Traced)
    (d' : Draft) : Prop where
  issued : a.pipeline.Issued (d'.queue .vertex).tags
  grows : (d.queue .vertex).tags ⊆ (d'.queue .vertex).tags
  exprs : ts.map (·.expr) = es
  stages : ∀ t ∈ ts, t.stage = none ∨ t.stage = some .vertex
  available : ∀ e ∈ es, e.All (a.pipeline.Available sc (origins (d'.queue .vertex).tags))

theorem Keeps.single {e : Expr} {t : Traced} (h : a.Keeps sc [e] d [t] d') :
    t.expr = e ∧ (t.stage = none ∨ t.stage = some .vertex) ∧
      e.All (a.pipeline.Available sc (origins (d'.queue .vertex).tags)) :=
  ⟨by simpa using h.exprs, h.stages t (by simp), h.available e (by simp)⟩

theorem promotes_keep {m : StageSet} {q wanted : Placement} {e e' : Expr}
    (h : Draft.Promotes m sc q wanted e d e' d') (hq : q = none ∨ q = some .vertex)
    (hw : wanted = none ∨ wanted = some .vertex) : e' = e ∧ d' = d := by
  cases h with
  | keep => exact ⟨rfl, rfl⟩
  | @lift s t _ _ _ _ hst _ =>
    obtain rfl : s = .vertex := by simpa using hq
    obtain rfl : t = .vertex := by simpa using hw
    exact absurd hst (lt_irrefl _)

theorem promotesAll_keep {wanted : Placement} {ts : List Traced} {es : List Expr}
    (h : a.PromotesAll sc wanted ts d es d')
    (hts : ∀ t ∈ ts, t.stage = none ∨ t.stage = some .vertex)
    (hw : wanted = none ∨ wanted = some .vertex) : es = ts.map (·.expr) ∧ d' = d := by
  induction h with
  | nil => exact ⟨rfl, rfl⟩
  | cons hp _ ih =>
    obtain ⟨rfl, rfl⟩ := promotes_keep hp (hts _ (by simp)) hw
    obtain ⟨rfl, rfl⟩ := ih fun t ht => hts t (by simp [ht])
    exact ⟨rfl, rfl⟩

theorem placement_vertex {ts : List Traced}
    (hts : ∀ t ∈ ts, t.stage = none ∨ t.stage = some .vertex) :
    placement ts = none ∨ placement ts = some .vertex := by
  cases h : placement ts with
  | none => exact .inl rfl
  | some s =>
    obtain ⟨t, ht, hs⟩ := placement_mem h
    exact .inr (by simpa [hs] using hts t ht)

theorem later_vertex {q r : Placement} (hq : q = none ∨ q = some .vertex)
    (hr : r = none ∨ r = some .vertex) :
    q.later r = none ∨ q.later r = some .vertex := by
  rcases Placement.later_cases q r with h | h
  · rwa [h]
  · rwa [h]

theorem wait_vertex {w : Bool} {q : Placement} (ht : a.target = .vertex)
    (hq : q = none ∨ q = some .vertex) :
    a.wait w q = none ∨ a.wait w q = some .vertex := by
  rcases a.wait_cases w q with h | h
  · rwa [h]
  · exact .inr (h.trans (congrArg some ht))

theorem sampledStage_vertex {object : Expr} {z : Nat × Stage} (hv : a.pipeline.VertexOnly) :
    a.sampledStage object ≠ .ok z := by
  intro h
  obtain ⟨-, q, -, hq, -, htexture⟩ := sampledStage_ok h
  have hrole := hv q (List.mem_of_getElem? hq)
  cases hr : q.role <;> simp [hr, Role.onVertex, Role.isTexture] at htexture hrole

section
variable {m : Bool} {es : List Expr} {ts : List Traced} (hp : a.pipeline.StraightLine)
include hp

theorem keeps_local {n : Node} {v : LocalId} {name : String} {w : Write} {st : StageStmt} {x : Expr}
    {t : Traced} {o : NodeId} (hsc : sc = a.pipeline.scope.upTo o)
    (hw : sc.find (.localVar v) = some w) (hx : Keeps a (sc.upTo w.step) [x] d [t] d')
    (hst : ∀ s ∈ a.pipeline.scope, s.id = w.step → (match w.site with
        | .declaration decl => s.action = .declare decl
        | .assignment y => s.action = .run y) → s.Makes st ∧ s.exprs = [x]) :
    Keeps a sc [.localVar n v name] d [⟨.localVar n v name, some .vertex⟩]
      (d'.add .vertex st (some w.step)) := by
  subst hsc
  obtain ⟨s, hs, hl⟩ := Scope.find_mem hw
  have hscope := Scope.upTo_subset hs
  obtain ⟨hstep, e, hv, haction⟩ := (hp.straight s hscope).lastWrite hl
  obtain ⟨hmakes, hexprs⟩ := hst s hscope hstep.symm haction
  -- what the write reads is available, so its use issues it
  have havailable := hx.available
  rw [Scope.upTo_upTo (Scope.find_step_mem hw), hstep] at havailable
  obtain ⟨hissued, hgrows, hmem⟩ := hx.issued.use hscope hmakes hv (hexprs ▸ havailable)
  have hqueue :
      (d'.add .vertex st (some w.step)).queue .vertex = (d'.queue .vertex).use st s.id := by
    rw [Draft.add_queue, if_pos rfl, hstep, Queue.add]
  refine ⟨?_, ?_, rfl, by simp, ?_⟩
  · rw [hqueue]
    exact hissued
  · rw [hqueue]
    exact fun y hy => hgrows (hx.grows hy)
  · rw [hqueue]
    intro e' he'
    obtain rfl := List.mem_singleton.1 he'
    exact Expr.all_localVar.2 ⟨w, hw, hstep ▸ hmem⟩

/-- A trace issues what its expressions need, and changes none of them. -/
theorem Traces.keeps (h : a.Traces sc m es d ts d') (hv : a.pipeline.VertexOnly)
    (htarget : a.target = .vertex) (hsc : ∃ o, sc = a.pipeline.scope.upTo o)
    (hd : a.pipeline.Issued (d.queue .vertex).tags) : a.Keeps sc es d ts d' := by
  -- What reaches a use is traced in the scope before it, which is again the body up to a step.
  have inner {o : NodeId} {v : LocalId} {w : Write}
      (hw : Scope.find (.localVar v) (a.pipeline.scope.upTo o) = some w) :
      ∃ x, (a.pipeline.scope.upTo o).upTo w.step = a.pipeline.scope.upTo x :=
    ⟨w.step, Scope.upTo_upTo (Scope.find_step_mem hw)⟩
  have placed {t : Traced} {s : Stage} (hs : t.stage.getD a.target = s)
      (ht : t.stage = none ∨ t.stage = some .vertex) :
      s = .vertex := by
    rcases ht with ht | ht
    · simpa [ht, htarget] using hs.symm
    · simpa [ht] using hs.symm
  induction h with
  | nil => exact ⟨hd, fun _ h => h, rfl, by simp, by simp⟩
  | cons _ _ ih ihs =>
    have h₁ := ih hsc hd
    have h₂ := ihs hsc h₁.issued
    refine ⟨h₂.issued, fun _ hy => h₂.grows (h₁.grows hy), ?_, ?_, ?_⟩
    · rw [List.map_cons, h₂.exprs, h₁.single.1]
    · exact List.forall_mem_cons.2 ⟨h₁.single.2.1, h₂.stages⟩
    · exact List.forall_mem_cons.2
        ⟨Pipeline.all_available_mono (origins_subset h₂.grows) h₁.single.2.2, h₂.available⟩
  | literal | constant => exact ⟨hd, fun _ h => h, rfl, by simp, by simp [Pipeline.Available]⟩
  | @param sc m n i q d d' hq _ _ hcapture =>
    have hrole := hv q (List.mem_of_getElem? hq)
    have hne : q.role ≠ .captured := by
      intro hc
      simp [hc, Role.onVertex] at hrole
    obtain rfl : d' = d := hcapture.trans (if_neg hne)
    have hi : i < a.pipeline.fn.params.length := (List.getElem?_eq_some_iff.1 hq).1
    exact ⟨hd, fun _ h => h, rfl,
      by simp [Role.stage_of_onVertex hrole], by simpa [Pipeline.Available] using hi⟩
  | @declared sc m n v name written o t s d d₁ _ hw _ hs ih =>
    obtain ⟨o', rfl⟩ := hsc
    have hx := ih (inner hw) hd
    obtain ⟨hexpr, hstage, -⟩ := hx.single
    obtain rfl := placed hs hstage
    have hx' : a.Keeps ((a.pipeline.scope.upTo o').upTo o) [written.init] d [t]
        (d₁.setRebuilt o .vertex ⟨v, name, written.ty, t.expr⟩) :=
        ⟨hx.issued, hx.grows, hx.exprs, hx.stages, hx.available⟩
    refine keeps_local hp rfl hw hx' fun s _ _ hs => ?_
    have hvar := Scope.find_declaration_var hw
    have haction : s.action = _ := hs
    exact ⟨by simp [Step.Makes, haction, hexpr, hvar], by simp [Step.exprs, haction]⟩
  | @assigned sc m n v name x o t s d d₁ _ hw _ hs ih =>
    obtain ⟨o', rfl⟩ := hsc
    have hx := ih (inner hw) hd
    obtain ⟨hexpr, hstage, -⟩ := hx.single
    obtain rfl := placed hs hstage
    refine keeps_local hp rfl hw hx fun s _ _ hs => ?_
    have haction : s.action = _ := hs
    exact ⟨by simp [Step.Makes, haction, hexpr], by simp [Step.exprs, haction]⟩
  | binary _ _ hplace pl pr ihl ihr =>
    have hl := ihl hsc hd
    have hr := ihr hsc hl.issued
    obtain ⟨hexpl, hstl, hreadyl⟩ := hl.single
    obtain ⟨hexpr, hstr, hreadyr⟩ := hr.single
    have hlater := hplace ▸ wait_vertex htarget (later_vertex hstl hstr)
    obtain ⟨rfl, rfl⟩ := promotes_keep pl hstl hlater
    obtain ⟨rfl, rfl⟩ := promotes_keep pr hstr hlater
    refine ⟨hr.issued, fun _ hy => hr.grows (hl.grows hy),
      by simp [hexpl, hexpr], by simpa using hlater, ?_⟩
    rw [List.forall_mem_singleton, Expr.all_binary]
    exact ⟨trivial, Pipeline.all_available_mono (origins_subset hr.grows) hreadyl, hreadyr⟩
  | unary _ ih | cast _ _ ih | member _ _ ih =>
    have h₁ := ih hsc hd
    obtain ⟨hexpr, hstage, havailable⟩ := h₁.single
    exact ⟨h₁.issued, h₁.grows,
      by simp [hexpr], by simpa using hstage, by simpa [Pipeline.Available] using havailable⟩
  | construct _ _ ha ih | initList _ ha ih =>
    have h₁ := ih hsc hd
    have hplace := placement_vertex h₁.stages
    obtain ⟨rfl, rfl⟩ := promotesAll_keep ha h₁.stages hplace
    exact ⟨h₁.issued, h₁.grows,
      by simp [h₁.exprs], by simpa using hplace, by simpa [Pipeline.Available] using h₁.available⟩
  | call _ _ hwait ha ih =>
    have h₁ := ih hsc hd
    have hplace := hwait ▸ wait_vertex htarget (placement_vertex h₁.stages)
    obtain ⟨rfl, rfl⟩ := promotesAll_keep ha h₁.stages hplace
    exact ⟨h₁.issued, h₁.grows,
      by simp [h₁.exprs], by simpa using hplace, by simpa [Pipeline.Available] using h₁.available⟩
  | sample _ _ ho => exact absurd ho (sampledStage_vertex hv)
  | method _ _ _ _ iho iha =>
    have h₁ := iho hsc hd
    have h₂ := iha hsc h₁.issued
    obtain ⟨hexpr, hstage, havailable⟩ := h₁.single
    refine ⟨h₂.issued, fun _ hy => h₂.grows (h₁.grows hy),
      by simp [hexpr, h₂.exprs], by simpa using hstage, ?_⟩
    rw [List.forall_mem_singleton, Expr.all_methodCall]
    exact ⟨trivial, Pipeline.all_available_mono (origins_subset h₂.grows) havailable, h₂.available⟩

end

end Aim

namespace Step

variable {s : Step} {st : StageStmt} {v : Var} {e : Expr}

theorem Makes.cases (h : s.Makes st) (hs : s.gives = some (v, e)) :
    (∃ d, s.declared? = some d.var ∧ st = .decl d ∧ v = .localVar d.var ∧ e = d.init) ∨
      ∃ n lhs, s.runs? = some n.id ∧ st = .expr (.binary n .assign lhs e) ∧
        ((∃ n' i, lhs = .param n' i ∧ v = .param i) ∨ ∃ n' i name, lhs = .localVar n' i name ∧
          v = .localVar i) := by
  rcases gives_cases hs with ⟨d, hd, rfl, rfl⟩ | ⟨n, lhs, hrun, hlhs⟩
  · cases st with
    | decl d' =>
      have hboth : d'.var = d.var ∧ d'.init = d.init := by simpa [Makes, hd] using h
      exact .inl ⟨d', by simp [declared?, hd, hboth.1], rfl, by rw [hboth.1], hboth.2.symm⟩
    | expr | bindingDecl | pushUniform => simp [Makes, hd] at h
  · cases st with
    | expr e' =>
      obtain rfl : e' = .binary n .assign lhs e := by simpa [Makes, hrun] using h
      exact .inr ⟨n, lhs, by simp [runs?, hrun, Expr.node], rfl, hlhs⟩
    | decl | bindingDecl | pushUniform => simp [Makes, hrun] at h

theorem Makes.target (h : s.Makes st) (hs : s.gives = some (v, e)) : st.target = some (.var v) := by
  rcases h.cases hs with ⟨d, -, rfl, rfl, -⟩
    | ⟨n, lhs, -, rfl, ⟨n', i, rfl, rfl⟩ | ⟨n', i, name, rfl, rfl⟩⟩
  · rfl
  · rfl
  · rfl

end Step

namespace Pipeline

variable {p : Pipeline} {d d' : Draft}

theorem StraightLine.makes_output (h : p.StraightLine) {i : Nat} {x : Expr} {o : NodeId}
    (hw : p.scope.find (.param i) = some ⟨.assignment x, o⟩) :
    ∃ s ∈ p.scope, s.id = o ∧ s.Makes (.expr x) ∧ s.exprs = [x] ∧
    ∃ e, s.gives = some (.param i, e) := by
  obtain ⟨s, hs, hl⟩ := Scope.find_mem hw
  obtain ⟨hstep, e, hg, haction⟩ := (h.straight s hs).lastWrite hl
  have hrun : s.action = .run x := haction
  exact ⟨s, hs, hstep.symm, by simp [Step.Makes, hrun], by simp [Step.exprs, hrun], e, hg⟩

/-- The last write to an output is appended, or a statement that writes the same output is there. -/
theorem Issued.addOnce {q : Queue} {i : Nat} {x : Expr} {o : NodeId} (hq : p.Issued q.tags)
    (h : p.StraightLine) (hw : p.scope.find (.param i) = some ⟨.assignment x, o⟩)
    (hr : x.All (p.Available (p.scope.upTo o) (origins q.tags))) :
    p.Issued (q.addOnce (.expr x)).tags ∧ q.tags ⊆ (q.addOnce (.expr x)).tags ∧
      ∃ t ∈ (q.addOnce (.expr x)).tags, t.1.target = some (.var (.param i)) := by
  obtain ⟨_, -, -, hmakes, -, e, hg⟩ := h.makes_output hw
  have htarget := hmakes.target hg
  rcases Queue.addOnce_cases q (.expr x) with ⟨heq, y, hy, -, hsame⟩ | heq
  · rw [heq]
    exact ⟨hq, fun _ ht => ht, _, List.mem_map.2 ⟨y, hy, rfl⟩,
      (StageStmt.target_same hsame).trans htarget⟩
  · have htags : (q.addOnce (.expr x)).tags = q.tags ++ [(.expr x, none)] := by
      simp [heq, Queue.tags]
    rw [htags]
    exact ⟨.output hq hw hr, by simp, (.expr x, none), by simp, htarget⟩

/-- A run issues every output that is written. -/
theorem Runs.issued {todo : List (Stage × Param × Nat)} (h : p.Runs todo d d') (hp : p.StraightLine)
    (hv : p.VertexOnly) (htodo : ∀ z ∈ todo, z ∈ p.allOutputs)
    (hd : p.Issued (d.queue .vertex).tags) :
    p.Issued (d'.queue .vertex).tags ∧ (d.queue .vertex).tags ⊆ (d'.queue .vertex).tags ∧
      ∀ s q i w, (s, q, i) ∈ todo → p.scope.find (.param i) = some w →
        ∃ t ∈ (d'.queue .vertex).tags, t.1.target = some (.var (.param i)) := by
  induction h with
  | nil => exact ⟨hd, fun _ h => h, by simp⟩
  | unwritten hw _ ih =>
    obtain ⟨hissued, hgrows, hmem⟩ := ih (fun z hz => htodo z (by simp [hz])) hd
    refine ⟨hissued, hgrows, fun s q i w hi hfind => ?_⟩
    rcases List.mem_cons.1 hi with heq | hi
    · cases heq
      cases hw.symm.trans hfind
    · exact hmem s q i w hi hfind
  | @written s q i rest x e o t d d₁ d₂ d' hw ht _ hpr _ ih =>
    obtain ⟨-, hq, -, hrole⟩ := mem_allOutputs (htodo (s, q, i) (by simp))
    obtain rfl : s = .vertex :=
      hrole.symm.trans (Role.stage_of_onVertex (hv q (List.mem_of_getElem? hq)))
    -- all values are on the vertex stage, so the output is queued as it is written
    have hkeeps := ht.keeps hp hv rfl ⟨o, rfl⟩ hd
    obtain ⟨rfl, rfl⟩ := Aim.promotes_keep hpr (hkeeps.stages t (by simp)) (.inr rfl)
    have hexpr : t.expr = x := by simpa using hkeeps.exprs
    have hadd := hkeeps.issued.addOnce hp hw (hkeeps.available x (by simp))
    have hqueue : (d₂.add .vertex (.expr t.expr) none).queue .vertex =
          (d₂.queue .vertex).addOnce (.expr x) := by
      rw [Draft.add_queue, if_pos rfl, Queue.add, hexpr]
    rw [← hqueue] at hadd
    obtain ⟨hissued, hgrows, hmem⟩ := ih (fun z hz => htodo z (by simp [hz])) hadd.1
    refine ⟨hissued, fun y hy => hgrows (hadd.2.1 (hkeeps.grows hy)), fun s' q' j w hj hfind => ?_⟩
    rcases List.mem_cons.1 hj with heq | hj
    · cases heq
      obtain ⟨t', ht', htt⟩ := hadd.2.2
      exact ⟨t', hgrows ht', htt⟩
    · exact hmem s' q' j w hj hfind

end Pipeline
end ShaderSplit
