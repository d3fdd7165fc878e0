import ShaderSplit.Proofs.Partition.Bounds

namespace ShaderSplit

namespace Scope

variable {P : LocalId → String → Prop} {sc : Scope}

/-- `P` tells the names that the declarations of a scope give, and no reference leaves it. -/
structure Labels (P : LocalId → String → Prop) (sc : Scope) : Prop where
  declared : ∀ s ∈ sc, ∀ decl, s.action = .declare decl → P decl.var decl.name
  referred : ∀ n v name, .localVar n v name ∈ sc.terms → ∀ name', P v name' → P v name

theorem find_declaration_mem {v : LocalId} {d : LocalDecl} {o : NodeId}
    (h : find (.localVar v) sc = some ⟨.declaration d, o⟩) : ∃ s ∈ sc, s.action = .declare d := by
  obtain ⟨s, hs, hw⟩ := find_mem h
  rcases (Step.lastWrite_cases hw).2 with ⟨d', hd', _, hsite⟩ | ⟨x, hsite, _⟩
  · cases hsite
    exact ⟨s, hs, hd'⟩
  · cases hsite

theorem Labels.find {body : Scope} (h : body.Labels P) (hsc : sc ⊆ body) {v : LocalId}
    {d : LocalDecl} {o : NodeId} (hw : Scope.find (.localVar v) sc = some ⟨.declaration d, o⟩) :
    P d.var d.name := by
  obtain ⟨s, hs, hd⟩ := find_declaration_mem hw
  exact h.declared s (hsc hs) d hd

end Scope

namespace Draft

variable {P : LocalId → String → Prop} {d d' : Draft} {s t : Stage} {sc body : Scope} {o : NodeId}
  {decl : LocalDecl}

/-- A draft calls its locals by names that `P` tells. -/
structure Labeled (P : LocalId → String → Prop) (d : Draft) : Prop where
  queued : ∀ s decl o, (.decl decl, o) ∈ (d.queue s).tags → P decl.var decl.name
  rebuilt : ∀ o s decl, d.rebuilt? o s = some decl → P decl.var decl.name

namespace Labeled

theorem agree (h : d.Labeled P) (hd : Agrees d d') : d'.Labeled P :=
  ⟨fun s decl o hq => h.queued s decl o (hd.queue s ▸ hq),
    fun o s decl hr => h.rebuilt o s decl (hd.rebuilt? o s ▸ hr)⟩

theorem tick (h : d.Labeled P) (k : Nat) : (d.tick k).Labeled P := h.agree ⟨rfl, rfl, rfl, rfl⟩

theorem add {st : StageStmt} {origin : Option NodeId} (h : d.Labeled P)
    (hst : ∀ decl, st = .decl decl → P decl.var decl.name) : (d.add s st origin).Labeled P := by
  refine ⟨fun x decl o hq => ?_, h.rebuilt⟩
  rcases mem_tags_add hq with hq | ⟨-, heq⟩
  · exact h.queued x decl o hq
  · exact hst decl (Prod.mk.inj heq).1.symm

theorem setRebuilt (h : d.Labeled P) (hdecl : P decl.var decl.name) :
    (d.setRebuilt o s decl).Labeled P := by
  refine ⟨h.queued, fun x t decl' hr => ?_⟩
  rw [setRebuilt_rebuilt?] at hr
  split at hr
  · cases hr
    exact hdecl
  · exact h.rebuilt x t decl' hr

theorem declare (h : d.Labeled P) (hdecl : P decl.var decl.name) :
    (d.declare o s decl).Labeled P := by
  refine (h.setRebuilt hdecl).add fun decl' heq => ?_
  cases heq
  exact hdecl

theorem redeclare (h : d.Labeled P) (hdecl : P decl.var decl.name) :
    (d.redeclare s t o decl).Labeled P := by
  have hdeclared : (d.declare o t decl).Labeled P := h.declare hdecl
  exact ⟨fun x decl' o' hq => hdeclared.queued x decl' o' (mem_tags_release hq), hdeclared.rebuilt⟩

theorem openField {r : InterfaceRecord} {value : Expr} {reaching : List NodeId} (h : d.Labeled P) :
    (d.openField s t r value reaching).Labeled P := by
  refine ⟨fun x decl o hq => ?_,
    fun o x decl hr => h.rebuilt o x decl ((setRecord_rebuilt? ..).symm.trans hr)⟩
  rcases mem_tags_openField.1 hq with hq | ⟨-, heq⟩
  · exact h.queued x decl o hq
  · cases heq

end Labeled

theorem Carries.labeled {value e : Expr} (h : Carries sc s t value d e d') (hd : d.Labeled P) :
    d'.Labeled P := by
  cases h with
  | found => exact hd.tick 1
  | opened _ _ he =>
    subst he
    exact hd.openField.tick 1

theorem Relays.labeled {value e : Expr} {hops : List Stage} (h : Relays sc s value hops d e d')
    (hd : d.Labeled P) : d'.Labeled P := by
  induction h with
  | done => exact hd
  | hop hc _ ih => exact ih (hc.labeled hd)

theorem Lifts.labeled {stages : StageSet} {es es' : List Expr} (h : Lifts stages s t sc es d es' d')
    (hbody : body.Labels P) (hsc : sc ⊆ body) (hd : d.Labeled P) : d'.Labeled P := by
  induction h with
  | nil | literal | constant => exact hd
  | cons _ _ ih ihs => exact ihs hsc (ih hsc hd)
  | construct _ ih | unary _ ih | cast _ ih => exact ih hsc hd
  | @redeclare sc n v name written decl o init d d₁ hw hdecl _ ih =>
    refine (ih (fun _ hx => hsc (Scope.upTo_subset hx)) hd).redeclare ?_
    change P decl.var decl.name
    rw [← hdecl]
    cases hr : d.rebuilt? o s with
    | none => exact hbody.find hsc hw
    | some rebuilt => exact hd.rebuilt o s rebuilt hr
  | transfer _ _ hr => exact hr.labeled hd

theorem Promotes.labeled {stages : StageSet} {pl wanted : Placement} {e e' : Expr}
    (h : Promotes stages sc pl wanted e d e' d') (hbody : body.Labels P) (hsc : sc ⊆ body)
    (hd : d.Labeled P) : d'.Labeled P := by
  cases h with
  | keep => exact hd
  | lift _ hl => exact hl.labeled hbody hsc hd

end Draft

namespace Aim

variable {P : LocalId → String → Prop} {a : Aim} {sc : Scope} {d d' : Draft}

theorem PromotesAll.labeled {wanted : Placement} {ts : List Traced} {es : List Expr}
    (h : a.PromotesAll sc wanted ts d es d') (hbody : a.pipeline.scope.Labels P)
    (hsc : sc ⊆ a.pipeline.scope) (hd : d.Labeled P) : d'.Labeled P := by
  induction h with
  | nil => exact hd
  | cons hp _ ih => exact ih (hp.labeled hbody hsc hd)

theorem Traces.labeled {m : Bool} {es : List Expr} {ts : List Traced} (h : a.Traces sc m es d ts d')
    (hbody : a.pipeline.scope.Labels P) (hsc : sc ⊆ a.pipeline.scope)
    (hes : ∀ e ∈ es, e ∈ a.pipeline.scope.terms) (hd : d.Labeled P) : d'.Labeled P := by
  have value {sc : Scope} {v : Var} {w : Write} (hsc : sc ⊆ a.pipeline.scope)
      (hw : sc.find v = some w) :
      ∀ e ∈ [w.site.value], e ∈ a.pipeline.scope.terms := by
    obtain ⟨s, hs, e, he, hx⟩ := Scope.mem_terms.1 (Scope.find_value_mem hw)
    simpa using Scope.mem_terms.2 ⟨s, hsc hs, e, he, hx⟩
  induction h with
  | nil | literal | constant => exact hd
  | cons _ _ ih ihs =>
    obtain ⟨he, hes⟩ := List.forall_mem_cons.1 hes
    exact ihs hsc hes (ih hsc (by simpa using he) hd)
  | param _ _ _ hd' =>
    subst hd'
    exact hd.agree (Draft.agrees_capture ..)
  | @declared sc m n v name written o t s d d₁ _ hw _ _ ih =>
    -- the declaration takes the name that the reference has
    have hname : P v written.name := Scope.find_declaration_var hw ▸ hbody.find hsc hw
    refine (ih (fun _ hx => hsc (Scope.upTo_subset hx)) (value hsc hw) hd).declare ?_
    exact hbody.referred n v name (hes _ List.mem_cons_self) written.name hname
  | assigned _ hw _ _ ih =>
    exact (ih (fun _ hx => hsc (Scope.upTo_subset hx)) (value hsc hw) hd).add nofun
  | binary _ _ _ pl pr ihl ihr =>
    have hd₁ := ihl hsc (Scope.parts_terms hes (by simp [Expr.self_mem_subterms])) hd
    have hd₂ := ihr hsc (Scope.parts_terms hes (by simp [Expr.self_mem_subterms])) hd₁
    exact pr.labeled hbody hsc (pl.labeled hbody hsc hd₂)
  | unary _ ih | cast _ _ ih | member _ _ ih =>
    exact ih hsc (Scope.parts_terms hes (by simp [Expr.self_mem_subterms])) hd
  | construct _ _ hp ih | initList _ hp ih | call _ _ _ hp ih =>
    exact hp.labeled hbody hsc
      (ih hsc (Scope.parts_terms hes fun e he => by simp [Expr.mem_subtermsOf he]) hd)
  | sample _ _ _ _ hp hk ih =>
    have hd₁ := ih hsc (Scope.parts_terms hes (by simp [Expr.self_mem_subterms])) hd
    exact ((hp.labeled hbody hsc hd₁).tick 1).agree (Draft.sample_agrees hk).1
  | method _ _ _ _ ih ihs =>
    have hd₁ := ih hsc (Scope.parts_terms hes (by simp [Expr.self_mem_subterms])) hd
    exact ihs hsc (Scope.parts_terms hes fun e he => by simp [Expr.mem_subtermsOf he]) hd₁

end Aim

namespace Pipeline

variable {P : LocalId → String → Prop} {p : Pipeline}

theorem Runs.labeled {todo : List (Stage × Param × Nat)} {d d' : Draft} (h : Runs p todo d d')
    (hbody : p.scope.Labels P) (hd : d.Labeled P) : d'.Labeled P := by
  induction h with
  | nil => exact hd
  | unwritten _ _ ih => exact ih (hd.agree ⟨rfl, rfl, rfl, rfl⟩)
  | @written s q i rest x e o t d d₁ d₂ d' hw ht _ hp _ ih =>
    have hx : x ∈ p.scope.terms := Scope.find_value_mem hw
    have hsc : p.scope.upTo o ⊆ p.scope := fun _ => Scope.upTo_subset
    have hd₁ := ht.labeled hbody hsc (by simpa using hx) hd
    exact ih ((hp.labeled hbody hsc hd₁).add nofun)

/-- Whatever a stage of a split declares, it calls by a name that the body gives to
the same local. -/
theorem split_labeled {prog : Program} {notices : List String} (h : p.split = (.ok prog, notices))
    (hbody : p.scope.Labels P) {s : Stage} {decl : LocalDecl}
    (hdecl : .decl decl ∈ prog.blocks.get s) : P decl.var decl.name := by
  obtain ⟨d, hrun, rfl⟩ := split_runs h
  have hstart : (Draft.start p).Labeled P := by
    refine ⟨fun s decl o hq => ?_, nofun⟩
    have hqueue : (Draft.start p).queue s = [] := PerStage.get_const [] s
    rw [hqueue] at hq
    cases hq
  have hd : d.Labeled P := hrun.labeled hbody hstart
  rw [Draft.finish_block] at hdecl
  obtain ⟨o, hmem⟩ := Draft.queued_of_block hdecl (by simp [StageStmt.exprs])
  exact hd.queued s decl o hmem

end Pipeline
end ShaderSplit
