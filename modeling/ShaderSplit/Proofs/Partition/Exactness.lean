import ShaderSplit.Proofs.Partition.Recursion

namespace ShaderSplit

namespace Draft

variable {sc : Scope} {s t : Stage} {d d' : Draft} {stages : StageSet}

theorem Carries.run {value e : Expr} (h : Carries sc s t value d e d') :
    carry sc s t value d = .ok e d' := by
  unfold carry
  simp only [Drafting.bind_ok, Drafting.get_ok]
  refine ⟨d, d, ⟨rfl, rfl⟩, ?_⟩
  cases h with
  | found hr hi =>
    rw [hr]
    simp only [InterfaceRecord.intern, hi, Drafting.bind_ok, Drafting.modify_ok]
    exact ⟨⟨⟩, d, setRecord_self hr, rfl⟩
  | opened hr hi he =>
    subst he
    rw [hr]
    simp only [InterfaceRecord.intern, hi, Drafting.bind_ok, Drafting.modify_ok, if_true]
    exact ⟨⟨⟩, _, rfl, ⟨⟩, _, rfl, rfl⟩

theorem Relays.run {value e : Expr} {hops : List Stage} (h : Relays sc s value hops d e d') :
    relay sc s value hops d = .ok e d' := by
  induction h with
  | done => rfl
  | hop hc _ ih => exact Drafting.bind_ok.2 ⟨_, _, hc.run, ih⟩

theorem Route.run {value e : Expr} {hops : List Stage} (hr : Route stages s t hops)
    (h : Relays sc s value hops d e d') :
    transfer stages sc s t value d = .ok e d' := by
  unfold transfer
  rcases hr with ⟨rfl, rfl⟩ | ⟨hs, rfl, hlast⟩
  · cases h with
    | hop hc hd =>
      cases hd
      rw [if_pos rfl]
      exact hc.run
  · rw [if_neg hs, if_pos hlast]
    exact h.run

theorem lift_of_all {e e' : Expr}
    (h : liftAllIn stages s t sc (fun x _ => lift stages s t x) [e] d = .ok [e'] d') :
    lift stages s t sc e d = .ok e' d' := by
  rw [lift_eq]
  simp only [liftAllIn, Drafting.bind_ok, Drafting.pure_ok] at h
  obtain ⟨x, d₁, hx, _, _, ⟨rfl, rfl⟩, he, rfl⟩ := h
  cases he
  exact hx

theorem Lifts.run {es es' : List Expr} (h : Lifts stages s t sc es d es' d') :
    liftAllIn stages s t sc (fun x _ => lift stages s t x) es d = .ok es' d' := by
  -- the relation lifts lists only, and a single expression as a list of one
  have one {sc : Scope} {e e' : Expr} {d d' : Draft}
      (h : liftIn stages s t sc (fun x _ => lift stages s t x) e d = .ok e' d') :
      liftAllIn stages s t sc (fun x _ => lift stages s t x) [e] d = .ok [e'] d' := by
    simp only [liftAllIn, Drafting.bind_ok, Drafting.pure_ok]
    exact ⟨e', d', h, [], d', ⟨rfl, rfl⟩, rfl, rfl⟩
  induction h with
  | nil =>
    rw [liftAllIn]
    rfl
  | @cons sc e e' es es' d d₁ d₂ _ _ ih ihs =>
    rw [liftAllIn]
    simp only [Drafting.bind_ok, Drafting.pure_ok]
    refine ⟨e', d₁, ?_, es', d₂, ihs, rfl, rfl⟩
    rw [← lift_eq]
    exact lift_of_all ih
  | literal | constant =>
    apply one
    rw [liftIn]
    rfl
  | @construct sc n args args' d d' _ ih =>
    apply one
    rw [liftIn]
    exact Drafting.bind_ok.2 ⟨args', d', ih, rfl⟩
  | @unary sc n op e e' d d' _ ih =>
    apply one
    rw [liftIn, ← lift_eq]
    exact Drafting.bind_ok.2 ⟨e', d', lift_of_all ih, rfl⟩
  | @cast sc n e e' d d' _ ih =>
    apply one
    rw [liftIn, ← lift_eq]
    exact Drafting.bind_ok.2 ⟨e', d', lift_of_all ih, rfl⟩
  | @redeclare sc n v name written decl o init d d₁ hw hd _ ih =>
    apply one
    rw [liftIn_declared hw, Drafting.expect_bind]
    subst hd
    exact Drafting.bind_ok.2 ⟨d, d, rfl, Drafting.bind_ok.2 ⟨init, d₁, lift_of_all ih, rfl⟩⟩
  | @transfer sc e e' hops d d' hc hr hd =>
    apply one
    rw [liftIn_crosses hc]
    exact hr.run hd

theorem Promotes.run {at_ wanted : Placement} {e e' : Expr}
    (h : Promotes stages sc at_ wanted e d e' d') :
    promote stages sc at_ wanted e d = .ok e' d' := by
  unfold promote promoteM
  cases h with
  | keep h =>
    rcases h with rfl | rfl | rfl
    · rfl
    · cases at_ <;> rfl
    · cases at_ with
      | none => rfl
      | some x => simp [Drafting.pure_ok]
  | @lift x y _ _ _ _ hxy hl =>
    have hne : x ≠ y := by
      rintro rfl
      exact lt_irrefl _ hxy
    have hnlt : ¬ y < x := not_lt.2 (le_of_lt hxy)
    dsimp only
    rw [if_neg hne, if_neg hnlt]
    exact lift_of_all hl.run

end Draft

namespace Aim

variable {a : Aim} {sc : Scope} {d d' : Draft}

theorem PromotesAll.run {wanted : Placement} {ts : List Traced} {es : List Expr}
    (h : a.PromotesAll sc wanted ts d es d') :
    (a.promoteAll sc wanted ts : Drafting (List Expr)) d = .ok es d' := by
  induction h with
  | nil => rfl
  | cons h _ ih =>
    simp only [promoteAll, Drafting.bind_ok, Drafting.pure_ok]
    exact ⟨_, _, h.run, _, _, ih, rfl, rfl⟩

theorem Admits.run {α : Type} {m : Bool} {n : Node} (h : a.Admits m n) (k : Drafting α) :
    (if m = true then k else a.checkValue n >>= fun _ => k) = k := by
  by_cases hm : m = true
  · exact if_pos hm
  · have hv : a.checkValue n = pure ⟨⟩ := if_pos (h.resolve_left hm)
    rw [if_neg hm, hv]
    rfl

/-- The result for one expression, with its flag, or for several. -/
def Returns (a : Aim) (sc : Scope) (m : Bool) (es : List Expr) (d : Draft) (ts : List Traced)
    (d' : Draft) : Prop :=
  (∀ e t, es = [e] → ts = [t] → a.visitIn sc (fun s _ => a.visit s) m e d = .ok t d') ∧
    (m = false → a.visitAllIn sc (fun s _ => a.visit s) es d = .ok ts d')

theorem returns_one {m : Bool} {e : Expr} {t : Traced} :
    a.Returns sc m [e] d [t] d' ↔ a.visitIn sc (fun s _ => a.visit s) m e d = .ok t d' := by
  refine ⟨fun h => h.1 e t rfl rfl, fun h => ⟨?_, ?_⟩⟩
  · rintro _ _ ⟨⟩ ⟨⟩
    exact h
  · rintro rfl
    simp only [visitAllIn, Drafting.bind_ok, Drafting.pure_ok]
    exact ⟨t, d', h, [], d', ⟨rfl, rfl⟩, rfl, rfl⟩

theorem Traces.run {m : Bool} {es : List Expr} {ts : List Traced} (h : a.Traces sc m es d ts d') :
    a.Returns sc m es d ts d' := by
  -- operands are visited one by one and arguments as a list, so the induction speaks of both
  induction h with
  | nil =>
    refine ⟨fun e t he => absurd he (by simp), fun _ => ?_⟩
    rw [visitAllIn]
    rfl
  | @cons sc e es t ts d d₁ d₂ _ hs ih ihs =>
    have hcons : a.visitAllIn sc (fun s _ => a.visit s) (e :: es) d = .ok (t :: ts) d₂ := by
      simp only [visitAllIn, Drafting.bind_ok, Drafting.pure_ok]
      exact ⟨t, d₁, returns_one.1 ih, ts, d₂, ihs.2 rfl, rfl, rfl⟩
    refine ⟨fun x u hx hu => ?_, fun _ => hcons⟩
    obtain ⟨rfl, rfl⟩ := List.cons.inj hx
    obtain ⟨rfl, rfl⟩ := List.cons.inj hu
    cases hs
    exact returns_one.1 ih
  | literal | constant =>
    rw [returns_one, visitIn]
    rfl
  | @param sc m n i q d d' hq hn hf hd =>
    rw [returns_one, visitIn, visitParam, hq]
    dsimp only
    rw [hn.run]
    subst hd
    by_cases hr : q.role = .captured
    · rw [if_pos hr, if_pos hr, hf hr]
      rfl
    · rw [if_neg hr, if_neg hr]
      rfl
  | @declared sc m n v name written o t s d d₁ hn hw _ hs ih =>
    rw [returns_one, visitIn_localVar, hn.run, visitLocal_declared hw]
    subst hs
    simp only [Drafting.bind_ok, Drafting.modify_ok, Drafting.pure_ok]
    refine ⟨t, d₁, ?_, ⟨⟩, _, rfl, rfl, rfl⟩
    rw [visit_eq]
    exact returns_one.1 ih
  | @assigned sc m n v name x o t s d d₁ hn hw _ hs ih =>
    rw [returns_one, visitIn_localVar, hn.run, visitLocal_assigned hw]
    subst hs
    simp only [Drafting.bind_ok, Drafting.modify_ok, Drafting.pure_ok]
    refine ⟨t, d₁, ?_, ⟨⟩, _, rfl, rfl, rfl⟩
    rw [visit_eq]
    exact returns_one.1 ih
  | binary _ _ hp pl pr ihl ihr =>
    subst hp
    rw [returns_one, visitIn]
    simp only [Drafting.bind_ok, Drafting.pure_ok]
    exact ⟨_, _, returns_one.1 ihl, _, _, returns_one.1 ihr, _, _, pl.run, _, _, pr.run, rfl, rfl⟩
  | unary _ ih =>
    rw [returns_one, visitIn]
    simp only [Drafting.bind_ok, Drafting.pure_ok]
    exact ⟨_, _, returns_one.1 ih, rfl, rfl⟩
  | cast hn _ ih =>
    rw [returns_one, visitIn, if_neg (by grind)]
    simp only [Drafting.bind_ok, Drafting.pure_ok]
    exact ⟨_, _, returns_one.1 ih, rfl, rfl⟩
  | construct hn _ hp ih =>
    rw [returns_one, visitIn, if_neg (by simp [hn])]
    simp only [Drafting.bind_ok, Drafting.pure_ok]
    exact ⟨_, _, ih.2 rfl, _, _, hp.run, rfl, rfl⟩
  | initList _ hp ih =>
    rw [returns_one, visitIn]
    simp only [Drafting.bind_ok, Drafting.pure_ok]
    exact ⟨_, _, ih.2 rfl, _, _, hp.run, rfl, rfl⟩
  | call hf _ hp ha ih =>
    subst hp
    rw [returns_one, visitIn, hf]
    simp only [Drafting.bind_ok, Drafting.pure_ok]
    exact ⟨_, _, ih.2 rfl, _, _, ha.run, rfl, rfl⟩
  | sample hm hs ho _ hp hk ih =>
    rw [returns_one, visitIn, hm]
    simp only [hs, if_true, ho, Drafting.bind_ok, Drafting.pure_ok]
    exact ⟨_, _, returns_one.1 ih, _, _, hp.run, _, _, rfl, _, _, hk, rfl, rfl⟩
  | method hm hs _ _ ih ihs =>
    rw [returns_one, visitIn, hm]
    simp only [hs, Bool.false_eq_true, if_false, Drafting.bind_ok, Drafting.pure_ok]
    exact ⟨_, _, returns_one.1 ih, _, _, ihs.2 rfl, rfl, rfl⟩
  | member hn _ ih =>
    rw [returns_one, visitIn, Drafting.liftM_eq, hn.run]
    exact Drafting.bind_ok.2 ⟨_, _, returns_one.1 ih, rfl⟩

/-- A visit succeeds just where there is a trace. -/
theorem visit_iff {e : Expr} {t : Traced} :
    a.visit sc e d = .ok t d' ↔ a.Traces sc false [e] d [t] d' := by
  refine ⟨visitBelow_ok _, fun h => ?_⟩
  rw [visit_eq]
  exact returns_one.1 h.run

end Aim
end ShaderSplit
