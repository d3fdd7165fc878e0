import ShaderSplit.Proofs.Partition.Interpolation
import ShaderSplit.Proofs.Partition.Lockstep
import ShaderSplit.Proofs.Shading.Samplers

namespace ShaderSplit

namespace Draft

variable {stages : StageSet} {sc : Scope} {t : Stage}

theorem lifts_all {s : Stage} {es : List Expr} {P : Draft → Prop}
    (hP : ∀ d d', P d → d.Moves d' → P d')
    (h : ∀ e ∈ es, ∀ d, P d → ∃ e' d', Lifts stages s t sc [e] d [e'] d') {d : Draft} (hd : P d) :
    ∃ es' d', Lifts stages s t sc es d es' d' := by
  induction es generalizing d with
  | nil => exact ⟨[], d, .nil⟩
  | cons e es ih =>
    obtain ⟨e', d₁, he⟩ := h e (by simp) d hd
    obtain ⟨es', d₂, hes⟩ := ih (fun x hx => h x (by simp [hx])) (hP d d₁ hd he.moves)
    exact ⟨e' :: es', d₂, .cons he hes⟩

/-- A value of the host reaches any stage that has a record from there. -/
theorem lifts_host {sc : Scope} {e : Expr} {d : Draft} (hd : (d.record? .host t).isSome = true) :
    ∃ e' d', Lifts stages .host t sc [e] d [e'] d' := by
  have carried {e : Expr} {d : Draft} (hd : (d.record? .host t).isSome = true)
      (hc : e.crosses sc = true) :
      ∃ e' d', Lifts stages .host t sc [e] d [e'] d' := by
    obtain ⟨r, hr⟩ := Option.isSome_iff_exists.1 hd
    obtain ⟨e', d', h⟩ := carry_some hr sc e
    exact ⟨e', d', .transfer hc (.inl ⟨rfl, rfl⟩) (.hop (carry_ok h) .done)⟩
  induction e using Expr.ind generalizing d with
  | literal n v => exact ⟨_, d, .literal⟩
  | constant n v => exact ⟨_, d, .constant⟩
  | construct n es ih =>
    obtain ⟨es', d', h⟩ := lifts_all (P := fun d => (d.record? .host t).isSome = true)
      (fun d d' hd hm => hm.records _ _ ▸ hd) (fun e he d hd => ih e he hd) hd
    exact ⟨_, d', .construct h⟩
  | unary n op e ih =>
    obtain ⟨e', d', h⟩ := ih hd
    exact ⟨_, d', .unary h⟩
  | cast n e ih =>
    obtain ⟨e', d', h⟩ := ih hd
    exact ⟨_, d', .cast h⟩
  | localVar n v name =>
    by_cases hw : ∃ written o, sc.find (.localVar v) = some ⟨.declaration written, o⟩
    · obtain ⟨written, o, hw⟩ := hw
      have hlt := Scope.length_before_lt hw
      -- the initializer is lifted within the scope of the declaration, which is shorter
      obtain ⟨init, d', h⟩ :
          ∃ init d', Lifts stages .host t (sc.upTo o) [((d.rebuilt? o .host).getD written).init] d
          [init] d' := lifts_host hd
      exact ⟨_, _, .redeclare hw rfl h⟩
    · exact carried hd (Expr.crosses_localVar.2 hw)
  | _ => exact carried hd rfl
termination_by sc.length

theorem promotes_vertex {q wanted : Placement} {e : Expr} {d : Draft}
    (hd : (d.record? .host .vertex).isSome = true) (hw : wanted.Upto .vertex)
    (hq : ∀ s, wanted = some s → q.Upto s) :
    ∃ e' d', Promotes stages sc q wanted e d e' d' := by
  cases q with
  | none => exact ⟨e, d, .keep (.inl rfl)⟩
  | some s =>
    cases wanted with
    | none => exact ⟨e, d, .keep (.inr (.inl rfl))⟩
    | some u =>
      have hsu : s ≤ u := Placement.upto_some.1 (hq u rfl)
      by_cases heq : s = u
      · exact ⟨e, d, .keep (.inr (.inr (congrArg some heq)))⟩
      · have hlt : s < u := lt_of_le_of_ne hsu heq
        have hu : u ≤ .vertex := Placement.upto_some.1 hw
        -- between the host and the vertex stage there is nothing
        obtain ⟨rfl, rfl⟩ : s = .host ∧ u = .vertex := by
          revert hlt hu
          cases s <;> cases u <;> decide
        obtain ⟨e', d', h⟩ := lifts_host hd
        exact ⟨e', d', .lift hlt h⟩

theorem Moves.isSome {d d' : Draft} {s : Stage} (h : d.Moves d')
    (hd : (d.record? s t).isSome = true) : (d'.record? s t).isSome = true :=
  h.records s t ▸ hd

/-- What could be sampled once can be sampled in a draft with the same textures and no
samplers yet. -/
theorem sample_first {s : Stage} {i j : NodeId} {param k : Nat} {sampler : Expr} {d d' e : Draft}
    (h : Draft.sample s i param sampler d = .ok k d')
    (htextures : d.textures.map (·.param) = e.textures.map (·.param))
    (hsamplers : e.samplers = []) : ∃ k' e', Draft.sample s j param sampler e = .ok k' e' := by
  obtain ⟨config, x, samplers, hconfig, hx, -, -⟩ := sample_ok h
  have hfind (d : Draft) :
      d.textures.findIdx? (·.param == param) = (d.textures.map (·.param)).findIdx?
        (· == param) := by
    rw [List.findIdx?_map]
    rfl
  rw [hfind, htextures, ← hfind] at hx
  unfold Draft.sample
  rw [hconfig, hsamplers]
  dsimp only
  rw [hx]
  exact ⟨_, _, rfl⟩

end Draft

/-- No parameter of a stage after the vertex stage is read here, and nothing is sampled. -/
def Pipeline.Near (p : Pipeline) : Expr → Prop
  | .param _ i => ∀ q ∈ p.fn.params[i]?, q.role.stage ≤ .vertex
  | .methodCall _ m _ _ => ∀ f ∈ p.catalog.method? m, f.isSample = false
  | _ => True

instance (p : Pipeline) : DecidablePred p.Near
  | .param _ i => inferInstanceAs (Decidable (∀ q ∈ p.fn.params[i]?, q.role.stage ≤ .vertex))
  | .methodCall _ m _ _ =>
    inferInstanceAs (Decidable (∀ f ∈ p.catalog.method? m, f.isSample = false))
  | .literal .. | .constant .. | .localVar .. | .binary .. | .unary .. | .cast .. | .construct ..
  | .initList .. | .call ..
  | .member .. | .interface .. | .unsupported .. => isTrue trivial

namespace Aim

/-- With `T` for a target nothing here would be elsewhere: nothing has to wait for `T`, and no
local is constant. -/
structure Steady (a : Aim) (T : Stage) (s : Spot) : Prop extends a.Calm T s where
  given : ∀ n v name w, s.expr = .localVar n v name → s.scope.find (.localVar v) = some w →
    ∃ x, a.TracedTo ⟨s.scope.before w, w.site.value⟩ (some x)

/-- A result for the vertex stage and one for `T`: the second is no later, and the
same if `T` is. -/
structure Echoes (T : Stage) (t u : Traced) : Prop where
  upto : u.stage.Upto .vertex
  same : .vertex < T → u.stage = t.stage

variable {p : Pipeline} {T : Stage} {sc : Scope} {m : Bool} {d d' : Draft}

section
variable {ts us : List Traced}

theorem Echoes.upto_all (h : List.Forall₂ (Echoes T) ts us) : ∀ u ∈ us, u.stage.Upto .vertex := by
  induction h with
  | nil => simp
  | cons h _ ih => simpa using ⟨h.upto, ih⟩

theorem Echoes.same_all (h : List.Forall₂ (Echoes T) ts us) (hT : .vertex < T) :
    us.map (·.stage) = ts.map (·.stage) := by
  induction h with
  | nil => rfl
  | cons h _ ih => rw [List.map_cons, List.map_cons, h.same hT, ih]

theorem Echoes.placement (h : List.Forall₂ (Echoes T) ts us) : (placement us).Upto .vertex :=
  placement_upto.2 (upto_all h)

end

theorem interpolated_vertex {q : Placement} (hT : T ≤ .vertex) : interpolated ⟨p, T⟩ q = false := by
  rw [Bool.eq_false_iff, ne_eq, interpolated_iff]
  rintro ⟨s, -, hs, hlt⟩
  have hv : s < .vertex := lt_of_lt_of_le hlt hT
  revert hs hv
  cases s <;> decide

theorem waits_vertex {op : BinaryOp} {q r : Placement} (hT : T ≤ .vertex) :
    waits ⟨p, T⟩ op q r = false := by
  cases op <;> simp [waits, interpolated_vertex hT]

theorem callWaits_vertex {f : BuiltinFunction} {ts : List Traced} (hT : T ≤ .vertex) :
    callWaits ⟨p, T⟩ f ts = false := by
  unfold callWaits
  split <;> simp [interpolated_vertex hT]

section
variable {a : Aim} {x : Expr} {t : Traced}

theorem TracedTo.stage {q : Placement} (h : a.TracedTo ⟨sc, x⟩ q)
    (ht : a.Traces sc false [x] d [t] d') : t.stage = q :=
  h.2 d t d' (visit_iff.2 ht)

theorem Even.interpolated {y : Expr} {u : Traced} {e e' : Draft} (h : a.Even T sc x y)
    (hx : a.Traces sc false [x] d [t] d') (hy : a.Traces sc false [y] e [u] e') :
    interpolated ⟨p, T⟩ t.stage = interpolated ⟨p, T⟩ u.stage := by
  obtain ⟨q, r, hq, hr, hiff⟩ := h
  rw [hq.stage hx, hr.stage hy, Bool.eq_iff_iff, interpolated_iff, interpolated_iff]
  exact hiff

end

theorem Calm.waits {n : Node} {op : BinaryOp} {lhs rhs : Expr} {l r : Traced} {d₁ d₂ d₃ : Draft}
    (h : Calm ⟨p, .vertex⟩ T ⟨sc, .binary n op lhs rhs⟩)
    (hl : Traces ⟨p, .vertex⟩ sc false [lhs] d [l] d₁)
    (hr : Traces ⟨p, .vertex⟩ sc false [rhs] d₂ [r] d₃) :
    waits ⟨p, T⟩ op l.stage r.stage = false := by
  have division (hop : op = .div ∨ op = .divAssign) : interpolated ⟨p, T⟩ r.stage = false := by
    obtain ⟨q, hq, hn⟩ := h.division n op lhs rhs rfl hop
    rw [hq.stage hr, Bool.eq_false_iff, ne_eq, interpolated_iff]
    exact hn
  cases op with
  | add | sub | mul | assign | addAssign | subAssign | mulAssign => rfl
  | div | divAssign => exact division (by simp)
  | _ => simp [Aim.waits, (h.operator n _ lhs rhs rfl (by simp)).interpolated hl hr]

theorem Calm.callWaits {n : Node} {func : DeclId} {f : BuiltinFunction} {args : List Expr}
    {ts : List Traced} (h : Calm ⟨p, .vertex⟩ T ⟨sc, .call n func args⟩)
    (hf : p.catalog.function? func = some f) (ht : Traces ⟨p, .vertex⟩ sc false args d ts d') :
    callWaits ⟨p, T⟩ f ts = false := by
  unfold Aim.callWaits
  split
  · rename_i t u
    obtain ⟨x, y, rfl⟩ := List.length_eq_two.1 ht.length.symm
    cases ht with
    | cons hx hy =>
      cases hd : f.distributed with
      | true => simp
      | false => simp [(h.call n func f x y rfl hf hd).interpolated hx hy]
  · rfl

/-- Where the trace of a value comes to nothing late, and either the target is not late or
all is steady. -/
def Retraced (p : Pipeline) (T : Stage) (s : Spot) : Prop :=
  ∀ s', Spot.Reaches p.catalog s s' → p.Near s'.expr ∧ (T ≤ .vertex ∨ Steady ⟨p, .vertex⟩ T s')

theorem Retraced.self {s : Spot} (h : Retraced p T s) :
    p.Near s.expr ∧ (T ≤ .vertex ∨ Steady ⟨p, .vertex⟩ T s) :=
  h s .refl

theorem Retraced.leads {s s' : Spot} (h : Retraced p T s) (hs : Spot.Leads p.catalog s s') :
    Retraced p T s' :=
  fun x hx => h x (.head hs hx)

theorem Retraced.part {e x : Expr} (h : Retraced p T ⟨sc, e⟩) (hx : x ∈ e.traced p.catalog) :
    Retraced p T ⟨sc, x⟩ :=
  h.leads (.part hx)

/-- From any draft with a record from the host to the vertex stage the values can be traced for `T`,
without a sample, to results that echo those for the vertex stage. -/
def Again (p : Pipeline) (T : Stage) (sc : Scope) (m : Bool) (es : List Expr) (ts : List Traced) :
    Prop :=
  ∀ d : Draft, (d.record? .host .vertex).isSome = true →
    ∃ us d', Traces ⟨p, T⟩ sc m es d us d' ∧ d.Mute d' ∧ List.Forall₂ (Echoes T) ts us

theorem again_one {e : Expr} {t : Traced} : Again p T sc m [e] [t] ↔
    ∀ d : Draft, (d.record? .host .vertex).isSome = true →
      ∃ u d', Traces ⟨p, T⟩ sc m [e] d [u] d' ∧ d.Mute d' ∧ Echoes T t u := by
  refine forall₂_congr fun d _ => ⟨?_, ?_⟩
  · rintro ⟨us, d', h, hm, hu⟩
    cases hu with
    | cons hu hnil =>
      cases hnil
      exact ⟨_, d', h, hm, hu⟩
  · rintro ⟨u, d', h, hm, hu⟩
    exact ⟨[u], d', h, hm, .cons hu .nil⟩

theorem promotesAll_vertex {wanted : Placement} {us : List Traced}
    (hd : (d.record? .host .vertex).isSome = true) (hw : wanted.Upto .vertex)
    (hus : ∀ s, wanted = some s → ∀ u ∈ us, u.stage.Upto s) :
    ∃ es d', PromotesAll ⟨p, T⟩ sc wanted us d es d' := by
  induction us generalizing d with
  | nil => exact ⟨[], d, .nil⟩
  | cons u us ih =>
    obtain ⟨e, d₁, he⟩ : ∃ e d₁, Draft.Promotes p.stages sc u.stage wanted u.expr d e d₁ :=
      Draft.promotes_vertex hd hw fun s hs => hus s hs u (by simp)
    obtain ⟨es, d₂, hes⟩ := ih (he.moves.isSome hd) fun s hs x hx => hus s hs x (by simp [hx])
    exact ⟨e :: es, d₂, .cons he hes⟩

theorem Again.args {es : List Expr} {ts : List Traced} (h : Again p T sc false es ts)
    (hd : (d.record? .host .vertex).isSome = true) :
    ∃ us d₁ es' d₂, Traces ⟨p, T⟩ sc false es d us d₁ ∧
    PromotesAll ⟨p, T⟩ sc (placement us) us d₁ es' d₂ ∧
      d.Mute d₂ ∧ List.Forall₂ (Echoes T) ts us := by
  obtain ⟨us, d₁, hus, hm, he⟩ := h d hd
  obtain ⟨es', d₂, hp⟩ := promotesAll_vertex (hus.moves.isSome hd) (Echoes.placement he) fun s hs =>
    placement_upto.1 (hs ▸ Placement.upto_some.2 (le_refl s))
  exact ⟨us, d₁, es', d₂, hus, hp, hm.trans hp.mute, he⟩

theorem Again.around {b : Bool} {e y : Expr} {t : Traced} {f : Expr → Expr}
    (h : Again p T sc b [e] [t])
    (hf : ∀ {d d' u}, Traces ⟨p, T⟩ sc b [e] d [u] d' →
      Traces ⟨p, T⟩ sc m [y] d [⟨f u.expr, u.stage⟩] d') :
    Again p T sc m [y] [⟨f t.expr, t.stage⟩] := by
  refine again_one.2 fun d hd => ?_
  obtain ⟨u, d₁, hu, hm, he⟩ := again_one.1 h d hd
  exact ⟨_, d₁, hf hu, hm, he.upto, he.same⟩

theorem Again.together {es : List Expr} {y y' : Expr} {ts : List Traced} {f : List Expr → Expr}
    (h : Again p T sc false es ts)
    (hf : ∀ {d d₁ d₂ us es'}, Traces ⟨p, T⟩ sc false es d us d₁ →
      PromotesAll ⟨p, T⟩ sc (placement us) us d₁ es' d₂ →
      Traces ⟨p, T⟩ sc m [y] d [⟨f es', placement us⟩] d₂) :
    Again p T sc m [y] [⟨y', placement ts⟩] := by
  refine again_one.2 fun d hd => ?_
  obtain ⟨us, d₁, es', d₂, hus, hp, hm, he⟩ := h.args hd
  exact ⟨_, d₂, hf hus hp, hm, Echoes.placement he,
    fun hT => placement_congr (Echoes.same_all he hT)⟩

theorem Again.operands {lhs rhs : Expr} {l r : Traced} (hl : Again p T sc false [lhs] [l])
    (hr : Again p T sc false [rhs] [r]) (hd : (d.record? .host .vertex).isSome = true) :
    ∃ l' d₁ r' d₂ lhs' d₃ rhs' d₄, Traces ⟨p, T⟩ sc false [lhs] d [l'] d₁ ∧
    Traces ⟨p, T⟩ sc false [rhs] d₁ [r'] d₂ ∧
      Draft.Promotes p.stages sc l'.stage (l'.stage.later r'.stage) l'.expr d₂ lhs' d₃ ∧
      Draft.Promotes p.stages sc r'.stage (l'.stage.later r'.stage) r'.expr d₃ rhs' d₄ ∧
      d.Mute d₄ ∧ Echoes T l l' ∧ Echoes T r r' := by
  obtain ⟨l', d₁, hl', ml, el⟩ := again_one.1 hl d hd
  have hd₁ := hl'.moves.isSome hd
  obtain ⟨r', d₂, hr', mr, er⟩ := again_one.1 hr d₁ hd₁
  have hd₂ := hr'.moves.isSome hd₁
  have hupto : (l'.stage.later r'.stage).Upto .vertex := Placement.later_upto.2 ⟨el.upto, er.upto⟩
  have hboth (s : Stage) (hs : l'.stage.later r'.stage = some s) :
      l'.stage.Upto s ∧ r'.stage.Upto s :=
    Placement.later_upto.1 (hs ▸ Placement.upto_some.2 (le_refl s))
  obtain ⟨lhs', d₃, pl⟩ :
      ∃ x e, Draft.Promotes p.stages sc l'.stage (l'.stage.later r'.stage) l'.expr d₂ x e :=
    Draft.promotes_vertex hd₂ hupto fun s hs => (hboth s hs).1
  obtain ⟨rhs', d₄, pr⟩ :
      ∃ x e, Draft.Promotes p.stages sc r'.stage (l'.stage.later r'.stage) r'.expr d₃ x e :=
    Draft.promotes_vertex (pl.moves.isSome hd₂) hupto fun s hs => (hboth s hs).2
  exact ⟨l', d₁, r', d₂, lhs', d₃, rhs', d₄, hl', hr', pl, pr,
    ml.trans (mr.trans (pl.mute.trans pr.mute)), el, er⟩

/-- A local is again where its value is, as long as that is no constant or the
target is not late. -/
theorem Echoes.localVar {n : Node} {v : LocalId} {name : String} {w : Write} {e : Expr}
    {t u : Traced} {d₁ : Draft} (hr : Retraced p T ⟨sc, .localVar n v name⟩)
    (hw : sc.find (.localVar v) = some w)
    (ht : Traces ⟨p, .vertex⟩ (sc.before w) false [w.site.value] d [t] d₁) (hu : Echoes T t u) :
    Echoes T ⟨e, some (t.stage.getD .vertex)⟩ ⟨e, some (u.stage.getD T)⟩ := by
  by_cases hT : T ≤ .vertex
  · refine ⟨?_, fun hlt => absurd hT (not_le.2 hlt)⟩
    cases hs : u.stage with
    | none => exact Placement.upto_some.2 hT
    | some s => exact Placement.upto_some.2 (hu.upto s hs)
  · obtain ⟨x, hx⟩ := (hr.self.2.resolve_left hT).given n v name w rfl hw
    have hstage : t.stage = some x := hx.stage ht
    have hsame : u.stage = some x := (hu.same (not_le.1 hT)).trans hstage
    rw [hstage, hsame]
    exact ⟨Placement.upto_some.2 (hu.upto x hsame), fun _ => rfl⟩

theorem wait_false (a : Aim) (q : Placement) : a.wait false q = q := rfl

/-- What was traced for the vertex stage can be traced again for a target that it is fit for. -/
theorem Traces.again {es : List Expr} {ts : List Traced} (h : Traces ⟨p, .vertex⟩ sc m es d ts d')
    (hes : ∀ e ∈ es, Retraced p T ⟨sc, e⟩) : Again p T sc m es ts := by
  have part {sc : Scope} {e x : Expr} (he : ∀ y ∈ [e], Retraced p T ⟨sc, y⟩)
      (hx : x ∈ e.traced p.catalog) :
      Retraced p T ⟨sc, x⟩ := (he e (by simp)).part hx
  have alone {sc : Scope} {e x : Expr} (he : ∀ y ∈ [e], Retraced p T ⟨sc, y⟩)
      (hx : x ∈ e.traced p.catalog) :
      ∀ y ∈ [x], Retraced p T ⟨sc, y⟩ := List.forall_mem_singleton.2 (part he hx)
  induction h with
  | nil => exact fun d _ => ⟨[], d, .nil, .refl d, .nil⟩
  | cons _ _ ih ihs =>
    intro d hd
    obtain ⟨u, d₁, hu, hm, he⟩ := again_one.1 (ih (by simpa using hes _ (by simp))) d hd
    obtain ⟨us, d₂, hus, hms, hes⟩ := ihs (fun e he => hes e (by simp [he])) d₁ (hu.moves.isSome hd)
    exact ⟨u :: us, d₂, .cons hu hus, hm.trans hms, .cons he hes⟩
  | literal =>
    exact again_one.2 fun d _ => ⟨_, d, .literal, .refl d, Placement.upto_none _, fun _ => rfl⟩
  | constant =>
    exact again_one.2 fun d _ => ⟨_, d, .constant, .refl d, Placement.upto_none _, fun _ => rfl⟩
  | @param sc m n i q _ _ hq hn hf _ =>
    have hnear : q.role.stage ≤ .vertex := (hes (.param n i) (by simp)).self.1 q hq
    refine again_one.2 fun d _ =>
      ⟨_, _, .param hq hn hf rfl, ?_, Placement.upto_some.2 hnear, fun _ => rfl⟩
    split
    · exact ⟨rfl, rfl, rfl, Nat.le_refl _⟩
    · exact .refl d
  | @declared sc m n v name written o t s _ _ hn hw hi hs ih =>
    have hr : Retraced p T ⟨sc, .localVar n v name⟩ := hes _ (by simp)
    have hinner : Retraced p T ⟨sc.upTo o, written.init⟩ := hr.leads (.write hw)
    subst hs
    refine again_one.2 fun d hd => ?_
    obtain ⟨u, d₁, hu, hm, he⟩ := again_one.1 (ih (by simpa using hinner)) d hd
    exact ⟨_, _, .declared hn hw hu rfl, hm.trans ⟨rfl, rfl, rfl, Nat.le_refl _⟩,
      he.localVar hr hw hi⟩
  | @assigned sc m n v name x o t s _ _ hn hw hx hs ih =>
    have hr : Retraced p T ⟨sc, .localVar n v name⟩ := hes _ (by simp)
    have hinner : Retraced p T ⟨sc.upTo o, x⟩ := hr.leads (.write hw)
    subst hs
    refine again_one.2 fun d hd => ?_
    obtain ⟨u, d₁, hu, hm, he⟩ := again_one.1 (ih (by simpa using hinner)) d hd
    exact ⟨_, _, .assigned hn hw hu rfl, hm.trans ⟨rfl, rfl, rfl, Nat.le_refl _⟩,
      he.localVar hr hw hx⟩
  | @binary sc m n op lhs rhs _ _ l r q _ _ _ _ _ hl hr hq _ _ ihl ihr =>
    have hself : Retraced p T ⟨sc, .binary n op lhs rhs⟩ := hes _ (by simp)
    subst hq
    refine again_one.2 fun d hd => ?_
    obtain ⟨l', d₁, r', d₂, lhs', d₃, rhs', d₄, hl', hr', pl, pr, hm, el, er⟩ :=
      (ihl (alone hes (by simp [Expr.traced, Expr.operands]))).operands
        (ihr (alone hes (by simp [Expr.traced, Expr.operands]))) hd
    -- nothing waits on the vertex stage, and for a later target the operands stand where they stood
    have hwait : waits ⟨p, T⟩ op l'.stage r'.stage = false := by
      by_cases hT : T ≤ .vertex
      · exact waits_vertex hT
      · have hlt := not_le.1 hT
        rw [el.same hlt, er.same hlt]
        exact (hself.self.2.resolve_left hT).waits hl hr
    refine ⟨_, d₄, .binary hl' hr' (by rw [hwait, wait_false]) pl pr,
      hm, Placement.later_upto.2 ⟨el.upto, er.upto⟩, fun hT => ?_⟩
    rw [waits_vertex (le_refl _), wait_false]
    exact congrArg₂ Placement.later (el.same hT) (er.same hT)
  | unary _ ih => exact (ih (alone hes (by simp [Expr.traced, Expr.operands]))).around .unary
  | cast hn _ ih => exact (ih (alone hes (by simp [Expr.traced, Expr.operands]))).around (.cast hn)
  | @member sc m n base field _ _ _ hn _ ih =>
    refine (ih (alone hes (by simp [Expr.traced, Expr.operands]))).around (f := (.member n · field))
      fun hu => ?_
    exact .member hn hu
  | construct hn _ _ ih => exact (ih fun e he => part hes he).together (.construct hn)
  | initList _ _ ih => exact (ih fun e he => part hes he).together .initList
  | @call sc m n func f args _ ts q _ _ _ hf h hq _ ih =>
    have hself : Retraced p T ⟨sc, .call n func args⟩ := hes _ (by simp)
    subst hq
    refine again_one.2 fun d hd => ?_
    obtain ⟨us, d₁, args', d₂, hus, hp, hm, he⟩ := (ih fun e he => part hes he).args hd
    have hwait : callWaits ⟨p, T⟩ f us = false := by
      by_cases hT : T ≤ .vertex
      · exact callWaits_vertex hT
      · rw [callWaits_congr (Echoes.same_all he (not_le.1 hT))]
        exact (hself.self.2.resolve_left hT).callWaits hf h
    have hplace : wait ⟨p, T⟩ (callWaits ⟨p, T⟩ f us) (placement us) = placement us := by
      rw [hwait, wait_false]
    refine ⟨_, d₂, .call hf hus hplace hp, hm, Echoes.placement he, fun hT => ?_⟩
    rw [callWaits_vertex (le_refl _), wait_false]
    exact placement_congr (Echoes.same_all he hT)
  | @sample sc m n method f object uv _ sampler _ _ _ _ _ _ _ _ hm hs _ _ _ _ _ =>
    have hnot : f.isSample = false :=
      (hes (.methodCall n method object [uv, sampler]) (by simp)).self.1 f hm
    cases hs.symm.trans hnot
  | @method sc m n method f object args t ts _ _ _ hm hs _ _ ih ihs =>
    refine again_one.2 fun d hd => ?_
    obtain ⟨u, d₁, hu, hmu, he⟩ := again_one.1 (ih (alone hes (by simp [Expr.traced, hm, hs]))) d hd
    obtain ⟨us, d₂, hus, hms, -⟩ :=
      ihs (fun e he => part hes (by simp [Expr.traced, hm, hs, he])) d₁ (hu.moves.isSome hd)
    exact ⟨_, d₂, .method hm hs hu hus, hmu.trans hms, he.upto, he.same⟩

/-- To sample is to trace the coordinate, bring it to the texture's stage and note the sample. -/
theorem visit_sample {a : Aim} {n : Node} {method : DeclId} {f : BuiltinMethod}
    {object uv sampler : Expr} {texture : Nat} {s : Stage}
    (hm : a.pipeline.catalog.method? method = some f) (hs : f.isSample = true)
    (ho : a.sampledStage object = .ok (texture, s)) :
    (∃ t d', a.visit sc (.methodCall n method object [uv, sampler]) d = .ok t d' ∧
      t.stage = some s) ↔
      ∃ t d₁ uv' d₂ k d₃, a.Traces sc false [uv] d [t] d₁ ∧
        Draft.Promotes a.pipeline.stages sc t.stage (some s) t.expr d₁ uv' d₂ ∧
        Draft.sample s d₂.nextId texture sampler (d₂.tick 1) = .ok k d₃ := by
  constructor
  · rintro ⟨t, d', hv, -⟩
    rw [visit_eq, visitIn, hm] at hv
    simp only [hs, if_true, ho, Drafting.bind_ok, Drafting.pure_ok] at hv
    obtain ⟨u, d₁, hu, uv', d₂, hp, id, d₃, hid, k, d₄, hk, -, -⟩ := hv
    cases hid
    rw [← visit_eq] at hu
    exact ⟨u, d₁, uv', d₂, k, d₄, visit_iff.1 hu, Draft.promote_ok hp, hk⟩
  · rintro ⟨t, d₁, uv', d₂, k, d₃, ht, hp, hk⟩
    exact ⟨_, d₃, visit_iff.2 (.sample hm hs ho ht hp hk), rfl⟩

theorem Visited.steady {s : Spot} (h : Visited ⟨p, .vertex⟩ s) (hT : .vertex < T)
    (hs : (place ⟨p, T⟩ s.scope s.expr).Upto .vertex) : Steady ⟨p, .vertex⟩ T s := by
  have hle : Stage.vertex ≤ T := le_of_lt hT
  refine ⟨h.calm (.inr ⟨.vertex, hT, hs⟩) fun x hx => place_stable hle (place_subterm ?_ hs), ?_⟩
  · exact Expr.mem_subterms.2 (.inr ⟨x, hx, Expr.self_mem_subterms x⟩)
  · obtain ⟨sc, e⟩ := s
    rintro n v name w ⟨⟩ hw
    obtain ⟨hbare, m, d, t, d', ht⟩ := h
    obtain ⟨d₁, u, d₂, hu⟩ := ht.write (List.mem_singleton_self _) hw
    rw [place_localVar hw] at hs
    cases hvalue : place ⟨p, T⟩ (sc.before w) w.site.value with
    | none =>
      -- the local would be declared in the target
      rw [hvalue] at hs
      exact absurd hT (not_lt.2 (Placement.upto_some.1 hs))
    | some x =>
      rw [hvalue] at hs
      have hplace : place ⟨p, .vertex⟩ (sc.before w) w.site.value = some x :=
        (place_stable hle (hvalue ▸ hs)).trans hvalue
      exact ⟨x, hplace ▸ hu.tracedTo (hbare.write hw)⟩

end Aim

namespace Pipeline

/-- Traced for `T` from a fresh draft, a value is found to be computed in the vertex stage. -/
def VertexFor (p : Pipeline) (T : Stage) (sc : Scope) (e : Expr) : Prop :=
  ∃ t d, Aim.visit ⟨p, T⟩ sc e (.start p) = .ok t d ∧ t.stage = some .vertex

theorem vertexFor_iff {p : Pipeline} {T : Stage} {sc : Scope} {e : Expr} : p.VertexFor T sc e ↔
    (match Aim.visit ⟨p, T⟩ sc e (.start p) with
      | .ok t _ => decide (t.stage = some .vertex)
      | .error .. => false) = true := by
  unfold VertexFor
  cases Aim.visit ⟨p, T⟩ sc e (.start p) <;> simp

instance (p : Pipeline) (T : Stage) (sc : Scope) (e : Expr) : Decidable (p.VertexFor T sc e) :=
  decidable_of_iff' _ vertexFor_iff

/-- Nothing that the trace of a value comes to would be elsewhere with `T` for a target. -/
def SteadyFor (p : Pipeline) (T : Stage) (s : Spot) : Prop :=
  T ≤ .vertex ∨ ∀ s', Spot.Reaches p.catalog s s' → Aim.Steady ⟨p, .vertex⟩ T s'

theorem steadyFor_of_place {p : Pipeline} {T : Stage} {s : Spot} (h : Aim.Visited ⟨p, .vertex⟩ s)
    (hs : (Aim.place ⟨p, T⟩ s.scope s.expr).Upto .vertex) : p.SteadyFor T s := by
  by_cases hT : T ≤ .vertex
  · exact .inl hT
  · refine .inr fun s' hs' => ?_
    have hreached :
        Aim.Visited ⟨p, .vertex⟩ s' ∧ (Aim.place ⟨p, T⟩ s'.scope s'.expr).Upto .vertex := by
      induction hs' with
      | refl => exact ⟨h, hs⟩
      | tail _ hlead ih => exact ⟨ih.1.leads hlead, Aim.place_leads ih.2 hlead⟩
    exact hreached.1.steady (not_le.1 hT) hreached.2

theorem check_vertex {c : Catalog} {decls : DeclIndex} {f : PipelineFn} {p : Pipeline}
    (h : check c decls f = .ok p) :
    ((Draft.start p).record? .host .vertex).isSome = true := by
  have hv : .vertex ∈ p.stages.devices :=
    StageSet.mem_devices.2 ⟨(check_stages h).2 (by simp), by decide⟩
  unfold Draft.record?
  rw [if_pos rfl, Draft.start_uniforms, if_pos hv]
  rfl

/-- A sample of a vertex texture that can be traced for the vertex stage, from wherever traces
arrive, and whose coordinate is made of values of the host and the vertex stage, can be traced for
any target, if that is no later or the coordinate is steady. Where swizzles have no arguments, it
can be traced for no other. -/
theorem vertexFor_sample {c : Catalog} {decls : DeclIndex} {f : PipelineFn} {p : Pipeline}
    {sc : Scope} {n n' : Node} {method : DeclId} {g : BuiltinMethod} {i : Nat} {k : Int}
    {uv sampler : Expr} {t : Traced} {d d' : Draft} {T : Stage} (hp : check c decls f = .ok p)
    (hmethod : p.catalog.method? method = some g) (hsample : g.isSample = true)
    (htexture : p.fn.params[i]?.map Param.role = some (.vertexTexture k))
    (hnear : ∀ s, Spot.Reaches p.catalog ⟨sc, uv⟩ s → p.Near s.expr) (hd : p.Reachable d)
    (hv : Aim.visit ⟨p, .vertex⟩ sc (.methodCall n method (.param n' i) [uv, sampler]) d = .ok t d')
    (ht : t.stage = some .vertex) :
    (p.SteadyFor T ⟨sc, uv⟩ → p.VertexFor T sc (.methodCall n method (.param n' i) [uv, sampler])) ∧
      (Aim.Bare ⟨p, .vertex⟩ sc uv →
        p.VertexFor T sc (.methodCall n method (.param n' i) [uv, sampler]) →
        p.SteadyFor T ⟨sc, uv⟩) := by
  have hstage (S : Stage) : Aim.sampledStage ⟨p, S⟩ (.param n' i) = .ok (i, .vertex) := by
    simp [Aim.sampledStage, htexture]
  obtain ⟨u, d₁, uv', d₂, k, d₃, hu, hpromote, hk⟩ :=
    (Aim.visit_sample hmethod hsample (hstage .vertex)).1 ⟨t, d', hv, ht⟩
  constructor
  · -- the coordinate is traced again for `T`, brought to the vertex stage, and sampled there
    intro hsteady
    have hretraced : Aim.Retraced p T ⟨sc, uv⟩ :=
      fun s hs => ⟨hnear s hs, hsteady.imp_right fun h => h s hs⟩
    obtain ⟨u', e₁, hu', hmute, hecho⟩ :=
      Aim.again_one.1 (hu.again (by simpa using hretraced)) _ (check_vertex hp)
    obtain ⟨x, e₂, hx⟩ :
        ∃ x e₂, Draft.Promotes p.stages sc u'.stage (some .vertex) u'.expr e₁ x e₂ := by
      refine Draft.promotes_vertex (hu'.moves.isSome (check_vertex hp))
        (Placement.upto_some.2 (le_refl _)) ?_
      rintro s ⟨⟩
      exact hecho.upto
    have htextures : (d₂.tick 1).textures.map (·.param) = (e₂.tick 1).textures.map (·.param) := by
      calc d₂.textures.map (·.param) = d₁.textures.map (·.param) := by rw [hpromote.mute.textures]
        _ = d.textures.map (·.param) := hu.textures.symm
        _ = (Draft.start p).textures.map (·.param) := hd.alike.textures.symm
        _ = e₂.textures.map (·.param) := by rw [(hmute.trans hx.mute).textures]
    obtain ⟨k', e₃, hk'⟩ :=
      Draft.sample_first (j := e₂.nextId) hk htextures (hmute.trans hx.mute).samplers
    exact (Aim.visit_sample hmethod hsample (hstage T)).2 ⟨u', e₁, x, e₂, k', e₃, hu', hx, hk'⟩
  · -- whatever the target is, the coordinate had to be placed by the vertex stage
    intro hbare hused
    obtain ⟨u', e₁, x, e₂, k', e₃, hu', hx, -⟩ :=
      (Aim.visit_sample hmethod hsample (hstage T)).1 hused
    exact steadyFor_of_place ⟨hbare, false, d, u, d₁, hu⟩ (hu'.place hbare ▸ hx.upto)

end Pipeline

namespace Sample

open Workbench

def pair : Ty := (ty "float2" withRuntime).1

def color : Ty := (ty "float4" withRuntime).1

def copies : Ty × Workbench := record "Copy" [("coord", pair)] withRuntime

def texel (uv : Expr) : Expr :=
  .methodCall ⟨1, color, .dummy⟩ (method "texture2d" "sample" withRuntime).1
    (.param ⟨2, (ty "texture2d<float>" withRuntime).1, .dummy⟩ 0)
    [uv, .constant ⟨3, (ty "sampler" withRuntime).1, .dummy⟩ (.aggregate [.int 0, .int 1])]

def shifted : Expr :=
  .binary ⟨4, pair, .dummy⟩ .add (.param ⟨5, pair, .dummy⟩ 1)
    (.member ⟨6, pair, .dummy⟩ (.param ⟨7, copies.1, .dummy⟩ 2) "coord")

def middle : Expr :=
  .construct ⟨8, pair, .dummy⟩ [.literal ⟨9, .int, .dummy⟩ (.int 0),
    .literal ⟨10, .int, .dummy⟩ (.int 0)]

/-- A color is the sum of two texels of the vertex stage, one at a coordinate that is computed and
one at a constant. -/
def marked : PipelineFn :=
  ⟨"marked", [⟨"near", (ty "texture2d<float>" withRuntime).1, .vertexTexture 0, .dummy⟩,
    ⟨"shift", pair, .captured, .dummy⟩,
      ⟨"copy", copies.1, .instanceBuffer 0, .dummy⟩, ⟨"o", color, .colorTarget 0, .dummy⟩],
    [.decl 11 .dummy 0 "uv" pair (some shifted), .decl 12 .dummy 1 "mid" pair (some middle),
      .expr 13 .dummy (.binary ⟨14, color, .dummy⟩ .assign (.param ⟨15, color, .dummy⟩ 3)
        (.binary ⟨16, color, .dummy⟩ .add (texel (.localVar ⟨17, pair, .dummy⟩ 0 "uv"))
          (texel (.localVar ⟨18, pair, .dummy⟩ 1 "mid"))))], .dummy⟩

def copyIndex : DeclIndex := ⟨copies.2.declarations⟩

def markedPipeline : Pipeline :=
  ⟨runtime, copyIndex, marked, .ofParams runtime copyIndex marked.params⟩

theorem check_marked : Pipeline.check runtime copyIndex marked = .ok markedPipeline :=
  Pipeline.check_of_isEmpty (by decide +kernel)

def markedScope : Scope := markedPipeline.scope.upTo 13

def uv : Expr := .localVar ⟨17, pair, .dummy⟩ 0 "uv"

def mid : Expr := .localVar ⟨18, pair, .dummy⟩ 1 "mid"

theorem near_marked {e : Expr} (he : e = uv ∨ e = mid) (s : Spot)
    (hs : Spot.Reaches runtime ⟨markedScope, e⟩ s) : markedPipeline.Near s.expr := by
  have hterms : ∀ x ∈ uv.subterms ++ mid.subterms ++ markedScope.terms, markedPipeline.Near x := by
    decide +kernel
  have hmem := hs.terms (List.mem_append_left _ s.expr.self_mem_subterms)
  refine hterms _ ?_
  rcases he with rfl | rfl <;> grind

theorem texel_samples : ∃ g, runtime.method? (method "texture2d" "sample" withRuntime).1 = some g ∧
    g.isSample = true :=
  (Option.any_eq_true _ _).1 (by decide +kernel)

end Sample

open Sample in
/-- The coordinate is computed in the vertex stage, and the sample can be used in the
fragment stage. -/
theorem Pipeline.vertexFor_sample_marked : check runtime copyIndex marked = .ok markedPipeline ∧
    markedPipeline.stages.contains .fragment = true ∧
    markedPipeline.VertexFor .vertex markedScope (texel uv) ∧
    markedPipeline.SteadyFor .fragment ⟨markedScope, uv⟩ ∧
    markedPipeline.VertexFor .fragment markedScope (texel uv) := by
  obtain ⟨g, hg, hsample⟩ := texel_samples
  obtain ⟨t, d, hv, ht⟩ : markedPipeline.VertexFor .vertex markedScope (texel uv) := by
    decide +kernel
  obtain ⟨u, e, hu, -⟩ : markedPipeline.VertexFor .vertex markedScope uv := by decide +kernel
  have hread : Aim.Reached ⟨markedPipeline, .fragment⟩ markedScope uv := by
    refine .part (.output (i := 3) rfl rfl rfl rfl) ?_
    simp [Expr.subterms, Expr.subtermsOf, texel, uv]
  have hbare : Aim.Bare ⟨markedPipeline, .vertex⟩ markedScope uv := hread.bare (by decide +kernel)
  have hplace : Aim.place ⟨markedPipeline, .fragment⟩ markedScope uv = some .vertex := by
    decide +kernel
  have hsteady : markedPipeline.SteadyFor .fragment ⟨markedScope, uv⟩ :=
    steadyFor_of_place ⟨hbare, false, _, u, e, Aim.visit_iff.1 hu⟩
      (hplace ▸ Placement.upto_some.2 (le_refl _))
  exact ⟨check_marked, by decide +kernel, ⟨t, d, hv, ht⟩, hsteady,
    (vertexFor_sample check_marked hg hsample rfl (near_marked (.inl rfl)) .start hv ht).1 hsteady⟩

open Sample in
/-- At a constant coordinate the same texture cannot be sampled for the fragment stage: the local is
declared there. -/
theorem Pipeline.not_vertexFor_constant : check runtime copyIndex marked = .ok markedPipeline ∧
    markedPipeline.stages.contains .fragment = true ∧
    (∀ s, Spot.Reaches runtime ⟨markedScope, mid⟩ s → markedPipeline.Near s.expr) ∧
    markedPipeline.VertexFor .vertex markedScope (texel mid) ∧
    ¬ markedPipeline.VertexFor .fragment markedScope (texel mid) :=
  ⟨check_marked, by decide +kernel, near_marked (.inr rfl), by decide +kernel, by decide +kernel⟩

end ShaderSplit
