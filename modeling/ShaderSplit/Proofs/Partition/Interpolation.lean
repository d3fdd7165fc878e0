import Mathlib.Logic.Relation
import ShaderSplit.Proofs.Partition.Exactness
import ShaderSplit.Proofs.Partition.Fields
import ShaderSplit.Proofs.Partition.Placement

namespace ShaderSplit

namespace Placement

/-- A placement is before a stage; constants are before all of them. -/
def Earlier (p : Placement) (t : Stage) : Prop := ∀ s, p = some s → s < t

/-- On the device, before `t`: what is computed there is interpolated on its way to `t`. -/
def DeviceBefore (p : Placement) (t : Stage) : Prop := ∃ s, p = some s ∧ s ≠ .host ∧ s < t

theorem not_deviceBefore_host (p : Placement) : ¬ p.DeviceBefore .host := by
  rintro ⟨s, -, -, hs⟩
  exact absurd hs (Nat.not_lt_zero _)

/-- By a stage before `t`, or `t` is the host, for which nothing is interpolated. -/
def Ahead (p : Placement) (t : Stage) : Prop := t = .host ∨ ∃ u, u < t ∧ p.Upto u

theorem Earlier.ahead {p : Placement} {t : Stage} (h : p.Earlier t) : p.Ahead t := by
  by_cases hhost : t = .host
  · exact .inl hhost
  · cases p with
    | none => exact .inr ⟨.host, StageSet.host_lt hhost, upto_none _⟩
    | some u => exact .inr ⟨u, h u rfl, upto_some.2 (le_refl u)⟩

end Placement

/-- The parts that tracing goes on with: of a sample only its coordinate. -/
def Expr.traced (c : Catalog) : Expr → List Expr
  | methodCall _ m object args => if (c.method? m).any (·.isSample) then args.take 1
    else object :: args
  | e => e.operands

theorem Expr.mem_subterms_of_traced {c : Catalog} {e x : Expr} (h : x ∈ e.traced c) :
    x ∈ e.subterms := by
  refine mem_subterms.2 (.inr ⟨x, ?_, self_mem_subterms x⟩)
  cases e with
  | methodCall n m object args =>
    rw [traced] at h
    split at h
    · exact List.mem_cons_of_mem _ (List.mem_of_mem_take h)
    · exact h
  | _ => exact h

namespace Spot

/-- Where tracing goes on: with the parts of a value, and from a local with what the write that
reaches it gives. -/
inductive Leads (c : Catalog) : Spot → Spot → Prop
  | part {sc : Scope} {e x : Expr} (hx : x ∈ e.traced c) : Leads c ⟨sc, e⟩ ⟨sc, x⟩
  | write {sc : Scope} {n : Node} {v : LocalId} {name : String} {w : Write}
      (hw : sc.find (.localVar v) = some w) :
      Leads c ⟨sc, .localVar n v name⟩ ⟨sc.before w, w.site.value⟩

def Reaches (c : Catalog) : Spot → Spot → Prop := Relation.ReflTransGen (Leads c)

theorem Leads.terms {c : Catalog} {s s' : Spot} {x : Expr} (h : Leads c s s')
    (hx : x ∈ s'.expr.subterms ++ s'.scope.terms) : x ∈ s.expr.subterms ++ s.scope.terms := by
  rw [List.mem_append] at hx ⊢
  cases h with
  | part hpart =>
    exact hx.imp_left fun hx => Expr.subterms_trans hx (Expr.mem_subterms_of_traced hpart)
  | write hw =>
    exact .inr (hx.elim (fun hx => Scope.terms_trans hx (Scope.find_value_mem hw)) Scope.terms_upTo)

theorem Reaches.terms {c : Catalog} {s s' : Spot} {x : Expr} (h : Reaches c s s')
    (hx : x ∈ s'.expr.subterms ++ s'.scope.terms) : x ∈ s.expr.subterms ++ s.scope.terms := by
  induction h with
  | refl => exact hx
  | tail _ hlead ih => exact ih (hlead.terms hx)

end Spot

namespace Aim

/-- A value can be traced, and always is to `p`. -/
def TracedTo (a : Aim) (s : Spot) (p : Placement) : Prop :=
  (∃ d t d', a.visit s.scope s.expr d = .ok t d') ∧
    ∀ d t d', a.visit s.scope s.expr d = .ok t d' → t.stage = p

/-- Two values are traced such that both are interpolated on the way to `T`, or neither is. -/
def Even (a : Aim) (T : Stage) (sc : Scope) (x y : Expr) : Prop :=
  ∃ p q, a.TracedTo ⟨sc, x⟩ p ∧ a.TracedTo ⟨sc, y⟩ q ∧ (p.DeviceBefore T ↔ q.DeviceBefore T)

/-- Nothing is done here that does not commute with interpolation on the way to `T`. -/
structure Calm (a : Aim) (T : Stage) (s : Spot) : Prop where
  division : ∀ n op lhs rhs, s.expr = .binary n op lhs rhs → op = .div ∨ op = .divAssign →
    ∃ p, a.TracedTo ⟨s.scope, rhs⟩ p ∧ ¬ p.DeviceBefore T
  operator : ∀ n op lhs rhs, s.expr = .binary n op lhs rhs →
    op ∉ [.add, .sub, .mul, .assign, .addAssign, .subAssign, .mulAssign, .div, .divAssign] →
    a.Even T s.scope lhs rhs
  call : ∀ n func f x y, s.expr = .call n func [x, y] → a.pipeline.catalog.function? func = some f →
    f.distributed = false → a.Even T s.scope x y

variable {a : Aim} {sc : Scope} {d d' : Draft} {m : Bool}

theorem interpolated_iff {p : Placement} : a.interpolated p = true ↔ p.DeviceBefore a.target := by
  cases p <;> simp [interpolated, Placement.DeviceBefore]

theorem Traces.length {es : List Expr} {ts : List Traced} (h : a.Traces sc m es d ts d') :
    ts.length = es.length := by
  induction h <;> simp_all

theorem Traces.mem {es : List Expr} {ts : List Traced} (h : a.Traces sc m es d ts d') {e : Expr}
    (he : e ∈ es) :
    ∃ d₁ t d₂, a.Traces sc m [e] d₁ [t] d₂ := by
  induction es generalizing m ts d with
  | nil => cases he
  | cons x es ih =>
    cases es with
    | nil =>
      obtain rfl := List.mem_singleton.1 he
      obtain ⟨t, rfl⟩ := List.length_eq_one_iff.1 h.length
      exact ⟨d, t, d', h⟩
    | cons y es =>
      cases h with
      | cons hx hs =>
        rcases List.mem_cons.1 he with rfl | he
        · exact ⟨_, _, _, hx⟩
        · exact ih hs he

/-- What is traced has its parts traced. Only below a member access may they be no values. -/
theorem Traces.part {es : List Expr} {ts : List Traced} (h : a.Traces sc m es d ts d') {e x : Expr}
    (he : e ∈ es) (hx : x ∈ e.traced a.pipeline.catalog) :
    ∃ m' d₁ t d₂, a.Traces sc m' [x] d₁ [t] d₂ ∧ (m' = true → ∃ n f, e = .member n x f) := by
  induction h with
  | nil => cases he
  | cons _ _ ih ihs =>
    rcases List.mem_cons.1 he with rfl | he
    · exact ih (by simp)
    · exact ihs he
  | literal | constant | param | declared | assigned =>
    obtain rfl := List.mem_singleton.1 he
    cases hx
  | @binary sc m n op lhs rhs _ _ _ _ _ _ _ _ _ _ hl hr _ _ _ =>
    obtain rfl := List.mem_singleton.1 he
    rcases (by simpa [Expr.traced, Expr.operands] using hx : x = lhs ∨ x = rhs) with rfl | rfl
    · exact ⟨_, _, _, _, hl, by simp⟩
    · exact ⟨_, _, _, _, hr, by simp⟩
  | unary h | cast _ h =>
    obtain rfl := List.mem_singleton.1 he
    obtain rfl := List.mem_singleton.1 hx
    exact ⟨_, _, _, _, h, by simp⟩
  | member _ h =>
    obtain rfl := List.mem_singleton.1 he
    obtain rfl := List.mem_singleton.1 hx
    exact ⟨_, _, _, _, h, fun _ => ⟨_, _, rfl⟩⟩
  | construct _ h | initList h | call _ h =>
    obtain rfl := List.mem_singleton.1 he
    obtain ⟨d₁, t, d₂, ht⟩ := h.mem hx
    exact ⟨_, _, _, _, ht, by simp⟩
  | sample hm hs _ h =>
    obtain rfl := List.mem_singleton.1 he
    obtain rfl : x = _ := by simpa [Expr.traced, hm, hs] using hx
    exact ⟨_, _, _, _, h, by simp⟩
  | @method sc m n method f object args _ _ _ _ _ hm hs ho ha =>
    obtain rfl := List.mem_singleton.1 he
    rcases (by simpa [Expr.traced, hm, hs] using hx : x = object ∨ x ∈ args) with rfl | hx
    · exact ⟨_, _, _, _, ho, by simp⟩
    · obtain ⟨d₁, t, d₂, ht⟩ := ha.mem hx
      exact ⟨_, _, _, _, ht, by simp⟩

theorem Traces.write {es : List Expr} {ts : List Traced} (h : a.Traces sc m es d ts d') {n : Node}
    {v : LocalId} {name : String} {w : Write} (he : .localVar n v name ∈ es)
    (hw : sc.find (.localVar v) = some w) :
    ∃ d₁ t d₂, a.Traces (sc.before w) false [w.site.value] d₁ [t] d₂ := by
  induction h with
  | nil => cases he
  | cons _ _ ih ihs =>
    rcases List.mem_cons.1 he with rfl | he
    · exact ih (by simp) hw
    · exact ihs he hw
  | declared _ hf h | assigned _ hf h =>
    cases List.mem_singleton.1 he
    cases hw.symm.trans hf
    exact ⟨_, _, _, h⟩
  | _ => cases List.mem_singleton.1 he

theorem Traces.leads {e : Expr} {t : Traced} {s : Spot} (h : a.Traces sc m [e] d [t] d')
    (hs : Spot.Leads a.pipeline.catalog ⟨sc, e⟩ s) :
    ∃ m' d₁ u d₂, a.Traces s.scope m' [s.expr] d₁ [u] d₂ := by
  cases hs with
  | part hx =>
    obtain ⟨m', d₁, u, d₂, hu, -⟩ := h.part (by simp) hx
    exact ⟨m', d₁, u, d₂, hu⟩
  | write hw =>
    obtain ⟨d₁, u, d₂, hu⟩ := h.write (List.mem_singleton_self _) hw
    exact ⟨false, d₁, u, d₂, hu⟩

theorem Traces.place {e : Expr} {t : Traced} (h : a.Traces sc m [e] d [t] d')
    (hbare : a.Bare sc e) : t.stage = a.place sc e := by
  have hb : a.Rebuilds sc e t := by simpa using h.rebuilds_of_bare (by simpa using hbare)
  exact hb.stage

theorem Traces.tracedTo {e : Expr} {t : Traced} (h : a.Traces sc false [e] d [t] d')
    (hbare : a.Bare sc e) : a.TracedTo ⟨sc, e⟩ (a.place sc e) :=
  ⟨⟨d, t, d', visit_iff.2 h⟩, fun _ _ _ ht => (visit_iff.1 ht).place hbare⟩

theorem Bare.leads {s s' : Spot} (h : a.Bare s.scope s.expr)
    (hs : Spot.Leads a.pipeline.catalog s s') : a.Bare s'.scope s'.expr :=
  fun n m object args f hm => h n m object args f (hs.terms hm)

/-- A value is placed no earlier than what it leads to. -/
theorem place_leads {e : Expr} {s : Spot} {u : Stage} (h : (a.place sc e).Upto u)
    (hs : Spot.Leads a.pipeline.catalog ⟨sc, e⟩ s) : (a.place s.scope s.expr).Upto u := by
  cases hs with
  | part hx => exact place_subterm (Expr.mem_subterms_of_traced hx) h
  | write hw =>
    rw [place_localVar hw, Placement.upto_some] at h
    intro x hx
    rwa [hx] at h

theorem wait_early {w : Bool} {p : Placement} {u : Stage} (hu : u < a.target)
    (h : (a.wait w p).Upto u) : w = false := by
  cases w with
  | false => rfl
  | true =>
    have hle : a.target ≤ u := Placement.upto_some.1 (Placement.later_upto.1 h).2
    exact absurd hu (not_lt.2 hle)

/-- Something was traced here, and swizzles in sight have no arguments. -/
structure Visited (a : Aim) (s : Spot) : Prop where
  bare : a.Bare s.scope s.expr
  traced : ∃ m d t d', a.Traces s.scope m [s.expr] d [t] d'

theorem Visited.leads {s s' : Spot} (h : a.Visited s) (hs : Spot.Leads a.pipeline.catalog s s') :
    a.Visited s' := by
  obtain ⟨hbare, m, d, t, d', ht⟩ := h
  exact ⟨hbare.leads hs, ht.leads hs⟩

theorem Visited.part {s : Spot} {x : Expr} (h : a.Visited s)
    (hx : x ∈ s.expr.traced a.pipeline.catalog) (hmember : ∀ n f, s.expr ≠ .member n x f) :
    a.TracedTo ⟨s.scope, x⟩ (a.place s.scope x) := by
  obtain ⟨hbare, m, d, t, d', ht⟩ := h
  obtain ⟨m', d₁, u, d₂, hu, hm⟩ := ht.part (by simp) hx
  cases m' with
  | true =>
    obtain ⟨n, f, he⟩ := hm rfl
    exact absurd he (hmember n f)
  | false => exact hu.tracedTo (hbare.part (Expr.mem_subterms_of_traced hx))

theorem interpolated_host {p : Placement} (h : a.target = .host) : a.interpolated p = false := by
  rw [Bool.eq_false_iff, ne_eq, interpolated_iff, h]
  exact p.not_deviceBefore_host

theorem waits_ahead {n : Node} {op : BinaryOp} {lhs rhs : Expr}
    (h : (a.place sc (.binary n op lhs rhs)).Ahead a.target) :
    a.waits op (a.place sc lhs) (a.place sc rhs) = false := by
  rcases h with hhost | ⟨u, hu, hp⟩
  · cases op <;> simp [waits, interpolated_host hhost]
  · rw [place_binary] at hp
    exact wait_early hu hp

theorem callWaits_ahead {n : Node} {func : DeclId} {f : BuiltinFunction} {args : List Expr}
    (h : (a.place sc (.call n func args)).Ahead a.target)
    (hf : a.pipeline.catalog.function? func = some f) :
    a.callWaits f (a.placeAll sc args) = false := by
  rcases h with hhost | ⟨u, hu, hp⟩
  · unfold callWaits
    split <;> simp [interpolated_host hhost]
  · rw [place_call] at hp
    simpa [hf] using wait_early hu hp

/-- What was traced for `S`, and would be placed before `T` with its parts where they are, does
nothing that has to wait for `T`. -/
theorem Visited.calm {p : Pipeline} {S T : Stage} {s : Spot} (h : Visited ⟨p, S⟩ s)
    (hahead : (place ⟨p, T⟩ s.scope s.expr).Ahead T)
    (hparts : ∀ x ∈ s.expr.operands, place ⟨p, S⟩ s.scope x = place ⟨p, T⟩ s.scope x) :
    Calm ⟨p, S⟩ T s := by
  obtain ⟨sc, e⟩ := s
  have hiff {q : Placement} : q.DeviceBefore T ↔ interpolated ⟨p, T⟩ q = true :=
    (interpolated_iff (a := ⟨p, T⟩)).symm
  constructor
  · rintro n op lhs rhs ⟨⟩ hop
    refine ⟨_, h.part (by simp [Expr.traced, Expr.operands]) (by simp), ?_⟩
    rw [hiff, hparts rhs (by simp [Expr.operands]), Bool.not_eq_true]
    rcases hop with rfl | rfl <;> exact waits_ahead hahead
  · rintro n op lhs rhs ⟨⟩ hop
    refine ⟨_, _, h.part (by simp [Expr.traced, Expr.operands]) (by simp),
      h.part (by simp [Expr.traced, Expr.operands]) (by simp), ?_⟩
    have hw := waits_ahead (a := ⟨p, T⟩) hahead
    rw [hiff, hiff, hparts lhs (by simp [Expr.operands]), hparts rhs (by simp [Expr.operands])]
    cases op <;> simp_all [waits]
  · rintro n func f x y ⟨⟩ hf hd
    refine ⟨_, _, h.part (by simp [Expr.traced, Expr.operands]) (by simp),
      h.part (by simp [Expr.traced, Expr.operands]) (by simp), ?_⟩
    have hw := callWaits_ahead (a := ⟨p, T⟩) hahead hf
    rw [hiff, hiff, hparts x (by simp [Expr.operands]), hparts y (by simp [Expr.operands])]
    simpa [callWaits, placeAll, hd] using hw

/-- If a value is traced to a stage before the target, then nothing that its trace came to,
through parts, coordinates of samples and writes to locals, is an operation that should have
waited for the target. -/
theorem visit_calm {e : Expr} {t : Traced} {s : Spot} (hbare : a.Bare sc e)
    (hv : a.visit sc e d = .ok t d') (hearly : t.stage.Earlier a.target)
    (hs : Spot.Reaches a.pipeline.catalog ⟨sc, e⟩ s) : a.Calm a.target s := by
  have ht : a.Traces sc false [e] d [t] d' := visit_iff.1 hv
  have hreached : a.Visited s ∧ (a.place s.scope s.expr).Ahead a.target := by
    induction hs with
    | refl => exact ⟨⟨hbare, false, d, t, d', ht⟩, (ht.place hbare ▸ hearly).ahead⟩
    | tail _ hlead ih =>
      exact ⟨ih.1.leads hlead, ih.2.imp_right fun ⟨u, hu, hp⟩ => ⟨u, hu, place_leads hp hlead⟩⟩
  exact hreached.1.calm hreached.2 fun _ _ => rfl

end Aim

namespace Sample

def node (id : NodeId) : Node := ⟨id, .float, .dummy⟩

def quotient : Expr := .binary (node 1) .div (.param (node 2) 1) (.param (node 3) 0)

def product : Expr := .binary (node 4) .mul (.localVar (node 5) 0 "a") (.param (node 6) 1)

/-- The output is the product of an interpolated value and a local; the local divides such a value
by a captured one. -/
def scaled : Pipeline :=
  pipeline ⟨"scaled",
    [param "tint" .captured, param "v" (.varyingInput .vertex),
    param "o" (.varyingOutput .fragment)],
    [.decl 7 .dummy 0 "a" .float (some quotient),
      .expr 8 .dummy (.binary (node 9) .assign (.param (node 10) 2) product)], .dummy⟩

end Sample

open Sample in
/-- The product is computed in the vertex stage, and the quotient that it was traced through divides
by a value of the host. -/
theorem Aim.visit_calm_scaled : ∃ t d',
    Aim.visit ⟨scaled, .fragment⟩ (scaled.scope.upTo 8) product (.start scaled) = .ok t d' ∧
    t.stage = some .vertex ∧
    t.stage.Earlier .fragment ∧
    Spot.Reaches bare ⟨scaled.scope.upTo 8, product⟩ ⟨scaled.scope.upTo 7, quotient⟩ ∧
    Aim.Calm ⟨scaled, .fragment⟩ .fragment ⟨scaled.scope.upTo 7, quotient⟩ := by
  have hbare : Aim.Bare ⟨scaled, .fragment⟩ (scaled.scope.upTo 8) product := by
    intro n m object args f _ hm
    cases hm
  have hreach : Spot.Reaches bare ⟨scaled.scope.upTo 8, product⟩ ⟨scaled.scope.upTo 7, quotient⟩ :=
    .tail (.single (.part (List.mem_cons_self ..)))
      (.write (w := ⟨.declaration ⟨0, "a", .float, quotient⟩, 7⟩) rfl)
  obtain ⟨t, d', hv, ht⟩ :
      ∃ t d', Aim.visit ⟨scaled, .fragment⟩ (scaled.scope.upTo 8) product (.start scaled) =
      .ok t d' ∧ t.stage = some .vertex := ⟨_, _, rfl, rfl⟩
  have hearly : t.stage.Earlier .fragment := by
    rw [ht]
    rintro s ⟨⟩
    decide
  exact ⟨t, d', hv, ht, hearly, hreach, visit_calm hbare hv hearly hreach⟩

end ShaderSplit
