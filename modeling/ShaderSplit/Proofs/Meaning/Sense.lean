import ShaderSplit.Proofs.Meaning.SingleAssignment
import ShaderSplit.Proofs.Partition.Moves

namespace ShaderSplit

universe u

variable {V : Type u}

namespace Memory

/-- The memory with an output as it came in, if the cell is one. -/
def opened (x : Nat → V) (N : Memory V) : Cell → Memory V
  | .var (.param i) => Function.update N (.var (.param i)) (some (x i))
  | _ => N

/-- A value for the field at position `k` of a record. All sources but the host share one. -/
def withField (N : Memory V) (s t : Stage) (k : Nat) (y : V) : Memory V
  | .field a b i => if t = b ∧ (s = .host ↔ a = .host) ∧ k = i then some y else N (.field a b i)
  | c => N c

variable {x : Nat → V} {N N' : Memory V}

theorem opened_below {c : Cell} (h : N.Below N') : (N.opened x c).Below (N'.opened x c) := by
  unfold opened
  split
  · rename_i i
    intro c y hy
    by_cases hc : c = .var (.param i)
    · subst hc
      simpa using hy
    · rw [Function.update_of_ne hc] at hy ⊢
      exact h c y hy
  · exact h

theorem withField_below {s t : Stage} {k : Nat} {y : V}
    (h : ∀ a, (s = .host ↔ a = .host) → N (.field a t k) = none) :
    N.Below (N.withField s t k y) := by
  intro c z hz
  unfold withField
  split
  · rename_i a b i
    split
    · rename_i hc
      obtain ⟨rfl, ha, rfl⟩ := hc
      cases (h a ha).symm.trans hz
    · exact hz
  · exact hz

end Memory

namespace Pipeline

variable (p : Pipeline) (I : Interp V) (x : Nat → V)

/-- Inputs as they come in, no outputs, and locals as the body leaves them. -/
structure Leaves (N : Memory V) : Prop where
  params : ∀ i, N (.var (.param i)) = if p.isOutput i then none else some (x i)
  locals : ∀ v, N (.var (.localVar v)) = p.scope.run I (.input x) (.var (.localVar v))

/-- What the last write to an output gives, made alone on the value that came in. -/
def outcome (i : Nat) : Option V :=
  match p.scope.find (.param i) with
  | some ⟨.assignment e, o⟩ =>
    (e.effect I (((p.scope.upTo o).run I (.input x)).opened x (.var (.param i)))).bind (·.2)
  | _ => none

def given (N : Memory V) : Memory V
  | .var (.param i) => p.outcome I x i
  | c => N c

/-- A statement gives its cell what the cell is to be given. -/
def Holds (N : Memory V) : StageStmt → Prop
  | .decl d => ∃ y, d.init.eval I N = some y ∧ p.given I x N (.var (.localVar d.var)) = some y
  | .expr e => ∃ c y, e.effect I (N.opened x c) = some (c, some y) ∧ p.given I x N c = some y
  | .bindingDecl _ | .pushUniform _ => True

variable {p I x} {N N' : Memory V}

theorem given_below {c : Cell} {y : V} (h : N.Below N') (hc : p.given I x N c = some y) :
    p.given I x N' c = some y := by
  unfold given at hc ⊢
  split at hc
  · exact hc
  · exact h _ y hc

theorem Holds.below {st : StageStmt} (hst : p.Holds I x N st) (h : N.Below N') :
    p.Holds I x N' st := by
  cases st with
  | decl d =>
    obtain ⟨y, hy, hd⟩ := hst
    exact ⟨y, Expr.eval_below h hy, given_below h hd⟩
  | expr e =>
    obtain ⟨c, y, hy, hc⟩ := hst
    exact ⟨c, y, Expr.effect_mono (fun _ _ c' _ z => Memory.opened_below h c' z) hy,
      given_below h hc⟩
  | bindingDecl | pushUniform => trivial

namespace LocalsOnce

variable (h : p.LocalsOnce) {o o' : NodeId} {v : LocalId} {written : LocalDecl} {y : V}
include h

theorem step_of_find (hw : (p.scope.upTo o').find (.localVar v) = some ⟨.declaration written, o⟩) :
    ∃ s ∈ p.scope, s.id = o ∧ s.action = .declare written ∧ written.var = v ∧
    p.Quiet written.init := by
  obtain ⟨s, hs, d, hd, hv, hsite, hq⟩ := h.find_local (fun _ => Scope.upTo_subset) hw
  cases hsite
  exact ⟨s, Scope.upTo_subset hs, rfl, hd, hv, hq⟩

/-- What an expression means in the body it means at the end. -/
theorem eval_leaves {e : Expr} (hN : p.Leaves I x N) (hq : p.Quiet e)
    (he : e.eval I ((p.scope.upTo o).run I (.input x)) = some y) : e.eval I N = some y := by
  refine Expr.eval_mono (fun z hz c hc u hu => ?_) he
  cases z with
  | param n i =>
    cases hc
    have hi : p.isOutput i = false := hq _ hz
    rw [h.run_input (fun _ => Scope.upTo_subset) hi] at hu
    rw [hN.params, hi]
    exact hu
  | localVar n v name =>
    cases hc
    rw [hN.locals]
    exact h.run_mono (by simp) hu
  | interface n r =>
    rw [Expr.cell] at hc
    split at hc
    · cases hc
      rw [h.run_field fun _ => Scope.upTo_subset] at hu
      cases hu
    · cases hc
  | _ => cases hc

theorem eval_written (hN : p.Leaves I x N)
    (hw : (p.scope.upTo o').find (.localVar v) = some ⟨.declaration written, o⟩)
    (hy : N (.var (.localVar v)) = some y) : written.init.eval I N = some y := by
  obtain ⟨-, -, -, -, -, hq⟩ := h.step_of_find hw
  refine h.eval_leaves (o := o) hN hq ?_
  rw [← Scope.run_declared h.steps (h.find_scope hw), ← hN.locals, hy]

end LocalsOnce

/-- A part of the body that assigns nothing and reads no output. -/
def Plain (p : Pipeline) (e : Expr) : Prop := e ∈ p.scope.terms ∧ p.Quiet e

theorem Plain.part {e z : Expr} (h : p.Plain e) (hz : z ∈ e.subterms) : p.Plain z :=
  ⟨Scope.terms_trans hz h.1, fun y hy => h.2 y (Expr.subterms_trans hy hz)⟩

theorem Plain.parts {y : Expr} {xs : List Expr} (hy : ∀ e ∈ [y], p.Plain e)
    (hxs : ∀ x ∈ xs, x ∈ y.subterms) : ∀ x ∈ xs, p.Plain x :=
  fun x hx => (hy y (List.mem_singleton_self y)).part (hxs x hx)

end Pipeline

namespace Draft

/-- All that stands in a draft holds in the memory `N`. -/
structure Sense (p : Pipeline) (I : Interp V) (x : Nat → V) (N : Memory V) (d : Draft) : Prop where
  leaves : p.Leaves I x N
  fields : ∀ s t r i f, d.record? s t = some r → r.fields[i]? = some f →
    ∃ y, f.key.eval I N = some y ∧ N (.field s t i) = some y
  spare : ∀ s t r i, d.record? s t = some r → r.fields.length ≤ i → N (.field s t i) = none
  rebuilt : ∀ st ∈ p.scope, ∀ w, st.action = .declare w → ∀ s decl, d.rebuilt? st.id s = some decl →
    decl.var = w.var ∧ p.Holds I x N (.decl decl)
  queued : ∀ s, ∀ e ∈ (d.queue s).tags, p.Holds I x N e.1

variable {p : Pipeline} {I : Interp V} {x : Nat → V} {N : Memory V} {d d' : Draft}
  {s t : Stage} {sc : Scope}

theorem Sense.agree (h : d.Sense p I x N) (hd : Agrees d d') : d'.Sense p I x N := by
  refine ⟨h.leaves, fun s t r i f => ?_, fun s t r i => ?_, fun st hst w hw s decl => ?_,
    fun s e => ?_⟩
  · rw [hd.record?]
    exact h.fields s t r i f
  · rw [hd.record?]
    exact h.spare s t r i
  · rw [hd.rebuilt?]
    exact h.rebuilt st hst w hw s decl
  · rw [hd.queue]
    exact h.queued s e

theorem Sense.onQueue {f : Queue → Queue} (h : d.Sense p I x N)
    (hq : ∀ e ∈ (f (d.queue s)).tags, e ∈ (d.queue s).tags ∨ p.Holds I x N e.1) :
    (d.onQueue s f).Sense p I x N := by
  refine { h with queued := fun t e he => ?_ }
  rw [onQueue_queue] at he
  split at he
  · rename_i hst
    subst hst
    exact (hq e he).elim (h.queued s e) id
  · exact h.queued t e he

theorem Sense.setRebuilt {st : Step} {w decl : LocalDecl} (h : d.Sense p I x N) (hp : p.LocalsOnce)
    (hst : st ∈ p.scope) (hw : st.action = .declare w) (hvar : decl.var = w.var)
    (hd : p.Holds I x N (.decl decl)) : (d.setRebuilt st.id s decl).Sense p I x N := by
  refine { h with rebuilt := fun st' hst' w' hw' t decl' hr => ?_ }
  rw [setRebuilt_rebuilt?] at hr
  split at hr
  · rename_i hid
    cases hr
    obtain rfl : st = st' := List.inj_on_of_nodup_map hp.steps hst hst' hid.1
    cases hw.symm.trans hw'
    exact ⟨hvar, hd⟩
  · exact h.rebuilt st' hst' w' hw' t decl' hr

theorem Sense.add {st : StageStmt} {origin : Option NodeId} (h : d.Sense p I x N)
    (hst : p.Holds I x N st) : (d.add s st origin).Sense p I x N := by
  refine h.onQueue fun e hmem => ?_
  rcases Queue.mem_tags_add hmem with hmem | rfl
  · exact .inl hmem
  · exact .inr hst

theorem Sense.declare {st : Step} {w decl : LocalDecl} (h : d.Sense p I x N) (hp : p.LocalsOnce)
    (hst : st ∈ p.scope) (hw : st.action = .declare w) (hvar : decl.var = w.var)
    (hd : p.Holds I x N (.decl decl)) : (d.declare st.id s decl).Sense p I x N :=
  (h.setRebuilt hp hst hw hvar hd).add hd

theorem Sense.redeclare {st : Step} {w decl : LocalDecl} (h : d.Sense p I x N) (hp : p.LocalsOnce)
    (hst : st ∈ p.scope) (hw : st.action = .declare w) (hvar : decl.var = w.var)
    (hd : p.Holds I x N (.decl decl)) : (d.redeclare s t st.id decl).Sense p I x N :=
  ((h.setRebuilt hp hst hw hvar hd).add hd).onQueue fun _ hmem => .inl (Queue.mem_tags_release hmem)

theorem producer_effect {k : Nat} {value : Expr} {y : V} (hv : value.eval I N = some y) :
    (d.producer s t k value).effect I N = some (.field s t k, some y) := by
  simp [producer, endAt, Expr.effect, BinaryOp.isAssignment, Expr.root, Expr.assigned,
    Expr.stored, hv]

theorem record?_congr {a b : Stage} (h : t = b ∧ (s = .host ↔ a = .host)) :
    d.record? a b = d.record? s t := by
  unfold record?
  simp [h.1, h.2]

theorem Sense.openField {r : InterfaceRecord} {value : Expr} {y : V} (h : d.Sense p I x N)
    (reaching : List NodeId) (hr : d.record? s t = some r) (hv : value.eval I N = some y) :
    N.Below (N.withField s t r.fields.length y) ∧
      (d.openField s t r value reaching).Sense p I x (N.withField s t r.fields.length y) := by
  have hbelow : N.Below (N.withField s t r.fields.length y) := by
    refine Memory.withField_below fun a ha => ?_
    exact h.spare a t r _ ((record?_congr ⟨rfl, ha⟩).trans hr) (Nat.le_refl _)
  have hnew {a : Stage} (ha : s = .host ↔ a = .host) :
      N.withField s t r.fields.length y (.field a t r.fields.length) = some y :=
      if_pos ⟨rfl, ha, rfl⟩
  refine ⟨hbelow, ⟨h.leaves.params, h.leaves.locals⟩, fun a b r' i f hr' hf => ?_,
    fun a b r' i hr' hi => ?_, fun st hst w hw a decl hd => ?_, fun a st hst => ?_⟩
  · rw [openField_record?] at hr'
    split at hr'
    · rename_i hab
      obtain rfl : r.push value reaching = r' := by simpa using hr'
      obtain ⟨rfl, ha⟩ := id hab
      -- an old field keeps its value, and the last one is the new field
      rw [InterfaceRecord.push, List.getElem?_append] at hf
      split at hf
      · obtain ⟨z, hz, hN⟩ := h.fields a t r i f ((record?_congr hab).trans hr) hf
        exact ⟨z, Expr.eval_below hbelow hz, hbelow _ z hN⟩
      · rename_i hlt
        obtain ⟨hi, rfl⟩ : i - r.fields.length = 0 ∧ _ = f := by
          simpa [List.getElem?_singleton] using hf
        obtain rfl : i = r.fields.length := by omega
        exact ⟨y, Expr.eval_below hbelow hv, hnew ha⟩
    · obtain ⟨z, hz, hN⟩ := h.fields a b r' i f hr' hf
      exact ⟨z, Expr.eval_below hbelow hz, hbelow _ z hN⟩
  · rw [openField_record?] at hr'
    split at hr'
    · rename_i hab
      obtain rfl : r.push value reaching = r' := by simpa using hr'
      have hlen : r.fields.length + 1 ≤ i := by simpa [InterfaceRecord.push] using hi
      have hspare := h.spare a b r i ((record?_congr hab).trans hr) (by omega)
      rw [Memory.withField, if_neg (by omega)]
      exact hspare
    · rename_i hab
      rw [Memory.withField, if_neg fun hc => hab ⟨hc.1, hc.2.1⟩]
      exact h.spare a b r' i hr' hi
  · rw [openField_rebuilt?] at hd
    exact (h.rebuilt st hst w hw a decl hd).imp_right (·.below hbelow)
  · rcases mem_tags_openField.1 hst with hst | ⟨rfl, rfl⟩
    · exact (h.queued a st hst).below hbelow
    · exact ⟨_, y, producer_effect (Expr.eval_below hbelow hv), hnew Iff.rfl⟩

/-- What one hop gives is the value that was carried. -/
theorem Carries.sense {value e : Expr} {y : V} (h : Carries sc s t value d e d')
    (hN : d.Sense p I x N) (hv : value.eval I N = some y) :
    ∃ N', N.Below N' ∧ d'.Sense p I x N' ∧ e.eval I N' = some y := by
  cases h with
  | @found r i hr hi =>
    refine ⟨N, .refl N, hN.agree ⟨rfl, rfl, rfl, rfl⟩, ?_⟩
    obtain ⟨f, hf, -, hsame⟩ := InterfaceRecord.find?_some hi
    obtain ⟨z, hz, hfield⟩ := hN.fields s t r i f hr hf
    rw [Expr.eval_sameValue hsame, hv] at hz
    cases hz
    exact hfield
  | @opened r e hr hi he =>
    subst he
    obtain ⟨hbelow, hsense⟩ := hN.openField (sc.reaching value) hr hv
    have hfield : N.withField s t r.fields.length y (.field s t r.fields.length) = some y :=
      if_pos ⟨rfl, Iff.rfl, rfl⟩
    exact ⟨_, hbelow, hsense.agree ⟨rfl, rfl, rfl, rfl⟩, hfield⟩

theorem Relays.sense {value e : Expr} {hops : List Stage} {y : V}
    (h : Relays sc s value hops d e d') (hN : d.Sense p I x N) (hv : value.eval I N = some y) :
    ∃ N', N.Below N' ∧ d'.Sense p I x N' ∧ e.eval I N' = some y := by
  induction h generalizing N with
  | done => exact ⟨N, .refl N, hN, hv⟩
  | hop hc _ ih =>
    obtain ⟨N₁, hb₁, hN₁, he₁⟩ := hc.sense hN hv
    obtain ⟨N₂, hb₂, hN₂, he₂⟩ := ih hN₁ he₁
    exact ⟨N₂, hb₁.trans hb₂, hN₂, he₂⟩

theorem Lifts.sense {m : StageSet} {es es' : List Expr} {ys : List V}
    (h : Lifts m s t sc es d es' d') (hp : p.LocalsOnce) (hsc : ∃ o, sc = p.scope.upTo o)
    (hN : d.Sense p I x N) (hes : Expr.evalAll I N es = some ys) :
    ∃ N', N.Below N' ∧ d'.Sense p I x N' ∧ Expr.evalAll I N' es' = some ys := by
  induction h generalizing N ys with
  | nil | literal | constant => exact ⟨N, .refl N, hN, hes⟩
  | cons _ _ ih ihs =>
    obtain ⟨y, hy, hes⟩ := Option.bind_eq_some_iff.1 hes
    obtain ⟨zs, hzs, rfl⟩ := Option.map_eq_some_iff.1 hes
    obtain ⟨N₁, hb₁, hN₁, he₁⟩ := ih hsc hN (Expr.evalAll_one.2 ⟨y, rfl, hy⟩)
    obtain ⟨N₂, hb₂, hN₂, he₂⟩ := ihs hsc hN₁ (Expr.evalAll_below hb₁ hzs)
    have he₁' := Expr.evalAll_below hb₂ he₁
    exact ⟨N₂, hb₁.trans hb₂, hN₂, Expr.evalAll_cons.2 ⟨(Expr.evalAll_cons.1 he₁').1, he₂⟩⟩
  | construct _ ih =>
    obtain ⟨y, rfl, hy⟩ := Expr.evalAll_one.1 hes
    obtain ⟨zs, hzs, rfl⟩ := Option.map_eq_some_iff.1 hy
    obtain ⟨N₁, hb₁, hN₁, he₁⟩ := ih hsc hN hzs
    exact ⟨N₁, hb₁, hN₁, Expr.evalAll_one.2 ⟨_, rfl, by rw [Expr.eval, he₁]; rfl⟩⟩
  | unary _ ih | cast _ ih =>
    obtain ⟨y, rfl, hy⟩ := Expr.evalAll_one.1 hes
    obtain ⟨z, hz, rfl⟩ := Option.map_eq_some_iff.1 hy
    obtain ⟨N₁, hb₁, hN₁, he₁⟩ := ih hsc hN (Expr.evalAll_one.2 ⟨z, rfl, hz⟩)
    exact ⟨N₁, hb₁, hN₁,
      Expr.evalAll_one.2 ⟨_, rfl, by rw [Expr.eval, (Expr.evalAll_cons.1 he₁).1]; rfl⟩⟩
  | @redeclare sc n v name written decl o init d d₁ hw hd hi ih =>
    obtain ⟨o', rfl⟩ := hsc
    obtain ⟨y, rfl, hy⟩ := Expr.evalAll_one.1 hes
    have hv : N (.var (.localVar v)) = some y := hy
    obtain ⟨st, hst, rfl, hact, hvar, -⟩ := hp.step_of_find hw
    -- The declaration that is lifted has the local's value, whichever version it is.
    have hdecl : decl.var = written.var ∧ decl.init.eval I N = some y := by
      subst hd
      cases hr : d.rebuilt? st.id s with
      | none => exact ⟨rfl, hp.eval_written hN.leaves hw hv⟩
      | some decl' =>
        obtain ⟨hvar', z, hz, hgiven⟩ := hN.rebuilt st hst written hact s decl' hr
        have hzy : N (.var (.localVar v)) = some z := hvar ▸ hvar' ▸ hgiven
        cases hv.symm.trans hzy
        exact ⟨hvar', hz⟩
    obtain ⟨N₁, hb₁, hN₁, he₁⟩ :=
      ih ⟨st.id, Scope.before_upTo hw⟩ hN (Expr.evalAll_one.2 ⟨y, rfl, hdecl.2⟩)
    have hv₁ : N₁ (.var (.localVar v)) = some y := hb₁ _ y hv
    refine ⟨N₁, hb₁, hN₁.redeclare hp hst hact hdecl.1 ⟨y, (Expr.evalAll_cons.1 he₁).1, ?_⟩,
      Expr.evalAll_one.2 ⟨y, rfl, hv₁⟩⟩
    exact (hdecl.1.trans hvar).symm ▸ hv₁
  | transfer _ _ hd =>
    obtain ⟨y, rfl, hy⟩ := Expr.evalAll_one.1 hes
    obtain ⟨N₁, hb₁, hN₁, he₁⟩ := hd.sense hN hy
    exact ⟨N₁, hb₁, hN₁, Expr.evalAll_one.2 ⟨y, rfl, he₁⟩⟩

theorem Promotes.sense {m : StageSet} {pl wanted : Placement} {e e' : Expr} {y : V}
    (h : Promotes m sc pl wanted e d e' d') (hp : p.LocalsOnce) (hsc : ∃ o, sc = p.scope.upTo o)
    (hN : d.Sense p I x N) (he : e.eval I N = some y) :
    ∃ N', N.Below N' ∧ d'.Sense p I x N' ∧ e'.eval I N' = some y := by
  cases h with
  | keep => exact ⟨N, .refl N, hN, he⟩
  | lift _ hl =>
    obtain ⟨N₁, hb₁, hN₁, he₁⟩ := hl.sense hp hsc hN (Expr.evalAll_one.2 ⟨y, rfl, he⟩)
    exact ⟨N₁, hb₁, hN₁, (Expr.evalAll_cons.1 he₁).1⟩

end Draft

namespace Aim

open Draft

variable {a : Aim} {I : Interp V} {x : Nat → V} {N : Memory V} {d d' : Draft} {sc : Scope}

theorem PromotesAll.sense {wanted : Placement} {ts : List Traced} {es : List Expr} {ys : List V}
    (h : a.PromotesAll sc wanted ts d es d') (hp : a.pipeline.LocalsOnce)
    (hsc : ∃ o, sc = a.pipeline.scope.upTo o) (hN : d.Sense a.pipeline I x N)
    (hts : Expr.evalAll I N (ts.map (·.expr)) = some ys) :
    ∃ N', N.Below N' ∧ d'.Sense a.pipeline I x N' ∧ Expr.evalAll I N' es = some ys := by
  induction h generalizing N ys with
  | nil => exact ⟨N, .refl N, hN, hts⟩
  | cons h _ ih =>
    obtain ⟨y, hy, hts⟩ := Option.bind_eq_some_iff.1 hts
    obtain ⟨zs, hzs, rfl⟩ := Option.map_eq_some_iff.1 hts
    obtain ⟨N₁, hb₁, hN₁, he₁⟩ := h.sense hp hsc hN hy
    obtain ⟨N₂, hb₂, hN₂, he₂⟩ := ih hN₁ (Expr.evalAll_below hb₁ hzs)
    exact ⟨N₂, hb₁.trans hb₂, hN₂, Expr.evalAll_cons.2 ⟨Expr.eval_below hb₂ he₁, he₂⟩⟩

/-- In a memory above `N`, the draft makes sense and `es'` have the values that `es` have in `m`. -/
def Renders (a : Aim) (I : Interp V) (x : Nat → V) (N m : Memory V) (es es' : List Expr)
    (d : Draft) : Prop :=
  ∃ N' ys, N.Below N' ∧ d.Sense a.pipeline I x N' ∧ Expr.evalAll I m es = some ys ∧
    Expr.evalAll I N' es' = some ys

theorem renders_one {m : Memory V} {e e' : Expr} : a.Renders I x N m [e] [e'] d ↔
    ∃ N' y, N.Below N' ∧ d.Sense a.pipeline I x N' ∧ e.eval I m = some y ∧
    e'.eval I N' = some y := by
  simp only [Renders, Expr.evalAll_one]
  constructor
  · rintro ⟨N', _, hb, hN, ⟨y, rfl, hy⟩, z, hz, hz'⟩
    cases hz
    exact ⟨N', y, hb, hN, hy, hz'⟩
  · rintro ⟨N', y, hb, hN, hy, hy'⟩
    exact ⟨N', [y], hb, hN, ⟨y, rfl, hy⟩, y, rfl, hy'⟩

theorem Renders.promoteAll {m : Memory V} {wanted : Placement} {es es' : List Expr}
    {ts : List Traced} (h : a.Renders I x N m es (ts.map (·.expr)) d) (hp : a.pipeline.LocalsOnce)
    (hsc : ∃ o, sc = a.pipeline.scope.upTo o) (ha : a.PromotesAll sc wanted ts d es' d') :
    a.Renders I x N m es es' d' := by
  obtain ⟨N₁, ys, hb₁, hN₁, hes, hts⟩ := h
  obtain ⟨N₂, hb₂, hN₂, hes'⟩ := ha.sense hp hsc hN₁ hts
  exact ⟨N₂, ys, hb₁.trans hb₂, hN₂, hes, hes'⟩

theorem Renders.map {m : Memory V} {e e' z z' : Expr} (h : a.Renders I x N m [e] [e'] d) (f : V → V)
    (hz : z.eval I m = (e.eval I m).map f) (hz' : ∀ N', z'.eval I N' = (e'.eval I N').map f) :
    a.Renders I x N m [z] [z'] d := by
  obtain ⟨N', y, hb, hN, hy, hy'⟩ := renders_one.1 h
  refine renders_one.2 ⟨N', f y, hb, hN, ?_, ?_⟩
  · rw [hz, hy, Option.map_some]
  · rw [hz', hy', Option.map_some]

theorem Renders.mapAll {m : Memory V} {es es' : List Expr} {z z' : Expr}
    (h : a.Renders I x N m es es' d) (f : List V → V)
    (hz : z.eval I m = (Expr.evalAll I m es).map f)
    (hz' : ∀ N', z'.eval I N' = (Expr.evalAll I N' es').map f) : a.Renders I x N m [z] [z'] d := by
  obtain ⟨N', ys, hb, hN, hys, hys'⟩ := h
  refine renders_one.2 ⟨N', f ys, hb, hN, ?_, ?_⟩
  · rw [hz, hys, Option.map_some]
  · rw [hz', hys', Option.map_some]

/-- What tracing gives has the value that the body gives it. -/
theorem Traces.renders {m : Bool} {es : List Expr} {ts : List Traced} (h : a.Traces sc m es d ts d')
    (hp : a.pipeline.LocalsOnce) (hbare : a.pipeline.BareSwizzles)
    (hsc : ∃ o, sc = a.pipeline.scope.upTo o) (hes : ∀ e ∈ es, a.pipeline.Plain e)
    (hN : d.Sense a.pipeline I x N) :
    a.Renders I x N (sc.run I (.input x)) es (ts.map (·.expr)) d' := by
  induction h generalizing N with
  | nil => exact ⟨N, [], .refl N, hN, rfl, rfl⟩
  | cons _ _ ih ihs =>
    obtain ⟨N₁, y, hb₁, hN₁, hy, ht⟩ := renders_one.1 (ih hsc (by simpa using hes _ (by simp)) hN)
    obtain ⟨N₂, ys, hb₂, hN₂, hys, hts⟩ := ihs hsc (fun e he => hes e (by simp [he])) hN₁
    exact ⟨N₂, y :: ys, hb₁.trans hb₂, hN₂, Expr.evalAll_cons.2 ⟨hy, hys⟩,
      Expr.evalAll_cons.2 ⟨Expr.eval_below hb₂ ht, hts⟩⟩
  | literal | constant => exact renders_one.2 ⟨N, _, .refl N, hN, rfl, rfl⟩
  | @param sc m n i q d d' hq _ _ hd =>
    obtain ⟨o, rfl⟩ := hsc
    have hi : a.pipeline.isOutput i = false := (hes (.param n i) (by simp)).2.self
    have hagree : d.Agrees d' := hd ▸ Draft.agrees_capture ..
    refine renders_one.2 ⟨N, x i, .refl N, hN.agree hagree, ?_, ?_⟩
    · exact hp.run_input (fun _ => Scope.upTo_subset) hi
    · rw [Expr.eval, hN.leaves.params, hi]
      rfl
  | @declared sc m n v name written o t s d d₁ _ hw _ hs ih =>
    obtain ⟨o', rfl⟩ := hsc
    obtain ⟨st, hst, rfl, hact, hvar, hq⟩ := hp.step_of_find hw
    have hterm : written.init ∈ a.pipeline.scope.terms := Scope.terms_upTo (Scope.find_value_mem hw)
    obtain ⟨N₁, y, hb₁, hN₁, hy, ht⟩ :=
      renders_one.1 (ih ⟨st.id, Scope.before_upTo hw⟩ (by simpa using ⟨hterm, hq⟩) hN)
    have hrun : (a.pipeline.scope.upTo o').run I (.input x) (.var (.localVar v)) = some y := by
      rw [Scope.run_declared (Scope.nodup_upTo hp.steps o') hw, hy]
    have hv : N₁ (.var (.localVar v)) = some y := by
      rw [hN₁.leaves.locals]
      exact hp.run_mono (by simp) hrun
    exact renders_one.2 ⟨N₁, y, hb₁, hN₁.declare hp hst hact hvar.symm ⟨y, ht, hv⟩, hrun, hv⟩
  | @assigned sc m n v name z o t s d d₁ _ hw _ _ _ =>
    obtain ⟨o', rfl⟩ := hsc
    -- a local is written by its declaration alone
    obtain ⟨_, _, _, _, _, hsite, -⟩ := hp.find_local (fun _ => Scope.upTo_subset) hw
    cases hsite
  | @binary sc m n op lhs rhs lhs' rhs' l r pl d d₁ d₂ d₃ d₄ _ _ _ pl' pr ihl ihr =>
    have hop : op.isAssignment = false := (hes (.binary n op lhs rhs) (by simp)).2.self
    have hl := ihl hsc (Pipeline.Plain.parts hes (by simp [Expr.self_mem_subterms])) hN
    obtain ⟨N₁, y, hb₁, hN₁, hy, hl⟩ := renders_one.1 hl
    have hr := ihr hsc (Pipeline.Plain.parts hes (by simp [Expr.self_mem_subterms])) hN₁
    obtain ⟨N₂, z, hb₂, hN₂, hz, hr⟩ := renders_one.1 hr
    obtain ⟨N₃, hb₃, hN₃, hl'⟩ := pl'.sense hp hsc hN₂ (Expr.eval_below hb₂ hl)
    obtain ⟨N₄, hb₄, hN₄, hr'⟩ := pr.sense hp hsc hN₃ (Expr.eval_below hb₃ hr)
    have hl'' := Expr.eval_below hb₄ hl'
    refine renders_one.2
      ⟨N₄, I.binary n.ty op y z, ((hb₁.trans hb₂).trans hb₃).trans hb₄, hN₄, ?_, ?_⟩
    · simp [hop, hy, hz]
    · simp [hop, hl'', hr']
  | @unary sc m n op e t d d₁ _ ih =>
    have ht := ih hsc (Pipeline.Plain.parts hes (by simp [Expr.self_mem_subterms])) hN
    exact ht.map (I.unary n.ty op) rfl fun _ => rfl
  | @cast sc m n e t d d₁ _ _ ih =>
    have ht := ih hsc (Pipeline.Plain.parts hes (by simp [Expr.self_mem_subterms])) hN
    exact ht.map (I.cast n.ty) rfl fun _ => rfl
  | @member sc m n base field t d d₁ _ _ ih =>
    have ht := ih hsc (Pipeline.Plain.parts hes (by simp [Expr.self_mem_subterms])) hN
    exact ht.map (I.member n.ty field) rfl fun _ => rfl
  | @construct sc m n args args' ts d d₁ d₂ _ _ ha ih =>
    have hargs := ih hsc (Pipeline.Plain.parts hes fun e he => by simp [Expr.mem_subtermsOf he]) hN
    exact (hargs.promoteAll hp hsc ha).mapAll (I.construct n.ty) rfl fun _ => rfl
  | @initList sc m n items items' ts d d₁ d₂ _ ha ih =>
    have hargs := ih hsc (Pipeline.Plain.parts hes fun e he => by simp [Expr.mem_subtermsOf he]) hN
    exact (hargs.promoteAll hp hsc ha).mapAll (I.initList n.ty) rfl fun _ => rfl
  | @call sc m n func f args args' ts pl d d₁ d₂ _ _ _ ha ih =>
    have hargs := ih hsc (Pipeline.Plain.parts hes fun e he => by simp [Expr.mem_subtermsOf he]) hN
    exact (hargs.promoteAll hp hsc ha).mapAll (I.call n.ty func) rfl fun _ => rfl
  | @sample sc m n method f object uv uv' sampler texture k s t d d₁ d₂ d₃ _ _ ho _ hpr hk ih =>
    have hx := hes (.methodCall n method object [uv, sampler]) (by simp)
    have ht := ih hsc (Pipeline.Plain.parts hes (by simp [Expr.self_mem_subterms])) hN
    obtain ⟨N₁, y, hb₁, hN₁, hy, ht⟩ := renders_one.1 ht
    obtain ⟨N₂, hb₂, hN₂, huv⟩ := hpr.sense hp hsc hN₁ ht
    obtain ⟨n', q, rfl, -⟩ := sampledStage_ok ho
    obtain ⟨-, n'', c, rfl⟩ := Draft.sample_agrees hk
    have hi : a.pipeline.isOutput texture = false := hx.2 (.param n' texture) (by simp)
    obtain ⟨o, rfl⟩ := hsc
    have hobject :
        (a.pipeline.scope.upTo o).run I (.input x) (.var (.param texture)) = some (x texture) :=
      hp.run_input (fun _ => Scope.upTo_subset) hi
    have hobject' : N₂ (.var (.param texture)) = some (x texture) := by
      rw [hN₂.leaves.params, hi]
      rfl
    refine renders_one.2 ⟨N₂, I.method n.ty method (x texture) [y, I.constant n''.ty c],
      hb₁.trans hb₂, ?_, ?_, ?_⟩
    · exact hN₂.agree (Draft.agrees_sample hk)
    · simp [hobject, hy]
    · simp [hobject', huv]
  | @method sc m n method f object args t ts d d₁ d₂ hm hs _ ha ih _ =>
    have hx := hes (.methodCall n method object args) (by simp)
    obtain rfl : args = [] := hbare n method object args f hx.1 hm hs
    cases ha
    have ht := ih hsc (Pipeline.Plain.parts hes (by simp [Expr.self_mem_subterms])) hN
    exact ht.map (I.method n.ty method · []) Option.map_eq_bind.symm fun _ =>
      Option.map_eq_bind.symm

end Aim
end ShaderSplit
