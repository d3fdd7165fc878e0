import Mathlib.Data.List.Forall2
import ShaderSplit.Proofs.Partition.WiredTrace

namespace ShaderSplit

namespace Expr

attribute [simp] locals localsOf

def isDeclared (sc : Scope) (v : LocalId) : Bool :=
  match sc.find (.localVar v) with
  | some ⟨.declaration _, _⟩ => true
  | _ => false

def isDeclaredLocal (sc : Scope) : Expr → Bool
  | localVar _ v _ => isDeclared sc v
  | _ => false

theorem isDeclaredLocal_iff {sc : Scope} {e : Expr} :
    e.isDeclaredLocal sc = true ↔ ∃ n v name, e = localVar n v name ∧ isDeclared sc v = true := by
  cases e <;> simp [isDeclaredLocal]

/-- A variable, maybe through members and swizzles. -/
def isPlace : Expr → Bool
  | param .. | localVar .. => true
  | member _ e _ | methodCall _ _ e [] => e.isPlace
  | _ => false

mutual
/-- The locals that are still named after lifting. -/
@[simp] def kept (sc : Scope) : Expr → List LocalId
  | localVar _ v _ => if isDeclared sc v then [v] else []
  | construct _ args => keptOf sc args
  | unary _ _ e | cast _ e => e.kept sc
  | _ => []
@[simp] def keptOf (sc : Scope) : List Expr → List LocalId
  | [] => []
  | e :: es => e.kept sc ++ keptOf sc es
end

theorem keptOf_eq (sc : Scope) (es : List Expr) : keptOf sc es = es.flatMap (kept sc) := by
  induction es with
  | nil => rfl
  | cons e es ih => rw [keptOf, ih, List.flatMap_cons]

theorem kept_of_crosses {sc : Scope} {e : Expr} (h : e.crosses sc = true) : e.kept sc = [] := by
  cases e with
  | localVar n v name =>
    have hd : isDeclared sc v = false := by
      unfold isDeclared
      split
      · rename_i written o hw
        exact absurd ⟨written, o, hw⟩ (crosses_localVar.1 h)
      · rfl
    simp [hd]
  | literal | constant | construct | unary | cast => simp [crosses] at h
  | _ => rfl

theorem kept_subset {sc : Scope} {v : LocalId} {e : Expr} (h : v ∈ e.kept sc) : v ∈ e.locals := by
  induction e using ind with
  | localVar n u name =>
    rw [kept] at h
    split at h
    · exact h
    · cases h
  | construct n es ih =>
    rw [kept, keptOf_eq] at h
    obtain ⟨e, he, hv⟩ := List.mem_flatMap.1 h
    rw [locals, localsOf_eq]
    exact List.mem_flatMap.2 ⟨e, he, ih e he hv⟩
  | unary n op e ih | cast n e ih => exact ih h
  | _ => cases h

end Expr

namespace Draft

theorem Relays.interface {sc : Scope} {s : Stage} {value e : Expr} {hops : List Stage}
    {d d' : Draft} (h : Relays sc s value hops d e d') (hne : hops ≠ []) :
    ∃ n r, e = .interface n r := by
  induction h with
  | done => exact absurd rfl hne
  | @hop s t value next last rest d d₁ d₂ hc hr ih =>
    cases rest with
    | nil =>
      cases hr
      cases hc <;> exact ⟨_, _, rfl⟩
    | cons u rest => exact ih (by simp)

theorem Route.ne_nil {m : StageSet} {s t : Stage} {hops : List Stage} (h : Route m s t hops) :
    hops ≠ [] := by
  rcases h with ⟨-, rfl⟩ | ⟨-, -, hl⟩
  · simp
  · rintro rfl
    simp at hl

theorem Promotes.upto {m : StageSet} {sc : Scope} {q : Placement} {s : Stage} {e e' : Expr}
    {d d' : Draft} (h : Promotes m sc q (some s) e d e' d') : q.Upto s := by
  cases h with
  | keep h =>
    rcases h with rfl | h | rfl
    · exact Placement.upto_none s
    · cases h
    · exact Placement.upto_some.2 (le_refl s)
  | lift hst _ => exact Placement.upto_some.2 (le_of_lt hst)

/-- What is lifted names the locals that it keeps, and keeps them when it is lifted again. -/
theorem Lifts.kept {m : StageSet} {s t : Stage} {sc : Scope} {es es' : List Expr} {d d' : Draft}
    (h : Lifts m s t sc es d es' d') :
    es'.map Expr.locals = es.map (Expr.kept sc) ∧
    es'.map (Expr.kept sc) = es.map (Expr.kept sc) := by
  induction h with
  | nil => exact ⟨rfl, rfl⟩
  | cons _ _ ih ihs => simp_all
  | literal | constant => exact ⟨rfl, rfl⟩
  | construct _ ih =>
    simp only [List.map_cons, List.map_nil, Expr.locals, Expr.localsOf_eq, Expr.kept,
      Expr.keptOf_eq, List.flatMap_def, ih.1, ih.2, and_self]
  | unary _ ih | cast _ ih => simpa [Expr.locals] using ih
  | redeclare hw _ _ _ => simp [Expr.locals, Expr.isDeclared, hw]
  | transfer hc hr hd =>
    obtain ⟨n, r, rfl⟩ := hd.interface hr.ne_nil
    simp [Expr.locals, Expr.kept_of_crosses hc]

theorem Lifts.declared {m : StageSet} {s t : Stage} {sc : Scope} {es es' : List Expr} {d d' : Draft}
    (h : Lifts m s t sc es d es' d')
    (hes : ∀ e ∈ es, e.isDeclaredLocal sc = true) : es' = es := by
  induction h with
  | nil | redeclare => rfl
  | cons _ _ ih ihs =>
    have h₁ := ih (by simpa using hes _ (by simp))
    have h₂ := ihs fun e he => hes e (by simp [he])
    simp_all
  | literal | constant | construct | unary | cast => simp [Expr.isDeclaredLocal] at hes
  | @transfer sc e e' hops d d' hc _ _ =>
    obtain ⟨n, v, name, rfl, hv⟩ := Expr.isDeclaredLocal_iff.1 (hes e (by simp))
    simpa [hv] using Expr.kept_of_crosses hc

end Draft

def Placement.before : Placement → Placement → Bool
  | some s, some t => s < t
  | _, _ => false

namespace Aim

section
variable (a : Aim)

mutual
/-- Places within a scope; `lower` places within a shorter one. -/
@[simp] def placeIn (sc : Scope) (lower : (s : Scope) → s.length < sc.length → Expr → Placement) :
    Expr → Placement
  | .literal .. | .constant .. | .interface .. | .unsupported .. => none
  | .param _ i => a.pipeline.fn.params[i]?.map (·.role.stage)
  | .localVar _ v _ =>
    match h : sc.find (.localVar v) with
    | none => none
    | some w => some ((lower (sc.before w) (Scope.length_before_lt h) w.site.value).getD a.target)
  | .binary _ op lhs rhs =>
    let l := placeIn sc lower lhs
    let r := placeIn sc lower rhs
    a.wait (a.waits op l r) (l.later r)
  | .unary _ _ e | .cast _ e | .member _ e _ => placeIn sc lower e
  | .construct _ args | .initList _ args => placement (placeAllIn sc lower args)
  | .call _ func args =>
    let ts := placeAllIn sc lower args
    a.wait ((a.pipeline.catalog.function? func).any (a.callWaits · ts)) (placement ts)
  | .methodCall _ _ object args =>
    (placement (placeAllIn sc lower args)).later (placeIn sc lower object)
@[simp] def placeAllIn (sc : Scope)
    (lower : (s : Scope) → s.length < sc.length → Expr → Placement) : List Expr → List Traced
  | [] => []
  | e :: es => ⟨e, placeIn sc lower e⟩ :: placeAllIn sc lower es
end

def placeBelow : (n : Nat) → (sc : Scope) → sc.length < n → Expr → Placement
  | 0, _, h => (Scope.not_length_lt_zero h).elim
  | n + 1, sc, h =>
    a.placeIn sc fun s hs => placeBelow n s (Scope.length_lt_of_lt hs h)

/-- The stage in which a value is computed; none for what is constant. -/
def place (sc : Scope) (e : Expr) : Placement := a.placeBelow (sc.length + 1) sc sc.length_lt e

def placeAll (sc : Scope) (es : List Expr) : List Traced := es.map fun e => ⟨e, a.place sc e⟩

end

variable {a : Aim} {sc : Scope}

theorem place_eq : a.place sc = a.placeIn sc fun s _ => a.place s := by
  funext e
  rw [place, placeBelow]
  congr 1
  funext s hs
  exact Scope.below_eq (f := a.placeIn) (fun _ _ _ => rfl) _ _

theorem placeAllIn_eq (es : List Expr) :
    a.placeAllIn sc (fun s _ => a.place s) es = a.placeAll sc es := by
  induction es with
  | nil => rfl
  | cons e es ih => rw [placeAllIn, ih, ← place_eq, placeAll, placeAll, List.map_cons]

@[simp] theorem place_literal {n : Node} {v : Literal} : a.place sc (.literal n v) = none := by
  rw [place_eq, placeIn]

@[simp] theorem place_constant {n : Node} {v : ConstValue} : a.place sc (.constant n v) = none := by
  rw [place_eq, placeIn]

@[simp] theorem place_interface {n : Node} {r : InterfaceRef} :
    a.place sc (.interface n r) = none := by
  rw [place_eq, placeIn]

@[simp] theorem place_unsupported {n : Node} {what : String} :
    a.place sc (.unsupported n what) = none := by
  rw [place_eq, placeIn]

@[simp] theorem place_param {n : Node} {i : Nat} :
    a.place sc (.param n i) = a.pipeline.fn.params[i]?.map (·.role.stage) := by
  rw [place_eq, placeIn]

theorem place_unreached {n : Node} {v : LocalId} {name : String}
    (h : sc.find (.localVar v) = none) :
    a.place sc (.localVar n v name) = none := by
  rw [place_eq, placeIn]
  split
  · rfl
  · rename_i hw
    cases h.symm.trans hw

theorem place_localVar {n : Node} {v : LocalId} {name : String} {w : Write}
    (h : sc.find (.localVar v) = some w) :
    a.place sc (.localVar n v name) =
      some ((a.place (sc.before w) w.site.value).getD a.target) := by
  rw [place_eq, placeIn]
  split
  · rename_i hw
    cases h.symm.trans hw
  · rename_i hw
    cases h.symm.trans hw
    rfl

@[simp] theorem place_binary {n : Node} {op : BinaryOp} {lhs rhs : Expr} :
    a.place sc (.binary n op lhs rhs) =
      a.wait (a.waits op (a.place sc lhs) (a.place sc rhs))
        ((a.place sc lhs).later (a.place sc rhs)) := by
  rw [place_eq, placeIn]

@[simp] theorem place_unary {n : Node} {op : UnaryOp} {e : Expr} :
    a.place sc (.unary n op e) = a.place sc e := by
  rw [place_eq, placeIn]

@[simp] theorem place_cast {n : Node} {e : Expr} : a.place sc (.cast n e) = a.place sc e := by
  rw [place_eq, placeIn]

@[simp] theorem place_member {n : Node} {e : Expr} {f : String} :
    a.place sc (.member n e f) = a.place sc e := by
  rw [place_eq, placeIn]

@[simp] theorem place_construct {n : Node} {args : List Expr} :
    a.place sc (.construct n args) = placement (a.placeAll sc args) := by
  rw [place_eq, placeIn, placeAllIn_eq]

@[simp] theorem place_initList {n : Node} {args : List Expr} :
    a.place sc (.initList n args) = placement (a.placeAll sc args) := by
  rw [place_eq, placeIn, placeAllIn_eq]

@[simp] theorem place_call {n : Node} {func : DeclId} {args : List Expr} :
    a.place sc (.call n func args) =
      a.wait ((a.pipeline.catalog.function? func).any (a.callWaits · (a.placeAll sc args)))
        (placement (a.placeAll sc args)) := by
  rw [place_eq, placeIn, placeAllIn_eq]

@[simp] theorem place_methodCall {n : Node} {m : DeclId} {object : Expr} {args : List Expr} :
    a.place sc (.methodCall n m object args) = (placement (a.placeAll sc args)).later
      (a.place sc object) := by
  rw [place_eq, placeIn, placeAllIn_eq]

theorem placeAll_upto {es : List Expr} {s : Stage} :
    (placement (a.placeAll sc es)).Upto s ↔ ∀ e ∈ es, (a.place sc e).Upto s := by
  simp [placement_upto, placeAll]

/-- A value is placed no earlier than its parts. -/
theorem place_subterm {s : Stage} {x e : Expr} (hx : x ∈ e.subterms) (h : (a.place sc e).Upto s) :
    (a.place sc x).Upto s := by
  have args {es : List Expr}
      (ih : ∀ e ∈ es, x ∈ e.subterms → (a.place sc e).Upto s → (a.place sc x).Upto s)
      (hx : x ∈ Expr.subtermsOf es) (h : (placement (a.placeAll sc es)).Upto s) :
      (a.place sc x).Upto s := by
    rw [Expr.subtermsOf_eq] at hx
    obtain ⟨e, he, hxe⟩ := List.mem_flatMap.1 hx
    exact ih e he hxe (placeAll_upto.1 h e he)
  induction e using Expr.ind with
  | literal | constant | param | localVar | interface | unsupported =>
    obtain rfl := List.mem_singleton.1 hx
    exact h
  | binary n op lhs rhs ihl ihr =>
    rw [Expr.subterms, List.mem_cons, List.mem_append] at hx
    rcases hx with rfl | hx | hx
    · exact h
    · exact ihl hx (Placement.later_upto.1 (wait_upto (place_binary ▸ h))).1
    · exact ihr hx (Placement.later_upto.1 (wait_upto (place_binary ▸ h))).2
  | unary n op e ih | cast n e ih | member n e f ih =>
    rcases List.mem_cons.1 hx with rfl | hx
    · exact h
    · exact ih hx (by simpa using h)
  | construct n es ih | initList n es ih =>
    rcases List.mem_cons.1 hx with rfl | hx
    · exact h
    · exact args ih hx (by simpa using h)
  | call n f es ih =>
    rcases List.mem_cons.1 hx with rfl | hx
    · exact h
    · exact args ih hx (wait_upto (place_call ▸ h))
  | methodCall n m o es iho ih =>
    rw [Expr.subterms, List.mem_cons, List.mem_append] at hx
    rcases hx with rfl | hx | hx
    · exact h
    · exact iho hx (Placement.later_upto.1 (place_methodCall ▸ h)).2
    · exact args ih hx (Placement.later_upto.1 (place_methodCall ▸ h)).1

section
variable {p : Pipeline} {s T : Stage}

/-- Waiting for a later target is no option for what is placed by `s`, and waiting for `s` changes
nothing once a part is in `s`. -/
theorem wait_stable {w w' : Bool} {q : Placement} (hT : s ≤ T)
    (h : ((⟨p, T⟩ : Aim).wait w q).Upto s) (hw : s < T → w = false → w' = true → q = some s)
    (heq : s = T → w' = w) :
    (⟨p, s⟩ : Aim).wait w' q = (⟨p, T⟩ : Aim).wait w q := by
  by_cases hs : s = T
  · rw [heq hs, hs]
  · have hlt : s < T := lt_of_le_of_ne hT hs
    have hfalse : w = false := by
      cases w with
      | false => rfl
      | true =>
        have hq : (q.later (some T)).Upto s := by simpa [wait] using h
        exact absurd (Placement.upto_some.1 (Placement.later_upto.1 hq).2) (not_le.2 hlt)
    subst hfalse
    cases w' with
    | false => rfl
    | true => simp [wait, hw hlt rfl rfl, Placement.later]

/-- Only what is placed in `s` itself counts as interpolated for later targets and not for `s`. -/
theorem interpolated_stable {q : Placement} (hT : s < T) (hq : q.Upto s) (hne : q ≠ some s) :
    (⟨p, s⟩ : Aim).interpolated q = (⟨p, T⟩ : Aim).interpolated q := by
  cases q with
  | none => rfl
  | some x =>
    have hx : x < s := lt_of_le_of_ne (hq x rfl) fun hxs => hne (congrArg some hxs)
    simp [interpolated, hx, lt_of_lt_of_le hx (le_of_lt hT)]

theorem later_eq_right {q r : Placement} (hq : q.Upto s) (hr : r = some s) :
    q.later r = some s := by
  subst hr
  cases q with
  | none => rfl
  | some x => simp [Placement.later, hq x rfl]

theorem later_eq_left {q r : Placement} (hr : r.Upto s) (hq : q = some s) : q.later r = some s := by
  subst hq
  cases r with
  | none => rfl
  | some x =>
    rw [Placement.later]
    split
    · rename_i h
      exact congrArg some (le_antisymm (hr x rfl) h)
    · rfl

theorem later_of_interpolated {q r : Placement} (hT : s < T) (hq : q.Upto s) (hr : r.Upto s)
    (h : ((⟨p, T⟩ : Aim).interpolated q != (⟨p, T⟩ : Aim).interpolated r) = false)
    (h' : ((⟨p, s⟩ : Aim).interpolated q != (⟨p, s⟩ : Aim).interpolated r) = true) :
    q.later r = some s := by
  by_cases hqs : q = some s
  · exact later_eq_left hr hqs
  · by_cases hrs : r = some s
    · exact later_eq_right hq hrs
    · rw [interpolated_stable hT hq hqs, interpolated_stable hT hr hrs, h] at h'
      cases h'

theorem waits_stable {op : BinaryOp} {q r : Placement} (hT : s < T) (hq : q.Upto s) (hr : r.Upto s)
    (h : (⟨p, T⟩ : Aim).waits op q r = false) (h' : (⟨p, s⟩ : Aim).waits op q r = true) :
    q.later r = some s := by
  cases op with
  | add | sub | mul | assign | addAssign | subAssign | mulAssign => cases h'
  | div | divAssign =>
    by_cases hrs : r = some s
    · exact later_eq_right hq hrs
    · have hr' : (⟨p, s⟩ : Aim).interpolated r = true := h'
      rw [interpolated_stable hT hr hrs] at hr'
      exact absurd (hr'.symm.trans h) (by simp)
  | _ => exact later_of_interpolated hT hq hr h h'

theorem callWaits_stable {f : BuiltinFunction} {ts : List Traced} (hT : s < T)
    (hts : ∀ t ∈ ts, t.stage.Upto s) (h : (⟨p, T⟩ : Aim).callWaits f ts = false)
    (h' : (⟨p, s⟩ : Aim).callWaits f ts = true) : placement ts = some s := by
  unfold callWaits at h h'
  split at h'
  · rename_i x y
    rw [Bool.and_eq_true] at h'
    dsimp only at h
    rw [h'.2, Bool.and_true] at h
    have hxy := later_of_interpolated hT (hts x (by simp)) (hts y (by simp)) h h'.1
    simpa [placement, Placement.later] using hxy
  · cases h'

/-- What is placed by `s` for a later target is placed there for `s` too. -/
theorem place_stable {sc : Scope} {e : Expr} (hT : s ≤ T) (h : ((⟨p, T⟩ : Aim).place sc e).Upto s) :
    (⟨p, s⟩ : Aim).place sc e = (⟨p, T⟩ : Aim).place sc e := by
  have args {es : List Expr}
      (ih : ∀ e ∈ es, ((⟨p, T⟩ : Aim).place sc e).Upto s →
        (⟨p, s⟩ : Aim).place sc e = (⟨p, T⟩ : Aim).place sc e)
      (h : (placement ((⟨p, T⟩ : Aim).placeAll sc es)).Upto s) :
      (⟨p, s⟩ : Aim).placeAll sc es = (⟨p, T⟩ : Aim).placeAll sc es :=
    List.map_congr_left fun e he => by rw [ih e he (placeAll_upto.1 h e he)]
  -- induction within the scope; a local goes on in a shorter one, by recursion
  induction e using Expr.ind with
  | literal | constant | interface | unsupported | param => simp
  | localVar n v name =>
    cases hw : sc.find (.localVar v) with
    | none => rw [place_unreached hw, place_unreached hw]
    | some w =>
      rw [place_localVar hw] at h
      rw [place_localVar hw, place_localVar hw]
      by_cases hs : s = T
      · rw [hs]
      · -- The target itself is too late, so the written value has a stage of its own.
        have hle := Placement.upto_some.1 h
        cases hv : (⟨p, T⟩ : Aim).place (sc.before w) w.site.value with
        | none =>
          rw [hv] at hle
          exact absurd (le_antisymm hT hle) hs
        | some x =>
          rw [hv] at hle
          have hlt := Scope.length_before_lt hw
          have hstable : (⟨p, s⟩ : Aim).place (sc.before w) w.site.value = some x :=
            (place_stable hT (hv ▸ Placement.upto_some.2 hle)).trans hv
          rw [hstable]
          rfl
  | binary n op lhs rhs ihl ihr =>
    rw [place_binary] at h
    obtain ⟨hl, hr⟩ := Placement.later_upto.1 (wait_upto h)
    rw [place_binary, place_binary, ihl hl, ihr hr]
    exact wait_stable hT h (fun hlt => waits_stable hlt hl hr) fun heq => by rw [heq]
  | unary n op e ih => simpa using ih (by simpa using h)
  | cast n e ih => simpa using ih (by simpa using h)
  | member n e f ih => simpa using ih (by simpa using h)
  | construct n es ih =>
    rw [place_construct] at h
    rw [place_construct, place_construct, args ih h]
  | initList n es ih =>
    rw [place_initList] at h
    rw [place_initList, place_initList, args ih h]
  | call n f es ih =>
    rw [place_call] at h
    rw [place_call, place_call, args ih (wait_upto h)]
    refine wait_stable hT h (fun hlt hfalse htrue => ?_) fun heq => by rw [heq]
    cases hf : p.catalog.function? f with
    | none => simp [hf] at htrue
    | some g =>
      have hes : ∀ t ∈ (⟨p, T⟩ : Aim).placeAll sc es, t.stage.Upto s :=
        placement_upto.1 (wait_upto h)
      exact callWaits_stable hlt hes (by simpa [hf] using hfalse) (by simpa [hf] using htrue)
  | methodCall n m o es iho ih =>
    rw [place_methodCall] at h
    obtain ⟨hes, ho⟩ := Placement.later_upto.1 h
    rw [place_methodCall, place_methodCall, iho ho, args ih hes]
termination_by sc.length

end

section
variable (a : Aim) (sc : Scope)

mutual
/-- The locals that the rebuilt form of a value names. A part that is placed before the
whole is lifted. -/
@[simp] def held : Expr → List LocalId
  | .localVar _ v _ => [v]
  | .binary n op lhs rhs =>
    let p := a.place sc (.binary n op lhs rhs)
    (if (a.place sc lhs).before p then lhs.kept sc else held lhs) ++
      if (a.place sc rhs).before p then rhs.kept sc else held rhs
  | .unary _ _ e | .cast _ e | .member _ e _ => held e
  | .construct n args => heldAll (a.place sc (.construct n args)) args
  | .initList n args => heldAll (a.place sc (.initList n args)) args
  | .call n f args => heldAll (a.place sc (.call n f args)) args
  | .methodCall n m object args =>
    held object ++ heldAll (a.place sc (.methodCall n m object args)) args
  | .literal .. | .constant .. | .param .. | .interface .. | .unsupported .. => []
@[simp] def heldAll (p : Placement) : List Expr → List LocalId
  | [] => []
  | e :: es => (if (a.place sc e).before p then e.kept sc else held e) ++ heldAll p es
end

end

section
variable {p : Pipeline} {s T : Stage}

theorem heldAll_eq {q : Placement} {es : List Expr} :
    a.heldAll sc q es = es.flatMap fun e => if (a.place sc e).before q then e.kept sc
      else a.held sc e := by
  induction es with
  | nil => rfl
  | cons e es ih => rw [heldAll, ih, List.flatMap_cons]

theorem held_subset {v : LocalId} {e : Expr} (h : v ∈ a.held sc e) : v ∈ e.locals := by
  have part {b : Bool} {x : Expr} (ih : v ∈ a.held sc x → v ∈ x.locals)
      (h : v ∈ if b = true then x.kept sc else a.held sc x) : v ∈ x.locals := by
    split at h
    · exact Expr.kept_subset h
    · exact ih h
  have args {q : Placement} {es : List Expr} (ih : ∀ x ∈ es, v ∈ a.held sc x → v ∈ x.locals)
      (h : v ∈ a.heldAll sc q es) : v ∈ Expr.localsOf es := by
    rw [heldAll_eq] at h
    obtain ⟨x, hx, hv⟩ := List.mem_flatMap.1 h
    rw [Expr.localsOf_eq]
    exact List.mem_flatMap.2 ⟨x, hx, part (ih x hx) hv⟩
  induction e using Expr.ind with
  | literal | constant | interface | unsupported | param => cases h
  | localVar => exact h
  | binary n op lhs rhs ihl ihr =>
    rw [held, List.mem_append] at h
    rw [Expr.locals, List.mem_append]
    exact h.imp (part ihl) (part ihr)
  | unary n op e ih | cast n e ih | member n e f ih => exact ih h
  | construct n es ih | initList n es ih | call n f es ih => exact args ih h
  | methodCall n m o es iho ih =>
    rw [held, List.mem_append] at h
    rw [Expr.locals, List.mem_append]
    exact h.imp iho (args ih)

/-- What is placed by `s` for a later target names the same locals if it is traced for `s`. -/
theorem held_stable {sc : Scope} {e : Expr} (hT : s ≤ T) (h : ((⟨p, T⟩ : Aim).place sc e).Upto s) :
    (⟨p, s⟩ : Aim).held sc e = (⟨p, T⟩ : Aim).held sc e := by
  have args {q : Placement} {es : List Expr} (hes : ∀ x ∈ es, ((⟨p, T⟩ : Aim).place sc x).Upto s)
      (ih : ∀ x ∈ es, ((⟨p, T⟩ : Aim).place sc x).Upto s →
        (⟨p, s⟩ : Aim).held sc x = (⟨p, T⟩ : Aim).held sc x) :
      (⟨p, s⟩ : Aim).heldAll sc q es = (⟨p, T⟩ : Aim).heldAll sc q es := by
    rw [heldAll_eq, heldAll_eq, List.flatMap_def, List.flatMap_def]
    exact congrArg _
      (List.map_congr_left fun x hx => by rw [ih x hx (hes x hx), place_stable hT (hes x hx)])
  induction e using Expr.ind with
  | literal | constant | interface | unsupported | param | localVar => rfl
  | binary n op lhs rhs ihl ihr =>
    have hl := place_subterm (x := lhs) (by simp [Expr.self_mem_subterms]) h
    have hr := place_subterm (x := rhs) (by simp [Expr.self_mem_subterms]) h
    rw [held, held, place_stable hT h, place_stable hT hl, place_stable hT hr, ihl hl, ihr hr]
  | unary n op e ih | cast n e ih | member n e f ih =>
    exact ih (place_subterm (by simp [Expr.self_mem_subterms]) h)
  | construct n es ih | initList n es ih | call n f es ih =>
    rw [held, held, place_stable hT h]
    exact args (fun x hx => place_subterm (by simp [Expr.mem_subtermsOf hx]) h) ih
  | methodCall n m o es iho ih =>
    rw [held, held, place_stable hT h, iho (place_subterm (by simp [Expr.self_mem_subterms]) h)]
    exact congrArg _ (args (fun x hx => place_subterm (by simp [Expr.mem_subtermsOf hx]) h) ih)

end

/-- What the trace of the target's outputs comes to, and in which scope. -/
inductive Reached (a : Aim) : Scope → Expr → Prop
  | output {q : Param} {i : Nat} {x : Expr} {o : NodeId} (hq : a.pipeline.fn.params[i]? = some q)
      (hr : q.role.isOutput = true) (hs : q.role.stage = a.target)
      (hw : a.pipeline.scope.find (.param i) = some ⟨.assignment x, o⟩) :
      Reached a (a.pipeline.scope.upTo o) x
  | part {sc : Scope} {e x : Expr} (h : Reached a sc e) (hx : x ∈ e.subterms) : Reached a sc x
  | write {sc : Scope} {n : Node} {v : LocalId} {name : String} {w : Write}
      (h : Reached a sc (.localVar n v name)) (hw : sc.find (.localVar v) = some w) :
      Reached a (sc.before w) w.site.value

theorem Reached.scope {e : Expr} (h : a.Reached sc e) : ∃ x, sc = a.pipeline.scope.upTo x := by
  induction h with
  | output => exact ⟨_, rfl⟩
  | part _ _ ih => exact ih
  | write _ hw ih =>
    obtain ⟨x, rfl⟩ := ih
    exact ⟨_, Scope.before_upTo hw⟩

theorem Reached.parts {y : Expr} {xs : List Expr} (hy : ∀ e ∈ [y], a.Reached sc e)
    (hxs : ∀ x ∈ xs, x ∈ y.subterms) : ∀ x ∈ xs, a.Reached sc x :=
  fun x hx => (hy y (List.mem_singleton_self y)).part (hxs x hx)

theorem Reached.mem {e : Expr} (h : a.Reached sc e) : e ∈ a.pipeline.scope.terms := by
  induction h with
  | output _ _ _ hw => exact Scope.find_value_mem hw
  | part _ hx ih => exact Scope.terms_trans hx ih
  | write h hw _ =>
    obtain ⟨x, rfl⟩ := h.scope
    exact Scope.terms_upTo (Scope.find_value_mem hw)

/-- In a value, and in all that it can see, the methods that do not sample take no arguments. -/
def Bare (a : Aim) (sc : Scope) (e : Expr) : Prop :=
  ∀ n m object args f, .methodCall n m object args ∈ e.subterms ++ sc.terms →
    a.pipeline.catalog.method? m = some f → f.isSample = false → args = []

theorem Bare.part {e x : Expr} (h : a.Bare sc e) (hx : x ∈ e.subterms) : a.Bare sc x := by
  intro n m object args f hm
  refine h n m object args f ?_
  rw [List.mem_append] at hm ⊢
  exact hm.imp_left fun hm => Expr.subterms_trans hm hx

theorem Bare.parts {y : Expr} {xs : List Expr} (hy : ∀ e ∈ [y], a.Bare sc e)
    (hxs : ∀ x ∈ xs, x ∈ y.subterms) : ∀ x ∈ xs, a.Bare sc x :=
  fun x hx => (hy y (List.mem_singleton_self y)).part (hxs x hx)

theorem Bare.write {e : Expr} {v : Var} {w : Write} (h : a.Bare sc e) (hw : sc.find v = some w) :
    a.Bare (sc.before w) w.site.value := by
  intro n m object args f hm
  refine h n m object args f (List.mem_append_right _ ?_)
  rcases List.mem_append.1 hm with hm | hm
  · exact Scope.terms_trans hm (Scope.find_value_mem hw)
  · exact Scope.terms_upTo hm

theorem Reached.bare {e : Expr} (h : a.Reached sc e) (hbare : a.pipeline.BareSwizzles) :
    a.Bare sc e := by
  intro n m object args f hm
  refine hbare n m object args f ?_
  rcases List.mem_append.1 hm with hm | hm
  · exact Scope.terms_trans hm h.mem
  · obtain ⟨x, rfl⟩ := h.scope
    exact Scope.terms_upTo hm

def Early (a : Aim) (sc : Scope) (q : Placement) (v : LocalId) : Prop :=
  ∃ w s, sc.find (.localVar v) = some w ∧ q = some s ∧
    (a.place (sc.before w) w.site.value).getD a.target ≤ s

structure Rebuilds (a : Aim) (sc : Scope) (e : Expr) (t : Traced) : Prop where
  stage : t.stage = a.place sc e
  locals : t.expr.locals = a.held sc e
  kept : t.expr.kept sc = e.kept sc
  early : ∀ v ∈ t.expr.locals, a.Early sc t.stage v
  shape : (∀ n r, t.expr ≠ .interface n r) ∧ ∀ n v name, e = .localVar n v name → t.expr = e

structure Reaches (a : Aim) (sc : Scope) (wanted : Placement) (e e' : Expr) : Prop where
  locals : e'.locals = if (a.place sc e).before wanted then e.kept sc else a.held sc e
  kept : e'.kept sc = e.kept sc
  early : ∀ v ∈ e'.locals, a.Early sc wanted v

theorem Rebuilds.promotes {m : StageSet} {wanted : Placement} {e e' : Expr} {t : Traced}
    {d d' : Draft} (h : a.Rebuilds sc e t) (hp : Draft.Promotes m sc t.stage wanted t.expr d e' d')
    (hnone : wanted = none → t.stage = none) : a.Reaches sc wanted e e' := by
  obtain ⟨hstage, hlocals, hkept, hearly, -⟩ := h
  rw [hstage] at hp hnone hearly
  generalize hplace : a.place sc e = q at hp hnone hearly
  cases hp with
  | keep hq =>
    -- a value that is kept has no stage or is there already
    obtain rfl | rfl : q = none ∨ q = wanted := by
      rcases hq with rfl | rfl | rfl
      · exact .inl rfl
      · exact .inl (hnone rfl)
      · exact .inr rfl
    · refine ⟨by rw [hlocals, hplace]; rfl, hkept, fun v hv => ?_⟩
      obtain ⟨_, _, -, hs, -⟩ := hearly v hv
      cases hs
    · refine ⟨hlocals.trans (if_neg ?_).symm, hkept, hearly⟩
      rw [hplace]
      cases q <;> simp [Placement.before]
  | @lift s u _ _ _ _ hsu hl =>
    obtain ⟨hl, hk⟩ := hl.kept
    simp only [List.map_cons, List.map_nil, List.cons.injEq, and_true] at hl hk
    refine ⟨?_, hk.trans hkept, fun v hv => ?_⟩
    · rw [hl, hkept, hplace]
      simp [Placement.before, hsu]
    · obtain ⟨w, x, hw, hx, hle⟩ := hearly v (Expr.kept_subset (hl ▸ hv))
      cases hx
      exact ⟨w, u, hw, rfl, le_trans hle (le_of_lt hsu)⟩

theorem Rebuilds.promotesAll {wanted : Placement} {es es' : List Expr} {ts : List Traced}
    {d d' : Draft} (h : List.Forall₂ (a.Rebuilds sc) es ts)
    (hp : a.PromotesAll sc wanted ts d es' d') (hnone : wanted = none → ∀ t ∈ ts, t.stage = none) :
    List.Forall₂ (a.Reaches sc wanted) es es' := by
  induction h generalizing es' d with
  | nil =>
    cases hp
    exact .nil
  | cons h _ ih =>
    cases hp with
    | cons hp hps =>
      exact .cons (h.promotes hp fun hw => hnone hw _ (by simp))
        (ih hps fun hw t ht => hnone hw t (by simp [ht]))

theorem placement_congr {ts us : List Traced} (h : ts.map (·.stage) = us.map (·.stage)) :
    placement ts = placement us := by
  have fold (ts : List Traced) : placement ts = (ts.map (·.stage)).foldl Placement.later none := by
    rw [List.foldl_map, placement]
  rw [fold, fold, h]

theorem callWaits_congr {f : BuiltinFunction} {ts us : List Traced}
    (h : ts.map (·.stage) = us.map (·.stage)) :
    a.callWaits f ts = a.callWaits f us := by
  rcases ts with _ | ⟨x, _ | ⟨y, _ | ⟨z, ts⟩⟩⟩ <;> rcases us with _
    | ⟨x', _ | ⟨y', _ | ⟨z', us⟩⟩⟩ <;> simp_all [callWaits]

section
variable {es es' : List Expr} {ts : List Traced} {wanted : Placement}

theorem Rebuilds.stages (h : List.Forall₂ (a.Rebuilds sc) es ts) :
    ts.map (·.stage) = (a.placeAll sc es).map (·.stage) := by
  induction h with
  | nil => rfl
  | cons h _ ih => simp_all [placeAll, h.stage]

theorem Reaches.localsOf (h : List.Forall₂ (a.Reaches sc wanted) es es') :
    Expr.localsOf es' = a.heldAll sc wanted es := by
  induction h with
  | nil => rfl
  | cons h _ ih => rw [Expr.localsOf, ih, h.locals, heldAll]

theorem Reaches.keptOf (h : List.Forall₂ (a.Reaches sc wanted) es es') :
    Expr.keptOf sc es' = Expr.keptOf sc es := by
  induction h with
  | nil => rfl
  | cons h _ ih => rw [Expr.keptOf, ih, h.kept, Expr.keptOf]

theorem Reaches.earlyAll (h : List.Forall₂ (a.Reaches sc wanted) es es') :
    ∀ v ∈ Expr.localsOf es', a.Early sc wanted v := by
  induction h with
  | nil => exact fun v hv => absurd hv (by simp [Expr.localsOf])
  | cons h _ ih =>
    intro v hv
    rw [Expr.localsOf, List.mem_append] at hv
    exact hv.elim (h.early v) (ih v)

end

theorem Rebuilds.localVar {n : Node} {v : LocalId} {name : String} {w : Write} {t : Traced}
    {s : Stage} (hw : sc.find (.localVar v) = some w) (ht : a.Rebuilds (sc.before w) w.site.value t)
    (hs : t.stage.getD a.target = s) :
    a.Rebuilds sc (.localVar n v name) ⟨.localVar n v name, some s⟩ := by
  rw [ht.stage] at hs
  refine ⟨by rw [place_localVar hw, hs], rfl, rfl, fun u hu => ?_, by simp⟩
  obtain rfl : u = v := by simpa [Expr.locals] using hu
  exact ⟨w, s, hw, rfl, hs ▸ le_refl _⟩

/-- What tracing makes of a value follows its placement. -/
theorem Traces.rebuilds_of_bare {m : Bool} {es : List Expr} {ts : List Traced} {d d' : Draft}
    (h : a.Traces sc m es d ts d') (hes : ∀ e ∈ es, a.Bare sc e) :
    List.Forall₂ (a.Rebuilds sc) es ts := by
  induction h with
  | nil => exact .nil
  | cons _ _ ih ihs =>
    have h₁ := ih (by simpa using hes _ (by simp))
    have h₂ := ihs fun e he => hes e (by simp [he])
    exact .cons (by simpa using h₁) h₂
  | literal | constant => exact .cons ⟨by simp, rfl, rfl, by simp, by simp⟩ .nil
  | param hq _ _ _ => exact .cons ⟨by simp [hq], rfl, rfl, by simp, by simp⟩ .nil
  | @declared sc m n v name written o t s d d₁ _ hw _ hs ih =>
    have hr : a.Bare (sc.upTo o) written.init := (hes (.localVar n v name) (by simp)).write hw
    have ht : a.Rebuilds (sc.upTo o) written.init t := by simpa using ih (by simpa using hr)
    exact .cons (.localVar hw ht hs) .nil
  | @assigned sc m n v name x o t s d d₁ _ hw _ hs ih =>
    have hr : a.Bare (sc.upTo o) x := (hes (.localVar n v name) (by simp)).write hw
    have ht : a.Rebuilds (sc.upTo o) x t := by simpa using ih (by simpa using hr)
    exact .cons (.localVar hw ht hs) .nil
  | @binary sc m n op lhs rhs lhs' rhs' l r q d d₁ d₂ d₃ d₄ _ _ hq pl pr ihl ihr =>
    have hl : a.Rebuilds sc lhs l := by
      simpa using ihl (Bare.parts hes (by simp [Expr.self_mem_subterms]))
    have hr : a.Rebuilds sc rhs r := by
      simpa using ihr (Bare.parts hes (by simp [Expr.self_mem_subterms]))
    have hplace : a.place sc (.binary n op lhs rhs) = q := by
      rw [place_binary, ← hl.stage, ← hr.stage, hq]
    have hnone : q = none → l.stage = none ∧ r.stage = none := by
      rintro rfl
      exact Placement.later_eq_none.1 (wait_eq_none hq)
    have hl' := hl.promotes pl fun h => (hnone h).1
    have hr' := hr.promotes pr fun h => (hnone h).2
    refine .cons ⟨hplace.symm, ?_, rfl, fun v hv => ?_, by simp⟩ .nil
    · rw [Expr.locals, hl'.locals, hr'.locals, held, hplace]
    · rw [Expr.locals, List.mem_append] at hv
      exact hv.elim (hl'.early v) (hr'.early v)
  | unary _ ih | cast _ _ ih =>
    obtain ⟨⟩ | ⟨ht, -⟩ := ih (Bare.parts hes (by simp [Expr.self_mem_subterms]))
    exact .cons ⟨by simp [ht.stage], ht.locals, ht.kept, ht.early, by simp⟩ .nil
  | member _ _ ih =>
    obtain ⟨⟩ | ⟨ht, -⟩ := ih (Bare.parts hes (by simp [Expr.self_mem_subterms]))
    exact .cons ⟨by simp [ht.stage], ht.locals, rfl, ht.early, by simp⟩ .nil
  | @construct sc m n args args' ts d d₁ d₂ _ _ hp ih =>
    have hts := ih (Bare.parts hes fun e he => by simp [Expr.mem_subtermsOf he])
    have hargs := Rebuilds.promotesAll hts hp placement_eq_none.1
    have hplace : a.place sc (.construct n args) = placement ts := by
      rw [place_construct, placement_congr (Rebuilds.stages hts)]
    refine .cons ⟨hplace.symm, ?_, Reaches.keptOf hargs, Reaches.earlyAll hargs, by simp⟩ .nil
    rw [Expr.locals, Reaches.localsOf hargs, held, hplace]
  | @initList sc m n args args' ts d d₁ d₂ _ hp ih =>
    have hts := ih (Bare.parts hes fun e he => by simp [Expr.mem_subtermsOf he])
    have hargs := Rebuilds.promotesAll hts hp placement_eq_none.1
    have hplace : a.place sc (.initList n args) = placement ts := by
      rw [place_initList, placement_congr (Rebuilds.stages hts)]
    refine .cons ⟨hplace.symm, ?_, rfl, Reaches.earlyAll hargs, by simp⟩ .nil
    rw [Expr.locals, Reaches.localsOf hargs, held, hplace]
  | @call sc m n func f args args' ts q d d₁ d₂ hf _ hq hp ih =>
    have hts := ih (Bare.parts hes fun e he => by simp [Expr.mem_subtermsOf he])
    have hargs :=
      Rebuilds.promotesAll hts hp fun h => placement_eq_none.1 (wait_eq_none (hq.trans h))
    have hplace : a.place sc (.call n func args) = q := by
      rw [← hq, place_call, hf, placement_congr (Rebuilds.stages hts),
        callWaits_congr (Rebuilds.stages hts)]
      rfl
    refine .cons ⟨hplace.symm, ?_, rfl, Reaches.earlyAll hargs, by simp⟩ .nil
    rw [Expr.locals, Reaches.localsOf hargs, held, hplace]
  | @sample sc m n method f object uv uv' sampler texture k s t d d₁ d₂ d₃ _ _ ho _ hp hk ih =>
    have ht : a.Rebuilds sc uv t := by
      simpa using ih (Bare.parts hes (by simp [Expr.self_mem_subterms]))
    obtain ⟨n', q, rfl, hq, hs, -⟩ := sampledStage_ok ho
    obtain ⟨-, n'', c, rfl⟩ := Draft.sample_agrees hk
    have huv := ht.promotes hp (by simp)
    -- the coordinates come from no later stage, so the texture decides the place
    have hplace :
        a.place sc (.methodCall n method (.param n' texture) [uv, .constant n'' c]) = some s := by
      have hs' : a.place sc (.param n' texture) = some s := by simp [hq, hs]
      rw [place_methodCall, later_eq_right (placeAll_upto.2 ?_) hs']
      simpa [Placement.upto_none, ← ht.stage] using hp.upto
    refine .cons ⟨hplace.symm, ?_, rfl, ?_, by simp⟩ .nil
    · rw [held, hplace]
      simp [huv.locals, Placement.before]
    · simpa using huv.early
  | @method sc m n method f object args t ts d d₁ d₂ hm hs _ ha ih _ =>
    have hr := hes (.methodCall n method object args) (by simp)
    obtain rfl : args = [] := hr n method object args f (by simp) hm hs
    cases ha
    have ht : a.Rebuilds sc object t := by
      simpa using ih (Bare.parts hes (by simp [Expr.self_mem_subterms]))
    refine .cons ⟨?_, ?_, rfl, ?_, by simp⟩ .nil
    · simp [ht.stage, placeAll, placement, Placement.later]
    · simp [Expr.locals, Expr.localsOf, ht.locals]
    · simpa [Expr.locals, Expr.localsOf] using ht.early

theorem Traces.rebuilds {m : Bool} {es : List Expr} {ts : List Traced} {d d' : Draft}
    (h : a.Traces sc m es d ts d') (hbare : a.pipeline.BareSwizzles)
    (hes : ∀ e ∈ es, a.Reached sc e) : List.Forall₂ (a.Rebuilds sc) es ts :=
  h.rebuilds_of_bare fun e he => (hes e he).bare hbare

end Aim
end ShaderSplit
