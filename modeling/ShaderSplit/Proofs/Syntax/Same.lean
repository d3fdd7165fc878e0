import ShaderSplit.Proofs.Meaning.Value
import ShaderSplit.Proofs.Partition.Fields
import ShaderSplit.Proofs.Syntax.Path

namespace ShaderSplit

theorem ConstValue.same_iff {v w : ConstValue} : v.same w = true ↔ v = w :=
  ⟨eq_of_same, fun h => h ▸ same_self v⟩

def Node.anonymize (n : Node) : Node := ⟨0, n.ty, .dummy⟩

theorem Node.anonymize_eq_iff {n m : Node} : n.anonymize = m.anonymize ↔ n.ty = m.ty := by
  simp [anonymize]

namespace Expr

def Supported (e : Expr) : Prop := e.All fun x => ∀ n what, x ≠ .unsupported n what

mutual
/-- An expression without its identities, its spans and the names of its locals. -/
def anonymize : Expr → Expr
  | literal n v => literal n.anonymize v
  | constant n v => constant n.anonymize v
  | param n i => param n.anonymize i
  | localVar n v _ => localVar n.anonymize v ""
  | binary n op lhs rhs => binary n.anonymize op lhs.anonymize rhs.anonymize
  | unary n op e => unary n.anonymize op e.anonymize
  | construct n args => construct n.anonymize (anonymizeAll args)
  | cast n e => cast n.anonymize e.anonymize
  | initList n items => initList n.anonymize (anonymizeAll items)
  | call n f args => call n.anonymize f (anonymizeAll args)
  | methodCall n m object args => methodCall n.anonymize m object.anonymize (anonymizeAll args)
  | member n base field => member n.anonymize base.anonymize field
  | interface n r => interface n.anonymize r
  | unsupported n what => unsupported n.anonymize what
def anonymizeAll : List Expr → List Expr
  | [] => []
  | e :: es => e.anonymize :: anonymizeAll es
end

theorem anonymizeAll_eq (es : List Expr) : anonymizeAll es = es.map anonymize := by
  induction es with
  | nil => rfl
  | cons e es ih => rw [anonymizeAll, ih, List.map_cons]

theorem not_supported_unsupported {n : Node} {what : String} : ¬ (unsupported n what).Supported :=
  fun h => h.self n what rfl

theorem allSame_iff {es es' : List Expr}
    (ih : ∀ e ∈ es, ∀ e', e.sameValue e' = true ↔ e.Supported ∧ e.anonymize = e'.anonymize) :
    allSame es es' = true ↔ (∀ e ∈ es, e.Supported) ∧ es.map anonymize = es'.map anonymize := by
  induction es generalizing es' with
  | nil => cases es' <;> simp [allSame]
  | cons e es ihes =>
    cases es' with
    | nil => simp [allSame]
    | cons e' es' =>
      rw [allSame, Bool.and_eq_true, ih e (by simp), ihes fun x hx => ih x (by simp [hx])]
      simp only [List.forall_mem_cons, List.map_cons, List.cons.injEq]
      exact and_and_and_comm

theorem sameValue_iff {a b : Expr} :
    a.sameValue b = true ↔ a.Supported ∧ a.anonymize = b.anonymize := by
  induction a using ind generalizing b <;> cases b <;>
    simp only [sameValue, anonymize, anonymizeAll_eq, reduceCtorEq, Bool.false_eq_true, and_false,
    Bool.and_eq_true, beq_iff_eq, literal.injEq, constant.injEq, param.injEq, localVar.injEq,
    binary.injEq, unary.injEq, construct.injEq, cast.injEq, initList.injEq, call.injEq,
    methodCall.injEq, member.injEq, interface.injEq, Node.anonymize_eq_iff]
  case literal.literal | param.param | localVar.localVar | interface.interface => simp [Supported]
  case constant.constant => simp [Supported, ConstValue.same_iff]
  case binary.binary ihl ihr _ _ _ _ =>
    simp only [ihl, ihr, Supported, all_binary]
    grind
  case unary.unary ih _ _ _ | cast.cast ih _ _ | member.member ih _ _ _ =>
    simp only [ih, Supported, all_unary, all_cast, all_member]
    grind
  case construct.construct ih _ _ | initList.initList ih _ _ | call.call ih _ _ _ =>
    simp only [allSame_iff fun e he _ => ih e he, Supported, all_construct, all_initList, all_call]
    grind
  case methodCall.methodCall iho ih _ _ _ _ =>
    simp only [iho, allSame_iff fun e he _ => ih e he, Supported, all_methodCall]
    grind
  case unsupported.unsupported => simp [not_supported_unsupported]

theorem supported_anonymize {e : Expr} : e.anonymize.Supported ↔ e.Supported := by
  induction e using ind <;> simp_all [anonymize, anonymizeAll_eq, Supported]
  case unsupported => exact iff_of_false not_supported_unsupported not_supported_unsupported

variable {a b c e x : Expr}

theorem Supported.congr (h : a.anonymize = b.anonymize) : a.Supported ↔ b.Supported := by
  rw [← supported_anonymize, h, supported_anonymize]

theorem supported_of_sameValue (h : a.sameValue b = true) : a.Supported ∧ b.Supported := by
  obtain ⟨ha, hab⟩ := sameValue_iff.1 h
  exact ⟨ha, (Supported.congr hab).1 ha⟩

theorem sameValue_symm (h : a.sameValue b = true) : b.sameValue a = true :=
  sameValue_iff.2 ⟨(supported_of_sameValue h).2, (sameValue_iff.1 h).2.symm⟩

theorem sameValue_trans (hab : a.sameValue b = true) (hbc : b.sameValue c = true) :
    a.sameValue c = true :=
  sameValue_iff.2 ⟨(sameValue_iff.1 hab).1, (sameValue_iff.1 hab).2.trans (sameValue_iff.1 hbc).2⟩

theorem sameValue_congr (h : a.anonymize = b.anonymize) (x : Expr) :
    a.sameValue x = b.sameValue x ∧ x.sameValue a = x.sameValue b := by
  constructor
  · rw [Bool.eq_iff_iff, sameValue_iff, sameValue_iff, Supported.congr h, h]
  · rw [Bool.eq_iff_iff, sameValue_iff, sameValue_iff, h]

theorem anonymize_withOperands {es : List Expr} (h : es.map anonymize = e.operands.map anonymize) :
    (e.withOperands es).anonymize = e.anonymize := by
  cases e <;> simp only [operands, List.map_cons, List.map_nil] at h
  case literal | constant | param | localVar | interface | unsupported => cases es <;> rfl
  case binary =>
    obtain ⟨l, _, rfl, hl, h⟩ := List.map_eq_cons_iff.1 h
    obtain ⟨r, _, rfl, hr, h⟩ := List.map_eq_cons_iff.1 h
    obtain rfl := List.map_eq_nil_iff.1 h
    simp [withOperands, anonymize, hl, hr]
  case unary | cast | member =>
    obtain ⟨l, _, rfl, hl, h⟩ := List.map_eq_cons_iff.1 h
    obtain rfl := List.map_eq_nil_iff.1 h
    simp [withOperands, anonymize, hl]
  case construct | initList | call => simp [withOperands, anonymize, anonymizeAll_eq, h]
  case methodCall =>
    obtain ⟨o, _, rfl, ho, h⟩ := List.map_eq_cons_iff.1 h
    simp [withOperands, anonymize, anonymizeAll_eq, ho, h]

theorem anonymize_replaceAt {p : List Nat} (h : e.at? p = some a)
    (hab : a.anonymize = b.anonymize) :
    (e.replaceAt p b).anonymize = e.anonymize := by
  induction p generalizing e with
  | nil =>
    obtain rfl := Option.some.inj h
    exact hab.symm
  | cons i p ih =>
    obtain ⟨y, hy, hp⟩ := at?_cons.1 h
    refine anonymize_withOperands (List.ext_getElem? fun j => ?_)
    rw [List.getElem?_map, List.getElem?_map, List.getElem?_modify]
    by_cases hij : i = j
    · subst hij
      simp [hy, ih hp]
    · simp [hij]

/-- Supported expressions are the same value exactly if they are equal without identities, spans and
the names of locals, so sameness is an equivalence of them. An expression is the same value as
before, and the same as all it was the same as, when any part of it is replaced by one that is the
same. What has an unsupported part is the same as nothing. -/
theorem sameValue_exact :
    (∀ a b : Expr, a.Supported → b.Supported → (a.sameValue b = true ↔ a.anonymize = b.anonymize)) ∧
    (Equivalence fun a b : { e : Expr // e.Supported } => a.val.sameValue b.val = true) ∧
    (∀ (e a b : Expr) (p : List Nat), e.at? p = some a → a.sameValue b = true →
      (e.Supported → e.sameValue (e.replaceAt p b) = true) ∧
      ∀ x, (e.replaceAt p b).sameValue x = e.sameValue x ∧
        x.sameValue (e.replaceAt p b) = x.sameValue e) ∧
    ∀ a : Expr, ¬ a.Supported → ∀ x, a.sameValue x = false ∧ x.sameValue a = false := by
  refine ⟨fun a b ha _ => ?_, ⟨fun a => sameValue_self a.2, sameValue_symm, sameValue_trans⟩, ?_,
    fun a ha x => ?_⟩
  · rw [sameValue_iff]
    exact and_iff_right ha
  · intro e a b p hp hab
    have hsame : (e.replaceAt p b).anonymize = e.anonymize :=
      anonymize_replaceAt hp (sameValue_iff.1 hab).2
    exact ⟨fun he => sameValue_iff.2 ⟨he, hsame.symm⟩, sameValue_congr hsame⟩
  · rw [Bool.eq_false_iff, Bool.eq_false_iff]
    exact ⟨fun h => ha (supported_of_sameValue h).1, fun h => ha (supported_of_sameValue h).2⟩

end Expr

namespace Sample

def doubled (id : NodeId) (name : String) : Expr :=
  .binary ⟨id, .float, ⟨id, id + 5⟩⟩ .mul (.localVar ⟨id + 1, .float, ⟨id, id + 1⟩⟩ 0 name)
    (.literal ⟨id + 2, .float, ⟨id + 4, id + 5⟩⟩ (.float ⟨0x4000000000000000⟩))

def paired (e : Expr) : Expr := .construct ⟨9, .float, .dummy⟩ [e, .param ⟨8, .float, .dummy⟩ 1]

def lost : Expr := .unsupported ⟨7, .float, .dummy⟩ "goto"

end Sample

open Sample in
theorem Expr.sameValue_exact_doubled :
    (doubled 1 "c").Supported ∧ (doubled 40 "d").Supported ∧
    (doubled 1 "c").sameValue (doubled 40 "d") = true ∧
    (doubled 1 "c").anonymize = (doubled 40 "d").anonymize ∧
    (paired (doubled 1 "c")).at? [0] = some (doubled 1 "c") ∧
    (paired (doubled 1 "c")).replaceAt [0] (doubled 40 "d") = paired (doubled 40 "d") ∧
    (paired (doubled 40 "d")).sameValue (paired (doubled 1 "c")) = true ∧
    ¬ (paired lost).Supported ∧ (paired lost).sameValue (paired lost) = false := by
  have hc : (doubled 1 "c").Supported := by simp [Expr.Supported, doubled]
  have hd : (doubled 40 "d").Supported := by simp [Expr.Supported, doubled]
  have hpair : (paired (doubled 1 "c")).Supported := by simp [Expr.Supported, paired, doubled]
  have hlost : ¬ (paired lost).Supported := fun h => h lost (by simp [paired, lost]) _ _ rfl
  have hsame : (doubled 1 "c").sameValue (doubled 40 "d") = true := by decide +kernel
  obtain ⟨hiff, -, hreplace, hnone⟩ := Expr.sameValue_exact
  have hplaced := (hreplace (paired (doubled 1 "c")) _ _ [0] rfl hsame).1 hpair
  exact ⟨hc, hd, hsame, (hiff _ _ hc hd).1 hsame, rfl, rfl, Expr.sameValue_symm hplaced, hlost,
    (hnone _ hlost _).1⟩

end ShaderSplit
