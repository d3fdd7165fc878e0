import Mathlib.Logic.Relation
import ShaderSplit.Proofs.Partition.WiredTrace

namespace ShaderSplit

open Relation

namespace Draft

inductive Move : Draft → Draft → Prop
  | agree {d d' : Draft} (h : Agrees d d') : Move d d'
  | openField {d : Draft} {s t : Stage} {r : InterfaceRecord} (value : Expr)
      (reaching : List NodeId) (hr : d.record? s t = some r) :
      Move d (d.openField s t r value reaching)
  | setRebuilt (d : Draft) (o : NodeId) (s : Stage) (decl : LocalDecl) :
      Move d (d.setRebuilt o s decl)
  | add (d : Draft) (s : Stage) (st : StageStmt) (o : NodeId) : Move d (d.add s st (some o))
  | release (d : Draft) (s : Stage) (o : NodeId) : Move d (d.onQueue s (·.release o))

abbrev Moves : Draft → Draft → Prop := ReflTransGen Move

variable {d d' : Draft} {s t : Stage} {sc : Scope}

theorem Move.grows (h : Move d d') : Grows d d' := by
  cases h with
  | agree h => exact h.grows
  | openField value reaching hr => exact openField_grows value reaching hr
  | setRebuilt => exact setRebuilt_grows ..
  | add | release => exact onQueue_grows ..

theorem Moves.grows (h : Moves d d') : Grows d d' := by
  induction h with
  | refl => exact .refl _
  | tail _ hm ih => exact ih.trans hm.grows

/-- A statement without an origin is never dropped. -/
theorem Move.loose {st : StageStmt} (h : Move d d') (hst : (st, none) ∈ (d.queue s).tags) :
    (st, none) ∈ (d'.queue s).tags := by
  cases h with
  | agree h => rwa [h.queue]
  | setRebuilt => exact hst
  | openField => exact mem_tags_openField.2 (.inl hst)
  | add =>
    rw [add_queue]
    split
    · exact Queue.tags_subset_add _ _ _ hst
    · exact hst
  | release =>
    rw [onQueue_queue]
    split
    · exact Queue.mem_tags_of_ne hst nofun
    · exact hst

theorem Moves.loose {st : StageStmt} (h : Moves d d') (hst : (st, none) ∈ (d.queue s).tags) :
    (st, none) ∈ (d'.queue s).tags := by
  induction h with
  | refl => exact hst
  | tail _ hm ih => exact hm.loose ih

theorem tick_moves (d : Draft) (k : Nat) : Moves d (d.tick k) :=
  .single (.agree ⟨rfl, rfl, rfl, rfl⟩)

theorem declare_moves (d : Draft) (s : Stage) (o : NodeId) (decl : LocalDecl) :
    Moves d (d.declare o s decl) :=
  .tail (.single (.setRebuilt ..)) (.add ..)

theorem redeclare_moves (d : Draft) (s t : Stage) (o : NodeId) (decl : LocalDecl) :
    Moves d (d.redeclare s t o decl) :=
  .tail (.tail (.single (.setRebuilt ..)) (.add ..)) (.release ..)

theorem Carries.moves {value e : Expr} (h : Carries sc s t value d e d') : Moves d d' := by
  cases h with
  | found => exact tick_moves ..
  | opened hr _ he =>
    subst he
    exact .trans (.single (.openField value _ hr)) (tick_moves ..)

theorem Carries.rebuilt? {value e : Expr} (h : Carries sc s t value d e d')
    (o : NodeId) (x : Stage) : d'.rebuilt? o x = d.rebuilt? o x := by
  cases h with
  | found => rfl
  | opened _ _ he =>
    subst he
    unfold openField setRecord
    split <;> rfl

theorem Relays.moves {value e : Expr} {hops : List Stage} (h : Relays sc s value hops d e d') :
    Moves d d' := by
  induction h with
  | done => exact .refl
  | hop hc _ ih => exact hc.moves.trans ih

theorem Lifts.moves {stages : StageSet} {es es' : List Expr} (h : Lifts stages s t sc es d es' d') :
    Moves d d' := by
  induction h with
  | nil | literal | constant => exact .refl
  | cons _ _ ih ihs => exact ih.trans ihs
  | construct _ ih | unary _ ih | cast _ ih => exact ih
  | redeclare _ _ _ ih => exact ih.trans (redeclare_moves ..)
  | transfer _ _ hd => exact hd.moves

theorem Promotes.moves {stages : StageSet} {pl wanted : Placement} {e e' : Expr}
    (h : Promotes stages sc pl wanted e d e' d') : Moves d d' := by
  cases h with
  | keep => exact .refl
  | lift _ hl => exact hl.moves

end Draft

namespace Aim

variable {a : Aim} {sc : Scope} {d d' : Draft}

theorem PromotesAll.moves {wanted : Placement} {ts : List Traced} {es : List Expr}
    (h : a.PromotesAll sc wanted ts d es d') : d.Moves d' := by
  induction h with
  | nil => exact .refl
  | cons hp _ ih => exact hp.moves.trans ih

theorem Traces.moves {m : Bool} {es : List Expr} {ts : List Traced} (h : a.Traces sc m es d ts d') :
    d.Moves d' := by
  induction h with
  | nil | literal | constant => exact .refl
  | cons _ _ ih ihs => exact ih.trans ihs
  | param _ _ _ hd =>
    subst hd
    exact .single (.agree (Draft.agrees_capture ..))
  | declared _ _ _ _ ih => exact ih.trans (Draft.declare_moves ..)
  | assigned _ _ _ _ ih => exact ih.tail (.add ..)
  | binary _ _ _ pl pr ihl ihr => exact (ihl.trans ihr).trans (pl.moves.trans pr.moves)
  | unary _ ih | cast _ _ ih | member _ _ ih => exact ih
  | construct _ _ hp ih | initList _ hp ih | call _ _ _ hp ih => exact ih.trans hp.moves
  | sample _ _ _ _ hp hk ih =>
    exact (ih.trans hp.moves).trans ((Draft.tick_moves ..).tail (.agree (Draft.sample_agrees hk).1))
  | method _ _ _ _ ih ihs => exact ih.trans ihs

end Aim

theorem Pipeline.Runs.grows {p : Pipeline} {todo : List (Stage × Param × Nat)} {d d' : Draft}
    (h : p.Runs todo d d') : d.Grows d' := by
  induction h with
  | nil => exact .refl _
  | @unwritten s q i rest d d' message hw hr ih =>
    have hnotice : d.Agrees (d.notice message) := ⟨rfl, rfl, rfl, rfl⟩
    exact hnotice.grows.trans ih
  | written _ ht _ hp _ ih =>
    exact ht.moves.grows.trans (hp.moves.grows.trans ((Draft.onQueue_grows ..).trans ih))

end ShaderSplit
