import Mathlib.Data.List.Nodup
import Mathlib.Data.List.Pairwise
import ShaderSplit.Proofs.Generate.Isolation

namespace ShaderSplit

inductive Requirement where
  | record (name : String)
  | template (name : String)
  | enum (name : String)
  | function (name : String)
  /-- A method with exactly these parameters. -/
  | method (record name : String) (params : List String)
  | anyMethod (record name : String)
  deriving DecidableEq, Repr

namespace Requirement

def fits : Requirement → DeclKind → Bool
  | record n, .record m _ | template n, .classTemplate m _ | enum n, .enum m .. | function n,
  .function m => m == n
  | method r n ps, .method s m qs => s == r && m == n && qs == ps
  | anyMethod r n, .method s m _ => s == r && m == n
  | _, _ => false

/-- A declaration of the runtime meets the requirement; one outside its namespace never does. -/
def metBy (r : Requirement) (d : Declaration) : Bool :=
  d.scope.contains runtimeNamespace && r.fits d.kind

def First (r : Requirement) (ds : List Declaration) (d : Declaration) : Prop :=
  r.metBy d ∧ ∃ before after, ds = before ++ d :: after ∧ ∀ x ∈ before, !r.metBy x

def missing : Requirement → Missing
  | record n => ⟨"class", n⟩
  | template n => ⟨"class template", n⟩
  | enum n => ⟨"enum", n⟩
  | function n => ⟨"function", n⟩
  | method r n ps => ⟨"method", s!"{r}::{n}(" ++ ", ".intercalate ps ++ ")"⟩
  | anyMethod _ n => ⟨"method", n⟩

def ofType (t : BuiltinType) : Requirement := if t.isTexture then template t.name else record t.name

def ofFunction (f : BuiltinFunction) : Requirement := function f.name

def ofMethod (m : BuiltinMethod) : Requirement := method m.record m.name m.params

def ofRuntime (row : RuntimeRow) : Requirement :=
  match row.kind with
  | .record => record row.name
  | .classTemplate => template row.name
  | .enum => enum row.name
  | .method owner => anyMethod owner row.name

/-- What the tables ask for, in their order. The rows of a texture template ask for the same. -/
def all : List Requirement :=
  (BuiltinType.rows.map ofType).eraseDups ++ BuiltinFunction.rows.map ofFunction ++
    BuiltinMethod.rows.map ofMethod
    ++ RuntimeRow.rows.map ofRuntime

theorem find?_eq_some {r : Requirement} {ds : List Declaration} {d : Declaration} :
    ds.find? r.metBy = some d ↔ r.First ds d := List.find?_eq_some_iff_append

theorem First.mem {r : Requirement} {ds : List Declaration} {d : Declaration} (h : r.First ds d) :
    d ∈ ds := by
  obtain ⟨-, before, after, rfl, -⟩ := h
  simp

theorem fits_of_metBy {r : Requirement} {d : Declaration} (h : r.metBy d = true) :
    r.fits d.kind = true :=
  (Bool.and_eq_true_iff.1 h).2

theorem ofType_record {t : BuiltinType} (h : t.isTexture = false) : ofType t = record t.name :=
  if_neg (by simp [h])

theorem ofType_texture {t : BuiltinType} (h : t.isTexture = true) : ofType t = template t.name :=
  if_pos h

/-- A declaration meets one of the requirements of a sort at most. -/
theorem ofType_eq_of_fits {t u : BuiltinType} {k : DeclKind} (ht : (ofType t).fits k = true)
    (hu : (ofType u).fits k = true) : ofType t = ofType u := by
  unfold ofType at *
  cases k <;> split at ht <;> split at hu <;> simp_all [fits]

theorem ofMethod_eq_of_fits {m n : BuiltinMethod} {k : DeclKind} (hm : (ofMethod m).fits k = true)
    (hn : (ofMethod n).fits k = true) : ofMethod m = ofMethod n := by
  cases k <;> simp_all [fits, ofMethod]

theorem ofFunction_eq_of_fits {f g : BuiltinFunction} {k : DeclKind}
    (hf : (ofFunction f).fits k = true) (hg : (ofFunction g).fits k = true) :
    ofFunction f = ofFunction g := by
  cases k <;> simp_all [fits, ofFunction]

end Requirement

open Requirement

def Catalog.visible (ds : List Declaration) : List Declaration :=
  ds.filter fun d => d.scope.contains runtimeNamespace

namespace Catalog

theorem find?_visible (ds : List Declaration) (r : Requirement) :
    (visible ds).find? (fun d => r.fits d.kind) = ds.find? r.metBy := by
  rw [visible, List.find?_filter]
  congr 1
  funext d
  simp [metBy]

theorem typeIds_record {t : BuiltinType} (h : t.isTexture = false) (ds : List Declaration) :
    typeIds ds t = (ds.find? fun d => (ofType t).fits d.kind).map fun d => [d.id] := by
  have hrecord := ofType_record h
  unfold typeIds
  split
  next hs => simp [BuiltinType.isTexture, hs] at h
  next =>
    rw [hrecord]
    refine (Option.map_eq_bind ..).symm.trans
      (congrArg _ (congrArg (ds.find? ·) (funext fun d => ?_)))
    cases d.kind <;> rfl

theorem typeIds_texture {t : BuiltinType} {elem : ElemKind} {array : Bool}
    (h : t.shape = .texture elem array)
    (ds : List Declaration) : typeIds ds t = (ds.find? fun d => (ofType t).fits d.kind).map fun d =>
      (d.specializations.filter fun s => textureElem s.arg == some elem).map (·.decl) := by
  have htexture : t.isTexture = true := by simp [BuiltinType.isTexture, h]
  unfold typeIds
  rw [h, ofType_texture htexture]
  refine (Option.map_eq_bind ..).symm.trans
    (congrArg _ (congrArg (ds.find? ·) (funext fun d => ?_)))
  cases d.kind <;> rfl

theorem fits_function (f : BuiltinFunction) (k : DeclKind) :
    (ofFunction f).fits k = (k == .function f.name) := by
  cases k <;> simp [ofFunction, fits, beq_eq_decide]

theorem fits_method (m : BuiltinMethod) (k : DeclKind) :
    (ofMethod m).fits k = (k == .method m.record m.name m.params) := by
  cases k <;> simp [ofMethod, fits, beq_eq_decide, Bool.and_assoc]

theorem fits_runtime (row : RuntimeRow) (d : Declaration) :
    (ofRuntime row).fits d.kind = runtimeMatches row d := by
  obtain ⟨name, kind⟩ := row
  unfold runtimeMatches
  cases d.kind <;> cases kind <;> simp [ofRuntime, fits, Bool.and_comm]

def report (ds : List Declaration) (r : Requirement) : Option Missing :=
  if ds.any r.metBy then none else some r.missing

theorem report_none {ds : List Declaration} {r : Requirement} (h : (ds.find? r.metBy) = none) :
    report ds r = some r.missing := by
  rw [List.find?_eq_none] at h
  exact if_neg (by simpa using h)

theorem report_some {ds : List Declaration} {r : Requirement} {d : Declaration}
    (h : ds.find? r.metBy = some d) : report ds r = none :=
  if_pos (List.any_eq_true.2 ⟨d, List.mem_of_find?_eq_some h, List.find?_some h⟩)

/-- Of the rows of a texture template the first one reports it. -/
def reporting (t : BuiltinType) : Bool :=
  match t.shape with
  | .texture .int _ | .texture .uint _ => false
  | _ => true

theorem eraseDups_ofType :
    (BuiltinType.rows.map ofType).eraseDups = (BuiltinType.rows.filter reporting).map ofType := by
  decide +kernel

theorem missingTypes_eq (ds : List Declaration) :
    missingTypes (visible ds) = (BuiltinType.rows.map ofType).eraseDups.filterMap (report ds) := by
  rw [eraseDups_ofType, List.filterMap_map, List.filterMap_filter, missingTypes]
  refine List.filterMap_congr fun t _ => ?_
  rw [Function.comp]
  cases hs : t.shape with
  | vector | matrix =>
    have ht : t.isTexture = false := by simp [BuiltinType.isTexture, hs]
    rw [typeIds_record ht, find?_visible]
    cases hf : ds.find? (ofType t).metBy with
    | none =>
      rw [report_none hf, ofType_record ht]
      simp [reporting, hs, Requirement.missing]
    | some d => simp [report_some hf]
  | texture elem array =>
    have ht : t.isTexture = true := by simp [BuiltinType.isTexture, hs]
    rw [typeIds_texture hs, find?_visible]
    cases hf : ds.find? (ofType t).metBy with
    | none =>
      rw [report_none hf, ofType_texture ht]
      cases elem <;> simp [reporting, hs, Requirement.missing]
    | some d => simp [report_some hf]

theorem functionIds_visible (ds : List Declaration) (f : BuiltinFunction) :
    functionIds (visible ds) f = (ds.filter (ofFunction f).metBy).map (·.id) := by
  rw [functionIds, visible, List.filter_filter]
  congr 2
  funext d
  rw [metBy, fits_function, Bool.and_comm]

theorem missingFunctions_eq (ds : List Declaration) :
    missingFunctions (visible ds) = (BuiltinFunction.rows.map ofFunction).filterMap
      (report ds) := by
  rw [missingFunctions, List.filterMap_map]
  refine List.filterMap_congr fun f _ => ?_
  rw [Function.comp, functionIds_visible]
  cases hf : ds.find? (ofFunction f).metBy with
  | none =>
    have hnone : ds.filter (ofFunction f).metBy = [] :=
      List.filter_eq_nil_iff.2 (List.find?_eq_none.1 hf)
    rw [report_none hf, hnone]
    rfl
  | some d =>
    have hmem : d ∈ ds.filter (ofFunction f).metBy :=
      List.mem_filter.2 ⟨List.mem_of_find?_eq_some hf, List.find?_some hf⟩
    rw [report_some hf, if_neg]
    simp [List.ne_nil_of_mem hmem]

theorem methodId_visible (ds : List Declaration) (m : BuiltinMethod) :
    methodId (visible ds) m = (ds.find? (ofMethod m).metBy).map (·.id) := by
  rw [← find?_visible]
  simp only [fits_method]
  rfl

theorem missingMethods_eq (ds : List Declaration) :
    missingMethods (visible ds) = (BuiltinMethod.rows.map ofMethod).filterMap (report ds) := by
  rw [missingMethods, List.filterMap_map]
  refine List.filterMap_congr fun m _ => ?_
  rw [Function.comp, methodId_visible]
  cases hf : ds.find? (ofMethod m).metBy with
  | none => exact (report_none hf).symm
  | some d => exact (report_some hf).symm

theorem missingRuntime_eq (ds : List Declaration) :
    missingRuntime (visible ds) = (RuntimeRow.rows.map ofRuntime).filterMap (report ds) := by
  rw [missingRuntime, List.filterMap_map]
  refine List.filterMap_congr fun row _ => ?_
  have hdecl : runtimeDecl (visible ds) row = ds.find? (ofRuntime row).metBy := by
    rw [← find?_visible]
    simp only [fits_runtime]
    rfl
  rw [Function.comp, hdecl]
  cases hf : ds.find? (ofRuntime row).metBy with
  | none =>
    rw [report_none hf]
    cases hk : row.kind <;> simp [ofRuntime, hk, Requirement.missing, runtimeSort]
  | some d => exact (report_some hf).symm

theorem missing_eq (ds : List Declaration) :
    missing (visible ds) = Requirement.all.filterMap (report ds) := by
  simp only [missing, Requirement.all, List.filterMap_append, missingTypes_eq, missingFunctions_eq,
    missingMethods_eq, missingRuntime_eq]

theorem filterMap_report (ds : List Declaration) (rs : List Requirement) :
    rs.filterMap (report ds) = (rs.filter fun r => !ds.any r.metBy).map Requirement.missing := by
  induction rs with
  | nil => rfl
  | cons r rs ih =>
    cases h : ds.any r.metBy <;> simp [report, h, ← ih]

end Catalog

/-- The identities that a declaration gives: its own and those of its specializations. -/
def Declaration.ids (d : Declaration) : List DeclId := d.id :: d.specializations.map (·.decl)

def ElemKind.scalar : ElemKind → ScalarType
  | float => .float
  | int => .int 32
  | uint => .uint 32

def BuiltinType.elem? (t : BuiltinType) : Option ElemKind :=
  match t.shape with
  | .texture elem _ => some elem
  | _ => none

/-- The identity that a declaration gives to a row: its own, or the one that it gives for the row's
element type. -/
def Declaration.Gives (d : Declaration) (id : DeclId) : Option ElemKind → Prop
  | none => d.id = id
  | some elem => ∃ s ∈ d.specializations, s.arg = elem.scalar ∧ s.decl = id

/-- A vector or matrix row is found by the first record of its name, a texture row by the
specializations for its element type of the first template of its name. -/
def BuiltinType.FoundBy (t : BuiltinType) (ds : List Declaration) (id : DeclId) : Prop :=
  ∃ d, (ofType t).First ds d ∧ d.Gives id t.elem?

def BuiltinFunction.FoundBy (f : BuiltinFunction) (ds : List Declaration) (id : DeclId) : Prop :=
  ∃ d ∈ ds, (ofFunction f).metBy d ∧ d.id = id

def BuiltinMethod.FoundBy (m : BuiltinMethod) (ds : List Declaration) (id : DeclId) : Prop :=
  ∃ d, (ofMethod m).First ds d ∧ d.id = id

theorem Declaration.eq_of_mem_ids {ds : List Declaration} (h : (ds.flatMap Declaration.ids).Nodup)
    {d e : Declaration} (hd : d ∈ ds) (he : e ∈ ds) {id : DeclId} (hid : id ∈ d.ids)
    (hid' : id ∈ e.ids) : d = e := by
  have : Std.Symm (Function.onFun List.Disjoint Declaration.ids) :=
    ⟨fun _ _ hxy _ he hd => hxy hd he⟩
  by_contra hne
  exact (List.nodup_flatMap.1 h).2.forall hd he hne hid hid'

theorem Catalog.textureElem_eq_some {s : ScalarType} {elem : ElemKind} :
    textureElem s = some elem ↔ s = elem.scalar := by
  unfold textureElem
  split <;> cases elem <;> simp_all [ElemKind.scalar]

theorem ElemKind.scalar_injective {e f : ElemKind} (h : e.scalar = f.scalar) : e = f := by
  cases e <;> cases f <;> simp_all [scalar]

namespace Declaration.Gives

variable {d : Declaration} {id : DeclId}

theorem mem_ids {e : Option ElemKind} (h : d.Gives id e) : id ∈ d.ids := by
  cases e with
  | none => exact List.mem_cons.2 (.inl h.symm)
  | some elem =>
    obtain ⟨s, hs, -, rfl⟩ := h
    exact List.mem_cons_of_mem _ (List.mem_map_of_mem hs)

theorem elem_unique (hids : d.ids.Nodup) {e f : ElemKind} (he : d.Gives id (some e))
    (hf : d.Gives id (some f)) : e = f := by
  obtain ⟨s, hs, harg, hid⟩ := he
  obtain ⟨s', hs', harg', hid'⟩ := hf
  obtain rfl : s = s' :=
    List.inj_on_of_nodup_map (List.nodup_cons.1 hids).2 hs hs' (hid.trans hid'.symm)
  exact ElemKind.scalar_injective (harg.symm.trans harg')

end Declaration.Gives

/-- Rows are told apart by what they ask for and by their element types. -/
theorem BuiltinType.eq_of_ofType :
    ∀ t ∈ rows, ∀ u ∈ rows, ofType t = ofType u → t.elem? = u.elem? → t = u := by
  decide +kernel

theorem BuiltinFunction.eq_of_ofFunction :
    ∀ f ∈ rows, ∀ g ∈ rows, ofFunction f = ofFunction g → f = g := by
  decide +kernel

theorem BuiltinMethod.eq_of_ofMethod : ∀ m ∈ rows, ∀ n ∈ rows, ofMethod m = ofMethod n → m = n := by
  decide +kernel

theorem BuiltinType.isTexture_eq (t : BuiltinType) : t.isTexture = t.elem?.isSome := by
  unfold isTexture elem?
  cases t.shape <;> rfl

section
variable {ds : List Declaration} (hids : (ds.flatMap Declaration.ids).Nodup) {id : DeclId}
include hids

theorem BuiltinType.FoundBy.unique {t u : BuiltinType} (ht : t ∈ rows) (hu : u ∈ rows)
    (h : t.FoundBy ds id) (h' : u.FoundBy ds id) : t = u := by
  obtain ⟨d, hd, hgives⟩ := h
  obtain ⟨d', hd', hgives'⟩ := h'
  obtain rfl : d = d' :=
    Declaration.eq_of_mem_ids hids hd.mem hd'.mem hgives.mem_ids hgives'.mem_ids
  have hsame : ofType t = ofType u := ofType_eq_of_fits (fits_of_metBy hd.1) (fits_of_metBy hd'.1)
  refine eq_of_ofType t ht u hu hsame ?_
  have hown : d.ids.Nodup := (List.nodup_flatMap.1 hids).1 d hd.mem
  have htexture : t.elem?.isSome = u.elem?.isSome := by
    rw [← isTexture_eq, ← isTexture_eq]
    cases h : t.isTexture <;> cases h' : u.isTexture <;> simp_all [ofType]
  cases he : t.elem? with
  | none =>
    rw [he] at htexture
    exact (Option.isSome_eq_false_iff.1 htexture.symm |> Option.isNone_iff_eq_none.1).symm
  | some e =>
    rw [he] at htexture hgives
    obtain ⟨f, hf⟩ := Option.isSome_iff_exists.1 htexture.symm
    rw [hf] at hgives' ⊢
    rw [hgives.elem_unique hown hgives']

theorem BuiltinFunction.FoundBy.unique {f g : BuiltinFunction} (hf : f ∈ rows) (hg : g ∈ rows)
    (h : f.FoundBy ds id) (h' : g.FoundBy ds id) : f = g := by
  obtain ⟨d, hd, hmet, rfl⟩ := h
  obtain ⟨d', hd', hmet', hid⟩ := h'
  obtain rfl : d = d' :=
    Declaration.eq_of_mem_ids hids hd hd' (List.mem_cons_self ..) (hid ▸ List.mem_cons_self ..)
  exact eq_of_ofFunction f hf g hg
    (ofFunction_eq_of_fits (fits_of_metBy hmet) (fits_of_metBy hmet'))

theorem BuiltinMethod.FoundBy.unique {m n : BuiltinMethod} (hm : m ∈ rows) (hn : n ∈ rows)
    (h : m.FoundBy ds id) (h' : n.FoundBy ds id) : m = n := by
  obtain ⟨d, hd, rfl⟩ := h
  obtain ⟨d', hd', hid⟩ := h'
  obtain rfl : d = d' :=
    Declaration.eq_of_mem_ids hids hd.mem hd'.mem (List.mem_cons_self ..)
      (hid ▸ List.mem_cons_self ..)
  exact eq_of_ofMethod m hm n hn (ofMethod_eq_of_fits (fits_of_metBy hd.1) (fits_of_metBy hd'.1))

end

namespace Catalog

theorem lookupLast_eq_some_iff {α β : Type} [BEq α] [LawfulBEq α] {k : α} {v : β} {l : List (α × β)}
    (h : ∀ v w, (k, v) ∈ l → (k, w) ∈ l → v = w) : lookupLast k l = some v ↔ (k, v) ∈ l := by
  have hkey {x : α × β} (hx : x ∈ l.filter (·.1 == k)) : (k, x.2) ∈ l := by
    obtain ⟨hmem, hk⟩ := List.mem_filter.1 hx
    obtain rfl : x.1 = k := by simpa using hk
    exact hmem
  constructor
  · intro hv
    obtain ⟨x, hx, rfl⟩ := Option.map_eq_some_iff.1 hv
    exact hkey (List.mem_of_getLast? hx)
  · intro hv
    have hmem : (k, v) ∈ l.filter (·.1 == k) := List.mem_filter.2 ⟨hv, by simp⟩
    have hlast := List.getLast?_eq_some_getLast (List.ne_nil_of_mem hmem)
    rw [lookupLast, hlast]
    exact congrArg some (h _ _ (hkey (List.getLast_mem _)) hv)

theorem mem_types {ds : List Declaration} {id : DeclId} {t : BuiltinType} :
    (id, t) ∈ (collect (visible ds)).types ↔ t ∈ BuiltinType.rows ∧ t.FoundBy ds id := by
  have hids : id ∈ (typeIds (visible ds) t).getD [] ↔ t.FoundBy ds id := by
    unfold BuiltinType.FoundBy
    simp only [← find?_eq_some]
    cases he : t.elem? with
    | none =>
      have ht : t.isTexture = false := by rw [t.isTexture_eq, he]; rfl
      rw [typeIds_record ht, find?_visible]
      cases ds.find? (ofType t).metBy <;> simp [Declaration.Gives, eq_comm]
    | some elem =>
      have ⟨array, hs⟩ : ∃ array, t.shape = .texture elem array := by
        unfold BuiltinType.elem? at he
        split at he <;> simp_all
      rw [typeIds_texture hs, find?_visible]
      cases ds.find? (ofType t).metBy <;> simp [Declaration.Gives, textureElem_eq_some, and_assoc]
  simp [collect, hids]

theorem mem_functions {ds : List Declaration} {id : DeclId} {f : BuiltinFunction} :
    (id, f) ∈ (collect (visible ds)).functions ↔ f ∈ BuiltinFunction.rows ∧ f.FoundBy ds id := by
  simp [collect, functionIds_visible, BuiltinFunction.FoundBy, and_assoc]

theorem mem_methods {ds : List Declaration} {id : DeclId} {m : BuiltinMethod} :
    (id, m) ∈ (collect (visible ds)).methods ↔ m ∈ BuiltinMethod.rows ∧ m.FoundBy ds id := by
  simp [collect, methodId_visible, BuiltinMethod.FoundBy, ← find?_eq_some]

structure Exact (c : Catalog) (ds : List Declaration) : Prop where
  types : ∀ t row, c.type? t = some row ↔ row ∈ BuiltinType.rows ∧ ∃ id, t = .decl id ∧
    row.FoundBy ds id
  functions : ∀ id row, c.function? id = some row ↔ row ∈ BuiltinFunction.rows ∧ row.FoundBy ds id
  methods : ∀ id row, c.method? id = some row ↔ row ∈ BuiltinMethod.rows ∧ row.FoundBy ds id

theorem collect_exact {ds : List Declaration} (hids : (ds.flatMap Declaration.ids).Nodup) :
    (collect (visible ds)).Exact ds where
  types := by
    intro t row
    cases t with
    | void | scalar => simp [type?]
    | decl id =>
      rw [type?, lookupLast_eq_some_iff fun v w hv hw => ?_, mem_types]
      · simp
      · obtain ⟨hv, hfound⟩ := mem_types.1 hv
        obtain ⟨hw, hfound'⟩ := mem_types.1 hw
        exact hfound.unique hids hv hw hfound'
  functions := by
    intro id row
    rw [function?, lookupLast_eq_some_iff fun v w hv hw => ?_, mem_functions]
    obtain ⟨hv, hfound⟩ := mem_functions.1 hv
    obtain ⟨hw, hfound'⟩ := mem_functions.1 hw
    exact hfound.unique hids hv hw hfound'
  methods := by
    intro id row
    rw [method?, lookupLast_eq_some_iff fun v w hv hw => ?_, mem_methods]
    obtain ⟨hv, hfound⟩ := mem_methods.1 hv
    obtain ⟨hw, hfound'⟩ := mem_methods.1 hw
    exact hfound.unique hids hv hw hfound'

def lacking (ds : List Declaration) : List Missing :=
  (Requirement.all.filter fun r => !ds.any r.metBy).map Requirement.missing

theorem build_eq (ds : List Declaration) :
    build ds = if lacking ds = [] then .ok (collect (visible ds)) else .error (lacking ds) := by
  have hmissing : missing (visible ds) = lacking ds := by rw [missing_eq, filterMap_report, lacking]
  unfold build
  dsimp only
  rw [← visible, hmissing]
  cases lacking ds <;> rfl

theorem lacking_eq_nil {ds : List Declaration} :
    lacking ds = [] ↔ ∀ r ∈ Requirement.all, ∃ d ∈ ds, r.metBy d := by
  simp [lacking]

/-- A catalog is made exactly if every requirement is met; else each requirement that is not is
told, once and in order. Where declarations and specializations have identities of their own, it
identifies what the rows are found by, and nothing else. -/
theorem build_exact (ds : List Declaration) :
    ((∃ ms, build ds = .error ms) ↔ ∃ r ∈ Requirement.all, ∀ d ∈ ds, r.metBy d = false) ∧
    (∀ ms, build ds = .error ms → ms = (Requirement.all.filter fun r => !ds.any r.metBy).map
      Requirement.missing) ∧
    ∀ c, build ds = .ok c → (ds.flatMap Declaration.ids).Nodup → c.Exact ds := by
  rw [build_eq]
  refine ⟨?_, ?_, ?_⟩
  · by_cases h : lacking ds = []
    · have hall := lacking_eq_nil.1 h
      simp only [h, if_true, reduceCtorEq, exists_false, false_iff]
      rintro ⟨r, hr, hnone⟩
      obtain ⟨d, hd, hmet⟩ := hall r hr
      simp [hnone d hd] at hmet
    · simp only [h, if_false, Except.error.injEq, exists_eq', true_iff]
      by_contra hno
      refine h (lacking_eq_nil.2 fun r hr => ?_)
      by_contra hnone
      exact hno ⟨r, hr, fun d hd => by simpa using fun hmet => hnone ⟨d, hd, hmet⟩⟩
  · intro ms h
    split at h
    · cases h
    · exact (Except.error.inj h).symm
  · intro c h hids
    split at h
    · obtain rfl := Except.ok.inj h
      exact collect_exact hids
    · cases h

end Catalog

namespace Sample

/-- Beside the runtime, a record of the user that is called like a vector, and an overload of `dot`
in the runtime's namespace. -/
def lookalikes : List Declaration :=
  Workbench.withRuntime.declarations ++
    [⟨101, ["user"], .record "float4" [], .dummy⟩,
      ⟨102, ["hsh", "detail"], .function "dot", .dummy⟩]

end Sample

open Sample in
theorem Catalog.build_exact_lookalikes :
    ∃ c, build lookalikes = .ok c ∧ (lookalikes.flatMap Declaration.ids).Nodup ∧
    c.Exact lookalikes ∧ c.type? (.decl 3) = BuiltinType.named "float4" ∧
    c.type? (.decl 101) = none ∧
    c.function? 102 = BuiltinFunction.rows.head? := by
  have hbuild : build lookalikes = .ok (collect (visible lookalikes)) := by
    rw [build_eq, if_pos]
    decide +kernel
  have hids : (lookalikes.flatMap Declaration.ids).Nodup := by decide +kernel
  exact ⟨_, hbuild, hids, (build_exact lookalikes).2.2 _ hbuild hids,
    by decide +kernel, by decide +kernel, by decide +kernel⟩

end ShaderSplit
