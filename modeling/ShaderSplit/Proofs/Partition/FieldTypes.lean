import ShaderSplit.Proofs.Partition.Bounds

namespace ShaderSplit

/-- Expressions that are carried over a record without a check that their type can be stored. -/
def Expr.escapes (c : Catalog) (e : Expr) : Bool :=
  e.isComputed || e.isReference && (c.type? e.ty).any BuiltinType.isTexture

/-- The type of a traced reference can be stored, or is a texture. -/
theorem Catalog.fieldFault_of_isValueType {c : Catalog} {t : Ty} (h : c.isValueType t = true) :
    c.fieldFault t = none ∨ (c.type? t).any BuiltinType.isTexture = true := by
  unfold isValueType at h
  split at h
  · exact .inl rfl
  · exact .inl rfl
  · exact .inl rfl
  · exact .inl rfl
  · obtain ⟨b, hb⟩ := Option.isSome_iff_exists.1 h
    -- only declared types are builtin
    obtain ⟨id, rfl⟩ : ∃ id, t = .decl id := by
      cases t with
      | decl id => exact ⟨id, rfl⟩
      | _ => cases hb
    cases ht : b.isTexture with
    | true => exact .inr (by simp [hb, ht])
    | false => exact .inl (by simp [fieldFault, hb, ht])

def Program.record? (prog : Program) (source dest : Stage) : Option InterfaceRecord :=
  if source = .host then prog.uniform? dest else prog.input? dest

namespace Pipeline

variable {p : Pipeline}

/-- Values that no check has passed: an expression that escapes, as some term of the body of its
type does, or what is read from a field whose own value has not been checked. -/
inductive Escapes (p : Pipeline) (prog : Program) : Expr → Prop
  | carried {e x : Expr} (h : e.escapes p.catalog = true) (hx : x ∈ p.scope.terms)
      (hxe : x.escapes p.catalog = true) (hty : x.ty = e.ty) : Escapes p prog e
  | forwarded {n : Node} {ref : InterfaceRef} {r : InterfaceRecord} {f : InterfaceField}
      (hr : prog.record? ref.source ref.dest = some r) (hf : r.fields[ref.field]? = some f)
      (hty : f.ty = n.ty) (h : Escapes p prog f.key) : Escapes p prog (.interface n ref)

def storage (p : Pipeline) (prog : Program) : Limits where
  stage _ := True
  value e := p.catalog.fieldFault e.ty = none ∨ p.Escapes prog e
  field ref f := ∃ r, prog.record? ref.source ref.dest = some r ∧ r.fields[ref.field]? = some f
  arrives n ref f := by
    rintro ⟨r, hr, hf⟩ hty (hfault | hescapes)
    · exact .inl ((congrArg p.catalog.fieldFault hty.symm).trans hfault)
    · exact .inr (.forwarded hr hf hty hescapes)

theorem within_storage (p : Pipeline) (prog : Program) : p.Within (p.storage prog) .fragment where
  active _ _ := trivial
  params _ _ _ _ _ _ := trivial
  swizzles := .inr rfl
  references e he hr hv e' hr' hty := by
    rcases Catalog.fieldFault_of_isValueType hv with hfault | htexture
    · exact .inl (hty ▸ hfault)
    · refine .inr (.carried ?_ he ?_ hty.symm)
      · simp [Expr.escapes, hr', hty, htexture]
      · simp [Expr.escapes, hr, htexture]
  computed e he hc e' hc' hty :=
    .inr (.carried (by simp [Expr.escapes, hc']) he (by simp [Expr.escapes, hc]) hty.symm)

theorem storage_knows (p : Pipeline) (d : Draft) : (p.storage (d.finish p)).Knows d := by
  intro s t r hr i f hf side
  by_cases hs : s = .host
  · rw [Draft.record?, if_pos hs] at hr
    exact ⟨_, (if_pos hs).trans ((Draft.finish_uniform? d p t).trans (congrArg _ hr)), hf⟩
  · rw [Draft.record?, if_neg hs] at hr
    exact ⟨_, (if_neg hs).trans ((Draft.finish_input? d p t).trans (congrArg _ hr)), hf⟩

/-- A field's type can be stored, unless its value escapes the checks, or is read from a field whose
value does. -/
theorem split_fieldTypes {prog : Program} {notices : List String}
    (h : p.split = (.ok prog, notices)) :
    ∀ s r, prog.uniform? s = some r ∨ prog.input? s = some r → ∀ f ∈ r.fields,
      p.catalog.fieldFault f.ty = none ∨ p.Escapes prog f.key := by
  obtain ⟨d, hrun, rfl⟩ := split_runs h
  have hd : d.Bounded p (p.storage (d.finish p)) := by
    refine hrun.bounded_start (p.storage_knows d) fun s _ => ?_
    exact ⟨.fragment, by cases s <;> decide, p.within_storage _⟩
  intro s r hr f hf
  rw [Draft.finish_uniform?, Draft.finish_input?] at hr
  rcases hr with hr | hr
  · obtain ⟨r', hr', rfl⟩ := Option.map_eq_some_iff.1 hr
    exact (hd.records .host s r' hr').2 f hf
  · obtain ⟨r', hr', rfl⟩ := Option.map_eq_some_iff.1 hr
    exact (hd.records .vertex s r' hr').2 f hf

end Pipeline

namespace Sample

open Workbench

/-- A comparison of two captured values, cast to what the output takes. -/
def compared : PipelineFn :=
  let ps := [param "a" .captured, param "b" .captured, param "o" (.varyingOutput .vertex)]
  fn "compared" ps do
    return [← assign .assign (← arg ps 2) (← cast .float (← binary .lt (← arg ps 0) (← arg ps 1)))]

def fieldTypes (r : Option InterfaceRecord) : List Ty := (r.map (·.fields)).getD [] |>.map (·.ty)

end Sample

open Sample in
theorem Pipeline.split_fieldTypes_tinted :
    ∃ prog notices, (pipeline tinted).split = (.ok prog, notices) ∧
    fieldTypes (prog.input? .fragment) = [.float] ∧
    ∀ s r, prog.uniform? s = some r ∨ prog.input? s = some r → ∀ f ∈ r.fields,
      (pipeline tinted).catalog.fieldFault f.ty = none ∨ (pipeline tinted).Escapes prog f.key := by
  obtain ⟨prog, notices, h, htypes⟩ := exists_of_splits (pipeline tinted)
    (fun prog => fieldTypes (prog.input? .fragment) == [.float]) (by decide +kernel)
  exact ⟨prog, notices, h, by simpa using htypes, Pipeline.split_fieldTypes h⟩

open Sample in
/-- The host passes the outcome of the comparison, and a record may not store it. -/
theorem Pipeline.split_compared :
    ∃ prog notices, Pipeline.check bare ⟨[]⟩ compared = .ok (pipeline compared) ∧
    (pipeline compared).split = (.ok prog, notices) ∧ fieldTypes (prog.uniform? .vertex) = [.bool] ∧
    (pipeline compared).catalog.fieldFault .bool = some .unsupported := by
  have hcheck : Pipeline.check bare ⟨[]⟩ compared = .ok (pipeline compared) :=
    check_pipeline (by decide +kernel)
  obtain ⟨prog, notices, h, htypes⟩ := exists_of_splits (pipeline compared)
    (fun prog => fieldTypes (prog.uniform? .vertex) == [.bool]) (by decide +kernel)
  exact ⟨prog, notices, hcheck, h, by simpa using htypes, rfl⟩

end ShaderSplit
