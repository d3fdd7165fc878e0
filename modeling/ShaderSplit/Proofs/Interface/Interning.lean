import Mathlib.Data.List.Induction
import ShaderSplit.Proofs.Meaning.Sharing
import ShaderSplit.Proofs.Partition.Moves
import ShaderSplit.Proofs.Shading.Identifiers
import ShaderSplit.Proofs.Syntax.Same

namespace ShaderSplit

structure Request where
  value : Expr
  reaching : List NodeId

/-- Two requests ask for one value, reached by the same steps. -/
def Request.Same (q q' : Request) : Prop :=
  q.reaching = q'.reaching ∧ q.value.sameValue q'.value = true

structure Served where
  request : Request
  field : Nat
  created : Bool

def InterfaceField.request (f : InterfaceField) : Request := ⟨f.key, f.reaching⟩

/-- The field was made for a request, or for one that asks for the same. -/
def InterfaceField.Carries (f : InterfaceField) (q : Request) : Prop :=
  f.request = q ∨ f.request.Same q

namespace Request

variable {q q' q'' : Request}

theorem Same.symm (h : q.Same q') : q'.Same q := ⟨h.1.symm, Expr.sameValue_symm h.2⟩

theorem Same.trans (h : q.Same q') (h' : q'.Same q'') : q.Same q'' :=
  ⟨h.1.trans h'.1, Expr.sameValue_trans h.2 h'.2⟩

end Request

theorem InterfaceField.Carries.same_iff {f : InterfaceField} {q q' : Request} (h : f.Carries q) :
    f.request.Same q' ↔ q.Same q' := by
  rcases h with rfl | h
  · rfl
  · exact ⟨h.symm.trans, h.trans⟩

namespace InterfaceRecord

def serve? (state : List Served × InterfaceRecord) (q : Request) :
    Option (List Served × InterfaceRecord) :=
  (state.2.intern? q.value q.reaching).map fun r => (state.1 ++ [⟨q, r.1, r.2.1⟩], r.2.2)

/-- Serves requests in order: what was noted down, and the record in the end. -/
def serveAll? (r : InterfaceRecord) (calls : List Request) :
    Option (List Served × InterfaceRecord) :=
  calls.foldlM serve? ([], r)

variable {r r' : InterfaceRecord} {q : Request} {k : Nat} {created : Bool} {log : List Served}

theorem intern_cases (h : r.intern q.value q.reaching = (k, created, r')) :
    (created = false ∧ r' = r ∧ ∃ f, r.fields[k]? = some f ∧ f.request.Same q) ∨
    (created = true ∧ r' = r.push q.value q.reaching ∧ k = r.fields.length ∧
      ∀ f ∈ r.fields, ¬ f.request.Same q) := by
  unfold intern at h
  split at h
  · rename_i i hi
    cases h
    exact .inl ⟨rfl, rfl, find?_some hi⟩
  · rename_i hnone
    cases h
    refine .inr ⟨rfl, rfl, rfl, fun f hf hsame => ?_⟩
    have hno := List.findIdx?_eq_none_iff.1 hnone f hf
    have hreaching : f.reaching = q.reaching := hsame.1
    have hvalue : f.key.sameValue q.value = true := hsame.2
    simp [hreaching, hvalue] at hno

/-- What holds of a record that has served all requests of a log, in their order. -/
structure Logged (log : List Served) (r : InterfaceRecord) : Prop where
  carried : ∀ c ∈ log, ∃ f, r.fields[c.field]? = some f ∧ f.Carries c.request
  asked : ∀ f ∈ r.fields, ∃ c ∈ log, c.request = f.request
  apart : r.fields.Pairwise fun f g => ¬ f.request.Same g.request
  shared : log.Pairwise fun c c' => (c.field = c'.field ↔ c.request.Same c'.request)
  first : ∀ before c after, log = before ++ c :: after →
    (c.created = true ↔ ∀ b ∈ before, ¬ b.request.Same c.request)

theorem Logged.field_unique {f g : InterfaceField} {i j : Nat} (h : Logged log r)
    (hf : r.fields[i]? = some f) (hg : r.fields[j]? = some g) (hsame : f.request.Same g.request) :
    i = j := by
  obtain ⟨hi, rfl⟩ := List.getElem?_eq_some_iff.1 hf
  obtain ⟨hj, rfl⟩ := List.getElem?_eq_some_iff.1 hg
  have hapart := List.pairwise_iff_getElem.1 h.apart
  rcases Nat.lt_trichotomy i j with hlt | rfl | hlt
  · exact absurd hsame (hapart i j hi hj hlt)
  · rfl
  · exact absurd hsame.symm (hapart j i hj hi hlt)

theorem first_concat {c : Served}
    (h : ∀ before c after, log = before ++ c :: after →
      (c.created = true ↔ ∀ b ∈ before, ¬ b.request.Same c.request))
    (hc : c.created = true ↔ ∀ b ∈ log, ¬ b.request.Same c.request) (before : List Served)
    (x : Served) (after : List Served) (heq : log ++ [c] = before ++ x :: after) :
    x.created = true ↔ ∀ b ∈ before, ¬ b.request.Same x.request := by
  rcases List.eq_nil_or_concat after with rfl | ⟨after, y, rfl⟩
  · obtain ⟨rfl, hx⟩ := List.append_inj' heq rfl
    obtain rfl : c = x := by simpa using hx
    exact hc
  · have hsplit : log ++ [c] = (before ++ x :: after) ++ [y] := by simpa using heq
    exact h before x after (List.append_inj' hsplit rfl).1

/-- A request is noted down behind the others if its field fits it, and is theirs exactly if they
ask for the same. -/
theorem Logged.concat {c : Served} (h : Logged log r) (hgrows : r.fields <+: r'.fields)
    (hfield : ∃ f, r'.fields[c.field]? = some f ∧ f.Carries c.request)
    (hasked : ∀ f ∈ r'.fields, f ∈ r.fields ∨ c.request = f.request)
    (hapart : r'.fields.Pairwise fun f g => ¬ f.request.Same g.request)
    (hshared : ∀ b ∈ log, (b.field = c.field ↔ b.request.Same c.request))
    (hfirst : c.created = true ↔ ∀ b ∈ log, ¬ b.request.Same c.request) :
    Logged (log ++ [c]) r' := by
  refine ⟨fun b hb => ?_, fun f hf => ?_, hapart,
    List.pairwise_append.2 ⟨h.shared, List.pairwise_singleton .., by simpa using hshared⟩,
    first_concat h.first hfirst⟩
  · rcases List.mem_append.1 hb with hb | hb
    · obtain ⟨f, hf, hcarries⟩ := h.carried b hb
      obtain ⟨added, hadded⟩ := hgrows
      rw [← hadded, List.getElem?_append_left (List.getElem?_eq_some_iff.1 hf).1]
      exact ⟨f, hf, hcarries⟩
    · obtain rfl := List.mem_singleton.1 hb
      exact hfield
  · rcases hasked f hf with hold | hnew
    · obtain ⟨b, hb, hbf⟩ := h.asked f hold
      exact ⟨b, List.mem_append_left _ hb, hbf⟩
    · exact ⟨c, by simp, hnew⟩

theorem Logged.intern (h : Logged log r) (hi : r.intern q.value q.reaching = (k, created, r')) :
    Logged (log ++ [⟨q, k, created⟩]) r' := by
  rcases intern_cases hi with ⟨rfl, rfl, f, hf, hsame⟩ | ⟨rfl, rfl, rfl, hnone⟩
  · -- the field was there, made for a request of the log
    refine h.concat List.prefix_rfl ⟨f, hf, .inr hsame⟩ (fun _ => .inl) h.apart (fun b hb => ?_) ?_
    · obtain ⟨g, hg, hcarries⟩ := h.carried b hb
      rw [← hcarries.same_iff]
      constructor
      · intro heq
        obtain rfl : g = f := by simpa [heq, hf] using hg.symm
        exact hsame
      · exact fun hgq => h.field_unique hg hf (hgq.trans hsame.symm)
    · obtain ⟨b, hb, hbf⟩ := h.asked f (List.mem_of_getElem? hf)
      exact iff_of_false Bool.false_ne_true fun hno => hno b hb (hbf ▸ hsame)
  · -- no field is for this request, so no earlier request asks for the same
    have hnew (b : Served) (hb : b ∈ log) : b.field ≠ r.fields.length ∧ ¬ b.request.Same q := by
      obtain ⟨g, hg, hcarries⟩ := h.carried b hb
      obtain ⟨hlt, -⟩ := List.getElem?_eq_some_iff.1 hg
      rw [← hcarries.same_iff]
      exact ⟨Nat.ne_of_lt hlt, hnone g (List.mem_of_getElem? hg)⟩
    refine h.concat (List.prefix_append ..)
      ⟨⟨q.value, q.reaching, fieldName r.source r.dest r.fields.length⟩, by simp [push], .inl rfl⟩
      (fun f hf => ?_) ?_ (fun b hb => iff_of_false (hnew b hb).1 (hnew b hb).2)
      (iff_of_true rfl fun b hb => (hnew b hb).2)
    · rcases List.mem_append.1 hf with hf | hf
      · exact .inl hf
      · obtain rfl := List.mem_singleton.1 hf
        exact .inr rfl
    · refine List.pairwise_append.2 ⟨h.apart, List.pairwise_singleton .., fun f hf g hg => ?_⟩
      obtain rfl := List.mem_singleton.1 hg
      exact hnone f hf

/-- Which of two requests came first does not matter. -/
theorem Logged.field_eq_iff {c c' : Served} (h : Logged log r) (hc : c ∈ log) (hc' : c' ∈ log)
    (hs : c.request.value.Supported) : c.field = c'.field ↔ c.request.Same c'.request := by
  have hsymm : Std.Symm fun c c' : Served => (c.field = c'.field ↔ c.request.Same c'.request) :=
    ⟨fun _ _ hcc => eq_comm.trans (hcc.trans ⟨.symm, .symm⟩)⟩
  by_cases heq : c = c'
  · exact heq ▸ iff_of_true rfl ⟨rfl, Expr.sameValue_self hs⟩
  · exact h.shared.forall hc hc' heq

theorem logged_new (source dest : Stage) : Logged [] (new source dest) :=
  ⟨by simp, by simp [new], .nil, .nil, by simp⟩

theorem intern_grows (hi : r.intern q.value q.reaching = (k, created, r')) :
    r'.frozen = r.frozen ∧ r.fields <+: r'.fields := by
  rcases intern_cases hi with ⟨-, rfl, -⟩ | ⟨-, rfl, -⟩
  · exact ⟨rfl, List.prefix_rfl⟩
  · exact ⟨rfl, List.prefix_append ..⟩

theorem serve?_some {log' : List Served} (h : serve? (log, r) q = some (log', r')) :
    ∃ k created, r.intern q.value q.reaching = (k, created, r') ∧
    log' = log ++ [⟨q, k, created⟩] := by
  obtain ⟨⟨k, created, r''⟩, hi, hpair⟩ := Option.map_eq_some_iff.1 h
  cases hpair
  unfold intern? at hi
  split at hi
  · cases hi
  · exact ⟨k, created, Option.some.inj hi, rfl⟩

theorem serve?_open (h : r.frozen = false) (log : List Served) (q : Request) :
    ∃ log' r', serve? (log, r) q = some (log', r') := by
  simp [serve?, intern?, h]

theorem serves_grows {state state' : List Served × InterfaceRecord} {calls : List Request}
    (h : calls.foldlM serve? state = some state') :
    state.1 <+: state'.1 ∧ state.2.fields <+: state'.2.fields := by
  induction calls generalizing state with
  | nil =>
    cases h
    exact ⟨List.prefix_rfl, List.prefix_rfl⟩
  | cons q calls ih =>
    rw [List.foldlM_cons, Option.bind_eq_bind, Option.bind_eq_some_iff] at h
    obtain ⟨⟨log₁, r₁⟩, hq, hrest⟩ := h
    obtain ⟨k, created, hi, rfl⟩ := serve?_some hq
    obtain ⟨hlog, hfields⟩ := ih hrest
    exact ⟨(List.prefix_append ..).trans hlog, (intern_grows hi).2.trans hfields⟩

/-- All requests are served, and noted down in their order. -/
theorem serveAll?_logged (source dest : Stage) (calls : List Request) :
    ∃ log r, (new source dest).serveAll? calls = some (log, r) ∧ r.frozen = false ∧
    log.map (·.request) = calls ∧
      Logged log r := by
  induction calls using List.reverseRecOn with
  | nil => exact ⟨[], new source dest, rfl, rfl, rfl, logged_new source dest⟩
  | append_singleton calls q ih =>
    obtain ⟨log, r, hserved, hopen, hlog, h⟩ := ih
    obtain ⟨log', r', hq⟩ := serve?_open hopen log q
    obtain ⟨k, created, hi, rfl⟩ := serve?_some hq
    refine ⟨_, r', ?_, (intern_grows hi).1.trans hopen, by simp [hlog], h.intern hi⟩
    rw [serveAll?, List.foldlM_append, ← serveAll?, hserved]
    simpa using hq

end InterfaceRecord

theorem Stage.initial_injective {s t : Stage} (h : s.initial = t.initial) : s = t := by
  cases s <;> cases t <;> simp_all [initial]

/-- A name tells its stages and its position. -/
theorem fieldName_inj {s t s' t' : Stage} {i i' : Nat} :
    fieldName s t i = fieldName s' t' i' ↔ s = s' ∧ t = t' ∧ i = i' := by
  refine ⟨fun h => ?_, ?_⟩
  · have hlist := congrArg String.toList h
    simp only [fieldName, String.toList_append, String.toList_ofList, List.cons_append,
      List.nil_append, List.cons.injEq, true_and] at hlist
    obtain ⟨hs, ht, hi⟩ := hlist
    exact ⟨Stage.initial_injective hs, Stage.initial_injective ht,
      toString_inj_of_nat (String.toList_inj.1 hi)⟩
  · rintro ⟨rfl, rfl, rfl⟩
    rfl

namespace InterfaceRecord

variable {r : InterfaceRecord}

def Numbered (r : InterfaceRecord) : Prop :=
  ∀ i f, r.fields[i]? = some f → f.name = fieldName r.source r.dest i

def names (r : InterfaceRecord) : List String := r.fields.map (·.name)

theorem Numbered.push (h : r.Numbered) (e : Expr) (reaching : List NodeId) :
    (r.push e reaching).Numbered := by
  intro i f hf
  rcases Nat.lt_trichotomy i r.fields.length with hlt | rfl | hgt
  · exact h i f (by rwa [InterfaceRecord.push, List.getElem?_append_left hlt] at hf)
  · obtain rfl : _ = f := by simpa [InterfaceRecord.push] using hf
    rfl
  · rw [InterfaceRecord.push, List.getElem?_eq_none (by simpa using Nat.succ_le_of_lt hgt)] at hf
    cases hf

theorem Numbered.names_eq (h : r.Numbered) :
    r.names = (List.range r.fields.length).map (fieldName r.source r.dest) := by
  refine List.ext_getElem (by simp [names]) fun i hi _ => ?_
  have hlt : i < r.fields.length := by simpa [names] using hi
  simpa [names] using h i _ (List.getElem?_eq_getElem hlt)

theorem Numbered.nodup (h : r.Numbered) : r.names.Nodup := by
  rw [h.names_eq]
  exact List.nodup_range.map fun i j hij => (fieldName_inj.1 hij).2.2

theorem Numbered.mem_names {name : String} (h : r.Numbered) (hname : name ∈ r.names) :
    ∃ i, name = fieldName r.source r.dest i := by
  rw [h.names_eq] at hname
  obtain ⟨i, -, rfl⟩ := List.mem_map.1 hname
  exact ⟨i, rfl⟩

def namesTo (uniforms varyings : PerStage (Option InterfaceRecord)) (t : Stage) : List String :=
  ((uniforms.get t).toList ++ (varyings.get t).toList).flatMap names

def allNames (uniforms varyings : PerStage (Option InterfaceRecord)) : List String :=
  Stage.all.flatMap (namesTo uniforms varyings)

end InterfaceRecord

namespace Draft

variable {p : Pipeline} {d d' : Draft} {s t : Stage} {r : InterfaceRecord}

/-- Every record is known by its stages, and its fields are numbered. -/
def Named (d : Draft) : Prop := ∀ s t r, d.record? s t = some r →
  r.dest = t ∧ (r.source = .host ↔ s = .host) ∧ r.Numbered

theorem start_named (p : Pipeline) : (start p).Named := by
  intro s t r hr
  obtain ⟨hfields, hdest, -, hsource⟩ := start_record hr
  refine ⟨hdest, ?_, fun i f hf => by simp [hfields] at hf⟩
  split at hsource
  · rename_i hs
    exact iff_of_true hsource hs
  · rename_i hs
    exact iff_of_false (StageSet.mem_devices.1 (StageSet.previousActive_mem hsource)).2 hs

theorem Named.congr (h : d.Named) (hrecord : ∀ s t, d'.record? s t = d.record? s t) : d'.Named :=
  fun s t r hr => h s t r (hrecord s t ▸ hr)

theorem Named.setRecord (h : d.Named) (hr : d.record? s t = some r) (e : Expr)
    (reaching : List NodeId) :
    (d.setRecord s t (r.push e reaching)).Named := by
  intro x y r' hr'
  rw [setRecord_record?] at hr'
  split at hr'
  · rename_i hxy
    cases hr'
    obtain ⟨hdest, hsource, hnumbered⟩ := h s t r hr
    exact ⟨hdest.trans hxy.1, hsource.trans hxy.2, hnumbered.push e reaching⟩
  · exact h x y r' hr'

theorem Move.named (h : Move d d') (hd : d.Named) : d'.Named := by
  cases h with
  | agree h => exact hd.congr h.record?
  | openField value reaching hr => exact (hd.setRecord hr value reaching).congr fun _ _ => rfl
  | setRebuilt | add | release => exact hd.congr fun _ _ => rfl

theorem Moves.named (h : Moves d d') (hd : d.Named) : d'.Named := by
  induction h with
  | refl => exact hd
  | tail _ hm ih => exact hm.named ih

theorem Named.mem_namesTo {name : String} (h : d.Named)
    (hname : name ∈ InterfaceRecord.namesTo d.uniforms d.varyings t) :
    ∃ s i, name = fieldName s t i := by
  obtain ⟨r, hr, hname⟩ := List.mem_flatMap.1 hname
  have hnamed : r.dest = t ∧ r.Numbered := by
    rcases List.mem_append.1 hr with hr | hr
    · obtain ⟨hdest, -, hnumbered⟩ := h .host t r (Option.mem_toList.1 hr)
      exact ⟨hdest, hnumbered⟩
    · obtain ⟨hdest, -, hnumbered⟩ := h .vertex t r (Option.mem_toList.1 hr)
      exact ⟨hdest, hnumbered⟩
  obtain ⟨i, hi⟩ := hnamed.2.mem_names hname
  exact ⟨r.source, i, hnamed.1 ▸ hi⟩

/-- The uniforms of a stage come from the host, its varyings do not. -/
theorem Named.nodup_namesTo (h : d.Named) (t : Stage) :
    (InterfaceRecord.namesTo d.uniforms d.varyings t).Nodup := by
  have hhost (r : InterfaceRecord) (hr : d.uniforms.get t = some r) := h .host t r hr
  have hstage (r : InterfaceRecord) (hr : d.varyings.get t = some r) := h .vertex t r hr
  rw [InterfaceRecord.namesTo, List.flatMap_append, List.nodup_append]
  refine ⟨?_, ?_, fun x hx y hy => ?_⟩
  · cases hu : d.uniforms.get t with
    | none => exact List.nodup_nil
    | some r => simpa using (hhost r hu).2.2.nodup
  · cases hv : d.varyings.get t with
    | none => exact List.nodup_nil
    | some r => simpa using (hstage r hv).2.2.nodup
  · rintro rfl
    obtain ⟨r, hr, hx⟩ := List.mem_flatMap.1 hx
    obtain ⟨r', hr', hy⟩ := List.mem_flatMap.1 hy
    obtain ⟨-, hs, hn⟩ := hhost r (Option.mem_toList.1 hr)
    obtain ⟨-, hs', hn'⟩ := hstage r' (Option.mem_toList.1 hr')
    obtain ⟨i, hi⟩ := hn.mem_names hx
    obtain ⟨j, hj⟩ := hn'.mem_names hy
    have hsource : r.source = r'.source := (fieldName_inj.1 (hi.symm.trans hj)).1
    exact absurd (hs'.1 (hsource ▸ hs.2 rfl)) (by decide)

theorem Named.nodup (h : d.Named) : (InterfaceRecord.allNames d.uniforms d.varyings).Nodup := by
  refine List.nodup_flatMap.2 ⟨fun t _ => h.nodup_namesTo t, ?_⟩
  have hstages : Stage.all.Pairwise (· ≠ ·) := by decide
  refine hstages.imp fun {t t'} hne x hx hx' => ?_
  obtain ⟨s, i, rfl⟩ := h.mem_namesTo hx
  obtain ⟨s', j, hj⟩ := h.mem_namesTo hx'
  exact hne (fieldName_inj.1 hj).2.1

end Draft

namespace Pipeline

variable {p : Pipeline} {d d' : Draft}

theorem Runs.named {todo : List (Stage × Param × Nat)} (h : p.Runs todo d d') (hd : d.Named) :
    d'.Named := by
  induction h with
  | nil => exact hd
  | unwritten _ _ ih => exact ih (hd.congr fun _ _ => rfl)
  | written _ ht _ hp _ ih => exact ih ((hp.moves.named (ht.moves.named hd)).congr fun _ _ => rfl)

theorem allNames_finish (d : Draft) (p : Pipeline) :
    InterfaceRecord.allNames (d.finish p).uniforms (d.finish p).varyings =
      InterfaceRecord.allNames d.uniforms d.varyings := by
  have hnames (o : Option InterfaceRecord) :
      (o.map InterfaceRecord.freeze).toList.flatMap InterfaceRecord.names =
        o.toList.flatMap InterfaceRecord.names := by
    cases o <;> rfl
  have hto (t : Stage) : InterfaceRecord.namesTo (d.finish p).uniforms (d.finish p).varyings t =
      InterfaceRecord.namesTo d.uniforms d.varyings t := by
    have hu : (d.finish p).uniforms.get t = _ := d.finish_uniform? p t
    have hv : (d.finish p).varyings.get t = _ := d.finish_input? p t
    rw [InterfaceRecord.namesTo, InterfaceRecord.namesTo, List.flatMap_append, List.flatMap_append,
      hu, hv, hnames, hnames]
  rw [InterfaceRecord.allNames, InterfaceRecord.allNames, funext hto]

end Pipeline

/-- A record serves every sequence of requests until it is frozen. Two requests with supported
values are served by the same field exactly if they ask for the same value and the same steps reach
it, and a field is made for the first of them. Requests to come change neither the answers nor the
fields that are there, by whatever name, type or position. However a draft is changed, no two fields
of its records have the same name, and none of a split function have. -/
theorem InterfaceRecord.requests_exact (source dest : Stage) (calls : List Request) :
    (∃ log r, (new source dest).serveAll? calls = some (log, r) ∧ log.map (·.request) = calls ∧
      (∀ c ∈ log, ∀ c' ∈ log, c.request.value.Supported → c'.request.value.Supported →
        (c.field = c'.field ↔ c.request.reaching = c'.request.reaching ∧
          c.request.value.sameValue c'.request.value = true)) ∧
      (∀ before c after, log = before ++ c :: after →
        (c.created = true ↔ ∀ b ∈ before, ¬ b.request.Same c.request)) ∧
      ∀ before after, calls = before ++ after →
        ∃ log' r', (new source dest).serveAll? before = some (log', r') ∧
          log' <+: log ∧ r'.fields <+: r.fields) ∧
    (∀ p d, (Draft.start p).Moves d → (allNames d.uniforms d.varyings).Nodup) ∧
    ∀ p prog notices, Pipeline.split p = (.ok prog, notices) →
      (allNames prog.uniforms prog.varyings).Nodup := by
  refine ⟨?_, fun p d h => (h.named (Draft.start_named p)).nodup, fun p prog notices h => ?_⟩
  · obtain ⟨log, r, hserved, -, hlog, h⟩ := serveAll?_logged source dest calls
    refine ⟨log, r, hserved, hlog, ?_, h.first, fun before after hcalls => ?_⟩
    · exact fun c hc c' hc' hs _ => h.field_eq_iff hc hc' hs
    · obtain ⟨log', r', hbefore, -⟩ := serveAll?_logged source dest before
      rw [hcalls, serveAll?, List.foldlM_append, ← serveAll?, hbefore] at hserved
      exact ⟨log', r', hbefore, serves_grows hserved⟩
  · obtain ⟨d, hrun, rfl⟩ := Pipeline.split_runs h
    rw [Pipeline.allNames_finish]
    exact (hrun.named (Draft.start_named p)).nodup

namespace Sample

/-- A doubled local is asked for twice, and between that reached by another step. -/
def asked : List Request :=
  [⟨doubled 1 "c", [10]⟩, ⟨doubled 20 "c", [12]⟩, ⟨doubled 40 "d", [10]⟩,
    ⟨paired (doubled 1 "c"), [10]⟩]

def carried : Draft :=
  ((Draft.start (pipeline tinted)).openField .host .vertex (.new .host .vertex)
    (doubled 1 "c") []).openField
    .vertex .geometry (.new .vertex .geometry) (doubled 1 "c") [10]

end Sample

open Sample in
theorem InterfaceRecord.requests_exact_asked :
    (∃ log r, (new .host .vertex).serveAll? asked = some (log, r) ∧
      (∀ c ∈ log, c.request.value.Supported) ∧
      (∀ c ∈ log, ∀ c' ∈ log, (c.field = c'.field ↔ c.request.reaching = c'.request.reaching ∧
        c.request.value.sameValue c'.request.value = true)) ∧
      log.map (fun c => (c.field, c.created)) = [(0, true), (1, true), (0, false), (2, true)]) ∧
    ((Draft.start (pipeline tinted)).Moves carried ∧
      (allNames carried.uniforms carried.varyings).Nodup ∧
      allNames carried.uniforms carried.varyings = ["_hv0", "_vg0"]) ∧
    ∃ prog notices, (pipeline tinted).split = (.ok prog, notices) ∧
    (allNames prog.uniforms prog.varyings).Nodup ∧
      allNames prog.uniforms prog.varyings = ["_hv0", "_vg0", "_vg1", "_gf0"] := by
  obtain ⟨⟨log, r, hserved, hlog, hshared, -⟩, hmoves, hsplit⟩ := requests_exact .host .vertex asked
  have hasked : ∀ c ∈ log, c.request.value.Supported := by
    intro c hc
    have hq : c.request ∈ asked := hlog ▸ List.mem_map_of_mem hc
    simp only [asked, List.mem_cons, List.not_mem_nil, or_false] at hq
    rcases hq with hq | hq | hq | hq <;> simp [hq, Expr.Supported, paired, doubled]
  have hanswers :
      ((new .host .vertex).serveAll? asked).map (fun x => x.1.map fun c => (c.field, c.created)) =
      some [(0, true), (1, true), (0, false), (2, true)] := by decide +kernel
  have hcarried : (Draft.start (pipeline tinted)).Moves carried :=
    .tail (.single (.openField _ _ rfl)) (.openField _ _ rfl)
  obtain ⟨prog, notices, h, hnames⟩ := exists_of_splits (pipeline tinted)
    (fun prog => allNames prog.uniforms prog.varyings = ["_hv0", "_vg0", "_vg1", "_gf0"])
      (by decide +kernel)
  refine ⟨⟨log, r, hserved, hasked, fun c hc c' hc' => hshared c hc c' hc' (hasked c hc)
    (hasked c' hc'), ?_⟩, ⟨hcarried, hmoves _ _ hcarried, by decide +kernel⟩, prog, notices, h,
    hsplit _ _ _ h, by simpa using hnames⟩
  simpa [hserved] using hanswers

end ShaderSplit
