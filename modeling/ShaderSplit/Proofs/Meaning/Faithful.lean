import ShaderSplit.Proofs.Meaning.Preservation

namespace ShaderSplit

universe u

variable {V : Type u}

namespace Pipeline

/-- Whether a step, if it assigns, does so by a plain assignment to an output as a whole. -/
def whole (s : Step) : Bool :=
  match s.action with
  | .run (.binary _ op (.param ..) _) => !op.isAssignment || op == .assign
  | .run (.binary _ op _ _) => !op.isAssignment
  | _ => true

/-- Locals are written by their declarations only, and outputs by plain assignments. -/
structure SingleAssignment (p : Pipeline) : Prop extends p.LocalsOnce where
  wholes : ∀ s ∈ p.scope, whole s = true

def Replaces (w : Write) : Bool :=
  match w.site with
  | .assignment (.binary _ .assign (.param ..) _) => true
  | _ => false

/-- The last write to an output replaces all of it, or is the first. -/
def Overwrites (p : Pipeline) (i : Nat) : Prop :=
  ∀ w ∈ p.scope.find (.param i), Replaces w = true ∨
    ((p.scope.upTo w.step).find (.param i)).isNone = true

/-- What a parameter is left with when nothing but its last write is made to it. -/
def lastWritten (p : Pipeline) (I : Interp V) (x : Nat → V) (i : Nat) : Option V :=
  match p.scope.find (.param i) with
  | none => some (x i)
  | some _ => p.outcome I x i

instance (p : Pipeline) (i : Nat) : Decidable (p.Overwrites i) :=
  inferInstanceAs (Decidable (∀ w ∈ p.scope.find (.param i), _))

variable {p : Pipeline} {I : Interp V} {x : Nat → V} {i : Nat} {e : Expr} {o : NodeId}

namespace LocalsOnce

variable (h : p.LocalsOnce)
include h

theorem run_output {m : Memory V} (hw : p.scope.find (.param i) = some ⟨.assignment e, o⟩) :
    p.scope.run I m (.var (.param i)) = (e.effect I ((p.scope.upTo o).run I m)).bind (·.2) := by
  obtain ⟨s, hs, hl, hrun⟩ := Scope.run_find (I := I) (m := m) h.steps hw
  obtain ⟨-, ⟨d, -, hv, -⟩ | ⟨n, op, lhs, rhs, j, haction, hv, hsite, hop, hroot, -⟩⟩ :=
    tame_write (h.tame s hs) hl
  · cases hv
  · cases hv
    obtain rfl : e = .binary n op lhs rhs := by simpa using hsite
    rw [hrun]
    simp [Step.exec, haction, Expr.effect, hop, hroot, Scope.before]

/-- Made alone, the last write gives the body's value if it needs nothing that was
written before. -/
theorem lastWritten_eq_run (hi : p.Overwrites i) :
    p.lastWritten I x i = p.scope.run I (.input x) (.var (.param i)) := by
  unfold lastWritten
  split
  · rename_i hw
    rw [Scope.run_frame hw]
    rfl
  · rename_i w hw
    obtain ⟨hout, s, -, n, op, lhs, rhs, -, rfl, hop, hroot, hq⟩ := h.find_param (fun _ hs => hs) hw
    rw [h.run_output hw]
    simp only [outcome, hw]
    -- the last write replaces the output as a whole, or it is the first one and starts
    -- from the input
    rcases hi _ hw with hreplaces | hfirst
    · obtain ⟨n', rfl, rfl⟩ : ∃ n', op = .assign ∧ lhs = .param n' i := by
        unfold Replaces at hreplaces
        split at hreplaces
        · rename_i heq
          cases heq
          cases Option.some.inj hroot
          exact ⟨_, rfl, rfl⟩
        · cases hreplaces
      simp [Expr.effect, Expr.root, Expr.assigned, Expr.stored,
        hq.eval_opened (isOutput_of_device hout)]
    · have hinput : (p.scope.upTo s.id).run I (.input x) (.var (.param i)) = some (x i) :=
        Scope.run_frame (Option.isNone_iff_eq_none.1 hfirst)
      rw [Memory.opened, ← hinput, Function.update_eq_self]

variable {c : Catalog} {d : DeclIndex} {f : PipelineFn} {prog : Program} {notices : List String}

theorem split_run (hcheck : Pipeline.check c d f = .ok p) (hvaryings : p.VaryingsActive)
    (hswizzles : p.BareSwizzles) (hsplit : p.split = (.ok prog, notices)) (I : Interp V)
    (x : Nat → V) :
    ∃ m, prog.run I x = some m ∧ ∀ i, ∃ y, m (.var (.param i)) = some y ∧
    p.lastWritten I x i = some y := by
  obtain ⟨d, N, rfl, hd, hwritten⟩ := h.complete hcheck hvaryings hswizzles hsplit I x
  obtain ⟨m, hrun, houtputs, hothers⟩ := hd.run h
  refine ⟨m, hrun, fun i => ?_⟩
  cases hw : p.scope.find (.param i) with
  | none => exact ⟨x i, hothers i hw, by simp [lastWritten, hw]⟩
  | some w =>
    obtain ⟨s, hs, st, hst, ht⟩ := hwritten i w hw
    obtain ⟨y, hy, houtcome⟩ := houtputs i s hs st hst ht
    exact ⟨y, hy, by simpa [lastWritten, hw] using houtcome⟩

end LocalsOnce

/-- In a single-assignment body nothing that was written to an output is ever needed. -/
theorem SingleAssignment.overwrites (h : p.SingleAssignment) (i : Nat) : p.Overwrites i := by
  intro w hw
  obtain ⟨-, s, hs, n, op, lhs, rhs, haction, rfl, hop, hroot, -⟩ :=
    h.find_param (fun _ hs => hs) hw
  have hwhole := h.wholes s hs
  unfold whole at hwhole
  rw [haction] at hwhole
  split at hwhole
  · rename_i heq
    cases heq
    obtain rfl : op = .assign := by simpa [hop] using hwhole
    exact .inl rfl
  · rename_i heq
    cases heq
    simp [hop] at hwhole
  · rename_i _ hne
    exact absurd rfl (hne _ _ _ _)

variable {c : Catalog} {d : DeclIndex} {f : PipelineFn} {prog : Program} {notices : List String}

/-- Splitting a single-assignment function keeps its meaning: the program runs to its end, so that
nothing undefined is read, and every output has the value that the body gives it. -/
theorem split_preserves (hcheck : Pipeline.check c d f = .ok p) (hvaryings : p.VaryingsActive)
    (hswizzles : p.BareSwizzles) (hsingle : p.SingleAssignment) (h : p.split = (.ok prog, notices))
    (I : Interp V)
    (x : Nat → V) : ∃ m, prog.run I x = some m ∧ ∀ i, ∃ y, m (.var (.param i)) = some y ∧
      p.scope.run I (.input x) (.var (.param i)) = some y := by
  have hp := hsingle.toLocalsOnce
  obtain ⟨m, hrun, hm⟩ := hp.split_run hcheck hvaryings hswizzles h I x
  refine ⟨m, hrun, fun i => ?_⟩
  obtain ⟨y, hy, hlast⟩ := hm i
  exact ⟨y, hy, (hp.lastWritten_eq_run (hsingle.overwrites i)).symm.trans hlast⟩

end Pipeline

namespace Sample

open Workbench

def sums : Interp Nat where
  literal _ _ := 0
  constant _ _ := 0
  binary _ _ a b := a + b
  unary _ _ a := a
  construct _ as := as.sum
  cast _ a := a
  initList _ as := as.sum
  call _ _ as := as.sum
  method _ _ a as := a + as.sum
  member _ _ a := a
  setMember _ _ _ b := b
  setSwizzle _ _ _ b := b

/-- A local of the vertex stage is written to an output there, over another value, and added to an
output of the fragment stage. -/
def layered : PipelineFn :=
  let ps := [param "a" (.varyingInput .vertex), param "b" (.varyingInput .vertex),
      param "f" (.varyingInput .fragment),
    param "g" (.varyingOutput .vertex), param "o" (.varyingOutput .fragment)]
  fn "layered" ps do
    let (dc, c) ← declare "c" .float (← binary .mul (← arg ps 0) (← arg ps 1))
    let g ← assign .assign (← arg ps 3) (← arg ps 0)
    let g' ← assign .assign (← arg ps 3) (← useLocal c)
    let o ← assign .addAssign (← arg ps 4) (← binary .add (← useLocal c) (← arg ps 2))
    return [dc, g, g', o]

def stacked : PipelineFn :=
  let ps := [param "a" (.varyingInput .vertex), param "b" (.varyingInput .vertex),
      param "o" (.varyingOutput .vertex)]
  fn "stacked" ps do
    let o ← assign .assign (← arg ps 2) (← arg ps 0)
    let o' ← assign .addAssign (← arg ps 2) (← arg ps 1)
    return [o, o']

end Sample

open Sample in
theorem Pipeline.split_preserves_tinted :
    ∃ prog notices, Pipeline.check bare ⟨[]⟩ tinted = .ok (pipeline tinted) ∧
    (pipeline tinted).VaryingsActive ∧ (pipeline tinted).BareSwizzles ∧
    (pipeline tinted).SingleAssignment ∧
    (pipeline tinted).split = (.ok prog, notices) ∧
    ∃ m, prog.run sums (· + 1) = some m ∧ m (.var (.param 2)) = some 3 ∧
    m (.var (.param 3)) = some 4 := by
  have hcheck : Pipeline.check bare ⟨[]⟩ tinted = .ok (pipeline tinted) :=
    check_pipeline (by decide +kernel)
  have hv : (pipeline tinted).VaryingsActive := by decide +kernel
  have hb := pipeline_bareSwizzles tinted
  have hs : (pipeline tinted).SingleAssignment :=
    ⟨⟨by decide +kernel, by decide +kernel, by decide +kernel⟩, by decide +kernel⟩
  obtain ⟨prog, notices, h, -⟩ := exists_of_splits (pipeline tinted) (fun _ => true)
    (by decide +kernel)
  obtain ⟨m, hrun, hm⟩ := Pipeline.split_preserves hcheck hv hb hs h sums (· + 1)
  have value (i k : Nat)
      (hk : (pipeline tinted).scope.run sums (.input (· + 1)) (.var (.param i)) = some k) :
      m (.var (.param i)) = some k := by
    obtain ⟨y, hy, hbody⟩ := hm i
    rw [hy, ← hbody, hk]
  exact ⟨prog, notices, hcheck, hv, hb, hs, h, m, hrun, value 2 3 (by decide +kernel),
    value 3 4 (by decide +kernel)⟩

namespace Pipeline

variable {p : Pipeline} {c : Catalog} {d : DeclIndex} {f : PipelineFn} {prog : Program}
  {notices : List String}

/-- When outputs are written in several steps, each has what its last write gives, made alone. It
has the body's value if that write replaces the output as a whole or is the first. -/
theorem split_last_writes (hcheck : Pipeline.check c d f = .ok p) (hvaryings : p.VaryingsActive)
    (hswizzles : p.BareSwizzles) (hlocals : p.LocalsOnce) (h : p.split = (.ok prog, notices))
    (I : Interp V)
    (x : Nat → V) : ∃ m, prog.run I x = some m ∧ ∀ i, ∃ y, m (.var (.param i)) = some y ∧
      p.lastWritten I x i = some y ∧
      (p.Overwrites i → p.scope.run I (.input x) (.var (.param i)) = some y) := by
  obtain ⟨m, hrun, hm⟩ := hlocals.split_run hcheck hvaryings hswizzles h I x
  refine ⟨m, hrun, fun i => ?_⟩
  obtain ⟨y, hy, hlast⟩ := hm i
  exact ⟨y, hy, hlast, fun hi => (hlocals.lastWritten_eq_run hi).symm.trans hlast⟩

end Pipeline

open Sample in
theorem Pipeline.split_last_writes_layered : ∃ prog notices,
    Pipeline.check bare ⟨[]⟩ layered = .ok (pipeline layered) ∧ (pipeline layered).VaryingsActive ∧
    (pipeline layered).BareSwizzles ∧ (pipeline layered).LocalsOnce ∧
    (pipeline layered).split = (.ok prog, notices) ∧ (pipeline layered).Overwrites 3 ∧
    (pipeline layered).Overwrites 4 ∧
    ∃ m, prog.run sums (· + 1) = some m ∧ m (.var (.param 3)) = some 3 ∧
    m (.var (.param 4)) = some 11 := by
  have hcheck : Pipeline.check bare ⟨[]⟩ layered = .ok (pipeline layered) :=
    check_pipeline (by decide +kernel)
  have hv : (pipeline layered).VaryingsActive := by decide +kernel
  have hb := pipeline_bareSwizzles layered
  have hl : (pipeline layered).LocalsOnce :=
    ⟨by decide +kernel, by decide +kernel, by decide +kernel⟩
  have h3 : (pipeline layered).Overwrites 3 := by decide +kernel
  have h4 : (pipeline layered).Overwrites 4 := by decide +kernel
  obtain ⟨prog, notices, h, -⟩ := exists_of_splits (pipeline layered) (fun _ => true)
    (by decide +kernel)
  obtain ⟨m, hrun, hm⟩ := Pipeline.split_last_writes hcheck hv hb hl h sums (· + 1)
  have value (i k : Nat) (hi : (pipeline layered).Overwrites i)
      (hk : (pipeline layered).scope.run sums (.input (· + 1)) (.var (.param i)) = some k) :
      m (.var (.param i)) = some k := by
    obtain ⟨y, hy, -, hbody⟩ := hm i
    rw [hy, ← hbody hi, hk]
  exact ⟨prog, notices, hcheck, hv, hb, hl, h, h3, h4, m, hrun, value 3 3 h3 (by decide +kernel),
    value 4 11 h4 (by decide +kernel)⟩

open Sample in
/-- Of an output that is written and then added to, the first write is lost. -/
theorem Pipeline.split_last_writes_stacked : ∃ prog notices,
    Pipeline.check bare ⟨[]⟩ stacked = .ok (pipeline stacked) ∧ (pipeline stacked).VaryingsActive ∧
    (pipeline stacked).BareSwizzles ∧ (pipeline stacked).LocalsOnce ∧
    (pipeline stacked).split = (.ok prog, notices) ∧
    (pipeline stacked).scope.run sums (.input (· + 1)) (.var (.param 2)) = some 3 ∧
    ∃ m, prog.run sums (· + 1) = some m ∧ m (.var (.param 2)) = some 5 := by
  obtain ⟨prog, notices, h, hrun⟩ := exists_of_splits (pipeline stacked)
    (fun prog => (prog.run sums (· + 1)).any fun m => m (.var (.param 2)) == some 5)
      (by decide +kernel)
  obtain ⟨m, hm, hvalue⟩ := (Option.any_eq_true _ _).1 hrun
  exact ⟨prog, notices, check_pipeline (by decide +kernel),
    by decide +kernel, pipeline_bareSwizzles stacked,
    ⟨by decide +kernel, by decide +kernel, by decide +kernel⟩, h,
    by decide +kernel, m, hm, by simpa using hvalue⟩

end ShaderSplit
