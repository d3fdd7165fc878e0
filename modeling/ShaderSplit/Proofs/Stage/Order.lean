import Mathlib.Data.Nat.Basic
import Mathlib.Order.Basic
import ShaderSplit.Stage

namespace ShaderSplit

namespace Stage

instance : LinearOrder Stage := LinearOrder.lift' index fun _ _ => index_injective

end Stage

namespace Placement

/-- A placement is no later than a stage; constants are before all of them. -/
def Upto (p : Placement) (t : Stage) : Prop := ∀ s, p = some s → s ≤ t

theorem upto_none (t : Stage) : Upto none t := by simp [Upto]

theorem upto_some {s t : Stage} : Upto (some s) t ↔ s ≤ t := by simp [Upto]

theorem later_eq_none {p q : Placement} : p.later q = none ↔ p = none ∧ q = none := by
  cases p <;> cases q <;> simp [later]

theorem later_upto {p q : Placement} {t : Stage} : (p.later q).Upto t ↔ p.Upto t ∧ q.Upto t := by
  cases p with
  | none => simp [later, upto_none]
  | some s =>
    cases q with
    | none => simp [later, upto_none]
    | some u =>
      simp only [later, upto_some]
      split
      · rename_i h
        exact ⟨fun k => ⟨le_trans h k, k⟩, fun k => k.2⟩
      · rename_i h
        have h' : u ≤ s := le_of_lt (not_le.1 h)
        exact ⟨fun k => ⟨k, le_trans h' k⟩, fun k => k.1⟩

theorem later_cases (p q : Placement) : p.later q = p ∨ p.later q = q := by
  cases p with
  | none => exact .inr rfl
  | some s =>
    cases q with
    | none => exact .inl rfl
    | some u =>
      simp only [later]
      split
      · exact .inr rfl
      · exact .inl rfl

end Placement

namespace StageSet

variable {m : StageSet}

theorem mem_devices {s : Stage} : s ∈ m.devices ↔ m.contains s = true ∧ s ≠ .host := by
  unfold devices
  cases s <;> simp [Stage.device]

theorem devices_sorted (m : StageSet) : m.devices.Pairwise (· < ·) :=
  List.Pairwise.filter _ (by decide)

theorem previousActive_mem {s t : Stage} (h : m.previousActive t = some s) : s ∈ m.devices :=
  (List.mem_filter.1 (List.mem_of_getLast? h)).1

theorem previousActive_lt {s t : Stage} (h : m.previousActive t = some s) : s < t := by
  simpa using (List.mem_filter.1 (List.mem_of_getLast? h)).2

theorem host_lt {s : Stage} (h : s ≠ .host) : .host < s := by
  cases s with
  | host => exact absurd rfl h
  | _ => decide

theorem stages_sorted (m : StageSet) : (.host :: m.devices).Pairwise (· < ·) :=
  List.pairwise_cons.2 ⟨fun _ hs => host_lt (mem_devices.1 hs).2, devices_sorted m⟩

/-- Of neighbours among the active device stages, the first is just before the second. -/
theorem previousActive_of_neighbours {l r : List Stage} {s t : Stage}
    (h : m.devices = l ++ s :: t :: r) : m.previousActive t = some s := by
  have hp := devices_sorted m
  rw [h] at hp
  obtain ⟨_, hst, hl⟩ := List.pairwise_append.1 hp
  obtain ⟨hs, ht⟩ := List.pairwise_cons.1 hst
  have hbefore : l.filter (· < t) = l :=
    List.filter_eq_self.2 fun x hx => decide_eq_true (hl x hx t (by simp))
  have hafter : r.filter (· < t) = [] := by
    refine List.filter_eq_nil_iff.2 fun x hx => ?_
    have htx : t < x := (List.pairwise_cons.1 ht).1 x hx
    simpa using not_lt.2 (le_of_lt htx)
  have hs' : s < t := hs t (by simp)
  unfold previousActive
  rw [h, List.filter_append, hbefore, List.filter_cons, List.filter_cons, hafter]
  simp [hs']

theorem filter_le_append {l : List Stage} (h : l.Pairwise (· < ·)) (t : Stage) :
    ∃ r, l = l.filter (· ≤ t) ++ r := by
  induction l with
  | nil => exact ⟨[], rfl⟩
  | cons x l ih =>
    obtain ⟨hx, hl⟩ := List.pairwise_cons.1 h
    by_cases hxt : x ≤ t
    · obtain ⟨r, hr⟩ := ih hl
      exact ⟨r, by rw [List.filter_cons_of_pos (by simpa using hxt), List.cons_append, ← hr]⟩
    · have hnone : l.filter (· ≤ t) = [] := by
        refine List.filter_eq_nil_iff.2 fun y hy => ?_
        have hty : t < y := lt_of_lt_of_le (not_le.1 hxt) (le_of_lt (hx y hy))
        simpa using not_le.2 hty
      exact ⟨x :: l, by rw [List.filter_cons_of_neg (by simpa using hxt), hnone, List.nil_append]⟩

/-- The active device stages after `s` up to `t` follow `s` without a gap. -/
theorem devices_between {s t : Stage} (hs : s ∈ m.devices) :
    ∃ l r, m.devices = l ++ s :: (m.devices.filter (fun x => s < x ∧ x ≤ t) ++ r) := by
  obtain ⟨l, k, h⟩ := List.append_of_mem hs
  have hp := devices_sorted m
  rw [h] at hp
  obtain ⟨_, hsk, hl⟩ := List.pairwise_append.1 hp
  obtain ⟨hk, hsorted⟩ := List.pairwise_cons.1 hsk
  obtain ⟨r, hr⟩ := filter_le_append hsorted t
  have hbefore : l.filter (fun x => s < x ∧ x ≤ t) = [] := by
    refine List.filter_eq_nil_iff.2 fun x hx => ?_
    have hxs : x < s := hl x hx s (by simp)
    simp [not_lt.2 (le_of_lt hxs)]
  have hafter : k.filter (fun x => s < x ∧ x ≤ t) = k.filter (· ≤ t) :=
    List.filter_congr fun x hx => by simp [hk x hx]
  refine ⟨l, r, ?_⟩
  rw [h, List.filter_append, hbefore, List.filter_cons_of_neg (by simp), hafter,
    List.nil_append, ← hr]

end StageSet
end ShaderSplit
