namespace ShaderSplit

inductive Stage where
  | host | vertex | control | evaluation | geometry | fragment
  deriving DecidableEq, Repr, Inhabited

namespace Stage

def all : List Stage := [host, vertex, control, evaluation, geometry, fragment]

def device : List Stage := [vertex, control, evaluation, geometry, fragment]

def index : Stage → Nat
  | host => 0 | vertex => 1 | control => 2 | evaluation => 3 | geometry => 4 | fragment => 5

/-- Stages are ordered as data flows through them. -/
instance : LE Stage := ⟨fun s t => s.index ≤ t.index⟩
instance : LT Stage := ⟨fun s t => s.index < t.index⟩
instance (s t : Stage) : Decidable (s ≤ t) := inferInstanceAs (Decidable (s.index ≤ t.index))
instance (s t : Stage) : Decidable (s < t) := inferInstanceAs (Decidable (s.index < t.index))

def name : Stage → String
  | host => "host" | vertex => "vertex" | control => "control"
  | evaluation => "evaluation" | geometry => "geometry" | fragment => "fragment"

instance : ToString Stage := ⟨name⟩

def ofName? (s : String) : Option Stage := all.find? (·.name == s)

/-- First letter of the name, used in the names of interface fields. -/
def initial : Stage → Char
  | host => 'h' | vertex => 'v' | control => 'c' | evaluation => 'e' | geometry => 'g'
  | fragment => 'f'

def runtimeValue : Stage → Option Nat
  | host => none
  | s => some (s.index - 1)

def next (s : Stage) : Option Stage := all[s.index + 1]?

def title : Stage → String
  | host => "Host" | vertex => "Vertex" | control => "Control"
  | evaluation => "Evaluation" | geometry => "Geometry" | fragment => "Fragment"

theorem index_injective {s t : Stage} (h : s.index = t.index) : s = t := by
  cases s <;> cases t <;> first | rfl | simp [index] at h

end Stage

/-- Where a value can be computed; `none` is a constant, which comes before every stage. -/
abbrev Placement := Option Stage

namespace Placement

def later : Placement → Placement → Placement
  | none, t => t
  | some s, none => some s
  | some s, some t => some (if s ≤ t then t else s)

def name (p : Placement) : String := (p.map Stage.name).getD "none"

end Placement

structure StageSet where
  bits : Nat
  deriving DecidableEq, Repr, Inhabited

namespace StageSet

def empty : StageSet := ⟨0⟩

def insert (m : StageSet) (s : Stage) : StageSet := ⟨m.bits ||| 1 <<< s.index⟩

def contains (m : StageSet) (s : Stage) : Bool := m.bits.testBit s.index

/-- Every pipeline function has the host and a vertex stage. -/
def hostAndVertex : StageSet := (empty.insert .host).insert .vertex

def devices (m : StageSet) : List Stage := Stage.device.filter m.contains

def nextActive (m : StageSet) (s : Stage) : Option Stage := m.devices.find? (s < ·)

def previousActive (m : StageSet) (s : Stage) : Option Stage := (m.devices.filter (· < s)).getLast?

def display (m : StageSet) : String :=
  "\x7b" ++ ", ".intercalate ((Stage.all.filter m.contains).map Stage.name) ++ "\x7d"

@[simp] theorem contains_empty (s : Stage) : empty.contains s = false := by
  simp [empty, contains]

@[simp] theorem contains_insert (m : StageSet) (s t : Stage) :
    (m.insert s).contains t = (m.contains t || s == t) := by
  simp only [insert, contains, Nat.testBit_or, Nat.one_shiftLeft, Nat.testBit_two_pow]
  cases s <;> cases t <;> rfl

end StageSet

structure PerStage (α : Type) where
  host : α
  vertex : α
  control : α
  evaluation : α
  geometry : α
  fragment : α

namespace PerStage

variable {α : Type}

def const (a : α) : PerStage α := ⟨a, a, a, a, a, a⟩

def get (p : PerStage α) : Stage → α
  | .host => p.host | .vertex => p.vertex | .control => p.control
  | .evaluation => p.evaluation | .geometry => p.geometry | .fragment => p.fragment

def set (p : PerStage α) (s : Stage) (a : α) : PerStage α :=
  match s with
  | .host => { p with host := a }
  | .vertex => { p with vertex := a }
  | .control => { p with control := a }
  | .evaluation => { p with evaluation := a }
  | .geometry => { p with geometry := a }
  | .fragment => { p with fragment := a }

def toList (p : PerStage α) : List (Stage × α) := Stage.all.map fun s => (s, p.get s)

@[simp] theorem get_const (a : α) (s : Stage) : (const a).get s = a := by cases s <;> rfl

theorem get_set (p : PerStage α) (s t : Stage) (a : α) :
    (p.set s a).get t = if s = t then a else p.get t := by
  cases s <;> cases t <;> rfl

end PerStage
end ShaderSplit
