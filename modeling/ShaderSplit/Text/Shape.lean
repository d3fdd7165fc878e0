import ShaderSplit.Text.Json

namespace ShaderSplit.Json

def maxDepth : Nat := 127

structure Rules where
  /-- How many containers may still be entered. -/
  depth : Nat
  /-- Whether the fields of a choice may be listed in order. -/
  listed : Bool

namespace Rules

def document : Rules := ⟨maxDepth, true⟩

def value : Rules := ⟨maxDepth, false⟩

def inner (r : Rules) : Rules := { r with depth := r.depth - 1 }

end Rules

def text? : Json → Option String
  | string s => s
  | _ => none

def bool? : Json → Option Bool
  | bool b => some b
  | _ => none

def isNull : Json → Bool
  | null => true
  | _ => false

def int? (low high : Int) : Json → Option Int
  | number n => n.int?.filter fun i => low ≤ i && i ≤ high
  | _ => none

def int64? (j : Json) : Option Int := j.int? (-9223372036854775808) 9223372036854775807

def nat? (bits : Nat) (j : Json) : Option Nat := (j.int? 0 (Nat.pow 2 bits - 1)).map Int.toNat

def float? : Json → Option Binary64
  | number n => n.float?
  | _ => none

def items? (r : Rules) : Json → Option (List Json)
  | array items => if r.depth = 0 then none else some items
  | _ => none

def list? {α : Type} (r : Rules) (f : Json → Option α) (j : Json) : Option (List α) := do
  (← j.items? r).mapM f

def listD? {α : Type} (r : Rules) (f : Json → Option α) : Option Json → Option (List α)
  | none => some []
  | some j => j.list? r f

/-- The member of a name, which may be missing but not repeated. -/
def member? (members : List (Option String × Json)) (name : String) : Option (Option Json) :=
  match members.filter (·.1 == some name) with
  | [] => some none
  | [(_, j)] => some (some j)
  | _ => none

/-- The fields of a record, given by name or in order. Other names are passed over. -/
def fields? (r : Rules) (names : List String) : Json → Option (List (Option Json))
  | object members =>
    if r.depth = 0 || members.any (·.1.isNone) then none else names.mapM (member? members)
  | array items =>
    if r.depth = 0 || names.length < items.length then none
    else some (items.map some ++ List.replicate (names.length - items.length) none)
  | _ => none

def choiceFields? (r : Rules) (names : List String) (j : Json) : Option (List (Option Json)) :=
  match j with
  | array _ => if r.listed then j.fields? r names else none
  | _ => j.fields? r names

/-- A choice and its data: a name alone, or the only member of an object. -/
def variant? (r : Rules) : Json → Option (String × Option Json)
  | string s => s.map (·, none)
  | object [(some name, j)] => if r.depth = 0 then none else some (name, some j)
  | _ => none

def choice? (r : Rules) (j : Json) : Option String := do
  match ← j.variant? r with
  | (name, none) | (name, some null) => some name
  | _ => none

end ShaderSplit.Json
