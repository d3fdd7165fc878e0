namespace ShaderSplit.Toml

def digit? (c : Char) : Option Nat := if c.isDigit then some (c.toNat - '0'.toNat) else none

def twoDigits? : List Char → Option (Nat × List Char)
  | a :: b :: cs => do return (10 * (← digit? a) + (← digit? b), cs)
  | _ => none

def markedDigits? (mark : Char) : List Char → Option (Nat × List Char)
  | c :: cs => if c = mark then twoDigits? cs else none
  | [] => none

def isLeapYear (year : Nat) : Bool := year % 4 = 0 && (year % 100 ≠ 0 || year % 400 = 0)

def daysIn (year month : Nat) : Nat :=
  if month = 2 then (if isLeapYear year then 29 else 28)
  else if [4, 6, 9, 11].contains month then 30 else 31

def date? (cs : List Char) : Option (List Char) := do
  let (century, cs) ← twoDigits? cs
  let (year, cs) ← twoDigits? cs
  let (month, cs) ← markedDigits? '-' cs
  let (day, cs) ← markedDigits? '-' cs
  if 1 ≤ month && month ≤ 12 && 1 ≤ day && day ≤ daysIn (100 * century + year) month then some cs
  else none

def clock? (cs : List Char) : Option (List Char) := do
  let (hours, cs) ← twoDigits? cs
  let (minutes, cs) ← markedDigits? ':' cs
  if hours ≤ 23 && minutes ≤ 59 then some cs else none

def secondPart? : List Char → Option (List Char)
  | '.' :: c :: cs => if c.isDigit then some (cs.dropWhile Char.isDigit) else none
  | cs => some cs

/-- A time of day; seconds may be missing, and a leap second may be given. -/
def time? (cs : List Char) : Option (List Char) := do
  match ← clock? cs with
  | ':' :: cs =>
    let (seconds, cs) ← twoDigits? cs
    if seconds ≤ 60 then secondPart? cs else none
  | cs => some cs

def isOffset : List Char → Bool
  | [] | ['Z'] | ['z'] => true
  | '+' :: cs | '-' :: cs => clock? cs == some []
  | _ => false

/-- A date, a time of day, or a date and a time; only the last has an offset. -/
def isMoment (cs : List Char) : Bool :=
  match date? cs with
  | some [] => true
  | some (c :: cs) => (c = 'T' || c = 't' || c = ' ') && (time? cs).any isOffset
  | none => time? cs == some []

end ShaderSplit.Toml
