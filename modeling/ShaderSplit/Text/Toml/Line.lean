namespace ShaderSplit.Toml

def isControl (c : Char) : Bool := (c.toNat < 0x20 && c ≠ '\t') || c.toNat = 0x7F

def isBlank (c : Char) : Bool := c == ' ' || c == '\t'

def skipBlank (cs : List Char) : List Char := cs.dropWhile isBlank

def newline? : List Char → Option (List Char)
  | '\n' :: cs => some cs
  | '\r' :: '\n' :: cs => some cs
  | _ => none

def comment? : List Char → Option (List Char)
  | [] => some []
  | '\n' :: cs => some ('\n' :: cs)
  | '\r' :: '\n' :: cs => some ('\r' :: '\n' :: cs)
  | c :: cs => if isControl c then none else comment? cs

/-- The end of a line that may hold a comment; the rest starts the next line. -/
def endLine? (cs : List Char) : Option (List Char) :=
  match skipBlank cs with
  | [] => some []
  | '#' :: cs => (comment? cs).bind fun
    | [] => some []
    | cs => newline? cs
  | cs => newline? cs

def skipLines? : Nat → List Char → Option (List Char)
  | 0, cs => some cs
  | fuel + 1, cs =>
    match skipBlank cs with
    | '#' :: cs => (comment? cs).bind (skipLines? fuel)
    | cs =>
      match newline? cs with
      | some cs => skipLines? fuel cs
      | none => some cs

end ShaderSplit.Toml
