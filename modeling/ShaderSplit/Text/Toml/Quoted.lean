import ShaderSplit.Text.Hex
import ShaderSplit.Text.Toml.Line

namespace ShaderSplit.Toml

def ofHex? (ds : List Char) : Option Char := do
  let n ← ds.foldlM (fun n c => (Hex.value? c).map (16 * n + ·)) 0
  if n.isValidChar then some (Char.ofNat n) else none

def escape? : List Char → Option (Char × List Char)
  | 'b' :: cs => some ('\x08', cs)
  | 't' :: cs => some ('\t', cs)
  | 'n' :: cs => some ('\n', cs)
  | 'f' :: cs => some ('\x0c', cs)
  | 'r' :: cs => some ('\r', cs)
  | 'e' :: cs => some ('\x1b', cs)
  | '"' :: cs => some ('"', cs)
  | '\\' :: cs => some ('\\', cs)
  | 'x' :: cs => if 2 ≤ cs.length then (ofHex? (cs.take 2)).map (·, cs.drop 2) else none
  | 'u' :: cs => if 4 ≤ cs.length then (ofHex? (cs.take 4)).map (·, cs.drop 4) else none
  | 'U' :: cs => if 8 ≤ cs.length then (ofHex? (cs.take 8)).map (·, cs.drop 8) else none
  | _ => none

def basic? : Nat → List Char → List Char → Option (String × List Char)
  | 0, _, _ => none
  | fuel + 1, acc, cs =>
    match cs with
    | '"' :: cs => some (String.ofList acc.reverse, cs)
    | '\\' :: cs => (escape? cs).bind fun (c, cs) => basic? fuel (c :: acc) cs
    | c :: cs => if isControl c then none else basic? fuel (c :: acc) cs
    | [] => none

def literal? (acc : List Char) : List Char → Option (String × List Char)
  | '\'' :: cs => some (String.ofList acc.reverse, cs)
  | c :: cs => if isControl c then none else literal? (c :: acc) cs
  | [] => none

/-- Closing quotes of a string of several lines; one or two more belong to the string. -/
def closing? (q : Char) (acc : List Char) (cs : List Char) : Option (String × List Char) :=
  let n := min (cs.takeWhile (· = q)).length 5
  if 3 ≤ n then some (String.ofList (acc.reverse ++ List.replicate (n - 3) q), cs.drop n) else none

def continuation? (fuel : Nat) (cs : List Char) : Option (List Char) :=
  (newline? (skipBlank cs)).map fun cs => skip fuel cs
where
  skip : Nat → List Char → List Char
    | 0, cs => cs
    | fuel + 1, cs =>
      match newline? (skipBlank cs) with
      | some cs => skip fuel cs
      | none => skipBlank cs

/-- A basic string of several lines; line ends are kept as they are. -/
def lines? : Nat → List Char → List Char → Option (String × List Char)
  | 0, _, _ => none
  | fuel + 1, acc, cs =>
    match closing? '"' acc cs with
    | some r => some r
    | none =>
      match cs with
      | '\\' :: cs =>
        match continuation? fuel cs with
        | some cs => lines? fuel acc cs
        | none => (escape? cs).bind fun (c, cs) => lines? fuel (c :: acc) cs
      | '\r' :: '\n' :: cs => lines? fuel ('\n' :: '\r' :: acc) cs
      | '\n' :: cs => lines? fuel ('\n' :: acc) cs
      | c :: cs => if isControl c then none else lines? fuel (c :: acc) cs
      | [] => none

def literalLines? : Nat → List Char → List Char → Option (String × List Char)
  | 0, _, _ => none
  | fuel + 1, acc, cs =>
    match closing? '\'' acc cs with
    | some r => some r
    | none =>
      match cs with
      | '\r' :: '\n' :: cs => literalLines? fuel ('\n' :: '\r' :: acc) cs
      | '\n' :: cs => literalLines? fuel ('\n' :: acc) cs
      | c :: cs => if isControl c then none else literalLines? fuel (c :: acc) cs
      | [] => none

/-- A line end right after the opening quotes is not part of the string. -/
def dropNewline (cs : List Char) : List Char := (newline? cs).getD cs

def string? (cs : List Char) : Option (String × List Char) :=
  let fuel := cs.length + 1
  match cs with
  | '"' :: '"' :: '"' :: cs => lines? fuel [] (dropNewline cs)
  | '"' :: cs => basic? fuel [] cs
  | '\'' :: '\'' :: '\'' :: cs => literalLines? fuel [] (dropNewline cs)
  | '\'' :: cs => literal? [] cs
  | _ => none

end ShaderSplit.Toml
