import ShaderSplit.Text.Json

namespace ShaderSplit.Json

def str (s : String) : Json := .string (some s)

def int (i : Int) : Json := .number (.ofInt i)

def nat (n : Nat) : Json := int n

def strs (l : List String) : Json := .array (l.map str)

def obj (members : List (String × Json)) : Json := .object (members.map fun (k, v) => (some k, v))

def opt {α : Type} (f : α → Json) : Option α → Json
  | none => .null
  | some a => f a

def escapeChar (c : Char) : List Char :=
  if c = '"' || c = '\\' then ['\\', c]
  else if c.toNat < 0x20 then ['\\', 'u', '0', '0'] ++ Hex.byte Hex.lower c.toNat.toUInt8
  else [c]

def quote (s : String) : String := "\"" ++ String.ofList (s.toList.flatMap escapeChar) ++ "\""

mutual
def render : Json → String
  | null => "null"
  | bool b => toString b
  | number n => n.text
  | string s => quote (s.getD "")
  | array items => "[" ++ ",".intercalate (renderItems items) ++ "]"
  | object members => "\x7b" ++ ",".intercalate (renderMembers members) ++ "\x7d"
def renderItems : List Json → List String
  | [] => []
  | j :: js => render j :: renderItems js
def renderMembers : List (Option String × Json) → List String
  | [] => []
  | (name, j) :: ms => (quote (name.getD "") ++ ":" ++ render j) :: renderMembers ms
end

end ShaderSplit.Json
