namespace ShaderSplit

/-- How a table came about: on the way to a header, by a header, by a dotted key, or inline. -/
inductive TableOrigin where
  | implicit | header | dotted | inline
  deriving DecidableEq, Repr

inductive Toml where
  | string (s : String)
  | plain (text : String)
  | array (items : List Toml)
  | table (origin : TableOrigin) (entries : List (String × Toml))
  | tables (items : List Toml)

namespace Toml

abbrev Entries := List (String × Toml)

def update (key : String) (f : Option Toml → Option Toml) : Entries → Option Entries
  | [] => (f none).map fun v => [(key, v)]
  | (k, v) :: es =>
    if k = key then (f (some v)).map fun v => (key, v) :: es
    else (update key f es).map ((k, v) :: ·)

/-- Changes the table at a path. Missing tables are made on the way; a table with a header is not
entered by a dotted key. Of several tables under one name the last is meant. -/
def descend (dotted : Bool) (edit : TableOrigin → Entries → Option Entries) :
    List String → TableOrigin → Entries → Option Entries
  | [], origin, es => edit origin es
  | key :: path, _, es =>
    es |> update key fun
      | none =>
        let origin := if dotted then TableOrigin.dotted else .implicit
        (descend dotted edit path origin []).map (.table origin)
      | some (.table origin inner) =>
        if origin = .inline || (dotted && origin = .header) then none
        else (descend dotted edit path origin inner).map (.table origin)
      | some (.tables items) =>
        match items.reverse with
        | .table origin inner :: before =>
          if dotted then none
          else (descend dotted edit path origin inner).map fun inner =>
            .tables (before.reverse ++ [.table origin inner])
        | _ => none
      | some _ => none

/-- A value under a dotted key. Only tables made by dotted keys are extended by them. -/
def define (path : List String) (key : String) (v : Toml) :
    TableOrigin → Entries → Option Entries :=
  descend true (fun origin es =>
    if (origin = .dotted) = path.isEmpty then none
    else es |> update key fun
      | none => some v
      | some _ => none) path

def openTable (key : String) (_ : TableOrigin) (es : Entries) : Option Entries :=
  es |> update key fun
    | none => some (.table .header [])
    | some (.table .implicit inner) => some (.table .header inner)
    | some _ => none

def appendTable (key : String) (_ : TableOrigin) (es : Entries) : Option Entries :=
  es |> update key fun
    | none => some (.tables [.table .header []])
    | some (.tables items) => some (.tables (items ++ [.table .header []]))
    | some _ => none

end Toml
end ShaderSplit
