import ShaderReport.Toml.Value

/-!
# TOML documents under construction

A table may be written in several places, but every part of it only once. So a table remembers how
it came about: under a header of its own, as a part of the name in a header, or as a part of a
dotted key. Headers may add to all tables, dotted keys to those only that came about by dotted keys,
and nothing may add to a value that is complete, such as an inline table.
-/

namespace ShaderReport.Toml

/-- How a table came about. -/
inductive Origin where
  | header
  | implied
  | dotted
  deriving DecidableEq, Repr

/-- A part of a document: a complete value, a table, or an array of tables with the newest one
first. -/
inductive Node where
  | value (v : Value)
  | table (origin : Origin) (members : List (String × Node))
  | tables (items : List (List (String × Node)))

/-- The members of a table. -/
abbrev Members := List (String × Node)

namespace Members

/-- Changes the member with a key, or adds one. -/
def alter (f : Option Node → Option Node) (key : String) : Members → Option Members
  | [] => (f none).map fun node => [(key, node)]
  | (k, node) :: ms =>
    if k = key then (f (some node)).map fun node => (k, node) :: ms
    else (alter f key ms).map ((k, node) :: ·)

/-- Changes the table that the name in a header leads to. -/
def alterByHeader (f : Members → Option Members) : List String → Members → Option Members
  | [], ms => f ms
  | key :: keys, ms =>
    alter (fun
      | none => (alterByHeader f keys []).map (.table .implied)
      | some (.table origin sub) => (alterByHeader f keys sub).map (.table origin)
      | some (.tables (newest :: older)) =>
        (alterByHeader f keys newest).map fun newest => .tables (newest :: older)
      | some _ => none) key ms

/-- Changes the table that a part of a dotted key leads to. The last table on the way must have
come about by dotted keys; those before it may also be implied, or the newest of an array. -/
def alterByKey (f : Members → Option Members) : List String → Members → Option Members
  | [], ms => f ms
  | key :: keys, ms =>
    alter (fun
      | none => (alterByKey f keys []).map (.table .dotted)
      | some (.table origin sub) =>
        if origin = .dotted ∨ (origin = .implied ∧ keys ≠ []) then
          (alterByKey f keys sub).map (.table origin)
        else none
      | some (.tables (newest :: older)) =>
        if keys = [] then none
        else (alterByKey f keys newest).map fun newest => .tables (newest :: older)
      | some _ => none) key ms

/-- Adds a member with a new key. -/
def add (key : String) (v : Value) (ms : Members) : Option Members :=
  alter (fun
    | none => some (.value v)
    | some _ => none) key ms

/-- Adds a member under a dotted key. -/
def addByKey (keys : List String) (v : Value) (ms : Members) : Option Members :=
  match keys.reverse with
  | [] => none
  | last :: before => alterByKey (add last v) before.reverse ms

/-- Opens the table of a header. -/
def openTable (keys : List String) (ms : Members) : Option Members :=
  match keys.reverse with
  | [] => none
  | last :: before =>
    alterByHeader (alter (fun
      | none => some (.table .header [])
      | some (.table .implied sub) => some (.table .header sub)
      | some _ => none) last) before.reverse ms

/-- Opens a new table in the array of tables of a header. -/
def openArrayItem (keys : List String) (ms : Members) : Option Members :=
  match keys.reverse with
  | [] => none
  | last :: before =>
    alterByHeader (alter (fun
      | none => some (.tables [[]])
      | some (.tables items) => some (.tables ([] :: items))
      | some _ => none) last) before.reverse ms

end Members

mutual

/-- The value of a complete part. -/
def Node.toValue : Node → Value
  | .value v => v
  | .table _ members => .table (membersToValues members)
  | .tables items => .array (tablesToValues items).reverse

/-- The values of the members of a table. -/
def membersToValues : List (String × Node) → List (String × Value)
  | [] => []
  | (key, node) :: ms => (key, node.toValue) :: membersToValues ms

/-- The values of tables. -/
def tablesToValues : List (List (String × Node)) → List Value
  | [] => []
  | t :: ts => .table (membersToValues t) :: tablesToValues ts

end

end ShaderReport.Toml
