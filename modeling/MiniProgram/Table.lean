/-!
# Tables

A table maps keys to values. Its entries are sorted by key, each key stands in it once, and a key
that is put again takes its new value.
-/

namespace MiniProgram

/-- A table: entries in increasing order of their keys. -/
abbrev Table (α : Type) := List (String × α)

namespace Table

variable {α : Type}

/-- `table.put key value` sets the value of a key. -/
def put (table : Table α) (key : String) (value : α) : Table α :=
  match table with
  | [] => [(key, value)]
  | entry :: rest =>
    if key < entry.1 then (key, value) :: entry :: rest
    else if key = entry.1 then (key, value) :: rest
    else entry :: put rest key value

/-- `ofEntries entries` puts all entries into a table, the last one of a key to stay. -/
def ofEntries (entries : List (String × α)) : Table α :=
  entries.foldl (fun table entry => table.put entry.1 entry.2) []

/-- The value of a key. -/
def get? (table : Table α) (key : String) : Option α :=
  (table.find? fun entry => entry.1 == key).map Prod.snd

/-- The keys in increasing order. -/
def keys (table : Table α) : List String :=
  table.map Prod.fst

end Table

end MiniProgram
