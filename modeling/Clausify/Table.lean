/-!
Tables: association lists with one entry for each key. Setting a key replaces its entry in place
or adds a new one at the end, so the order is that of first insertion.
-/

namespace Clausify

/-- A finite map as a list of keys and values. -/
abbrev Table (κ α : Type) := List (κ × α)

namespace Table

variable {κ α : Type} [DecidableEq κ]

def set (key : κ) (value : α) : Table κ α → Table κ α
  | [] => [(key, value)]
  | (k, a) :: rest => if k = key then (key, value) :: rest else (k, a) :: set key value rest

def has (key : κ) (t : Table κ α) : Bool := (t.lookup key).isSome

end Table

end Clausify
