/-
Maps from texts, as lists of entries in byte order of their keys.
-/
import LocaleSync.Text.Basic

namespace LocaleSync.Text

/-- Entries in increasing order of their keys. -/
abbrev Index (α : Type) := List (Text × α)

namespace Index

variable {α : Type}

/-- The index with `v` under `k`, in place of what was there. -/
def insert (k : Text) (v : α) : Index α → Index α
  | [] => [(k, v)]
  | (a, x) :: rest =>
    if k < a then (k, v) :: (a, x) :: rest
    else if k = a then (k, v) :: rest
    else (a, x) :: insert k v rest

/-- What stands under `k`. -/
def get? (ix : Index α) (k : Text) : Option α :=
  (ix.find? (·.1 = k)).map (·.2)

/-- The keys in increasing order. -/
def keys (ix : Index α) : List Text :=
  ix.map (·.1)

end Index

end LocaleSync.Text
