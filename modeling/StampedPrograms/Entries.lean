/-!
Records as lists of named entries in ascending order of their names, each name once. Names compare
by code points, which is also the order of their UTF-8 bytes. `List.lookup` reads an entry.
-/

namespace StampedPrograms.Entries

variable {α : Type}

/-- Every name comes before all the names after it. -/
def Ascending (entries : List (String × α)) : Prop :=
  entries.Pairwise fun left right => left.1 < right.1

/-- Adds an entry at its place, or replaces the entry of that name. -/
def insert (name : String) (item : α) : List (String × α) → List (String × α)
  | [] => [(name, item)]
  | head :: rest =>
      if name < head.1 then (name, item) :: head :: rest
      else if name = head.1 then (name, item) :: rest
      else head :: insert name item rest

/-- The record of a list of pairs: of several items under one name the last one stays. -/
def ofList (pairs : List (String × α)) : List (String × α) :=
  pairs.foldl (fun entries pair => insert pair.1 pair.2 entries) []

end StampedPrograms.Entries
