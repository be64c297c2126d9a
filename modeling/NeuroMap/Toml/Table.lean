import NeuroMap.Data.Basic

/-!
# Tables under construction in TOML

A table comes to be in one of three ways: by a header of its own, on the way to the table of another header, or on the
way to a value with a dotted key. Which one decides what may still be added to it: a header may take over a table that
was only passed by other headers, and dotted keys may only add to tables made by dotted keys.
-/

namespace NeuroMap.Toml

/-- How a table came to be. -/
inductive Origin where
  /-- By a header of its own, or as the whole document or a table in braces. -/
  | header
  /-- On the way to the table of a header. -/
  | passed
  /-- On the way to a value with a dotted key. -/
  | dotted
deriving DecidableEq, Repr

/-- What a key stands for. -/
inductive Item where
  | value (d : Data)
  | table (origin : Origin) (entries : List (String × Item))
  /-- The tables of a repeated header. -/
  | tables (all : List (List (String × Item)))

/-- The keys of a table and what they stand for. -/
abbrev Entries := List (String × Item)

namespace Entries

/-- Sets the item of a key. -/
def set (entries : Entries) (key : String) (item : Item) : Entries :=
  entries.filter (·.1 ≠ key) ++ [(key, item)]

/-- Changes the table that a path leads to. Missing tables on the way are made, with the given origin. A repeated header
means its last table. The way of a dotted key must not lead through a table with a header. -/
def change (made : Origin) (f : Origin → Entries → Option Entries) :
    List String → Origin → Entries → Option Entries
  | [], origin, entries => f origin entries
  | key :: path, _, entries =>
    match entries.lookup key with
    | none => do
      let inner ← change made f path made []
      return entries.set key (.table made inner)
    | some (.value _) => none
    | some (.table origin inner) =>
      if made = .dotted ∧ origin = .header then none
      else do
        let inner ← change made f path origin inner
        return entries.set key (.table origin inner)
    | some (.tables all) => do
      let inner ← change made f path .header (← all.getLast?)
      return entries.set key (.tables (all.dropLast ++ [inner]))

/-- Adds a value under a key, whose path starts at a table of the given origin. -/
def add (path : List String) (key : String) (d : Data) (origin : Origin) (entries : Entries) : Option Entries :=
  change .dotted (fun reached entries =>
    if (reached == .dotted) == path.isEmpty then none
    else if (entries.lookup key).isSome then none
    else some (entries.set key (.value d))) path origin entries

/-- Makes the table of a header. -/
def openTable (path : List String) (key : String) (entries : Entries) : Option Entries :=
  change .passed (fun _ entries =>
    match entries.lookup key with
    | none => some (entries.set key (.table .header []))
    | some (.table .passed inner) => some (entries.set key (.table .header inner))
    | _ => none) path .header entries

/-- Makes the next table of a repeated header. -/
def openElement (path : List String) (key : String) (entries : Entries) : Option Entries :=
  change .passed (fun _ entries =>
    match entries.lookup key with
    | none => some (entries.set key (.tables [[]]))
    | some (.tables all) => some (entries.set key (.tables (all ++ [[]])))
    | _ => none) path .header entries

/-- Adds a value to the table of a header. -/
def addUnder (header : List String) (path : List String) (key : String) (d : Data) (entries : Entries) :
    Option Entries :=
  change .passed (add path key d) header .header entries

end Entries

mutual

/-- The data of an item. -/
def Item.data : Item → Data
  | .value d => d
  | .table _ entries => .record (membersOf entries)
  | .tables all => .list (recordsOf all)

/-- The members of a table. -/
def membersOf : List (String × Item) → List (Option String × Data)
  | [] => []
  | (key, item) :: rest => (some key, item.data) :: membersOf rest

/-- The data of the tables of a repeated header. -/
def recordsOf : List (List (String × Item)) → List Data
  | [] => []
  | entries :: rest => .record (membersOf entries) :: recordsOf rest

end

end NeuroMap.Toml
