/-!
The contents of a TOML document. What a table may still be given depends on how it came about,
so every table carries its origin. `assign`, `openTable` and `openElement` are the three things
that a line can do to a document; each refuses to define anything twice.
-/

namespace Clockwork.Toml

/-- How a table came about. -/
inductive Origin where
  | header
  | implied
  | dotted
  | inline
  deriving DecidableEq, Repr, Inhabited

/-- A value, a table, or the tables of repeated headers. Reals and moments are kept as written. -/
inductive Item where
  | text (s : String)
  | integer (n : Int)
  | real (written : String)
  | bool (b : Bool)
  | moment (written : String)
  | array (items : List Item)
  | table (origin : Origin) (entries : List (String × Item))
  | tables (elements : List Item)
  deriving Repr, Inhabited

abbrev Entries := List (String × Item)

/-- Whether a path may lead through a table to what is below it. Dotted keys do not add to a table
that has a header, and nothing adds to a table in braces. -/
def Origin.isOpen (byKey : Bool) : Origin → Bool
  | .header => !byKey
  | .implied => true
  | .dotted => true
  | .inline => false

namespace Entries

/-- Puts an item under a name, in place of an earlier one. -/
def set (name : String) (item : Item) : Entries → Entries
  | [] => [(name, item)]
  | (name', item') :: rest =>
    if name' = name then (name, item) :: rest else (name', item') :: set name item rest

/-- Changes the entries at the end of a path. `change` gets the origin of the table at that end and
its entries. Tables that are missing on the way are made, and of the tables of repeated headers the
path takes the last. -/
def modifyAt (byKey : Bool) (change : Origin → Entries → Option Entries) :
    List String → Origin → Entries → Option Entries
  | [], origin, entries => change origin entries
  | name :: path, _, entries =>
    match entries.lookup name with
    | none => do
      let origin := if byKey then .dotted else .implied
      let below ← modifyAt byKey change path origin []
      some (set name (.table origin below) entries)
    | some (.table origin below) => do
      guard (origin.isOpen byKey)
      let below ← modifyAt byKey change path origin below
      some (set name (.table origin below) entries)
    | some (.tables elements) =>
      match elements.getLast? with
      | some (.table origin below) => do
        let below ← modifyAt byKey change path origin below
        some (set name (.tables (elements.dropLast ++ [.table origin below])) entries)
      | _ => none
    | some _ => none

/-- Gives a new name an item, below the tables of a dotted key. A dotted key never reaches into a
table that other means have made. -/
def assign (path : List String) (name : String) (item : Item) (entries : Entries) :
    Option Entries :=
  modifyAt true (fun origin entries =>
    if decide (origin = .dotted) != !path.isEmpty || (entries.lookup name).isSome then none
    else some (entries ++ [(name, item)])) path .header entries

/-- Opens the table of a header. It may have been implied before, but not defined. -/
def openTable (path : List String) (name : String) (entries : Entries) : Option Entries :=
  modifyAt false (fun _ entries =>
    match entries.lookup name with
    | none => some (entries ++ [(name, .table .header [])])
    | some (.table .implied below) => some (set name (.table .header below) entries)
    | some _ => none) path .header entries

/-- Opens one more table of a header that repeats. -/
def openElement (path : List String) (name : String) (entries : Entries) : Option Entries :=
  modifyAt false (fun _ entries =>
    match entries.lookup name with
    | none => some (entries ++ [(name, .tables [.table .header []])])
    | some (.tables elements) =>
      some (set name (.tables (elements ++ [.table .header []])) entries)
    | some _ => none) path .header entries

end Entries

end Clockwork.Toml
