/-!
Finite maps as association lists in strictly increasing order of their keys. The order makes the
representation unique, so two tables that answer every look-up alike are equal, and listing a
table lists it by key.
-/

namespace Clockwork

/-- A finite map from `κ` to `α`, by increasing key. -/
structure Table (κ : Type) (α : Type) where
  entries : List (κ × α)
  deriving Repr, Inhabited

namespace Table

variable {κ α β : Type} [LT κ] [DecidableLT κ] [DecidableEq κ]

def empty : Table κ α := ⟨[]⟩

instance : EmptyCollection (Table κ α) := ⟨empty⟩

def get? (t : Table κ α) (k : κ) : Option α :=
  (t.entries.find? fun e => decide (e.1 = k)).map (·.2)

def contains (t : Table κ α) (k : κ) : Bool := (t.get? k).isSome

/-- Puts a value under a key of an ordered list, in place of an earlier one. -/
def insertSorted (k : κ) (v : α) : List (κ × α) → List (κ × α)
  | [] => [(k, v)]
  | (k', v') :: rest =>
    if k < k' then (k, v) :: (k', v') :: rest
    else if k = k' then (k, v) :: rest
    else (k', v') :: insertSorted k v rest

/-- Puts a value under a key, in place of an earlier one. -/
def insert (t : Table κ α) (k : κ) (v : α) : Table κ α := ⟨insertSorted k v t.entries⟩

def erase (t : Table κ α) (k : κ) : Table κ α := ⟨t.entries.filter fun e => decide (e.1 ≠ k)⟩

def keys (t : Table κ α) : List κ := t.entries.map (·.1)

def size (t : Table κ α) : Nat := t.entries.length

def isEmpty (t : Table κ α) : Bool := t.entries.isEmpty

def map (f : α → β) (t : Table κ α) : Table κ β := ⟨t.entries.map fun e => (e.1, f e.2)⟩

/-- The table of a list of pairs; of two values under one key the later counts. -/
def ofList (l : List (κ × α)) : Table κ α := l.foldl (fun t e => t.insert e.1 e.2) empty

end Table

end Clockwork
