namespace Clockwork

/-- The names seen so far, each at its number. -/
structure Interner where
  names : Array String
  deriving Repr, Inhabited

namespace Interner

def empty : Interner := ⟨#[]⟩

def id? (t : Interner) (name : String) : Option Nat := t.names.findIdx? (· == name)

def intern (t : Interner) (name : String) : Interner × Nat :=
  match t.id? name with
  | some id => (t, id)
  | none => (⟨t.names.push name⟩, t.names.size)

def name? (t : Interner) (id : Nat) : Option String := t.names[id]?

def size (t : Interner) : Nat := t.names.size

end Interner

end Clockwork
