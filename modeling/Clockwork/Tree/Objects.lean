import Clockwork.Storage.AddressSpace
import Clockwork.Table
import Clockwork.Value.Basic

namespace Clockwork

/-- The objects of a design and those it is connected to. -/
structure Objects where
  banks : Banks
  spaces : Array AddressSpace
  channels : Array Nat
  locks : Nat
  events : Array Bool
  interfaces : Array (Table String Value)
  deriving Inhabited

namespace Objects

def empty : Objects := ⟨.empty, #[], #[], 0, #[], #[]⟩

def addMemory (o : Objects) (m : Memory) : Objects × Handle :=
  let (banks, id) := o.banks.addMemory m
  ({ o with banks := banks }, .memory id)

def addRegFile (o : Objects) (f : RegFile) : Objects × Handle :=
  let (banks, id) := o.banks.addRegFile f
  ({ o with banks := banks }, .regFile id)

def addSpace (o : Objects) : Objects × Handle :=
  ({ o with spaces := o.spaces.push .empty }, .addressSpace o.spaces.size)

def addChannel (o : Objects) (capacity : Nat) : Objects × Handle :=
  ({ o with channels := o.channels.push capacity }, .channel o.channels.size)

def addLock (o : Objects) : Objects × Handle :=
  ({ o with locks := o.locks + 1 }, .lock o.locks)

def addEvent (o : Objects) (detached : Bool) : Objects × Handle :=
  ({ o with events := o.events.push detached }, .event o.events.size)

def addInterface (o : Objects) (members : Table String Value) : Objects × Handle :=
  ({ o with interfaces := o.interfaces.push members }, .interface o.interfaces.size)

def space (o : Objects) (id : Nat) : AddressSpace := o.spaces[id]?.getD .empty

def setSpace (o : Objects) (id : Nat) (s : AddressSpace) : Objects :=
  { o with spaces := o.spaces.setIfInBounds id s }

def interface (o : Objects) (id : Nat) : Table String Value := o.interfaces[id]?.getD .empty

end Objects

end Clockwork
