import Clockwork.Number.Bounded
import Clockwork.Storage.Memory
import Clockwork.Storage.RegFile
/-!
Address spaces: memories and register files mapped into regions that are sorted by address and do
not overlap. Accesses take one to eight bytes, the least significant first, and stay inside one
region.
-/

namespace Clockwork

/-- The memories and register files that regions refer to by number. -/
structure Banks where
  memories : Array Memory
  regFiles : Array RegFile
  deriving Repr, Inhabited

inductive Backing where
  | memory (id : Nat)
  | regFile (id : Nat)
  deriving DecidableEq, Repr, Inhabited

namespace Banks

def empty : Banks := ⟨#[], #[]⟩

def memory (b : Banks) (id : Nat) : Memory := b.memories[id]?.getD default

def regFile (b : Banks) (id : Nat) : RegFile := b.regFiles[id]?.getD default

def setMemory (b : Banks) (id : Nat) (m : Memory) : Banks :=
  { b with memories := b.memories.setIfInBounds id m }

def setRegFile (b : Banks) (id : Nat) (f : RegFile) : Banks :=
  { b with regFiles := b.regFiles.setIfInBounds id f }

def addMemory (b : Banks) (m : Memory) : Banks × Nat :=
  ({ b with memories := b.memories.push m }, b.memories.size)

def addRegFile (b : Banks) (f : RegFile) : Banks × Nat :=
  ({ b with regFiles := b.regFiles.push f }, b.regFiles.size)

/-- Bytes of a storage. -/
def byteSize (b : Banks) : Backing → Nat
  | .memory id => (b.memory id).byteSize
  | .regFile id => (b.regFile id).byteSize

def label (b : Banks) : Backing → String
  | .memory id => let m := b.memory id; s!"memory[{m.size}x{m.width}]"
  | .regFile id => "regfile " ++ (b.regFile id).name

def readMemory (b : Banks) (id : Nat) (index : Int) : Except SimError Int :=
  (b.memory id).read index

def writeMemory (b : Banks) (id : Nat) (index value : Int) : Except SimError Banks :=
  ((b.memory id).write index value).map (b.setMemory id)

def readRegister (b : Banks) (id offset : Nat) : Except SimError Int := (b.regFile id).read offset

def writeRegister (b : Banks) (id offset : Nat) (value : Int) : Except SimError Banks :=
  ((b.regFile id).write offset value).map (b.setRegFile id)

def writeRegisterByte (b : Banks) (id byte value : Nat) : Except SimError Banks :=
  ((b.regFile id).writeByte byte value).map (b.setRegFile id)

end Banks

structure Region where
  base : Nat
  size : Nat
  backing : Backing
  deriving DecidableEq, Repr, Inhabited

def Region.stop (r : Region) : Nat := Bounded.add64 r.base r.size

/-- Regions by increasing base. -/
structure AddressSpace where
  regions : List Region
  deriving DecidableEq, Repr, Inhabited

namespace AddressSpace

def empty : AddressSpace := ⟨[]⟩

def splitAt (s : AddressSpace) (base : Nat) : List Region × List Region :=
  s.regions.span fun r => r.base < base

def addRegion (s : AddressSpace) (r : Region) : Except SimError AddressSpace :=
  let (below, above) := s.splitAt r.base
  let clashBelow := match below.getLast? with
    | some p => r.base < p.stop
    | none => false
  let clashAbove := match above.head? with
    | some n => n.base < r.stop || n.base == r.base
    | none => false
  if clashBelow || clashAbove then .error (.regionOverlap r.base r.size)
  else .ok ⟨below ++ r :: above⟩

def map (s : AddressSpace) (banks : Banks) (base : Nat) (backing : Backing) :
    Except SimError AddressSpace :=
  s.addRegion ⟨base, banks.byteSize backing, backing⟩

/-- The region that holds `size` bytes from an address on. -/
def lookup (s : AddressSpace) (addr size : Nat) : Except SimError Region :=
  match (s.regions.takeWhile fun r => r.base ≤ addr).getLast? with
  | none => .error (.addressNotMapped addr)
  | some r =>
    if r.stop ≤ addr then .error (.addressNotMapped addr)
    else if r.stop < Bounded.add64 addr size then
      .error (.regionBoundaryCrossed addr size r.stop)
    else .ok r

def lowBytes (value size : Nat) : Nat := value % Nat.pow 2 (8 * min size 8)

def low64 (n : Int) : Nat := (n % Int.pow 2 64).toNat

def ofBytes : List Nat → Nat
  | [] => 0
  | b :: rest => b + 256 * ofBytes rest

def byteOf (value k : Nat) : Nat := value / Nat.pow 256 k % 256

def isElement (m : Memory) (offset size : Nat) : Bool :=
  size == m.elementBytes && offset % m.elementBytes == 0

def memoryByte (m : Memory) (byte : Nat) : Except SimError Nat := do
  let element ← m.read (byte / m.elementBytes : Nat)
  return (Word.shiftRight element (8 * (byte % m.elementBytes)) % 256).toNat

def readMemory (m : Memory) (offset size : Nat) : Except SimError Nat :=
  if isElement m offset size then do
    let raw ← m.read (offset / m.elementBytes : Nat)
    return lowBytes (low64 raw) size
  else do
    return ofBytes (← (List.range size).mapM fun k => memoryByte m (offset + k))

def isRegister (f : RegFile) (offset size : Nat) : Option Register :=
  match f.covering? offset with
  | some r => if r.offset = offset ∧ r.byteLength = size then some r else none
  | none => none

def readRegisters (f : RegFile) (offset size : Nat) : Except SimError Nat :=
  match isRegister f offset size with
  | some r => .ok (lowBytes (low64 r.value) size)
  | none => do
    return ofBytes (← (List.range size).mapM fun k => f.readByte (offset + k))

def checkSize (size : Nat) : Except SimError Unit :=
  if 1 ≤ size ∧ size ≤ 8 then .ok () else .error (.invalidAccessSize size)

def read (s : AddressSpace) (banks : Banks) (addr size : Nat) : Except SimError Nat := do
  checkSize size
  let r ← s.lookup addr size
  match r.backing with
  | .memory id => readMemory (banks.memory id) (addr - r.base) size
  | .regFile id => readRegisters (banks.regFile id) (addr - r.base) size

def writeMemoryByte (m : Memory) (byte value : Nat) : Except SimError Memory := do
  let index : Int := (byte / m.elementBytes : Nat)
  let old ← m.read index
  m.write index (RegFile.replaceByte old (byte % m.elementBytes) value)

/-- Carries out steps one after the other up to the first that fails, and keeps what was done. -/
def each {α β : Type} (step : α → β → Except SimError α) (a : α) : List β → α × Option SimError
  | [] => (a, none)
  | b :: rest =>
    match step a b with
    | .ok a => each step a rest
    | .error e => (a, some e)

/-- Writes a memory as bytes. Bytes written before a fault stay written. -/
def writeMemory (m : Memory) (offset value size : Nat) : Memory × Option SimError :=
  if isElement m offset size then
    match m.write (offset / m.elementBytes : Nat) value with
    | .ok m => (m, none)
    | .error e => (m, some e)
  else each (fun m k => writeMemoryByte m (offset + k) (byteOf value k)) m (List.range size)

/-- Writes registers as bytes. Bytes written before a fault stay written. -/
def writeRegisters (f : RegFile) (offset value size : Nat) : RegFile × Option SimError :=
  match isRegister f offset size with
  | some r => (f.set r.offset value, none)
  | none => each (fun f k => f.writeByte (offset + k) (byteOf value k)) f (List.range size)

/-- Writes the low `size` bytes of a value. -/
def write (s : AddressSpace) (banks : Banks) (addr value size : Nat) :
    Banks × Option SimError :=
  match checkSize size with
  | .error e => (banks, some e)
  | .ok () =>
    match s.lookup addr size with
    | .error e => (banks, some e)
    | .ok r =>
      let value := lowBytes value size
      match r.backing with
      | .memory id =>
        let (m, e) := writeMemory (banks.memory id) (addr - r.base) value size
        (banks.setMemory id m, e)
      | .regFile id =>
        let (f, e) := writeRegisters (banks.regFile id) (addr - r.base) value size
        (banks.setRegFile id f, e)

end AddressSpace

end Clockwork
