import Clockwork.Number.Word
import Clockwork.Table
import Clockwork.Value.Error
import Clockwork.Number.Bounded

namespace Clockwork

/-- A memory. Only elements other than zero are kept. -/
structure Memory where
  width : Nat
  size : Nat
  cells : Table Nat Int
  deriving Repr, Inhabited

namespace Memory

def ofSize (width size : Nat) : Memory := ⟨max width 1, size, .empty⟩

def elementBytes (m : Memory) : Nat := (m.width + 7) / 8

/-- Bytes in all. A 64-bit product is the same as long as it does not overflow, which
`byteSize_le_max64` rules out for fewer than 2^35 elements. -/
def byteSize (m : Memory) : Nat := m.size * m.elementBytes

theorem byteSize_le_max64 {m : Memory} (hwidth : m.width ≤ Bounded.max32)
    (hsize : m.size < 0x800000000) : m.byteSize ≤ Bounded.max64 := by
  have helement : m.elementBytes ≤ 0x20000000 := by
    simp only [elementBytes, Bounded.max32] at hwidth ⊢
    omega
  calc m.size * m.elementBytes ≤ 0x7FFFFFFFF * 0x20000000 :=
        Nat.mul_le_mul (Nat.le_of_lt_succ hsize) helement
    _ ≤ Bounded.max64 := by decide

def position (m : Memory) (index : Int) : Except SimError Nat :=
  match Bounded.toNat64? index with
  | some i => if i < m.size then .ok i else .error (.indexOutOfBounds index m.size)
  | none => .error (.indexOutOfBounds index m.size)

def element (m : Memory) (i : Nat) : Int := (m.cells.get? i).getD 0

def read (m : Memory) (index : Int) : Except SimError Int :=
  (m.position index).map m.element

def setElement (m : Memory) (i : Nat) (value : Int) : Memory :=
  let v := Word.low value m.width
  { m with cells := if v = 0 then m.cells.erase i else m.cells.insert i v }

def write (m : Memory) (index : Int) (value : Int) : Except SimError Memory :=
  (m.position index).map (m.setElement · value)

end Memory

end Clockwork
