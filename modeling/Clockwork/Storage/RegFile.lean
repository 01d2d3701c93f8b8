import Clockwork.Number.Word
import Clockwork.Value.Error

namespace Clockwork

structure Register where
  name : String
  offset : Nat
  bits : Nat
  value : Int
  deriving DecidableEq, Repr, Inhabited

def Register.byteLength (r : Register) : Nat := max ((r.bits + 7) / 8) 1

structure RegFile where
  name : String
  registers : List Register
  deriving DecidableEq, Repr, Inhabited

namespace RegFile

/-- A register file of zeros, from names, offsets and widths. -/
def ofLayout (name : String) (layout : List (String × Nat × Nat)) : RegFile :=
  ⟨name, layout.map fun (n, offset, bits) => ⟨n, offset, bits, 0⟩⟩

/-- Bytes up to the end of the last register. 64-bit sums are the same as long as no register
ends beyond `Bounded.max64`, and then neither does the register file. -/
def byteSize (f : RegFile) : Nat :=
  (f.registers.map fun r => r.offset + r.byteLength).foldl max 0

theorem foldl_max_le {ends : List Nat} {m n : Nat} (hm : m ≤ n) (hends : ∀ e ∈ ends, e ≤ n) :
    ends.foldl max m ≤ n := by
  induction ends generalizing m with
  | nil => exact hm
  | cons e ends ih =>
      exact ih (Nat.max_le.mpr ⟨hm, hends e List.mem_cons_self⟩)
        fun e' he' => hends e' (List.mem_cons_of_mem e he')

theorem byteSize_le {f : RegFile} {n : Nat}
    (h : ∀ r ∈ f.registers, r.offset + r.byteLength ≤ n) : f.byteSize ≤ n := by
  refine foldl_max_le (Nat.zero_le n) fun e he => ?_
  obtain ⟨r, hr, rfl⟩ := List.mem_map.mp he
  exact h r hr

def registerAt? (f : RegFile) (offset : Nat) : Option Register :=
  f.registers.reverse.find? fun r => decide (r.offset = offset)

/-- The largest offset of a register up to a byte. -/
def startBefore? (f : RegFile) (byte : Nat) : Option Nat :=
  ((f.registers.map Register.offset).filter (· ≤ byte)).max?

/-- The register that starts last up to a byte, if it reaches that byte. -/
def covering? (f : RegFile) (byte : Nat) : Option Register :=
  match (f.startBefore? byte).bind f.registerAt? with
  | some r => if byte < r.offset + r.byteLength then some r else none
  | none => none

def read (f : RegFile) (offset : Nat) : Except SimError Int :=
  match f.registerAt? offset with
  | some r => .ok r.value
  | none => .error (.noRegister offset)

/-- Changes the last register for which a test holds. -/
def changeLast (test : Register → Bool) (change : Register → Register) :
    List Register → List Register
  | [] => []
  | r :: rest =>
    if test r && !rest.any test then change r :: rest
    else r :: changeLast test change rest

/-- The register file with the low bits of a value in the register at an offset. -/
def set (f : RegFile) (offset : Nat) (value : Int) : RegFile :=
  let store (r : Register) : Register := { r with value := Word.low value r.bits }
  ⟨f.name, changeLast (fun r => decide (r.offset = offset)) store f.registers⟩

def write (f : RegFile) (offset : Nat) (value : Int) : Except SimError RegFile :=
  match f.registerAt? offset with
  | some _ => .ok (f.set offset value)
  | none => .error (.noRegister offset)

def named? (f : RegFile) (name : String) : Option Int :=
  (f.registers.find? fun r => decide (r.name = name)).map Register.value

def readByte (f : RegFile) (byte : Nat) : Except SimError Nat :=
  match f.covering? byte with
  | some r => .ok (Word.shiftRight r.value (8 * (byte - r.offset)) % 256).toNat
  | none => .error (.noRegister byte)

def replaceByte (value : Int) (lane byte : Nat) : Int :=
  Word.or (Word.and value (Word.complement (Word.shiftLeft 255 (8 * lane))))
    (Word.shiftLeft byte (8 * lane))

def writeByte (f : RegFile) (byte value : Nat) : Except SimError RegFile :=
  match f.covering? byte with
  | some r => .ok (f.set r.offset (replaceByte r.value (byte - r.offset) value))
  | none => .error (.noRegister byte)

end RegFile

end Clockwork
