import Mathlib.Data.Nat.Bitwise
import Clockwork.Proofs.Number.Fit
import Clockwork.Proofs.Table
import Clockwork.Storage.AddressSpace
/-!
The bytes of a number and the contents of memories. A number is put together from its bytes again
(`ofBytes_byteOf`), and to replace one byte of a word leaves the other ones alone
(`byteOf_replaceByte`). What writes lead to fits the width of the elements, so that a byte of a
memory is one of the bytes of an element.
-/

namespace Clockwork

namespace AddressSpace

theorem byteOf_eq (x k : Nat) : byteOf x k = x / 2 ^ (8 * k) % 2 ^ 8 := by
  rw [pow_mul]
  rfl

theorem byteOf_lt (x k : Nat) : byteOf x k < 2 ^ 8 := by
  rw [byteOf_eq]
  exact Nat.mod_lt _ (by decide)

@[simp] theorem byteOf_zero (x : Nat) : byteOf x 0 = x % 256 := by simp [byteOf]

theorem byteOf_zero_of_lt {x : Nat} (h : x < 2 ^ 8) : byteOf x 0 = x := by
  rw [byteOf_zero]
  exact Nat.mod_eq_of_lt h

theorem byteOf_succ (x k : Nat) : byteOf x (k + 1) = byteOf (x / 256) k := by
  simp only [byteOf, Nat.pow_eq]
  rw [Nat.div_div_eq_div_mul, pow_succ']

theorem testBit_byteOf (x k i : Nat) :
    (byteOf x k).testBit i = (decide (i < 8) && x.testBit (8 * k + i)) := by
  rw [byteOf_eq, Nat.testBit_mod_two_pow, Nat.testBit_div_two_pow, Nat.add_comm]

theorem testBit_of_lt {x bits i : Nat} (h : x < 2 ^ bits) (hi : bits ≤ i) :
    x.testBit i = false :=
  Nat.testBit_lt_two_pow (Nat.lt_of_lt_of_le h (Nat.pow_le_pow_right (by decide) hi))

theorem ofBytes_byteOf (x n : Nat) : ofBytes ((List.range n).map (byteOf x)) = x % 256 ^ n := by
  induction n generalizing x with
  | zero => simp [ofBytes, Nat.mod_one]
  | succ n ih =>
      have htail : (List.range n).map (byteOf x ∘ Nat.succ) =
          (List.range n).map (byteOf (x / 256)) :=
        List.map_congr_left fun k _ => byteOf_succ x k
      rw [List.range_succ_eq_map, List.map_cons, List.map_map, htail, ofBytes, ih, byteOf_zero,
        pow_succ', Nat.mod_mul]

theorem ofBytes_map_inj {f g : Nat → Nat} {l : List Nat} (hf : ∀ k ∈ l, f k < 256)
    (hg : ∀ k ∈ l, g k < 256) :
    ofBytes (l.map f) = ofBytes (l.map g) ↔ ∀ k ∈ l, f k = g k := by
  induction l with
  | nil => simp
  | cons k l ih =>
      rw [List.forall_mem_cons] at hf hg ⊢
      rw [← ih hf.2 hg.2]
      simp only [List.map_cons, ofBytes]
      omega

theorem lowBytes_eq (x : Nat) {size : Nat} (h : size ≤ 8) :
    lowBytes x size = x % 2 ^ (8 * size) := by
  rw [lowBytes, Nat.min_eq_left h]
  rfl

theorem lowBytes_eq_ofBytes (x : Nat) {size : Nat} (h : size ≤ 8) :
    lowBytes x size = ofBytes ((List.range size).map (byteOf x)) := by
  rw [lowBytes_eq x h, ofBytes_byteOf, pow_mul]
  rfl

theorem byteOf_low64 (a : Int) {k : Nat} (hk : k < 8) :
    byteOf (low64 a) k = (Word.shiftRight a (8 * k) % 256).toNat := by
  have hsplit : (2 ^ 64 : Int) = 2 ^ (8 * k) * (256 * 2 ^ (56 - 8 * k)) := by
    rw [show (256 : Int) = 2 ^ 8 by norm_num, ← pow_add, ← pow_add]
    congr 1
    omega
  have hhigh : a / 2 ^ (8 * k) % 256 = a % 2 ^ 64 / 2 ^ (8 * k) % 256 := by
    conv_lhs => rw [← Int.emod_add_mul_ediv a (2 ^ 64)]
    rw [hsplit, mul_assoc, Int.add_mul_ediv_left _ _ (by positivity), mul_assoc,
      Int.add_mul_emod_self_left]
  have hcast : ((low64 a : Nat) : Int) = a % 2 ^ 64 :=
    Int.toNat_of_nonneg (Int.emod_nonneg _ (by decide))
  have hbyte : (byteOf (low64 a) k : Int) = a / 2 ^ (8 * k) % 256 := by
    rw [hhigh, ← hcast, byteOf_eq]
    push_cast
    rfl
  rw [Word.shiftRight, if_pos (by omega)]
  exact (congrArg Int.toNat hbyte)

theorem byteOf_mod_two_pow (x bits k : Nat) :
    byteOf (x % 2 ^ bits) k = byteOf x k % 2 ^ (bits - 8 * k) := by
  apply Nat.eq_of_testBit_eq
  intro i
  simp only [testBit_byteOf, Nat.testBit_mod_two_pow]
  by_cases hi : 8 * k + i < bits
  · have hi' : i < bits - 8 * k := by omega
    simp [hi, hi']
  · have hi' : ¬ i < bits - 8 * k := by omega
    simp [hi, hi']

theorem byteOf_lowBytes (x : Nat) {size k : Nat} (h : size ≤ 8) (hk : k < size) :
    byteOf (lowBytes x size) k = byteOf x k := by
  rw [lowBytes_eq x h, byteOf_mod_two_pow]
  refine Nat.mod_eq_of_lt (Nat.lt_of_lt_of_le (byteOf_lt x k) ?_)
  exact Nat.pow_le_pow_right (by decide) (by omega)

end AddressSpace

namespace RegFile

open AddressSpace

theorem ofInt_replaceByte (x byte : Nat) {lane : Nat} (hlane : 8 * lane < 128) :
    BitVec.ofInt 128 (replaceByte x lane byte) =
      BitVec.ofNat 128 x &&& ~~~(BitVec.ofNat 128 255 <<< (8 * lane)) |||
        BitVec.ofNat 128 byte <<< (8 * lane) := by
  rw [replaceByte, Word.ofInt_or, Word.ofInt_and, Word.ofInt_complement,
    Word.ofInt_shiftLeft byte hlane, BitVec.ofInt_natCast]
  rw [show (255 : Int) = (255 : Nat) from rfl, Word.ofInt_shiftLeft 255 hlane]

theorem testBit_replaceByte (x : Nat) {byte lane bits : Nat} (hbyte : byte < 2 ^ 8)
    (hbits : bits < 128) (hlane : 8 * lane < bits) (i : Nat) :
    (Word.low (replaceByte x lane byte) bits).toNat.testBit i =
      (decide (i < bits) &&
        if 8 * lane ≤ i ∧ i < 8 * lane + 8 then byte.testBit (i - 8 * lane) else x.testBit i) := by
  have hmask : Nat.testBit 255 (i - 8 * lane) = decide (i - 8 * lane < 8) :=
    Nat.testBit_two_pow_sub_one 8 _
  rw [Word.low_eq _ (by omega) hbits, Int.toNat_natCast, Nat.testBit_mod_two_pow,
    ofInt_replaceByte x byte (by omega), BitVec.testBit_toNat]
  simp only [BitVec.getLsbD_or, BitVec.getLsbD_and, BitVec.getLsbD_not, BitVec.getLsbD_shiftLeft,
    BitVec.getLsbD_ofNat, hmask]
  by_cases hi : i < bits
  · have hword : i < 128 := by omega
    rcases Nat.lt_or_ge i (8 * lane) with hbelow | hfrom
    · have hout : ¬ 8 * lane ≤ i := by omega
      simp [hi, hword, hbelow, hout]
    · rcases Nat.lt_or_ge i (8 * lane + 8) with hwithin | habove
      · have hplace : i - 8 * lane < 8 := by omega
        have hplace' : i - 8 * lane < 128 := by omega
        simp [hi, hword, hfrom, hwithin, hplace, hplace', Nat.not_lt.mpr hfrom]
      · have hplace : 8 ≤ i - 8 * lane := by omega
        simp [hi, hword, testBit_of_lt hbyte hplace, Nat.not_lt.mpr hplace, Nat.not_lt.mpr habove]
  · simp [hi]

/-- Only the byte of the lane changes, and of the new one the bits below the width stay. -/
theorem byteOf_replaceByte {x byte lane bits : Nat} (hx : x < 2 ^ bits) (hbyte : byte < 2 ^ 8)
    (hbits : bits < 128) (hlane : 8 * lane < bits) (k : Nat) :
    byteOf (Word.low (replaceByte x lane byte) bits).toNat k =
      if k = lane then byte % 2 ^ (bits - 8 * lane) else byteOf x k := by
  apply Nat.eq_of_testBit_eq
  intro i
  rw [testBit_byteOf, testBit_replaceByte x hbyte hbits hlane]
  by_cases hk : k = lane
  · subst hk
    rw [if_pos rfl, Nat.testBit_mod_two_pow]
    rcases Nat.lt_or_ge i 8 with hi | hi
    · have hwidth : 8 * k + i < bits ↔ i < bits - 8 * k := by omega
      simp [hi, hwidth]
    · simp [testBit_of_lt hbyte hi, Nat.not_lt.mpr hi]
  · rw [if_neg hk, testBit_byteOf]
    rcases Nat.lt_or_ge i 8 with hi | hi
    · have hout : ¬ (8 * lane ≤ 8 * k + i ∧ 8 * k + i < 8 * lane + 8) := by omega
      rw [if_neg hout]
      rcases Nat.lt_or_ge (8 * k + i) bits with hwidth | hwidth
      · simp [hwidth]
      · simp [testBit_of_lt hx hwidth]
    · simp [Nat.not_lt.mpr hi]

end RegFile

open AddressSpace (byteOf)

namespace Memory

theorem position_of_lt {m : Memory} {byte : Nat} (h : byte < m.byteSize)
    (h64 : byte ≤ Bounded.max64) :
    m.position (byte / m.elementBytes : Nat) = .ok (byte / m.elementBytes) := by
  have hsmall : byte / m.elementBytes ≤ Bounded.max64 := Nat.le_trans (Nat.div_le_self _ _) h64
  have hnat : Bounded.toNat64? (byte / m.elementBytes : Nat) = some (byte / m.elementBytes) := by
    simp only [Bounded.toNat64?, Int.toNat_natCast]
    exact if_pos ⟨Int.natCast_nonneg _, hsmall⟩
  have hlt : byte / m.elementBytes < m.size := Nat.div_lt_of_lt_mul (by rwa [Nat.mul_comm])
  simp only [position, hnat, hlt, ↓reduceIte]

theorem read_of_position {m : Memory} {index : Int} {i : Nat} (h : m.position index = .ok i) :
    m.read index = .ok (m.element i) := by rw [read, h, Except.map]

theorem write_of_position {m : Memory} {index : Int} {i : Nat} (h : m.position index = .ok i)
    (value : Int) : m.write index value = .ok (m.setElement i value) := by rw [write, h, Except.map]

theorem elementBytes_setElement (m : Memory) (i : Nat) (value : Int) :
    (m.setElement i value).elementBytes = m.elementBytes := rfl

theorem element_setElement (m : Memory) (i j : Nat) (value : Int) :
    (m.setElement i value).element j = if j = i then Word.low value m.width else m.element j := by
  have hcells : (m.setElement i value).cells = m.cells.put i
      (if Word.low value m.width = 0 then none else some (Word.low value m.width)) := by
    simp only [setElement]
    split <;> rfl
  rw [element, hcells, Table.get?_put, element]
  by_cases hj : j = i
  · rw [if_pos hj, if_pos hj]
    split
    · rename_i hzero
      exact hzero.symm
    · rfl
  · rw [if_neg hj, if_neg hj]

/-- The memories that writes lead to from one of zeros. -/
inductive Written : Memory → Prop
  | zeros (width size : Nat) : Written (ofSize width size)
  | write {m m' : Memory} {index value : Int} (hm : Written m) (h : m.write index value = .ok m') :
      Written m'

/-- All elements are numbers of the width of the memory, which leaves room in a word. -/
structure Fits (m : Memory) : Prop where
  width_pos : 0 < m.width
  width_lt : m.width < 128
  nonneg : ∀ i, 0 ≤ m.element i
  lt : ∀ i, m.element i < (2 ^ m.width : Nat)

theorem Fits.setElement {m : Memory} (hm : m.Fits) (i : Nat) (value : Int) :
    (m.setElement i value).Fits := by
  refine ⟨hm.width_pos, hm.width_lt, ?_, ?_⟩
  · intro j
    rw [element_setElement]
    split
    · exact Word.low_nonneg value hm.width_pos hm.width_lt
    · exact hm.nonneg j
  · intro j
    rw [element_setElement]
    split
    · exact Word.low_lt value hm.width_pos hm.width_lt
    · exact hm.lt j

theorem Written.fits {m : Memory} (hm : m.Written) (hwidth : m.width ≤ 126) : m.Fits := by
  induction hm with
  | zeros width size =>
      have hpos : 0 < (ofSize width size).width := Nat.le_max_right width 1
      refine ⟨hpos, by omega, fun _ => Int.le_refl 0, fun _ => ?_⟩
      exact Int.natCast_pos.mpr (Nat.two_pow_pos _)
  | @write m m' index value _ h ih =>
      cases hi : m.position index with
      | error e =>
          rw [Memory.write, hi] at h
          cases h
      | ok i =>
          rw [write_of_position hi] at h
          cases h
          exact (ih hwidth).setElement i value

/-- Byte `j` of a memory: its elements follow each other, each with its low byte first. -/
def byteAt (m : Memory) (j : Nat) : Nat :=
  byteOf (m.element (j / m.elementBytes)).toNat (j % m.elementBytes)

/-- The bits of byte `j` that lie below the width of its element. -/
def laneBits (m : Memory) (j : Nat) : Nat := min 8 (m.width - 8 * (j % m.elementBytes))

theorem byteAt_setElement (m : Memory) (i : Nat) (value : Int) (j : Nat) :
    (m.setElement i value).byteAt j =
      if j / m.elementBytes = i then byteOf (Word.low value m.width).toNat (j % m.elementBytes)
      else m.byteAt j := by
  simp only [byteAt, elementBytes_setElement, element_setElement]
  split <;> rfl

theorem mod_laneBits (m : Memory) {x : Nat} (hx : x < 2 ^ 8) (j : Nat) :
    x % 2 ^ (m.width - 8 * (j % m.elementBytes)) = x % 2 ^ m.laneBits j := by
  rw [laneBits]
  rcases Nat.le_total 8 (m.width - 8 * (j % m.elementBytes)) with h | h
  · rw [Nat.min_eq_left h, Nat.mod_eq_of_lt hx, Nat.mod_eq_of_lt]
    exact Nat.lt_of_lt_of_le hx (Nat.pow_le_pow_right (by decide) h)
  · rw [Nat.min_eq_right h]

namespace Fits

variable {m : Memory} (hm : m.Fits)
include hm

theorem elementBytes_pos : 0 < m.elementBytes := by
  have hpos := hm.width_pos
  simp only [elementBytes]
  omega

theorem lane_lt (j : Nat) : 8 * (j % m.elementBytes) < m.width := by
  have hlt := Nat.mod_lt j hm.elementBytes_pos
  simp only [elementBytes] at hlt ⊢
  omega

theorem natCast_element (i : Nat) : ((m.element i).toNat : Int) = m.element i :=
  Int.toNat_of_nonneg (hm.nonneg i)

theorem toNat_element_lt (i : Nat) : (m.element i).toNat < 2 ^ m.width := by
  have hlt := hm.lt i
  rw [← hm.natCast_element i, Int.ofNat_lt] at hlt
  exact hlt

theorem byteAt_replaceByte (byte : Nat) {value : Nat} (hvalue : value < 2 ^ 8) (j : Nat) :
    (m.setElement (byte / m.elementBytes) (RegFile.replaceByte (m.element (byte / m.elementBytes))
        (byte % m.elementBytes) value)).byteAt j =
      if j = byte then value % 2 ^ m.laneBits j else m.byteAt j := by
  rw [byteAt_setElement, ← hm.natCast_element,
    RegFile.byteOf_replaceByte (hm.toNat_element_lt _) hvalue hm.width_lt (hm.lane_lt byte)]
  by_cases hj : j = byte
  · subst hj
    rw [if_pos rfl, if_pos rfl, if_pos rfl, m.mod_laneBits hvalue]
  · rw [if_neg hj]
    split
    · rename_i hdiv
      have hmod : j % m.elementBytes ≠ byte % m.elementBytes := by
        intro hmod
        apply hj
        rw [← Nat.div_add_mod j m.elementBytes, hdiv, hmod, Nat.div_add_mod]
      rw [if_neg hmod, byteAt, hdiv]
    · rfl

end Fits

end Memory

end Clockwork
