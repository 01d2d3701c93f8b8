import Clockwork.Proofs.Results
import Clockwork.Proofs.Storage.Lookup
import Clockwork.Proofs.Storage.Memory
/-!
Accesses to mapped memories. An access that is one whole element and one that is put together from
bytes read and change the same bytes. Main statement: `mapped_memory_reads_and_writes_bytes`.
-/

namespace Clockwork

open AddressSpace

namespace Memory

variable {m : Memory}

/-- A read that is put together from bytes, also where it is of one whole element. -/
def readBytes (m : Memory) (offset size : Nat) : Except SimError Nat := do
  return ofBytes (← (List.range size).mapM fun k => memoryByte m (offset + k))

theorem memoryByte_eq (hm : m.Fits) {byte : Nat} (h : byte < m.byteSize)
    (h64 : byte ≤ Bounded.max64) : memoryByte m byte = .ok (m.byteAt byte) := by
  have hlane : 8 * (byte % m.elementBytes) < 128 :=
    Nat.lt_trans (hm.lane_lt byte) hm.width_lt
  have hbyte : (Word.shiftRight (m.element (byte / m.elementBytes))
      (8 * (byte % m.elementBytes)) % 256).toNat = m.byteAt byte := by
    rw [← hm.natCast_element, Word.shiftRight_natCast _ hlane, byteAt, byteOf_eq]
    rfl
  simp only [memoryByte, read_of_position (position_of_lt h h64)]
  exact congrArg Except.ok hbyte

theorem readBytes_eq (hm : m.Fits) {offset size : Nat} (h : offset + size ≤ m.byteSize)
    (h64 : m.byteSize ≤ Bounded.max64) :
    m.readBytes offset size =
      .ok (ofBytes ((List.range size).map fun k => m.byteAt (offset + k))) := by
  have hbytes : ∀ k ∈ List.range size,
      memoryByte m (offset + k) = .ok (m.byteAt (offset + k)) := by
    intro k hk
    have hk' := List.mem_range.mp hk
    exact memoryByte_eq hm (by omega) (by omega)
  simp only [readBytes, mapM_eq_ok hbytes]
  rfl

theorem byteAt_of_aligned {offset : Nat} (h : offset % m.elementBytes = 0) {k : Nat}
    (hk : k < m.elementBytes) :
    m.byteAt (offset + k) = byteOf (m.element (offset / m.elementBytes)).toNat k := by
  obtain ⟨q, rfl⟩ := Nat.dvd_of_mod_eq_zero h
  have hpos : 0 < m.elementBytes := by omega
  rw [byteAt, Nat.mul_add_div hpos, Nat.mul_add_mod, Nat.div_eq_of_lt hk, Nat.mod_eq_of_lt hk,
    Nat.mul_div_cancel_left q hpos, Nat.add_zero]

theorem isElement_iff {offset size : Nat} :
    isElement m offset size = true ↔ size = m.elementBytes ∧ offset % m.elementBytes = 0 := by
  simp [isElement]

theorem readMemory_eq (hm : m.Fits) {offset size : Nat} (hpos : 0 < size) (hsize : size ≤ 8)
    (h : offset + size ≤ m.byteSize) (h64 : m.byteSize ≤ Bounded.max64) :
    readMemory m offset size =
      .ok (ofBytes ((List.range size).map fun k => m.byteAt (offset + k))) := by
  rw [readMemory]
  split
  · rename_i helement
    obtain ⟨hbytes, haligned⟩ := isElement_iff.mp helement
    have hinside : offset < m.byteSize := by omega
    have hread := read_of_position (position_of_lt hinside (by omega))
    have hlanes : (List.range size).map (byteOf (low64 (m.element (offset / m.elementBytes)))) =
        (List.range size).map fun k => m.byteAt (offset + k) := by
      apply List.map_congr_left
      intro k hk
      have hk' := List.mem_range.mp hk
      rw [byteAt_of_aligned haligned (by omega), byteOf_low64 _ (by omega), ← hm.natCast_element,
        Word.shiftRight_natCast _ (by omega), byteOf_eq]
      rfl
    simp only [hread]
    rw [← hlanes, ← lowBytes_eq_ofBytes _ hsize]
    rfl
  · exact readBytes_eq hm h h64

/-- What becomes of a memory when the first bytes of a value are written to it. Of each byte only
the bits below the width of its element are kept. -/
structure Stored (m m' : Memory) (offset value count : Nat) : Prop where
  width : m'.width = m.width
  size : m'.size = m.size
  written : m'.Written
  bytes : ∀ j, m'.byteAt j = if offset ≤ j ∧ j < offset + count
    then byteOf value (j - offset) % 2 ^ m.laneBits j else m.byteAt j

theorem each_range {α : Type} {step : α → Nat → Except SimError α} {n : Nat} (P : Nat → α → Prop)
    (hstep : ∀ k a, k < n → P k a → ∃ a', step a k = .ok a' ∧ P (k + 1) a') {a : α} (h : P 0 a) :
    ∃ a', each step a (List.range n) = (a', none) ∧ P n a' := by
  have hfrom : ∀ count k a, k + count = n → P k a →
      ∃ a', each step a (List.range' k count) = (a', none) ∧ P n a' := by
    intro count
    induction count with
    | zero =>
        rintro k a rfl hk
        exact ⟨a, rfl, hk⟩
    | succ count ih =>
        intro k a hcount hk
        obtain ⟨a₁, ha₁, hk₁⟩ := hstep k a (by omega) hk
        obtain ⟨a', ha', hn⟩ := ih (k + 1) a₁ (by omega) hk₁
        exact ⟨a', by simp only [List.range'_succ, each, ha₁, ha'], hn⟩
  rw [List.range_eq_range']
  exact hfrom n 0 a (by omega) h

namespace Stored

variable {m' : Memory} {offset value count : Nat} (h : m.Stored m' offset value count)
include h

theorem elementBytes_eq : m'.elementBytes = m.elementBytes := by
  rw [elementBytes, h.width, elementBytes]

theorem byteSize_eq : m'.byteSize = m.byteSize := by
  rw [byteSize, h.size, h.elementBytes_eq, byteSize]

theorem laneBits_eq (j : Nat) : m'.laneBits j = m.laneBits j := by
  rw [laneBits, h.width, h.elementBytes_eq, laneBits]

theorem snoc {m₁ : Memory} (h₁ : m'.Stored m₁ (offset + count) (byteOf value count) 1) :
    m.Stored m₁ offset value (count + 1) := by
  refine ⟨h₁.width.trans h.width, h₁.size.trans h.size, h₁.written, ?_⟩
  intro j
  rw [h₁.bytes, h.bytes, h.laneBits_eq]
  by_cases hj : j = offset + count
  · subst hj
    rw [if_pos (by omega), if_pos (by omega), Nat.sub_self,
      byteOf_zero_of_lt (byteOf_lt value count), Nat.add_sub_cancel_left]
  · have hiff : (offset ≤ j ∧ j < offset + (count + 1)) ↔
        (offset ≤ j ∧ j < offset + count) := by omega
    rw [if_neg (by omega), if_congr hiff rfl rfl]

end Stored

theorem writeMemoryByte_stored (hm : m.Written) (hwidth : m.width ≤ 126) {byte : Nat}
    (h : byte < m.byteSize) (h64 : byte ≤ Bounded.max64) {value : Nat} (hvalue : value < 2 ^ 8) :
    ∃ m', writeMemoryByte m byte value = .ok m' ∧ m.Stored m' byte value 1 := by
  have hposition := position_of_lt h h64
  have hwrite := write_of_position hposition (RegFile.replaceByte
    (m.element (byte / m.elementBytes)) (byte % m.elementBytes) value)
  refine ⟨m.setElement _ _, ?_, rfl, rfl, hm.write hwrite, ?_⟩
  · simp only [writeMemoryByte, read_of_position hposition]
    exact hwrite
  · intro j
    have hiff : j = byte ↔ byte ≤ j ∧ j < byte + 1 := by omega
    rw [(hm.fits hwidth).byteAt_replaceByte byte hvalue, if_congr hiff rfl rfl]
    split
    · rw [show j - byte = 0 by omega, byteOf_zero_of_lt hvalue]
    · rfl

/-- A write that is put together from bytes, also where it is of one whole element. -/
def writeBytes (m : Memory) (offset value size : Nat) : Memory × Option SimError :=
  each (fun m k => writeMemoryByte m (offset + k) (byteOf value k)) m (List.range size)

theorem writeBytes_stored (hm : m.Written) (hwidth : m.width ≤ 126) {offset size : Nat}
    (h : offset + size ≤ m.byteSize) (h64 : m.byteSize ≤ Bounded.max64) (value : Nat) :
    ∃ m', m.writeBytes offset value size = (m', none) ∧ m.Stored m' offset value size := by
  refine each_range (fun k m' => m.Stored m' offset value k) ?_ ?_
  · intro k m₁ hk hm₁
    have hsize := hm₁.byteSize_eq
    have hwidth₁ : m₁.width ≤ 126 := by rwa [hm₁.width]
    obtain ⟨m₂, hstep, hm₂⟩ := writeMemoryByte_stored hm₁.written hwidth₁
      (by omega : offset + k < m₁.byteSize) (by omega) (byteOf_lt value k)
    exact ⟨m₂, hstep, hm₁.snoc hm₂⟩
  · refine ⟨rfl, rfl, hm, ?_⟩
    intro j
    rw [if_neg (by omega)]

theorem write_stored (hm : m.Written) (hwidth : m.width ≤ 126) {offset : Nat}
    (haligned : offset % m.elementBytes = 0) (h : offset < m.byteSize)
    (h64 : offset ≤ Bounded.max64) (value : Nat) :
    ∃ m', m.write (offset / m.elementBytes : Nat) value = .ok m' ∧
      m.Stored m' offset value m.elementBytes := by
  have hfits := hm.fits hwidth
  have hpos := hfits.elementBytes_pos
  have hwrite := write_of_position (position_of_lt h h64) value
  refine ⟨m.setElement _ _, hwrite, rfl, rfl, hm.write hwrite, ?_⟩
  intro j
  obtain ⟨q, rfl⟩ := Nat.dvd_of_mod_eq_zero haligned
  have hiff : j / m.elementBytes = q ↔
      m.elementBytes * q ≤ j ∧ j < m.elementBytes * q + m.elementBytes := by
    rw [Nat.div_eq_iff hpos, Nat.mul_comm]
    omega
  rw [byteAt_setElement, Nat.mul_div_cancel_left q hpos, if_congr hiff rfl rfl]
  split
  · rename_i hj
    have hlane : j % m.elementBytes = j - m.elementBytes * q := by
      rw [← hiff.mpr hj, Nat.mod_eq_sub_mul_div]
    rw [Word.low_natCast _ hfits.width_pos hfits.width_lt, Int.toNat_natCast, byteOf_mod_two_pow,
      m.mod_laneBits (byteOf_lt _ _), hlane]
  · rfl

theorem writeMemory_stored (hm : m.Written) (hwidth : m.width ≤ 126) {offset size : Nat}
    (hpos : 0 < size) (h : offset + size ≤ m.byteSize) (h64 : m.byteSize ≤ Bounded.max64)
    (value : Nat) :
    ∃ m', writeMemory m offset value size = (m', none) ∧ m.Stored m' offset value size := by
  rw [writeMemory]
  split
  · rename_i helement
    obtain ⟨rfl, haligned⟩ := isElement_iff.mp helement
    have hinside : offset < m.byteSize := by omega
    obtain ⟨m', hwrite, hm'⟩ := write_stored hm hwidth haligned hinside (by omega) value
    exact ⟨m', by rw [hwrite], hm'⟩
  · exact writeBytes_stored hm hwidth h h64 value

theorem Stored.of_lowBytes {m' : Memory} {offset value size : Nat} (hsize : size ≤ 8)
    (h : m.Stored m' offset (lowBytes value size) size) : m.Stored m' offset value size := by
  refine ⟨h.width, h.size, h.written, ?_⟩
  intro j
  rw [h.bytes]
  split
  · rw [byteOf_lowBytes value hsize (by omega)]
  · rfl

theorem laneBits_eq_of_dvd (hm : m.Fits) (h : 8 ∣ m.width) (j : Nat) : m.laneBits j = 8 := by
  have hlane := hm.lane_lt j
  rw [laneBits]
  omega

end Memory

namespace Banks

theorem memory_setMemory {b : Banks} {id : Nat} (h : id < b.memories.size) (m : Memory) :
    (b.setMemory id m).memory id = m := by
  simp [memory, setMemory, h]

theorem lt_size_of_byteSize {b : Banks} {id : Nat} (h : 0 < (b.memory id).byteSize) :
    id < b.memories.size := by
  by_contra hout
  have hdefault : b.memory id = default := by
    rw [memory, Array.getElem?_eq_none (by omega)]
    rfl
  rw [hdefault] at h
  exact absurd h (by decide)

theorem byteSize_setMemory (b : Banks) {id : Nat} {m : Memory}
    (h : m.byteSize = (b.memory id).byteSize) (backing : Backing) :
    (b.setMemory id m).byteSize backing = b.byteSize backing := by
  cases backing with
  | regFile id' => rfl
  | memory id' =>
      simp only [byteSize]
      by_cases hid : id' = id
      · subst hid
        by_cases hin : id' < b.memories.size
        · rw [memory_setMemory hin, h]
        · rw [memory, setMemory, Array.setIfInBounds, dif_neg hin, memory]
      · have hne : id ≠ id' := fun heq => hid heq.symm
        simp [memory, setMemory, hne]

end Banks

namespace AddressSpace

/-- A memory whose elements have at most 126 bits, with contents that writes led to, is mapped to a
region that does not end past the last address. -/
structure MapsMemory (s : AddressSpace) (banks : Banks) (r : Region) (id : Nat) : Prop where
  built : s.Built banks
  mem : r ∈ s.regions
  backing : r.backing = .memory id
  stop_le : r.base + r.size ≤ Bounded.max64
  written : (banks.memory id).Written
  width_le : (banks.memory id).width ≤ 126

namespace MapsMemory

variable {s : AddressSpace} {banks : Banks} {r : Region} {id : Nat} (h : s.MapsMemory banks r id)
include h

theorem fits : (banks.memory id).Fits := h.written.fits h.width_le

theorem byteSize_eq : (banks.memory id).byteSize = r.size := by
  rw [h.built.size_eq r h.mem, h.backing]
  rfl

theorem byteSize_le : (banks.memory id).byteSize ≤ Bounded.max64 := by
  rw [h.byteSize_eq]
  exact Nat.le_trans (Nat.le_add_left _ _) h.stop_le

theorem inside {addr size : Nat} (hholds : r.Holds addr size) :
    addr - r.base + size ≤ (banks.memory id).byteSize := by
  obtain ⟨hbase, hend⟩ := hholds
  rw [h.byteSize_eq]
  omega

theorem lookup_eq {addr size : Nat} (hpos : 0 < size) (hholds : r.Holds addr size) :
    s.lookup addr size = .ok r := by
  obtain ⟨hbase, hend⟩ := hholds
  have hstop := Region.stop_eq h.stop_le
  rw [h.built.ordered.lookup_of_mem h.mem hbase (by omega), if_neg]
  rw [hstop, Bounded.add64]
  omega

theorem read_eq {addr size : Nat} (hpos : 0 < size) (hsize : size ≤ 8)
    (hholds : r.Holds addr size) :
    s.read banks addr size = .ok (ofBytes
      ((List.range size).map fun k => (banks.memory id).byteAt (addr - r.base + k))) := by
  have hcheck := checkSize_eq_ok_iff.mpr ⟨hpos, hsize⟩
  simp only [read, hcheck, h.lookup_eq hpos hholds, h.backing, bind, Except.bind]
  exact Memory.readMemory_eq h.fits hpos hsize (h.inside hholds) h.byteSize_le

theorem write_eq {addr size : Nat} (hpos : 0 < size) (hsize : size ≤ 8)
    (hholds : r.Holds addr size) (value : Nat) :
    ∃ m, s.write banks addr value size = (banks.setMemory id m, none) ∧
      (banks.memory id).Stored m (addr - r.base) value size := by
  have hcheck := checkSize_eq_ok_iff.mpr ⟨hpos, hsize⟩
  obtain ⟨m, hm, hstored⟩ := Memory.writeMemory_stored h.written h.width_le hpos
    (h.inside hholds) h.byteSize_le (lowBytes value size)
  refine ⟨m, ?_, hstored.of_lowBytes hsize⟩
  simp only [write, hcheck, h.lookup_eq hpos hholds, h.backing, hm]

theorem of_stored {m : Memory} {offset value count : Nat} (hpos : 0 < r.size)
    (hm : (banks.memory id).Stored m offset value count) :
    (banks.setMemory id m).memory id = m ∧ s.MapsMemory (banks.setMemory id m) r id := by
  have hsame : (banks.setMemory id m).memory id = m :=
    Banks.memory_setMemory (Banks.lt_size_of_byteSize (by rwa [h.byteSize_eq])) m
  refine ⟨hsame, h.built.congr (banks.byteSize_setMemory hm.byteSize_eq), h.mem, h.backing,
    h.stop_le, ?_, ?_⟩
  · rw [hsame]
    exact hm.written
  · rw [hsame, hm.width]
    exact h.width_le

end MapsMemory

/-- An access of one to eight bytes inside the region of a mapped memory succeeds. A read gives the
number that the bytes form; a write changes exactly the bytes that it covers, to those of the value
as far as they lie below the width of their element. A whole element that is read or written at once
is read and changed as if byte by byte. If elements are whole bytes, the value is read again. -/
theorem mapped_memory_reads_and_writes_bytes {s : AddressSpace} {banks : Banks} {r : Region}
    {id : Nat} (h : s.MapsMemory banks r id) {addr size : Nat} (hpos : 1 ≤ size) (hsize : size ≤ 8)
    (hholds : r.Holds addr size) :
    (s.read banks addr size = .ok (ofBytes
        ((List.range size).map fun k => (banks.memory id).byteAt (addr - r.base + k))) ∧
      s.read banks addr size = (banks.memory id).readBytes (addr - r.base) size) ∧
    ∀ value, ∃ m, s.write banks addr value size = (banks.setMemory id m, none) ∧
      (banks.memory id).Stored m (addr - r.base) value size ∧
      (∃ m₁, (banks.memory id).writeBytes (addr - r.base) value size = (m₁, none) ∧
        ∀ j, m.byteAt j = m₁.byteAt j) ∧
      s.MapsMemory (banks.setMemory id m) r id ∧
      (8 ∣ (banks.memory id).width →
        s.read (banks.setMemory id m) addr size = .ok (value % 256 ^ size)) := by
  have hread := h.read_eq hpos hsize hholds
  refine ⟨⟨hread, ?_⟩, ?_⟩
  · rw [hread, Memory.readBytes_eq h.fits (h.inside hholds) h.byteSize_le]
  · intro value
    obtain ⟨m, hwrite, hm⟩ := h.write_eq hpos hsize hholds value
    obtain ⟨m₁, hwrite₁, hm₁⟩ := Memory.writeBytes_stored h.written h.width_le (h.inside hholds)
      h.byteSize_le value
    have hregion : 0 < r.size := by
      obtain ⟨hbase, hend⟩ := hholds
      omega
    obtain ⟨hsame, hmaps⟩ := h.of_stored hregion hm
    refine ⟨m, hwrite, hm, ⟨m₁, hwrite₁, fun j => by rw [hm.bytes, hm₁.bytes]⟩, hmaps, ?_⟩
    intro hwhole
    have hbytes : (List.range size).map (fun k => m.byteAt (addr - r.base + k)) =
        (List.range size).map (byteOf value) := by
      apply List.map_congr_left
      intro k hk
      have hk' := List.mem_range.mp hk
      rw [hm.bytes, if_pos (by omega), Memory.laneBits_eq_of_dvd h.fits hwhole,
        Nat.add_sub_cancel_left]
      exact Nat.mod_eq_of_lt (byteOf_lt value k)
    rw [hmaps.read_eq hpos hsize hholds, hsame, hbytes, ofBytes_byteOf]

/-- A memory of four elements of twelve bits, of which one has been written. -/
def narrowMemory : Memory := (Memory.ofSize 12 4).setElement 1 0xABC

def narrowBanks : Banks := ⟨#[narrowMemory], #[]⟩

def narrowRegion : Region := ⟨0x10, 8, .memory 0⟩

def narrowSpace : AddressSpace := ⟨[narrowRegion]⟩

theorem narrowSpace_maps : narrowSpace.MapsMemory narrowBanks narrowRegion 0 := by
  have hmap : AddressSpace.empty.map narrowBanks 0x10 (.memory 0) = .ok narrowSpace := rfl
  have hwrite : (Memory.ofSize 12 4).write 1 0xABC = .ok narrowMemory := rfl
  exact ⟨.map .empty hmap, by simp [narrowSpace], rfl, by decide, .write (.zeros 12 4) hwrite,
    by decide⟩

/-- Five bytes that begin and end amid elements: the upper bytes of the elements keep four bits. -/
theorem mapped_memory_reads_and_writes_bytes_across_elements :
    narrowSpace.MapsMemory narrowBanks narrowRegion 0 ∧ narrowRegion.Holds 0x11 5 ∧
      narrowSpace.read narrowBanks 0x11 5 = .ok 0xABC00 ∧
      ∃ m, narrowSpace.write narrowBanks 0x11 0x5544332211 5 = (narrowBanks.setMemory 0 m, none) ∧
        m.byteAt 3 = 0x3 ∧ m.byteAt 4 = 0x44 ∧ m.byteAt 0 = 0 := by
  have hholds : narrowRegion.Holds 0x11 5 := by decide
  obtain ⟨⟨hread, -⟩, hwrites⟩ :=
    mapped_memory_reads_and_writes_bytes narrowSpace_maps (by decide) (by decide) hholds
  obtain ⟨m, hwrite, hm, -⟩ := hwrites 0x5544332211
  refine ⟨narrowSpace_maps, hholds, hread, m, hwrite, ?_, ?_, ?_⟩
  · exact (hm.bytes 3).trans rfl
  · exact (hm.bytes 4).trans rfl
  · exact (hm.bytes 0).trans rfl

end AddressSpace

end Clockwork
