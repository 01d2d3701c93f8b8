import Clockwork.Proofs.Storage.Lookup
import Clockwork.Proofs.Storage.Memory
/-!
What a failed write to an address space leaves behind. A write that is no whole element or register
goes byte by byte, and ends at the first byte that the storage does not have; the bytes before it
stay written. Main statement: `failed_write_stores_leading_bytes`.
-/

namespace Clockwork

open AddressSpace (each writeMemoryByte byteOf lowBytes checkSize)

namespace Memory

/-- Whether a byte belongs to an element of a memory. -/
def HasByte (m : Memory) (byte : Nat) : Prop :=
  ∃ i, m.position (byte / m.elementBytes : Nat) = .ok i

theorem hasByte_of_lt {m : Memory} {byte : Nat} (h : byte < m.byteSize)
    (h64 : byte ≤ Bounded.max64) : m.HasByte byte := ⟨_, position_of_lt h h64⟩

theorem hasByte_congr {m m' : Memory} (hsize : m'.size = m.size) (hwidth : m'.width = m.width)
    (byte : Nat) : m'.HasByte byte ↔ m.HasByte byte := by
  simp only [HasByte, position, elementBytes, hsize, hwidth]

theorem writeMemoryByte_of_hasByte {m : Memory} {byte : Nat} (h : m.HasByte byte) (value : Nat) :
    ∃ m', writeMemoryByte m byte value = .ok m' ∧ ∀ b, m'.HasByte b ↔ m.HasByte b := by
  obtain ⟨i, hi⟩ := h
  refine ⟨m.setElement i (RegFile.replaceByte (m.element i) (byte % m.elementBytes) value), ?_,
    hasByte_congr rfl rfl⟩
  simp only [writeMemoryByte, read_of_position hi]
  exact write_of_position hi _

theorem hasByte_of_writeMemoryByte {m m' : Memory} {byte value : Nat}
    (h : writeMemoryByte m byte value = .ok m') : m.HasByte byte := by
  cases hi : m.position (byte / m.elementBytes : Nat) with
  | ok i => exact ⟨i, hi⟩
  | error e =>
      have hread : m.read (byte / m.elementBytes : Nat) = .error e := by rw [read, hi, Except.map]
      simp only [writeMemoryByte, hread] at h
      cases h

end Memory

namespace RegFile

/-- Whether a byte belongs to a register of a register file. -/
def HasByte (f : RegFile) (byte : Nat) : Prop := (f.covering? byte).isSome

def places (f : RegFile) : List (Nat × Nat) := f.registers.map fun r => (r.offset, r.byteLength)

theorem startBefore?_eq (f : RegFile) (byte : Nat) :
    f.startBefore? byte = ((f.places.map Prod.fst).filter (· ≤ byte)).max? := by
  simp only [startBefore?, places, List.map_map]
  rfl

theorem registerAt?_place (f : RegFile) (offset : Nat) :
    (f.registerAt? offset).map (fun r => (r.offset, r.byteLength)) =
      f.places.reverse.find? fun p => decide (p.1 = offset) := by
  rw [registerAt?, places, ← List.map_reverse, List.find?_map]
  rfl

theorem hasByte_iff {f : RegFile} {byte : Nat} :
    f.HasByte byte ↔ ∃ p, (f.startBefore? byte).bind
      (fun o => f.places.reverse.find? fun p => decide (p.1 = o)) = some p ∧ byte < p.1 + p.2 := by
  have hplace : (f.startBefore? byte).bind
        (fun o => f.places.reverse.find? fun p => decide (p.1 = o)) =
      ((f.startBefore? byte).bind f.registerAt?).map fun r => (r.offset, r.byteLength) := by
    simp only [← registerAt?_place]
    cases f.startBefore? byte <;> rfl
  rw [hplace, HasByte, covering?]
  cases (f.startBefore? byte).bind f.registerAt? with
  | none => simp
  | some r => by_cases h : byte < r.offset + r.byteLength <;> simp [h]

theorem hasByte_congr {f f' : RegFile} (h : f'.places = f.places) (byte : Nat) :
    f'.HasByte byte ↔ f.HasByte byte := by
  rw [hasByte_iff, hasByte_iff, startBefore?_eq, startBefore?_eq, h]

theorem places_changeLast (test : Register → Bool) (change : Register → Register)
    (hplace : ∀ r, ((change r).offset, (change r).byteLength) = (r.offset, r.byteLength))
    (l : List Register) :
    (changeLast test change l).map (fun r => (r.offset, r.byteLength)) =
      l.map fun r => (r.offset, r.byteLength) := by
  induction l with
  | nil => rfl
  | cons r rest ih =>
      simp only [changeLast]
      split
      · rw [List.map_cons, List.map_cons, hplace]
      · rw [List.map_cons, List.map_cons, ih]

theorem places_set (f : RegFile) (offset : Nat) (value : Int) :
    (f.set offset value).places = f.places :=
  places_changeLast _ (fun r => { r with value := Word.low value r.bits })
  (fun _ => rfl) f.registers

theorem writeByte_of_hasByte {f : RegFile} {byte : Nat} (h : f.HasByte byte) (value : Nat) :
    ∃ f', f.writeByte byte value = .ok f' ∧ ∀ b, f'.HasByte b ↔ f.HasByte b := by
  obtain ⟨r, hr⟩ := Option.isSome_iff_exists.mp h
  refine ⟨f.set r.offset (replaceByte r.value (byte - r.offset) value), ?_, ?_⟩
  · simp only [writeByte, hr]
  · exact hasByte_congr (f.places_set _ _)

theorem hasByte_of_writeByte {f f' : RegFile} {byte value : Nat}
    (h : f.writeByte byte value = .ok f') : f.HasByte byte := by
  cases hr : f.covering? byte with
  | some r => simp [HasByte, hr]
  | none => simp [writeByte, hr] at h

end RegFile

namespace Banks

/-- Whether a storage has a byte. -/
def HasByte (b : Banks) : Backing → Nat → Prop
  | .memory id, byte => (b.memory id).HasByte byte
  | .regFile id, byte => (b.regFile id).HasByte byte

/-- Writes the first `n` bytes of a value into a storage, one after the other. -/
def storeBytes (b : Banks) (s : Backing) (offset value n : Nat) : Banks :=
  match s with
  | .memory id => b.setMemory id (each (fun m k => writeMemoryByte m (offset + k) (byteOf value k))
      (b.memory id) (List.range n)).1
  | .regFile id => b.setRegFile id (each (fun f k => f.writeByte (offset + k) (byteOf value k))
      (b.regFile id) (List.range n)).1

@[simp] theorem setMemory_memory (b : Banks) (id : Nat) : b.setMemory id (b.memory id) = b := by
  obtain ⟨memories, regFiles⟩ := b
  simp only [setMemory, memory, mk.injEq, and_true]
  by_cases h : id < memories.size
  · simp [Array.setIfInBounds, h]
  · simp [Array.setIfInBounds, h]

@[simp] theorem setRegFile_regFile (b : Banks) (id : Nat) :
    b.setRegFile id (b.regFile id) = b := by
  obtain ⟨memories, regFiles⟩ := b
  simp only [setRegFile, regFile, mk.injEq, true_and]
  by_cases h : id < regFiles.size
  · simp [Array.setIfInBounds, h]
  · simp [Array.setIfInBounds, h]

theorem storeBytes_zero (b : Banks) (s : Backing) (offset value : Nat) :
    b.storeBytes s offset value 0 = b := by
  cases s with
  | memory id => exact b.setMemory_memory id
  | regFile id => exact b.setRegFile_regFile id

theorem storeBytes_memory (b : Banks) {s : Backing} {id : Nat} (h : s ≠ .memory id)
    (offset value n : Nat) : (b.storeBytes s offset value n).memory id = b.memory id := by
  cases s with
  | memory id' =>
      have hne : id' ≠ id := fun heq => h (congrArg Backing.memory heq)
      simp [storeBytes, setMemory, memory, hne]
  | regFile id' => rfl

theorem storeBytes_regFile (b : Banks) {s : Backing} {id : Nat} (h : s ≠ .regFile id)
    (offset value n : Nat) : (b.storeBytes s offset value n).regFile id = b.regFile id := by
  cases s with
  | memory id' => rfl
  | regFile id' =>
      have hne : id' ≠ id := fun heq => h (congrArg Backing.regFile heq)
      simp [storeBytes, setRegFile, regFile, hne]

end Banks

namespace AddressSpace

/-- Steps that fail exactly where something is missing, and that take nothing away, fail at the
first place where it is missing. -/
theorem each_failed {α β : Type} {step : α → β → Except SimError α} (has : α → β → Prop)
    (hhas : ∀ a b, has a b → ∃ a', step a b = .ok a' ∧ ∀ c, has a' c ↔ has a c)
    (hmissing : ∀ a b a', step a b = .ok a' → has a b) {a a' : α} {l : List β} {e : SimError}
    (h : each step a l = (a', some e)) :
    ∃ pre b post, l = pre ++ b :: post ∧ (∀ c ∈ pre, has a c) ∧ ¬ has a b ∧
      (each step a pre).1 = a' := by
  induction l generalizing a with
  | nil => cases h
  | cons b rest ih =>
      by_cases hb : has a b
      · obtain ⟨a₁, hstep, hsame⟩ := hhas a b hb
        simp only [each, hstep] at h
        obtain ⟨pre, c, post, rfl, hpre, hc, heach⟩ := ih h
        refine ⟨b :: pre, c, post, rfl, ?_, mt (hsame c).mpr hc, ?_⟩
        · rintro d (_ | ⟨_, hd⟩)
          · exact hb
          · exact (hsame d).mp (hpre d hd)
        · simp only [each, hstep, heach]
      · refine ⟨[], b, rest, rfl, by simp, hb, ?_⟩
        cases hstep : step a b with
        | ok a₁ => exact absurd (hmissing a b a₁ hstep) hb
        | error e' =>
            simp only [each, hstep] at h
            exact congrArg Prod.fst h

theorem range_eq_append {size : Nat} {pre : List Nat} {b : Nat} {post : List Nat}
    (h : List.range size = pre ++ b :: post) : pre = List.range b ∧ b < size := by
  have hb : (List.range size)[pre.length]? = some b := by simp [h]
  obtain ⟨hlt, hval⟩ := List.getElem?_eq_some_iff.mp hb
  rw [List.length_range] at hlt
  obtain rfl : pre.length = b := by simpa using hval
  have htake : (List.range size).take pre.length = pre := by simp [h]
  rw [List.take_range, Nat.min_eq_left (Nat.le_of_lt hlt)] at htake
  exact ⟨htake.symm, hlt⟩

theorem Found.hasByte {s : AddressSpace} {banks : Banks} (hs : s.Built banks) {addr size : Nat}
    {r : Region} (hr : Found s addr size r) {id : Nat} (hid : r.backing = .memory id)
    (hstop : r.stop ≠ Bounded.max64) {k : Nat} (hk : k < size) :
    (banks.memory id).HasByte (addr - r.base + k) := by
  have hsize : r.size = (banks.memory id).byteSize := by
    rw [hs.size_eq r hr.mem, hid, Banks.byteSize]
  have hbase := hr.base_le
  have hfits := hr.fits
  simp only [Region.stop, Bounded.add64] at hstop hfits
  exact Memory.hasByte_of_lt (by omega) (by omega)

/-- Where a write of some bytes to a storage ends that does not have all of them. -/
structure EndsAt (has : Nat → Prop) (offset size n : Nat) : Prop where
  lt : n < size
  leading : ∀ k < n, has (offset + k)
  missing : ¬ has (offset + n)

theorem writeMemory_failed {m m' : Memory} {offset value size : Nat} {e : SimError}
    (hsize : 0 < size) (h : writeMemory m offset value size = (m', some e)) :
    ∃ n, EndsAt m.HasByte offset size n ∧
      (each (fun m k => writeMemoryByte m (offset + k) (byteOf value k)) m
        (List.range n)).1 = m' := by
  simp only [writeMemory] at h
  split at h
  · split at h
    · cases h
    · rename_i e' hwrite
      cases h
      refine ⟨0, ⟨hsize, by simp, ?_⟩, rfl⟩
      rintro ⟨i, hi⟩
      rw [Nat.add_zero] at hi
      rw [Memory.write_of_position hi] at hwrite
      cases hwrite
  · obtain ⟨pre, n, post, hrange, hpre, hn, heach⟩ :=
      each_failed (fun m k => m.HasByte (offset + k))
        (fun m k hk => (m.writeMemoryByte_of_hasByte hk _).imp
          fun m' hm' => ⟨hm'.1, fun _ => hm'.2 _⟩)
        (fun m k m' hm' => Memory.hasByte_of_writeMemoryByte hm') h
    obtain ⟨rfl, hlt⟩ := range_eq_append hrange
    exact ⟨n, ⟨hlt, fun k hk => hpre k (List.mem_range.mpr hk), hn⟩, heach⟩

theorem writeRegisters_failed {f f' : RegFile} {offset value size : Nat} {e : SimError}
    (h : writeRegisters f offset value size = (f', some e)) :
    ∃ n, EndsAt f.HasByte offset size n ∧
      (each (fun f k => f.writeByte (offset + k) (byteOf value k)) f (List.range n)).1 = f' := by
  simp only [writeRegisters] at h
  split at h
  · cases h
  · obtain ⟨pre, n, post, hrange, hpre, hn, heach⟩ :=
      each_failed (fun f k => f.HasByte (offset + k))
        (fun f k hk => (f.writeByte_of_hasByte hk _).imp fun f' hf' => ⟨hf'.1, fun _ => hf'.2 _⟩)
        (fun f k f' hf' => RegFile.hasByte_of_writeByte hf') h
    obtain ⟨rfl, hlt⟩ := range_eq_append hrange
    exact ⟨n, ⟨hlt, fun k hk => hpre k (List.mem_range.mpr hk), hn⟩, heach⟩

/-- A write that fails after its region was found ends at the first byte that the storage does not
have. -/
theorem write_failed {s : AddressSpace} {banks banks' : Banks} {addr value size : Nat}
    {e : SimError} {r : Region} (hsize : checkSize size = .ok ()) (hr : s.lookup addr size = .ok r)
    (h : s.write banks addr value size = (banks', some e)) :
    ∃ n, EndsAt (banks.HasByte r.backing) (addr - r.base) size n ∧
      banks' = banks.storeBytes r.backing (addr - r.base) (lowBytes value size) n := by
  have hpos : 0 < size := (checkSize_eq_ok_iff.mp hsize).1
  simp only [write, hsize, hr] at h
  cases hbacking : r.backing with
  | memory id =>
      simp only [hbacking] at h
      obtain ⟨rfl, he⟩ := Prod.mk.inj h
      obtain ⟨n, hn, hbytes⟩ := writeMemory_failed hpos (Prod.ext rfl he)
      exact ⟨n, hn, by rw [Banks.storeBytes, hbytes]⟩
  | regFile id =>
      simp only [hbacking] at h
      obtain ⟨rfl, he⟩ := Prod.mk.inj h
      obtain ⟨n, hn, hbytes⟩ := writeRegisters_failed (Prod.ext rfl he)
      exact ⟨n, hn, by rw [Banks.storeBytes, hbytes]⟩

/-- A write that fails because of its size or because no region holds it changes nothing. Any other
one ends at the first of its bytes that the storage behind the region does not have: the bytes
before it are written, and nothing else changes. So it changes nothing if its first byte is
missing. A storage with missing bytes is a register file with a gap, or is mapped up to the last
address. -/
theorem failed_write_stores_leading_bytes {s : AddressSpace} {banks banks' : Banks}
    (hs : s.Built banks) {addr value size : Nat} {e : SimError}
    (h : s.write banks addr value size = (banks', some e)) :
    ((checkSize size = .error e ∨ s.lookup addr size = .error e) ∧ banks' = banks) ∨
      ∃ r n, s.lookup addr size = .ok r ∧
        EndsAt (banks.HasByte r.backing) (addr - r.base) size n ∧
        banks' = banks.storeBytes r.backing (addr - r.base) (lowBytes value size) n ∧
        (∀ id, r.backing ≠ .memory id → banks'.memory id = banks.memory id) ∧
        (∀ id, r.backing ≠ .regFile id → banks'.regFile id = banks.regFile id) ∧
        (n = 0 → banks' = banks) ∧
        ((∃ id, r.backing = .regFile id) ∨ r.stop = Bounded.max64) := by
  cases hsize : checkSize size with
  | error e' =>
      simp only [write, hsize] at h
      cases h
      exact .inl ⟨.inl rfl, rfl⟩
  | ok u =>
      cases hr : s.lookup addr size with
      | error e' =>
          simp only [write, hsize, hr] at h
          cases h
          exact .inl ⟨.inr rfl, rfl⟩
      | ok r =>
          obtain ⟨n, hn, rfl⟩ := write_failed hsize hr h
          refine .inr ⟨r, n, rfl, hn, rfl, fun id hid => banks.storeBytes_memory hid _ _ _,
            fun id hid => banks.storeBytes_regFile hid _ _ _, ?_, ?_⟩
          · rintro rfl
            exact banks.storeBytes_zero _ _ _
          · cases hbacking : r.backing with
            | regFile id => exact .inl ⟨id, rfl⟩
            | memory id =>
                refine .inr (Decidable.byContradiction fun hstop => hn.missing ?_)
                rw [hbacking]
                exact (found_of_lookup hr).hasByte hs hbacking hstop hn.lt

def gapBanks : Banks := ⟨#[], #[.ofLayout "Regs" [("a", 0, 8), ("b", 4, 8)]]⟩

def gapSpace : AddressSpace := ⟨[⟨0, 5, .regFile 0⟩]⟩

theorem gapSpace_built : gapSpace.Built gapBanks := by
  have hmap : AddressSpace.empty.map gapBanks 0 (.regFile 0) = .ok gapSpace := rfl
  exact .map .empty hmap

/-- Two bytes at the first register: the second one is missing, and the first one is stored. -/
theorem failed_write_stores_byte_before_gap :
    gapSpace.write gapBanks 0 0x2211 2 = (gapBanks.storeBytes (.regFile 0) 0 0x2211 1,
      some (.noRegister 1)) ∧
    ∃ r n, gapSpace.lookup 0 2 = .ok r ∧ EndsAt (gapBanks.HasByte r.backing) (0 - r.base) 2 n := by
  have hwrite : gapSpace.write gapBanks 0 0x2211 2 = (gapBanks.storeBytes (.regFile 0) 0 0x2211 1,
      some (.noRegister 1)) := rfl
  refine ⟨hwrite, ?_⟩
  rcases failed_write_stores_leading_bytes gapSpace_built hwrite with
    ⟨hsize | hlookup, -⟩ | ⟨r, n, hr, hn, -⟩
  · cases hsize
  · cases hlookup
  · exact ⟨r, n, hr, hn⟩

/-- The write fails, and the first register has changed. -/
theorem failed_write_changes_register :
    gapSpace.Built gapBanks ∧ (gapSpace.write gapBanks 0 0x2211 2).2 = some (.noRegister 1) ∧
      (gapBanks.regFile 0).read 0 = .ok 0 ∧
      ((gapSpace.write gapBanks 0 0x2211 2).1.regFile 0).read 0 = .ok 0x11 :=
  ⟨gapSpace_built, rfl, rfl, rfl⟩

/-- A memory of four bytes that ends at the last address takes the first two of eight bytes. -/
example :
    let space : AddressSpace := ⟨[⟨Bounded.max64 - 4, 4, .memory 0⟩]⟩
    let banks : Banks := ⟨#[.ofSize 8 4], #[]⟩
    (space.write banks (Bounded.max64 - 2) 0x2211 8).2 = some (.indexOutOfBounds 4 4) ∧
      ((space.write banks (Bounded.max64 - 2) 0x2211 8).1.memory 0).read 2 = .ok 0x11 := by
  decide +kernel

end AddressSpace

end Clockwork
