import Clockwork.Design.DataType
import Clockwork.Proofs.Results
import Clockwork.Proofs.Storage.Memory
import Clockwork.Proofs.Storage.Lookup
/-!
Reads of mapped register files. A read of exactly one whole register takes all of it, even bytes at
which another register starts; single bytes are read from the register that starts last. Main
statement: `wide_read_eq_bytes_iff`, which says when the two agree.
-/

namespace Clockwork

open AddressSpace

namespace Register

def byteAt (r : Register) (byte : Nat) : Nat :=
  (Word.shiftRight r.value (8 * (byte - r.offset)) % 256).toNat

theorem byteAt_lt (r : Register) (byte : Nat) : r.byteAt byte < 256 := by
  have hlt := Int.emod_lt_of_pos (Word.shiftRight r.value (8 * (byte - r.offset)))
    (by decide : (0 : Int) < 256)
  simp only [byteAt]
  omega

theorem byteLength_pos (r : Register) : 0 < r.byteLength := Nat.le_max_right _ _

theorem lowBytes_eq (r : Register) {size : Nat} (h : size ≤ 8) :
    lowBytes (low64 r.value) size =
      ofBytes ((List.range size).map fun k => r.byteAt (r.offset + k)) := by
  rw [lowBytes_eq_ofBytes _ h]
  congr 1
  apply List.map_congr_left
  intro k hk
  have hk' := List.mem_range.mp hk
  rw [byteOf_low64 _ (by omega), byteAt, Nat.add_sub_cancel_left]

end Register

namespace RegFile

variable {f : RegFile}

theorem le_of_startBefore? {byte start : Nat} (h : f.startBefore? byte = some start) :
    start ≤ byte ∧ ∀ r ∈ f.registers, r.offset ≤ byte → r.offset ≤ start := by
  rw [startBefore?, List.max?_eq_some_iff] at h
  obtain ⟨hmem, hmax⟩ := h
  refine ⟨by simpa using (List.mem_filter.mp hmem).2, ?_⟩
  intro r hr hle
  exact hmax r.offset (List.mem_filter.mpr ⟨List.mem_map_of_mem hr, by simpa using hle⟩)

theorem startBefore?_offset {r : Register} (hr : r ∈ f.registers) :
    f.startBefore? r.offset = some r.offset := by
  rw [startBefore?, List.max?_eq_some_iff]
  refine ⟨List.mem_filter.mpr ⟨List.mem_map_of_mem hr, by simp⟩, ?_⟩
  intro start hstart
  simpa using (List.mem_filter.mp hstart).2

theorem registerAt?_mem {offset : Nat} {r : Register} (h : f.registerAt? offset = some r) :
    r ∈ f.registers ∧ r.offset = offset := by
  rw [registerAt?] at h
  exact ⟨List.mem_reverse.mp (List.mem_of_find?_eq_some h), by simpa using List.find?_some h⟩

theorem covering?_eq_some_iff {byte : Nat} {r : Register} :
    f.covering? byte = some r ↔ f.startBefore? byte = some r.offset ∧
      f.registerAt? r.offset = some r ∧ byte < r.offset + r.byteLength := by
  rw [covering?]
  constructor
  · intro h
    split at h
    · rename_i q hq
      split at h
      · rename_i hlt
        cases h
        obtain ⟨start, hstart, hat⟩ := Option.bind_eq_some_iff.mp hq
        obtain rfl := (registerAt?_mem hat).2
        exact ⟨hstart, hat, hlt⟩
      · cases h
    · cases h
  · rintro ⟨hstart, hat, hlt⟩
    simp only [hstart, Option.bind_some, hat, if_pos hlt]

theorem covering?_of_registerAt? {offset : Nat} {q : Register}
    (h : f.registerAt? offset = some q) : f.covering? offset = some q := by
  obtain ⟨hmem, rfl⟩ := registerAt?_mem h
  exact covering?_eq_some_iff.mpr
    ⟨startBefore?_offset hmem, h, Nat.lt_add_of_pos_right q.byteLength_pos⟩

theorem le_of_covering? {byte : Nat} {p : Register} (h : f.covering? byte = some p) :
    p.offset ≤ byte :=
  (le_of_startBefore? (covering?_eq_some_iff.mp h).1).1

theorem offset_le_of_covering? {byte : Nat} {p : Register} (h : f.covering? byte = some p)
    {q : Register} (hq : q ∈ f.registers) (hle : q.offset ≤ byte) : q.offset ≤ p.offset :=
  (le_of_startBefore? (covering?_eq_some_iff.mp h).1).2 q hq hle

theorem readByte_eq_ok_iff {byte value : Nat} :
    f.readByte byte = .ok value ↔ ∃ p, f.covering? byte = some p ∧ p.byteAt byte = value := by
  rw [readByte]
  cases f.covering? byte with
  | none => simp
  | some p => simp [Register.byteAt]

theorem isRegister_eq_some_iff {offset size : Nat} {q : Register} :
    isRegister f offset size = some q ↔ f.registerAt? offset = some q ∧ q.byteLength = size := by
  rw [isRegister]
  constructor
  · intro h
    split at h
    · rename_i r hr
      split at h
      · rename_i hwhole
        cases h
        obtain ⟨rfl, hlength⟩ := hwhole
        exact ⟨(covering?_eq_some_iff.mp hr).2.1, hlength⟩
      · cases h
    · cases h
  · rintro ⟨hat, hlength⟩
    have hoffset := (registerAt?_mem hat).2
    simp only [covering?_of_registerAt? hat, hoffset, hlength, and_self, if_true]

theorem readRegisters_one (f : RegFile) (byte : Nat) :
    readRegisters f byte 1 = f.readByte byte := by
  rw [readRegisters]
  split
  · rename_i q hq
    have hat := (isRegister_eq_some_iff.mp hq).1
    obtain rfl := (registerAt?_mem hat).2
    rw [readByte_eq_ok_iff.mpr ⟨q, covering?_of_registerAt? hat, rfl⟩, q.lowBytes_eq (by decide)]
    rfl
  · have hone : (List.range 1).mapM (fun k => f.readByte (byte + k)) =
        (f.readByte byte).map fun b => [b] := by
      rw [List.range_one, List.mapM_cons, List.mapM_nil, Nat.add_zero]
      cases f.readByte byte <;> rfl
    rw [hone]
    cases f.readByte byte <;> rfl

/-- A read of one whole register hides a byte of another one, which starts inside of the register
and has another value there. -/
def HidesByte (f : RegFile) (offset size : Nat) : Prop :=
  ∃ q p byte, f.registerAt? offset = some q ∧ q.byteLength = size ∧ offset < p.offset ∧
    byte < offset + size ∧ f.covering? byte = some p ∧ p.byteAt byte ≠ q.byteAt byte

theorem not_hidesByte_iff {offset size : Nat} {q : Register} (hat : f.registerAt? offset = some q)
    (hlength : q.byteLength = size) : ¬ f.HidesByte offset size ↔
      ∀ k < size, ∀ p, f.covering? (offset + k) = some p →
        p.byteAt (offset + k) = q.byteAt (offset + k) := by
  constructor
  · intro hnone k hk p hp
    by_contra hne
    obtain ⟨hmem, rfl⟩ := registerAt?_mem hat
    refine hnone ⟨q, p, q.offset + k, hat, hlength, ?_, by omega, hp, hne⟩
    apply Nat.lt_of_le_of_ne (offset_le_of_covering? hp hmem (Nat.le_add_right _ _))
    -- Of the registers at one offset only one is ever addressed.
    intro heq
    have hatp := (covering?_eq_some_iff.mp hp).2.1
    rw [← heq, hat] at hatp
    cases hatp
    exact hne rfl
  · rintro hall ⟨q', p, byte, hat', -, hstart, hlt, hp, hne⟩
    obtain rfl : q = q' := Option.some.inj (hat.symm.trans hat')
    have hle := le_of_covering? hp
    obtain ⟨k, rfl⟩ := Nat.exists_eq_add_of_le (by omega : offset ≤ byte)
    exact hne (hall k (by omega) p hp)

theorem readRegisters_eq_bytes_iff {offset size value : Nat} (hsize : size ≤ 8)
    (hread : readRegisters f offset size = .ok value) {bytes : Nat → Nat}
    (hbytes : ∀ k < size, f.readByte (offset + k) = .ok (bytes k)) :
    value = ofBytes ((List.range size).map bytes) ↔ ¬ f.HidesByte offset size := by
  rw [readRegisters] at hread
  split at hread
  · rename_i q hq
    obtain ⟨hat, hlength⟩ := isRegister_eq_some_iff.mp hq
    have hoffset := (registerAt?_mem hat).2
    have hlt : ∀ k ∈ List.range size, bytes k < 256 := by
      intro k hk
      obtain ⟨p, -, hp⟩ := readByte_eq_ok_iff.mp (hbytes k (List.mem_range.mp hk))
      exact hp ▸ p.byteAt_lt _
    cases hread
    rw [not_hidesByte_iff hat hlength, q.lowBytes_eq hsize,
      ofBytes_map_inj (fun k _ => q.byteAt_lt _) hlt, hoffset]
    constructor
    · intro hall k hk p hp
      obtain ⟨p', hp', hbyte⟩ := readByte_eq_ok_iff.mp (hbytes k hk)
      obtain rfl : p = p' := Option.some.inj (hp.symm.trans hp')
      exact hbyte.trans (hall k (List.mem_range.mpr hk)).symm
    · intro hall k hk
      obtain ⟨p, hp, hbyte⟩ := readByte_eq_ok_iff.mp (hbytes k (List.mem_range.mp hk))
      exact (hall k (List.mem_range.mp hk) p hp).symm.trans hbyte
  · rename_i hnone
    have hall : (List.range size).mapM (fun k => f.readByte (offset + k)) =
        .ok ((List.range size).map bytes) :=
      mapM_eq_ok fun k hk => hbytes k (List.mem_range.mp hk)
    rw [hall] at hread
    cases hread
    refine iff_of_true rfl ?_
    rintro ⟨q, p, byte, hat, hlength, -⟩
    rw [isRegister_eq_some_iff.mpr ⟨hat, hlength⟩] at hnone
    cases hnone

/-- The registers are those of a layout, with any values. -/
def LaidOut (f : RegFile) (decls : List RegisterDecl) : Prop :=
  f.registers.map (fun r => (r.name, r.offset, r.bits)) = registerLayout decls

end RegFile

/-- A register that stays in one slot: of at most four bytes, at no offset of its own or at a
multiple of four. -/
def RegisterDecl.FitsSlot (d : RegisterDecl) : Prop :=
  d.bits ≤ 32 ∧ ∀ offset, d.offset = some offset → 4 ∣ offset

theorem registerLayout_slots {decls : List RegisterDecl} (h : ∀ d ∈ decls, d.FitsSlot) :
    ∀ e ∈ registerLayout decls, 4 ∣ e.2.1 ∧ e.2.2 ≤ 32 := by
  -- The next free slot changes along the declarations, and stays a multiple of four.
  suffices hgo : ∀ next, 4 ∣ next → ∀ e ∈ registerLayout.go decls next, 4 ∣ e.2.1 ∧ e.2.2 ≤ 32 from
    hgo 0 (Nat.dvd_zero 4)
  induction decls with
  | nil => nofun
  | cons d decls ih =>
      intro next hnext e he
      rw [List.forall_mem_cons] at h
      have hoffset : 4 ∣ d.offset.getD next := by
        cases hd : d.offset with
        | none => exact hnext
        | some offset => exact h.1.2 offset hd
      rcases List.mem_cons.mp he with rfl | he
      · exact ⟨hoffset, h.1.1⟩
      · exact ih h.2 _ (Nat.dvd_add hoffset (Nat.dvd_refl 4)) e he

namespace RegFile

variable {f : RegFile}

theorem not_hidesByte_of_slots {decls : List RegisterDecl} (hf : f.LaidOut decls)
    (h : ∀ d ∈ decls, d.FitsSlot) (offset size : Nat) : ¬ f.HidesByte offset size := by
  have hslot : ∀ r ∈ f.registers, 4 ∣ r.offset ∧ r.byteLength ≤ 4 := by
    intro r hr
    have hmem : (r.name, r.offset, r.bits) ∈ registerLayout decls := hf ▸ List.mem_map_of_mem hr
    obtain ⟨hdvd, hbits⟩ := registerLayout_slots h _ hmem
    refine ⟨hdvd, ?_⟩
    simp only [Register.byteLength] at hbits ⊢
    omega
  rintro ⟨q, p, byte, hat, hlength, hstart, hlt, hp, -⟩
  obtain ⟨hq, rfl⟩ := registerAt?_mem hat
  have hle := le_of_covering? hp
  have hslotq := hslot q hq
  have hslotp := hslot p (registerAt?_mem (covering?_eq_some_iff.mp hp).2.1).1
  omega

end RegFile

namespace AddressSpace

theorem registers_of_read {s : AddressSpace} {banks : Banks} {addr size value : Nat}
    (h : s.read banks addr size = .ok value) {r : Region} (hr : s.lookup addr size = .ok r)
    {id : Nat} (hid : r.backing = .regFile id) :
    size ≤ 8 ∧ readRegisters (banks.regFile id) (addr - r.base) size = .ok value := by
  rw [read] at h
  obtain ⟨_, hcheck, h⟩ := bind_eq_ok h
  obtain ⟨r', hr', h⟩ := bind_eq_ok h
  obtain rfl : r = r' := Except.ok.inj (hr.symm.trans hr')
  simp only [hid] at h
  exact ⟨(checkSize_eq_ok_iff.mp hcheck).2, h⟩

theorem lookup_byte {s : AddressSpace} {banks : Banks} (hs : s.Built banks) {addr size : Nat}
    {r : Region} (hr : s.lookup addr size = .ok r) {k : Nat} (hk : k < size) {r' : Region}
    (hr' : s.lookup (addr + k) 1 = .ok r') : r' = r := by
  have hfound := found_of_lookup hr
  have hfound' := found_of_lookup hr'
  have hfits := hfound.fits
  have hlt := hfound'.lt_stop
  have hbase := hfound.base_le
  -- If the end of the access is past the last address, the region goes up to it; the byte lies
  -- below it, since its own region does not go further.
  have hinside : addr + k < r.stop := by
    simp only [Region.stop, Bounded.add64] at hfits hlt ⊢
    omega
  exact hs.ordered.unique hfound.mem (by omega) hinside hfound'.mem hfound'.base_le hlt

/-- A read of a mapped register file that succeeds, as do the reads of its single bytes, gives the
number that they form if and only if it is not of a whole register that hides a byte of another one.
None does if each register stays in its slot. -/
theorem wide_read_eq_bytes_iff {s : AddressSpace} {banks : Banks} (hs : s.Built banks)
    {addr size : Nat} {r : Region} (hr : s.lookup addr size = .ok r) {id : Nat}
    (hid : r.backing = .regFile id) {decls : List RegisterDecl}
    (hlaid : (banks.regFile id).LaidOut decls) {value : Nat}
    (hwide : s.read banks addr size = .ok value) {bytes : Nat → Nat}
    (hbytes : ∀ k < size, s.read banks (addr + k) 1 = .ok (bytes k)) :
    (value = ofBytes ((List.range size).map bytes) ↔
      ¬ (banks.regFile id).HidesByte (addr - r.base) size) ∧
    ((∀ d ∈ decls, d.FitsSlot) → value = ofBytes ((List.range size).map bytes)) := by
  obtain ⟨hsize, hread⟩ := registers_of_read hwide hr hid
  have hbase := (found_of_lookup hr).base_le
  have hsingle : ∀ k < size,
      (banks.regFile id).readByte (addr - r.base + k) = .ok (bytes k) := by
    intro k hk
    have hok := hbytes k hk
    rw [read] at hok
    obtain ⟨-, -, hok⟩ := bind_eq_ok hok
    obtain ⟨r', hr', -⟩ := bind_eq_ok hok
    obtain rfl := lookup_byte hs hr hk hr'
    have hone := (registers_of_read (hbytes k hk) hr' hid).2
    rwa [RegFile.readRegisters_one, Nat.sub_add_comm hbase] at hone
  have hiff := RegFile.readRegisters_eq_bytes_iff hsize hread hsingle
  exact ⟨hiff, fun h => hiff.mpr (RegFile.not_hidesByte_of_slots hlaid h _ _)⟩

def overlapDecls : List RegisterDecl := [⟨"a", 64, none⟩, ⟨"b", 32, none⟩]

def overlapBanks (a b : Int) : Banks := ⟨#[], #[⟨"Regs", [⟨"a", 0, 64, a⟩, ⟨"b", 4, 32, b⟩]⟩]⟩

def overlapSpace : AddressSpace := ⟨[⟨0, 8, .regFile 0⟩]⟩

theorem overlapSpace_built (a b : Int) : overlapSpace.Built (overlapBanks a b) := by
  have hsize : (overlapBanks a b).byteSize (.regFile 0) = 8 := by
    simp [overlapBanks, Banks.byteSize, Banks.regFile, RegFile.byteSize, Register.byteLength]
  have hmap : AddressSpace.empty.map (overlapBanks a b) 0 (.regFile 0) = .ok overlapSpace := by
    rw [AddressSpace.map, hsize]
    rfl
  exact .map .empty hmap

/-- The wide read of a register agrees with its bytes as long as the register inside of it has the
value that its own upper bytes have. -/
theorem wide_read_eq_bytes_iff_of_overlap :
    overlapSpace.read (overlapBanks 0x1111111122222222 0x11111111) 0 8 = .ok 0x1111111122222222 ∧
      ¬ ((overlapBanks 0x1111111122222222 0x11111111).regFile 0).HidesByte 0 8 := by
  have hwide : overlapSpace.read (overlapBanks 0x1111111122222222 0x11111111) 0 8 =
    .ok 0x1111111122222222 := rfl
  have hbytes : ∀ k < 8, overlapSpace.read (overlapBanks 0x1111111122222222 0x11111111) (0 + k) 1 =
      .ok (if k < 4 then 0x22 else 0x11) := by decide
  have hlaid : ((overlapBanks 0x1111111122222222 0x11111111).regFile 0).LaidOut overlapDecls := rfl
  have hagree := wide_read_eq_bytes_iff (overlapSpace_built _ _) rfl rfl hlaid hwide hbytes
  exact ⟨hwide, hagree.1.mp rfl⟩

/-- The wide read of a register gives its own upper bytes, and the reads of single bytes give those
of the register inside of it. -/
theorem wide_read_hides_bytes :
    overlapSpace.Built (overlapBanks 0x1111111122222222 0) ∧
      ((overlapBanks 0x1111111122222222 0).regFile 0).LaidOut overlapDecls ∧
      overlapSpace.read (overlapBanks 0x1111111122222222 0) 0 8 = .ok 0x1111111122222222 ∧
      (∀ k < 8, overlapSpace.read (overlapBanks 0x1111111122222222 0) k 1 =
        .ok (if k < 4 then 0x22 else 0)) ∧
      ofBytes ((List.range 8).map fun k => if k < 4 then 0x22 else 0) = 0x22222222 :=
  ⟨overlapSpace_built _ _, rfl, rfl, by decide, rfl⟩

end AddressSpace

end Clockwork
