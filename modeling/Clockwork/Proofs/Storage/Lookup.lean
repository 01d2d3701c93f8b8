import Mathlib.Data.List.TakeWhile
import Clockwork.Proofs.Storage.Regions
/-!
Which region an access finds. A look-up takes the last region that starts at the address or before
it, and compares the end of the access with the end of the region; both ends are sums that stop at
the last address. Main statement: `lookup_exact_iff`, which says when this is the same as comparing
intervals of natural numbers.
-/

namespace Clockwork

/-- An access lies inside a region. -/
def Region.Holds (r : Region) (addr size : Nat) : Prop :=
  r.base ≤ addr ∧ addr + size ≤ r.base + r.size

instance (r : Region) (addr size : Nat) : Decidable (r.Holds addr size) :=
  inferInstanceAs (Decidable (_ ∧ _))

namespace AddressSpace

theorem checkSize_eq_ok_iff {size : Nat} : checkSize size = .ok () ↔ 1 ≤ size ∧ size ≤ 8 := by
  rw [checkSize]
  split <;> simp [*]

/-- What is known of the region that an access finds. -/
structure Found (s : AddressSpace) (addr size : Nat) (r : Region) : Prop where
  mem : r ∈ s.regions
  base_le : r.base ≤ addr
  lt_stop : addr < r.stop
  fits : Bounded.add64 addr size ≤ r.stop

theorem found_of_lookup {s : AddressSpace} {addr size : Nat} {r : Region}
    (h : s.lookup addr size = .ok r) : Found s addr size r := by
  simp only [lookup] at h
  split at h
  · cases h
  · rename_i r' hlast
    have hmem := List.mem_of_getLast? hlast
    split at h
    · cases h
    · split at h
      · cases h
      · cases h
        exact ⟨(List.takeWhile_sublist _).subset hmem, by simpa using List.mem_takeWhile_imp hmem,
          by omega, by omega⟩

theorem lookup_unmapped {s : AddressSpace} {addr : Nat}
    (h : ∀ r ∈ s.regions, r.base ≤ addr → r.stop ≤ addr) (size : Nat) :
    s.lookup addr size = .error (.addressNotMapped addr) := by
  rw [lookup]
  cases hlast : (s.regions.takeWhile fun r => r.base ≤ addr).getLast? with
  | none => rfl
  | some r =>
      have hmem := List.mem_of_getLast? hlast
      have hbase : r.base ≤ addr := by simpa using List.mem_takeWhile_imp hmem
      exact if_pos (h r ((List.takeWhile_sublist _).subset hmem) hbase)

namespace Ordered

variable {s : AddressSpace} (hs : s.Ordered) {r : Region} (hr : r ∈ s.regions) {addr : Nat}
  (hbase : r.base ≤ addr) (hstop : addr < r.stop)
include hs hr hbase hstop

theorem getLast?_takeWhile :
    (s.regions.takeWhile fun r => r.base ≤ addr).getLast? = some r := by
  obtain ⟨pre, post, hregions⟩ := List.append_of_mem hr
  rw [Ordered, hregions] at hs
  obtain ⟨-, hpost, hpre⟩ := List.pairwise_append.mp hs
  have hstarts : ∀ q ∈ pre, decide (q.base ≤ addr) = true := by
    intro q hq
    have hbefore := (hpre q hq r (by simp)).1
    exact decide_eq_true (by omega)
  have hends : post.takeWhile (fun q => decide (q.base ≤ addr)) = [] := by
    rw [List.takeWhile_eq_nil_iff]
    intro hlt
    have hbefore := ((List.pairwise_cons.mp hpost).1 _ (List.getElem_mem hlt)).2
    simp only [decide_eq_true_eq, not_le]
    exact Nat.lt_of_lt_of_le hstop hbefore
  rw [hregions, List.takeWhile_append_of_pos hstarts, List.takeWhile_cons_of_pos (by simpa), hends]
  simp

theorem lookup_of_mem (size : Nat) :
    s.lookup addr size = if r.stop < Bounded.add64 addr size
      then .error (.regionBoundaryCrossed addr size r.stop) else .ok r := by
  simp only [lookup, hs.getLast?_takeWhile hr hbase hstop]
  exact if_neg (Nat.not_le.mpr hstop)

theorem unique {r' : Region} (hr' : r' ∈ s.regions) (hbase' : r'.base ≤ addr)
    (hstop' : addr < r'.stop) : r' = r := by
  have h := hs.getLast?_takeWhile hr hbase hstop
  rw [hs.getLast?_takeWhile hr' hbase' hstop'] at h
  exact Option.some.inj h

end Ordered

/-- A look-up tells what the intervals of the regions are. -/
structure Exact (s : AddressSpace) (addr size : Nat) : Prop where
  found : ∀ r, s.lookup addr size = .ok r ↔ r ∈ s.regions ∧ r.Holds addr size
  unmapped : s.lookup addr size = .error (.addressNotMapped addr) ↔
    ∀ r ∈ s.regions, ¬ r.Holds addr 1
  crossed : (∃ boundary, s.lookup addr size = .error (.regionBoundaryCrossed addr size boundary)) ↔
    (∃ r ∈ s.regions, r.Holds addr 1) ∧ ∀ r ∈ s.regions, ¬ r.Holds addr size

/-- An access to a region that ends at the last address or includes it: to that address itself, or
past the end of the region. -/
def AtTop (s : AddressSpace) (addr size : Nat) : Prop :=
  ∃ r ∈ s.regions, r.Holds addr 1 ∧ Bounded.max64 ≤ r.base + r.size ∧
    (Bounded.max64 ≤ addr ∨ r.base + r.size < addr + size)

theorem exact_of_unmapped {s : AddressSpace} {addr size : Nat} (hsize : 0 < size)
    (h : ∀ r ∈ s.regions, ¬ r.Holds addr 1) : s.Exact addr size := by
  have hlookup : s.lookup addr size = .error (.addressNotMapped addr) := by
    apply lookup_unmapped
    intro r hr hbase
    have hout := h r hr
    simp only [Region.Holds, Region.stop, Bounded.add64] at hout ⊢
    omega
  have hnone : ∀ r ∈ s.regions, ¬ r.Holds addr size := by
    intro r hr hholds
    refine h r hr ⟨hholds.1, ?_⟩
    have hend := hholds.2
    omega
  constructor
  · intro r
    rw [hlookup]
    exact iff_of_false nofun fun hr => hnone r hr.1 hr.2
  · exact iff_of_true hlookup h
  · rw [hlookup]
    exact iff_of_false nofun fun hr => hr.1.elim fun r hr => h r hr.1 hr.2

theorem Ordered.exact_of_holds {s : AddressSpace} (hs : s.Ordered) {addr size : Nat}
    (hsize : 0 < size) {r : Region} (hr : r ∈ s.regions) (hholds : r.Holds addr 1)
    (htop : ¬ s.AtTop addr size) : s.Exact addr size := by
  have hbelow : r.base + r.size < Bounded.max64 ∨
      (addr < Bounded.max64 ∧ addr + size ≤ r.base + r.size) := by
    by_contra hnot
    refine htop ⟨r, hr, hholds, ?_⟩
    omega
  have hinside : ∀ q : Region, q.Holds addr 1 → q.base ≤ addr ∧ addr < q.stop := by
    intro q hq
    simp only [Region.Holds, Region.stop, Bounded.add64] at hq hholds ⊢
    omega
  have honly : ∀ q, q ∈ s.regions ∧ q.Holds addr size ↔ q = r ∧ r.Holds addr size := by
    intro q
    constructor
    · rintro ⟨hq, hq'⟩
      have hstart : q.Holds addr 1 := ⟨hq'.1, Nat.le_trans (by omega) hq'.2⟩
      obtain rfl := hs.unique hr (hinside r hholds).1 (hinside r hholds).2 hq
        (hinside q hstart).1 (hinside q hstart).2
      exact ⟨rfl, hq'⟩
    · rintro ⟨rfl, hq'⟩
      exact ⟨hr, hq'⟩
  have hlookup := hs.lookup_of_mem hr (hinside r hholds).1 (hinside r hholds).2 size
  have hcross : r.stop < Bounded.add64 addr size ↔ ¬ r.Holds addr size := by
    simp only [Region.Holds, Region.stop, Bounded.add64] at hholds ⊢
    omega
  rw [if_congr hcross rfl rfl] at hlookup
  refine ⟨?_, ?_, ?_⟩
  · intro q
    rw [honly, hlookup]
    split
    · rename_i hnot
      exact iff_of_false nofun fun hq => hnot hq.2
    · rename_i hfits
      rw [Except.ok.injEq, eq_comm, and_iff_left (not_not.mp hfits)]
  · rw [hlookup]
    refine iff_of_false ?_ fun hnone => hnone r hr hholds
    split <;> nofun
  · rw [and_iff_right ⟨r, hr, hholds⟩, hlookup]
    split
    · rename_i hnot
      refine iff_of_true ⟨_, rfl⟩ ?_
      intro q hq hq'
      exact hnot ((honly q).mp ⟨hq, hq'⟩).2
    · rename_i hfits
      exact iff_of_false nofun fun hnone => hnone r hr (not_not.mp hfits)

/-- At the top of the address space a look-up does not see the last address, and does not see that
an access leaves its region. -/
theorem Ordered.not_exact_of_atTop {s : AddressSpace} (hs : s.Ordered) {addr size : Nat}
    (h : s.AtTop addr size) : ¬ s.Exact addr size := by
  obtain ⟨r, hr, hholds, htop, haddr⟩ := h
  intro hexact
  by_cases hlast : Bounded.max64 ≤ addr
  · refine hexact.unmapped.mp (lookup_unmapped ?_ size) r hr hholds
    intro q _ _
    exact Nat.le_trans (Nat.min_le_right _ _) hlast
  · have hstop : r.stop = Bounded.max64 := Nat.min_eq_right htop
    have hlookup := hs.lookup_of_mem hr hholds.1 (by omega) size
    rw [if_neg (by rw [hstop]; exact Nat.not_lt.mpr (Nat.min_le_right _ _))] at hlookup
    have hfits := ((hexact.found r).mp hlookup).2.2
    omega

/-- A look-up is exact if and only if the access is not at the top: not at the last address, and not
past the end of a region that ends there. Then whatever it accepts stays inside the storage behind
the region. -/
theorem lookup_exact_iff {banks : Banks} {s : AddressSpace} (hs : s.Built banks) {addr size : Nat}
    (hsize : 0 < size) :
    (s.Exact addr size ↔ ¬ s.AtTop addr size) ∧
      (¬ s.AtTop addr size → ∀ r, s.lookup addr size = .ok r →
        addr - r.base + size ≤ banks.byteSize r.backing) := by
  have hexact : ¬ s.AtTop addr size → s.Exact addr size := by
    intro htop
    by_cases h : ∃ r ∈ s.regions, r.Holds addr 1
    · obtain ⟨r, hr, hholds⟩ := h
      exact hs.ordered.exact_of_holds hsize hr hholds htop
    · push Not at h
      exact exact_of_unmapped hsize h
  refine ⟨⟨fun h htop => hs.ordered.not_exact_of_atTop htop h, hexact⟩, ?_⟩
  intro htop r hr
  obtain ⟨hmem, hbase, hend⟩ := ((hexact htop).found r).mp hr
  rw [← hs.size_eq r hmem]
  omega

/-- A memory of four bytes that takes up the last four addresses. -/
def topBanks : Banks := ⟨#[.ofSize 8 4], #[]⟩

def topRegion : Region := ⟨0xFFFFFFFFFFFFFFFC, 4, .memory 0⟩

def topSpace : AddressSpace := ⟨[topRegion]⟩

theorem topSpace_built : topSpace.Built topBanks := by
  have hmap : AddressSpace.empty.map topBanks topRegion.base (.memory 0) = .ok topSpace := rfl
  exact .map .empty hmap

/-- An access of two bytes that ends just below the last address is looked up exactly. -/
theorem lookup_exact_iff_below_top :
    topSpace.Exact 0xFFFFFFFFFFFFFFFD 2 ∧ topSpace.lookup 0xFFFFFFFFFFFFFFFD 2 = .ok topRegion := by
  have htop : ¬ topSpace.AtTop 0xFFFFFFFFFFFFFFFD 2 := by
    simp [AtTop, topSpace, topRegion, Bounded.max64]
  have hexact := (lookup_exact_iff topSpace_built (by decide)).1.mpr htop
  exact ⟨hexact, (hexact.found topRegion).mpr ⟨by decide, by decide⟩⟩

/-- The last address belongs to the region and is not found; an access of eight bytes from the
address before it leaves the region and is accepted. -/
theorem lookup_inexact_at_top :
    topSpace.Built topBanks ∧ topRegion ∈ topSpace.regions ∧
      topRegion.base + topRegion.size = Bounded.max64 + 1 ∧
      topRegion.Holds 0xFFFFFFFFFFFFFFFF 1 ∧
      topSpace.lookup 0xFFFFFFFFFFFFFFFF 1 = .error (.addressNotMapped 0xFFFFFFFFFFFFFFFF) ∧
      ¬ topRegion.Holds 0xFFFFFFFFFFFFFFFE 8 ∧
      topSpace.lookup 0xFFFFFFFFFFFFFFFE 8 = .ok topRegion :=
  ⟨topSpace_built, by decide, by decide, by decide, rfl, by decide, rfl⟩

end AddressSpace

end Clockwork
