import Mathlib.Data.List.Induction
import Mathlib.Data.List.TakeDrop
import Mathlib.Data.List.TakeWhile
import Clockwork.Storage.AddressSpace
/-!
The regions of an address space. A new region is compared with its two neighbours only; since the
regions are sorted and lie apart, this tells whether it clashes with any of them, and keeps them
sorted and apart. Main statement: `mapped_regions_lie_apart`.
-/

namespace Clockwork

namespace Region

/-- One region ends before another one starts. An empty region has to start before it as well. -/
def Before (a b : Region) : Prop := a.base < b.base ∧ a.stop ≤ b.base

def Clashes (a b : Region) : Prop :=
  a.base = b.base ∨ (a.base < b.base ∧ b.base < a.stop) ∨ (b.base < a.base ∧ a.base < b.stop)

theorem Before.trans {a b c : Region} (h : a.Before b) (h' : b.Before c) : a.Before c :=
  ⟨Nat.lt_trans h.1 h'.1, Nat.le_trans h.2 (Nat.le_of_lt h'.1)⟩

theorem not_clashes_iff {a b : Region} : ¬ a.Clashes b ↔ a.Before b ∨ b.Before a := by
  simp only [Clashes, Before]
  omega

theorem stop_eq {r : Region} (h : r.base + r.size ≤ Bounded.max64) :
    r.stop = r.base + r.size := Nat.min_eq_left h

end Region

namespace AddressSpace

def Ordered (s : AddressSpace) : Prop := s.regions.Pairwise Region.Before

theorem ordered_empty : AddressSpace.empty.Ordered := List.Pairwise.nil

theorem splitAt_eq (s : AddressSpace) (base : Nat) :
    s.splitAt base = (s.regions.takeWhile fun r => r.base < base,
      s.regions.dropWhile fun r => r.base < base) := by
  rw [splitAt, List.span_eq_takeWhile_dropWhile]

theorem splitAt_append (s : AddressSpace) (base : Nat) :
    (s.splitAt base).1 ++ (s.splitAt base).2 = s.regions := by
  rw [splitAt_eq]
  exact List.takeWhile_append_dropWhile

theorem base_lt_of_mem_splitAt {s : AddressSpace} {base : Nat} {q : Region}
    (h : q ∈ (s.splitAt base).1) : q.base < base := by
  rw [splitAt_eq] at h
  simpa using List.mem_takeWhile_imp h

theorem le_base_of_head_splitAt {s : AddressSpace} {base : Nat} {q : Region}
    (h : (s.splitAt base).2.head? = some q) : base ≤ q.base := by
  rw [splitAt_eq] at h
  have hq := List.head?_dropWhile_not (fun r : Region => decide (r.base < base)) s.regions
  simpa [h] using hq

theorem addRegion_eq (s : AddressSpace) (r : Region) :
    s.addRegion r =
      if ((s.splitAt r.base).1.getLast?.any fun p => r.base < p.stop) ||
        ((s.splitAt r.base).2.head?.any fun n => n.base < r.stop || n.base == r.base)
      then .error (.regionOverlap r.base r.size)
      else .ok ⟨(s.splitAt r.base).1 ++ r :: (s.splitAt r.base).2⟩ := by
  rw [addRegion]
  generalize s.splitAt r.base = parts
  obtain ⟨below, above⟩ := parts
  cases hp : below.getLast? <;> cases hn : above.head? <;> simp [hp, hn]

theorem addRegion_cases (s : AddressSpace) (r : Region) :
    (s.addRegion r = .ok ⟨(s.splitAt r.base).1 ++ r :: (s.splitAt r.base).2⟩ ∧
      (∀ p, (s.splitAt r.base).1.getLast? = some p → p.stop ≤ r.base) ∧
      ∀ n, (s.splitAt r.base).2.head? = some n → r.stop ≤ n.base ∧ n.base ≠ r.base) ∨
    (s.addRegion r = .error (.regionOverlap r.base r.size) ∧
      ((∃ p, (s.splitAt r.base).1.getLast? = some p ∧ r.base < p.stop) ∨
        ∃ n, (s.splitAt r.base).2.head? = some n ∧ (n.base < r.stop ∨ n.base = r.base))) := by
  rw [addRegion_eq]
  split
  · rename_i hclash
    refine .inr ⟨rfl, ?_⟩
    simpa [Option.any_eq_true] using hclash
  · rename_i hclash
    refine .inl ⟨rfl, ?_, ?_⟩
    · intro p hp
      simp only [hp, Option.any_some, Bool.or_eq_true, decide_eq_true_eq, not_or] at hclash
      omega
    · intro n hn
      simp only [hn, Option.any_some, Bool.or_eq_true, decide_eq_true_eq, not_or,
        beq_iff_eq] at hclash
      omega

theorem regions_addRegion {s s' : AddressSpace} {r : Region} (h : s.addRegion r = .ok s') :
    s'.regions = (s.splitAt r.base).1 ++ r :: (s.splitAt r.base).2 := by
  rcases s.addRegion_cases r with ⟨hok, -⟩ | ⟨herror, -⟩
  · rw [hok] at h
    cases h
    rfl
  · rw [herror] at h
    cases h

theorem regions_addRegion_perm {s s' : AddressSpace} {r : Region} (h : s.addRegion r = .ok s') :
    s'.regions.Perm (r :: s.regions) := by
  rw [regions_addRegion h, ← s.splitAt_append r.base]
  exact List.perm_middle

namespace Ordered

variable {s : AddressSpace} (hs : s.Ordered)
include hs

theorem splitAt (base : Nat) :
    (s.splitAt base).1.Pairwise Region.Before ∧ (s.splitAt base).2.Pairwise Region.Before ∧
      ∀ p ∈ (s.splitAt base).1, ∀ n ∈ (s.splitAt base).2, p.Before n := by
  rw [← List.pairwise_append, s.splitAt_append]
  exact hs

theorem before_of_last {r : Region}
    (h : ∀ p, (s.splitAt r.base).1.getLast? = some p → p.stop ≤ r.base) :
    ∀ q ∈ (s.splitAt r.base).1, q.Before r := by
  intro q hq
  obtain ⟨p, hp⟩ := Option.isSome_iff_exists.mp (List.getLast?_isSome.mpr (List.ne_nil_of_mem hq))
  obtain ⟨init, hinit⟩ := List.getLast?_eq_some_iff.mp hp
  have hlast : p.Before r := ⟨base_lt_of_mem_splitAt (List.mem_of_getLast? hp), h p hp⟩
  have hpairs := (hs.splitAt r.base).1
  rw [hinit] at hq hpairs
  rcases List.mem_append.mp hq with hq | hq
  · exact ((List.pairwise_append.mp hpairs).2.2 q hq p (by simp)).trans hlast
  · rw [List.mem_singleton.mp hq]
    exact hlast

theorem before_of_head {r : Region}
    (h : ∀ n, (s.splitAt r.base).2.head? = some n → r.stop ≤ n.base ∧ n.base ≠ r.base) :
    ∀ q ∈ (s.splitAt r.base).2, r.Before q := by
  intro q hq
  obtain ⟨n, hn⟩ := Option.isSome_iff_exists.mp (List.isSome_head?.mpr (List.ne_nil_of_mem hq))
  obtain ⟨rest, hrest⟩ := List.head?_eq_some_iff.mp hn
  have hhead : r.Before n :=
    ⟨Nat.lt_of_le_of_ne (le_base_of_head_splitAt hn) (h n hn).2.symm, (h n hn).1⟩
  have hpairs := (hs.splitAt r.base).2.1
  rw [hrest] at hq hpairs
  rcases List.mem_cons.mp hq with rfl | hq
  · exact hhead
  · exact hhead.trans ((List.pairwise_cons.mp hpairs).1 q hq)

/-- Looking at the two neighbours is enough: a region is added if it clashes with no region, and
refused otherwise. -/
theorem addRegion_cases (r : Region) :
    (∃ s', s.addRegion r = .ok s' ∧ s'.Ordered ∧ ∀ q ∈ s.regions, ¬ q.Clashes r) ∨
      (s.addRegion r = .error (.regionOverlap r.base r.size) ∧ ∃ q ∈ s.regions, q.Clashes r) := by
  have hmem : ∀ q, q ∈ s.regions ↔ q ∈ (s.splitAt r.base).1 ∨ q ∈ (s.splitAt r.base).2 := by
    intro q
    rw [← List.mem_append, s.splitAt_append]
  rcases AddressSpace.addRegion_cases s r with ⟨hok, hlast, hhead⟩ | ⟨herror, hclash⟩
  · have hbelow := hs.before_of_last hlast
    have habove := hs.before_of_head hhead
    obtain ⟨hpairs, hpairs', hcross⟩ := hs.splitAt r.base
    refine .inl ⟨_, hok, ?_, ?_⟩
    · refine List.pairwise_append.mpr ⟨hpairs, List.pairwise_cons.mpr ⟨habove, hpairs'⟩, ?_⟩
      intro p hp n hn
      rcases List.mem_cons.mp hn with rfl | hn
      · exact hbelow p hp
      · exact hcross p hp n hn
    · intro q hq
      rw [Region.not_clashes_iff]
      exact ((hmem q).mp hq).imp (hbelow q) (habove q)
  · refine .inr ⟨herror, ?_⟩
    rcases hclash with ⟨p, hp, hlt⟩ | ⟨n, hn, hlt⟩
    · have hp' := List.mem_of_getLast? hp
      exact ⟨p, (hmem p).mpr (.inl hp'), .inr (.inl ⟨base_lt_of_mem_splitAt hp', hlt⟩)⟩
    · have hle := le_base_of_head_splitAt hn
      refine ⟨n, (hmem n).mpr (.inr (List.mem_of_head? hn)), ?_⟩
      simp only [Region.Clashes]
      omega

end Ordered

theorem Ordered.addRegion {s s' : AddressSpace} (hs : s.Ordered) {r : Region}
    (h : s.addRegion r = .ok s') : s'.Ordered := by
  rcases hs.addRegion_cases r with ⟨s₁, hok, hs₁, -⟩ | ⟨herror, -⟩
  · rw [hok] at h
    cases h
    exact hs₁
  · rw [herror] at h
    cases h

theorem Ordered.addRegion_eq_error_iff {s : AddressSpace} (hs : s.Ordered) {r : Region}
    {e : SimError} :
    s.addRegion r = .error e ↔
      e = .regionOverlap r.base r.size ∧ ∃ q ∈ s.regions, q.Clashes r := by
  rcases hs.addRegion_cases r with ⟨s₁, hok, -, hapart⟩ | ⟨herror, hclash⟩
  · rw [hok]
    refine iff_of_false nofun ?_
    rintro ⟨-, q, hq, hclash⟩
    exact hapart q hq hclash
  · rw [herror]
    constructor
    · rintro ⟨⟩
      exact ⟨rfl, hclash⟩
    · rintro ⟨rfl, -⟩
      rfl

/-- Address spaces that result from mapping storages. -/
inductive Built (banks : Banks) : AddressSpace → Prop
  | empty : Built banks .empty
  | map {s s' : AddressSpace} {base : Nat} {backing : Backing} (hs : Built banks s)
      (h : s.map banks base backing = .ok s') : Built banks s'

theorem Built.size_eq {banks : Banks} {s : AddressSpace} (hs : s.Built banks) :
    ∀ r ∈ s.regions, r.size = banks.byteSize r.backing := by
  induction hs with
  | empty => simp [AddressSpace.empty]
  | @map s s' base backing _ h ih =>
      intro r hr
      rcases List.mem_cons.mp ((regions_addRegion_perm h).mem_iff.mp hr) with rfl | hr
      · rfl
      · exact ih r hr

theorem Built.ordered {banks : Banks} {s : AddressSpace} (hs : s.Built banks) : s.Ordered := by
  induction hs with
  | empty => exact ordered_empty
  | map _ h ih => exact ih.addRegion h

theorem Built.congr {banks banks' : Banks} (h : ∀ b, banks'.byteSize b = banks.byteSize b)
    {s : AddressSpace} (hs : s.Built banks) : s.Built banks' := by
  induction hs with
  | empty => exact .empty
  | @map s s' base backing _ hmap ih =>
      have hmap' : s.map banks' base backing = .ok s' := by rwa [AddressSpace.map, h]
      exact .map ih hmap'

/-- The space after a call that maps a storage. A refused call leaves it as it is. -/
def afterMap (banks : Banks) (s : AddressSpace) (call : Nat × Backing) : AddressSpace :=
  match s.map banks call.1 call.2 with
  | .ok s' => s'
  | .error _ => s

/-- The space after some calls that map storages. -/
def afterMaps (banks : Banks) (calls : List (Nat × Backing)) : AddressSpace :=
  calls.foldl (afterMap banks) .empty

theorem afterMaps_snoc (banks : Banks) (calls : List (Nat × Backing)) (call : Nat × Backing) :
    afterMaps banks (calls ++ [call]) = afterMap banks (afterMaps banks calls) call := by
  rw [afterMaps, List.foldl_append]
  rfl

theorem built_afterMaps (banks : Banks) (calls : List (Nat × Backing)) :
    (afterMaps banks calls).Built banks := by
  induction calls using List.reverseRecOn with
  | nil => exact .empty
  | append_singleton calls call ih =>
      rw [afterMaps_snoc, afterMap]
      cases h : (afterMaps banks calls).map banks call.1 call.2 with
      | error e => exact ih
      | ok s' => exact .map ih h

theorem mem_calls_of_mem_afterMaps {banks : Banks} {calls : List (Nat × Backing)} {r : Region}
    (h : r ∈ (afterMaps banks calls).regions) : (r.base, r.backing) ∈ calls := by
  induction calls using List.reverseRecOn with
  | nil => cases h
  | append_singleton calls call ih =>
      rw [afterMaps_snoc, afterMap] at h
      cases hmap : (afterMaps banks calls).map banks call.1 call.2 with
      | error e =>
          rw [hmap] at h
          exact List.mem_append_left _ (ih h)
      | ok s' =>
          rw [hmap] at h
          rcases List.mem_cons.mp ((regions_addRegion_perm hmap).mem_iff.mp h) with rfl | h
          · simp
          · exact List.mem_append_left _ (ih h)

/-- Whatever storages are mapped by calls that end at the last address or before it, empty ones
included, the regions are sorted and none reaches into the next one. A further such call is refused
exactly if its region starts where another one does, or one of the two starts inside the other;
then nothing changes, and otherwise its region is added. -/
theorem mapped_regions_lie_apart (banks : Banks) (calls : List (Nat × Backing))
    (hcalls : ∀ call ∈ calls, call.1 + banks.byteSize call.2 ≤ Bounded.max64) :
    ((afterMaps banks calls).regions.Pairwise fun a b =>
      a.base < b.base ∧ a.base + a.size ≤ b.base) ∧
    ∀ base backing, base + banks.byteSize backing ≤ Bounded.max64 →
      ((afterMaps banks calls).map banks base backing =
          .error (.regionOverlap base (banks.byteSize backing)) ↔
        ∃ q ∈ (afterMaps banks calls).regions, q.base = base ∨
          (q.base < base ∧ base < q.base + q.size) ∨
          (base < q.base ∧ q.base < base + banks.byteSize backing)) ∧
      (∀ e, (afterMaps banks calls).map banks base backing = .error e →
        e = .regionOverlap base (banks.byteSize backing) ∧
          afterMaps banks (calls ++ [(base, backing)]) = afterMaps banks calls) ∧
      ∀ s', (afterMaps banks calls).map banks base backing = .ok s' →
        afterMaps banks (calls ++ [(base, backing)]) = s' ∧
          s'.regions.Perm
            (⟨base, banks.byteSize backing, backing⟩ :: (afterMaps banks calls).regions) := by
  have hbuilt := built_afterMaps banks calls
  have hstop : ∀ q ∈ (afterMaps banks calls).regions, q.stop = q.base + q.size := by
    intro q hq
    apply Region.stop_eq
    rw [hbuilt.size_eq q hq]
    exact hcalls _ (mem_calls_of_mem_afterMaps hq)
  refine ⟨?_, ?_⟩
  · refine hbuilt.ordered.imp_of_mem ?_
    intro a b ha _ hbefore
    rw [← hstop a ha]
    exact hbefore
  · intro base backing hend
    have hnew : Region.stop ⟨base, banks.byteSize backing, backing⟩ =
        base + banks.byteSize backing := Region.stop_eq hend
    refine ⟨?_, ?_, ?_⟩
    · rw [AddressSpace.map, hbuilt.ordered.addRegion_eq_error_iff]
      simp only [true_and]
      refine exists_congr fun q => and_congr_right fun hq => ?_
      rw [Region.Clashes, hstop q hq, hnew]
    · intro e he
      refine ⟨(hbuilt.ordered.addRegion_eq_error_iff.mp he).1, ?_⟩
      simp only [afterMaps_snoc, afterMap, he]
    · intro s' hs'
      refine ⟨?_, regions_addRegion_perm hs'⟩
      simp only [afterMaps_snoc, afterMap, hs']

def edgeBanks : Banks := ⟨#[.ofSize 8 16, .ofSize 8 0, .ofSize 8 8], #[]⟩

/-- The empty memory is mapped to the end of the first one. Inside of it neither the empty memory
nor the last one can be mapped; before it there is room. -/
def edgeCalls : List (Nat × Backing) :=
  [(0x10, .memory 0), (0x20, .memory 1), (0x18, .memory 1), (0x18, .memory 2), (0x8, .memory 2)]

/-- An empty region takes up its address. -/
theorem mapped_regions_lie_apart_at_edges :
    (∀ call ∈ edgeCalls, call.1 + edgeBanks.byteSize call.2 ≤ Bounded.max64) ∧
      (afterMaps edgeBanks edgeCalls).regions.length = 3 ∧
      (afterMaps edgeBanks edgeCalls).map edgeBanks 0x20 (.memory 2) =
        .error (.regionOverlap 0x20 8) := by
  have hcalls : ∀ call ∈ edgeCalls, call.1 + edgeBanks.byteSize call.2 ≤ Bounded.max64 := by decide
  obtain ⟨-, hmap⟩ := mapped_regions_lie_apart edgeBanks edgeCalls hcalls
  obtain ⟨hrefused, -⟩ := hmap 0x20 (.memory 2) (by decide)
  refine ⟨hcalls, by decide, hrefused.mpr ⟨⟨0x20, 0, .memory 1⟩, by decide, ?_⟩⟩
  exact .inl rfl

end AddressSpace

end Clockwork
