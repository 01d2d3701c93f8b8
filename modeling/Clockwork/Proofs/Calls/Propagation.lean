import Mathlib.Data.DFinsupp.WellFounded
import Mathlib.Data.Set.Card
import Clockwork.Proofs.Calls.Reachable
import Clockwork.Proofs.Machine.Bindings
import Clockwork.Proofs.Machine.Straight
import Clockwork.Proofs.Number.Masks
/-!
Values that are passed on along bindings, which may lead round in circles. On its way a value is
cut down to the widths of the signals that it comes to, and may come back to a signal as another
one. But signals of some width see no more of a value than its low bits, and these stay the same
as long as the value does not pass a narrower signal. So of the signals that do not have the value
yet the narrow ones get fewer first, whatever becomes of the wider ones, and this can happen
finitely often only.
-/

namespace Clockwork

/-- How many low bits of a word a width keeps. -/
def Word.kept (bits : Nat) : Nat := if bits = 0 ∨ 128 ≤ bits then 128 else bits

theorem Word.kept_le (bits : Nat) : kept bits ≤ 128 := by
  unfold kept
  split <;> omega

theorem Word.fit_fit_of_kept_le (a : Int) {narrow bits : Nat} (h : kept narrow ≤ kept bits)
    (signed signed' : Bool) : fit (fit a bits signed) narrow signed' = fit a narrow signed' := by
  unfold kept at h
  by_cases hwide : bits = 0 ∨ 128 ≤ bits
  · have hfit : fit a bits signed = a := if_pos hwide
    rw [hfit]
  · rw [if_neg hwide] at h
    split at h
    · omega
    · exact fit_fit_of_le a (by omega) h (by omega) signed signed'

theorem Value.fit_fit_of_kept_le (v : Value) {narrow bits : Nat}
    (h : Word.kept narrow ≤ Word.kept bits) (signed signed' : Bool) :
    (v.fit bits signed).fit narrow signed' = v.fit narrow signed' := by
  cases v with
  | int n => exact congrArg int (Word.fit_fit_of_kept_le n h signed signed')
  | bool b => exact congrArg int (Word.fit_fit_of_kept_le (ofTruth b) h signed signed')
  | _ => rfl

/-- How many low bits of a value a field keeps. -/
def FieldSlot.kept (slot : FieldSlot) : Fin 129 :=
  ⟨Word.kept slot.width, Nat.lt_succ_of_le (Word.kept_le slot.width)⟩

/-- Numbers that agree with smaller ones up to a place, and are smaller there, are smaller from the
first place on. -/
theorem toLex_lt_of_agree {n : Nat} {a b c d : Fin n → Nat} {i : Fin n} (hba : ∀ j < i, b j = a j)
    (hi : b i < a i) (hcb : toLex c ≤ toLex b) (hdc : ∀ j ≤ i, d j = c j) :
    toLex d < toLex a := by
  rcases hcb.eq_or_lt with heq | ⟨k, hk, hlt⟩
  · obtain rfl : c = b := heq
    exact ⟨i, fun j hj => (hdc j hj.le).trans (hba j hj), (hdc i le_rfl).trans_lt hi⟩
  · rcases lt_or_ge i k with hik | hki
    · refine ⟨i, fun j hj => ?_, ?_⟩
      · exact (hdc j hj.le).trans ((hk j (hj.trans hik)).trans (hba j hj))
      · exact ((hdc i le_rfl).trans (hk i hik)).trans_lt hi
    · refine ⟨k, fun j hj => ?_, (hdc k hki).trans_lt (hlt.trans_le ?_)⟩
      · have hji : j < i := hj.trans_le hki
        exact (hdc j hji.le).trans ((hk j hj).trans (hba j hji))
      · rcases hki.eq_or_lt with rfl | hki
        · exact hi.le
        · exact (hba k hki).le

namespace Simulation

variable {s s' : Simulation} {f : FieldRef} {slot : FieldSlot} {v : Value}

/-- The fields with some number of bits that do not have a value, as far as it fits. -/
def laggards (s : Simulation) (v : Value) (bits : Fin 129) : Set FieldRef :=
  {f | ∃ slot, s.tree.slot f.owner f.index = .ok slot ∧ slot.kept = bits ∧
    (s.current f slot).same (v.fit slot.width slot.signed) = false}

theorem laggards_finite (s : Simulation) (v : Value) (bits : Fin 129) :
    (s.laggards v bits).Finite := by
  let fields : Finset FieldRef := (Finset.range s.tree.size).biUnion fun id =>
    (Finset.range (s.tree.inst id).fields.size).image (FieldRef.mk id)
  refine fields.finite_toSet.subset ?_
  rintro ⟨id, index⟩ ⟨slot, hslot, -⟩
  have hindex : index < (s.tree.inst id).fields.size :=
    (Array.getElem?_eq_some_iff.mp (Tree.slot_eq_ok.mp hslot)).1
  simp only [fields, Finset.coe_biUnion, Set.mem_iUnion, Finset.coe_range, Set.mem_Iio]
  exact ⟨id, Tree.slot_lt_size hslot, by simpa using hindex⟩

/-- How many fields do not have a value, by the number of bits that they keep. -/
noncomputable def lag (s : Simulation) (v : Value) : Lex (Fin 129 → Nat) :=
  toLex fun bits => (s.laggards v bits).ncard

theorem lag_congr (htree : s'.tree = s.tree) (hsignals : s'.signals = s.signals) (v : Value) :
    s'.lag v = s.lag v := by
  simp only [lag, laggards, htree, current_congr hsignals]

theorem laggards_fit (s : Simulation) (v : Value) {bits : Fin 129} (h : bits ≤ slot.kept) :
    s.laggards (v.fit slot.width slot.signed) bits = s.laggards v bits := by
  ext g
  refine exists_congr fun slot' => and_congr_right fun _ => and_congr_right fun hkept => ?_
  rw [v.fit_fit_of_kept_le (hkept ▸ h : slot'.kept ≤ slot.kept)]

theorem laggards_withValue (ht : s.tree.Sound) (hsize : s.signals.size = s.tree.size)
    (hf : s.tree.slot f.owner f.index = .ok slot) (v : Value) (bits : Fin 129) :
    (s.withValue f slot (v.fit slot.width slot.signed)).laggards v bits =
      s.laggards v bits \ {f} := by
  ext g
  constructor
  · rintro ⟨slot', hg, hkept, hlags⟩
    rw [current_withValue ht hsize hf hg] at hlags
    by_cases heq : g = f
    · subst heq
      cases hf.symm.trans hg
      rw [if_pos rfl, Value.same_refl] at hlags
      cases hlags
    · rw [if_neg heq] at hlags
      exact ⟨⟨slot', hg, hkept, hlags⟩, heq⟩
  · rintro ⟨⟨slot', hg, hkept, hlags⟩, hne⟩
    have heq : g ≠ f := hne
    refine ⟨slot', hg, hkept, ?_⟩
    rwa [current_withValue ht hsize hf hg, if_neg heq]

/-- After a change of a field, and after what brings no more fields behind the value that the
field has then, fewer fields are behind a value that looks the same to the field. -/
theorem lag_lt {w : Value} (ht : s.tree.Sound) (hsize : s.signals.size = s.tree.size)
    (hf : s.tree.slot f.owner f.index = .ok slot)
    (hlags : (s.current f slot).same (v.fit slot.width slot.signed) = false)
    (hle : s'.lag (v.fit slot.width slot.signed) ≤
      (s.withValue f slot (v.fit slot.width slot.signed)).lag (v.fit slot.width slot.signed))
    (hw : ∀ bits ≤ slot.kept,
      s'.laggards w bits = s'.laggards (v.fit slot.width slot.signed) bits) :
    s'.lag w < s.lag v := by
  have hset : ∀ bits ≤ slot.kept,
      (s.withValue f slot (v.fit slot.width slot.signed)).laggards
        (v.fit slot.width slot.signed) bits = s.laggards v bits \ {f} := by
    intro bits hle
    rw [laggards_fit _ v hle, laggards_withValue ht hsize hf v]
  refine toLex_lt_of_agree (i := slot.kept) (fun bits hlt => ?_) ?_ hle fun bits hle => ?_
  · rw [hset bits hlt.le, Set.sdiff_singleton_eq_self]
    rintro ⟨slot', hslot', hkept, -⟩
    cases hf.symm.trans hslot'
    exact hlt.ne' hkept
  · rw [hset _ le_rfl]
    exact Set.ncard_sdiff_singleton_lt_of_mem ⟨slot, hf, rfl, hlags⟩ (s.laggards_finite v slot.kept)
  · rw [hw bits hle]

/-- The values of all fields have their places, and no process depends on a field. -/
structure Unwatched (s : Simulation) : Prop where
  tree : s.tree.Sound
  size : s.signals.size = s.tree.size
  watchers : ∀ f, s.watchers f = []

theorem Unwatched.congr (h : s.Unwatched) (hs : s.SameDesign s') : s'.Unwatched := by
  refine ⟨hs.tree ▸ h.tree, ?_, fun f => ?_⟩
  · rw [hs.size, h.size, hs.tree]
  · have hwatchers := h.watchers f
    rwa [Simulation.watchers, ← hs.wiring] at hwatchers

end Simulation

namespace Machine

variable {waker : Waker} {m : Machine}

/-- Driving a field with a value ends with no more fields behind the value than before. -/
def KeepsUp (waker : Waker) (m : Machine) (f : FieldRef) (v : Value) : Prop :=
  EndsIn waker (fun s => s.lag v ≤ m.sim.lag v) m (m.drive f v)

theorem propagate_endsIn {v : Value}
    (h : ∀ m', m.sim.SameDesign m'.sim → m'.sim.lag v ≤ m.sim.lag v → ∀ f, KeepsUp waker m' f v)
    (l : List FieldRef) (w : Value) :
    EndsIn waker (fun s => s.lag v ≤ m.sim.lag v) m (m.resume (.propagate l v) w) := by
  induction l generalizing m w with
  | nil => exact .complete _ (.refl m) le_rfl
  | cons f l ih =>
      have hfirst := h { m with stack := .propagate l v :: m.stack } (.refl _) le_rfl f
      refine hfirst.resume rfl ⟨rfl, .refl _⟩ (fun _ _ => rfl) (fun _ => id)
        fun m' w' hback hle => ?_
      have hrest := ih (m := m') (fun m'' hs hle' =>
        h m'' (hback.sim.toSameDesign.trans hs) (hle'.trans hle)) w'
      exact hrest.back hback fun _ hle' => hle'.trans hle

theorem announce_endsIn {new : Value}
    (h : ∀ m', m.sim.SameDesign m'.sim → m'.sim.lag new ≤ m.sim.lag new →
      ∀ f, KeepsUp waker m' f new) (f : FieldRef) (name : String) (old : Value) :
    EndsIn waker (fun s => s.lag new ≤ m.sim.lag new) m
      (m.announce f name old new [.combs []]) := by
  have hwork := m.sim.sameWork_announce f name old new
  obtain ⟨p, c, l, heq⟩ := m.sim.announce_eq f name old new
  let m₁ : Machine := { m with
    sim := (m.sim.trace f name old new).noteEdge f old new
    stack := .combs [] :: m.stack
    control := .done (.value .none) }
  have hlag : m₁.sim.lag new = m.sim.lag new :=
    Simulation.lag_congr hwork.tree (by rw [heq]) new
  have hstep : (m.announce f name old new [.combs []]).step waker =
      .go (m₁.resume (.propagate (m₁.sim.tree.targets f) new) .none) := rfl
  have hpassed : EndsIn waker (fun s => s.lag new ≤ m₁.sim.lag new) m₁
      (m.announce f name old new [.combs []]) :=
    .next hstep (propagate_endsIn (fun m' hs hle =>
      h m' (hwork.toSameDesign.trans hs) (hle.trans hlag.le)) _ .none)
  refine hpassed.resume rfl ⟨rfl, hwork.sameDepth⟩ (fun _ _ => rfl) (fun s hle => hle.trans hlag.le)
    fun m' _ hback hle => ?_
  exact .complete _ hback (hle.trans hlag.le)

/-- A change leaves fewer fields behind the value, and so does what the new value is passed on to.
-/
theorem changed_endsIn (hs : m.sim.Unwatched) {f : FieldRef} {slot : FieldSlot} {v : Value}
    (hslot : m.sim.tree.slot f.owner f.index = .ok slot)
    (hv : (m.sim.current f slot).same (v.fit slot.width slot.signed) = false)
    (hless : ∀ m' : Machine, m'.sim.Unwatched → ∀ w, m'.sim.lag w < m.sim.lag v →
      ∀ g, KeepsUp waker m' g w) : KeepsUp waker m f v := by
  obtain ⟨u, hu⟩ : ∃ u, v.fit slot.width slot.signed = u := ⟨_, rfl⟩
  let m₁ : Machine := m.setSim (m.sim.withValue f slot u)
  have hset : m.sim.SameDepth m₁.sim := (m.sim.sameWork_withValue f slot u).sameDepth
  have hbelow : ∀ (s : Simulation) w, s.lag u ≤ m₁.sim.lag u →
      (∀ bits ≤ slot.kept, s.laggards w bits = s.laggards u bits) → s.lag w < m.sim.lag v := by
    subst hu
    exact fun s w => Simulation.lag_lt hs.tree hs.size hslot hv
  have hpassed : ∀ m', m₁.sim.SameDesign m'.sim → m'.sim.lag u ≤ m₁.sim.lag u →
      ∀ g, KeepsUp waker m' g u := fun m' hs' hle =>
    hless m' (hs.congr (hset.toSameDesign.trans hs')) u (hbelow m'.sim u hle fun _ _ => rfl)
  obtain ⟨c, m', hback, hle, hreach⟩ :=
    announce_endsIn hpassed f slot.name (m.sim.current f slot)
  have hlast : m'.sim.lag v < m.sim.lag v := by
    refine hbelow m'.sim v hle fun bits hle => ?_
    rw [← hu, m'.sim.laggards_fit v hle]
  refine ⟨c, m', ⟨⟨hback.mode, hset.trans hback.sim⟩, hback.stack⟩, hlast.le, ?_⟩
  rw [drive_changed hslot hv, hs.watchers f, hu]
  exact hreach

theorem drive_keepsUp (hs : m.sim.Unwatched) (f : FieldRef) (v : Value) : KeepsUp waker m f v := by
  induction hlag : m.sim.lag v using WellFoundedLT.induction generalizing m f v with
  | ind x ih =>
      subst hlag
      cases hslot : m.sim.tree.slot f.owner f.index with
      | error e =>
          rw [KeepsUp, drive_error hslot]
          exact .complete _ (.refl m) le_rfl
      | ok slot =>
          cases hv : (m.sim.current f slot).same (v.fit slot.width slot.signed) with
          | true =>
              rw [KeepsUp, drive_same hslot hv]
              exact .complete _ (.refl m) le_rfl
          | false => exact changed_endsIn hs hslot hv fun m' hs' w hw g => ih _ hw hs' g w rfl

end Machine

/-- Passing values on along bindings comes to an end, whatever the bindings are, circles and
fields that follow themselves included, and whatever the widths of the signals, their signs and
their values are, as long as no process depends on a field. -/
theorem propagation_ends {waker : Waker} {m : Machine} (ht : m.sim.tree.Sound)
    (hsize : m.sim.signals.size = m.sim.tree.size) (hw : ∀ f, m.sim.watchers f = [])
    (f : FieldRef) (v : Value) : m.Ends waker (m.drive f v) :=
  (Machine.drive_keepsUp ⟨ht, hsize, hw⟩ f v).ends

/-- Three signals that follow each other in a circle, and a fourth one that follows itself. -/
def roundaboutDesign : TypeTable :=
  ⟨[⟨"Top", .component { Component.ofName "Top" with
      body := { Body.ofName "Top" with
        fields := [.ofType "a" (.int 8 false), .ofType "b" (.int 3 true),
          .ofType "c" (.int 5 false), .ofType "d" (.int 2 true)] }
      binds := [⟨.ownField 1, .ownField 0⟩, ⟨.ownField 2, .ownField 1⟩,
        ⟨.ownField 0, .ownField 2⟩, ⟨.ownField 3, .ownField 3⟩] }⟩], by decide⟩

/-- The value comes back to the first signal as another one, and goes round once more. -/
theorem propagation_ends_in_circle : ∃ s, Reachable s ∧ s.tree.Sound ∧
    s.signals.size = s.tree.size ∧ (∀ f, s.watchers f = []) ∧
    s.tree.bindings.entries.map Prod.snd = [[⟨0, 1⟩], [⟨0, 2⟩], [⟨0, 0⟩], [⟨0, 3⟩]] ∧
    s.machine.Ends .nobody (s.machine.drive ⟨0, 0⟩ (.int 205)) := by
  have hcheck : ((roundaboutDesign.after "Top" 200 [.start]).map fun s =>
      decide (s.wiring.watchers.entries.isEmpty = true ∧
        s.tree.bindings.entries.map Prod.snd = [[⟨0, 1⟩], [⟨0, 2⟩], [⟨0, 0⟩], [⟨0, 3⟩]])) =
          some true := by
    decide +kernel
  obtain ⟨s, hs, hprops⟩ := Option.map_eq_some_iff.mp hcheck
  obtain ⟨hnone, hbindings⟩ := of_decide_eq_true hprops
  have hreach : Reachable s := TypeTable.reachable_after hs
  have hdesigned := hreach.designed
  have hwatchers : ∀ f, s.watchers f = [] := fun f => by
    rw [Simulation.watchers, Table.get?, List.isEmpty_iff.mp hnone]
    rfl
  exact ⟨s, hreach, hdesigned.tree, hdesigned.size, hwatchers, hbindings,
    propagation_ends hdesigned.tree hdesigned.size hwatchers ⟨0, 0⟩ (.int 205)⟩

end Clockwork
