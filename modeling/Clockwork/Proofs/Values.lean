import Clockwork.Proofs.Signals
import Clockwork.Proofs.Tree.Signals

namespace Clockwork

namespace Simulation

/-- The changes that are on record: the names of the signals, and what they held before and after.
-/
def recorded (s : Simulation) : List (String × Value × Value) :=
  s.changes.toList.map fun c => (c.signal, c.old, c.new)

def fieldName (s : Simulation) (f : FieldRef) : String :=
  (((s.tree.inst f.owner).fields[f.index]?).map FieldSlot.name).getD ""

theorem fieldName_of_slot (s : Simulation) {f : FieldRef} {slot : FieldSlot}
    (h : s.tree.slot f.owner f.index = .ok slot) : s.fieldName f = slot.name := by
  rw [fieldName, Tree.slot_eq_ok.mp h]
  rfl

/-- The name that changes of a field are on record under. -/
def signalName (s : Simulation) (f : FieldRef) : String :=
  (s.tree.inst f.owner).path ++ "." ++ s.fieldName f

def changed (s : Simulation) (f : FieldRef) (old new : Value) : Simulation :=
  (s.trace f (s.fieldName f) old new).noteEdge f old new

/-- The simulations have the same design and signals, the same processes are pending, and the same
changes are on record. -/
structure Agrees (s s' : Simulation) : Prop where
  tree : s'.tree = s.tree
  wiring : s'.wiring = s.wiring
  signals : s'.signals = s.signals
  pending : s'.pending = s.pending
  tracing : s'.tracing = s.tracing
  recorded : s'.recorded = s.recorded

theorem Agrees.refl (s : Simulation) : s.Agrees s := ⟨rfl, rfl, rfl, rfl, rfl, rfl⟩

theorem Agrees.trans {s s₁ s₂ : Simulation} (h : s.Agrees s₁) (h₁ : s₁.Agrees s₂) :
    s.Agrees s₂ :=
  ⟨h₁.tree.trans h.tree, h₁.wiring.trans h.wiring, h₁.signals.trans h.signals,
    h₁.pending.trans h.pending, h₁.tracing.trans h.tracing, h₁.recorded.trans h.recorded⟩

theorem recorded_trace (s : Simulation) (f : FieldRef) (name : String) (old new : Value) :
    (s.trace f name old new).recorded = match s.tracing with
      | .memory => s.recorded ++ [((s.tree.inst f.owner).path ++ "." ++ name, old, new)]
      | _ => s.recorded := by
  cases h : s.tracing with
  | memory => simp [trace, h, recorded]
  | _ => simp only [trace, h, recorded, note]

theorem recorded_changed {s : Simulation} (h : s.tracing = .memory) (f : FieldRef)
    (old new : Value) :
    (s.changed f old new).recorded = s.recorded ++ [(s.signalName f, old, new)] := by
  have hnoted : ∀ s₁ : Simulation, (s₁.noteEdge f old new).recorded = s₁.recorded := by
    intro s₁
    unfold noteEdge
    split <;> rfl
  rw [changed, hnoted, recorded_trace, h]
  rfl

theorem Agrees.trace {s s' : Simulation} (h : s.Agrees s') (f : FieldRef) (name : String)
    (old new : Value) : (s.trace f name old new).Agrees (s'.trace f name old new) := by
  have hrecorded : (s'.trace f name old new).recorded = (s.trace f name old new).recorded := by
    rw [recorded_trace, recorded_trace, h.tracing, h.tree, h.recorded]
  cases hs : s.tracing <;> simp only [Simulation.trace, h.tracing, hs] at hrecorded ⊢
  case off => exact h
  case log => exact ⟨h.tree, h.wiring, h.signals, h.pending, h.tracing, hrecorded⟩
  case memory => exact ⟨h.tree, h.wiring, h.signals, h.pending, rfl, hrecorded⟩

theorem Agrees.noteEdge {s s' : Simulation} (h : s.Agrees s') (f : FieldRef) (old new : Value) :
    (s.noteEdge f old new).Agrees (s'.noteEdge f old new) := by
  simp only [Simulation.noteEdge]
  split
  · exact ⟨h.tree, h.wiring, h.signals, by simp only [h.wiring, h.pending], h.tracing, h.recorded⟩
  · exact h

theorem Agrees.changed {s s' : Simulation} (h : s.Agrees s') (f : FieldRef) (old new : Value) :
    (s.changed f old new).Agrees (s'.changed f old new) := by
  have hname : s'.fieldName f = s.fieldName f := by rw [fieldName, h.tree, fieldName]
  rw [Simulation.changed, Simulation.changed, hname]
  exact (h.trace f _ old new).noteEdge f old new

/-- The current value of a field with a slot. -/
def current (s : Simulation) (f : FieldRef) (slot : FieldSlot) : Value :=
  (s.signalsOf f.owner).read slot.key

/-- The value staged for a field with a slot. -/
def staged? (s : Simulation) (f : FieldRef) (slot : FieldSlot) : Option Value :=
  (s.signalsOf f.owner).staged.get? slot.key

/-- A field rises: what it held was false, and what it holds is true. -/
def Rose (s s' : Simulation) (f : FieldRef) : Prop :=
  ∃ old new, s.readField f = .ok old ∧ s'.readField f = .ok new ∧
    old.truthy = false ∧ new.truthy = true

/-- All signals belong to a sound tree, and what is staged is staged for a signal. -/
structure Coherent (s : Simulation) : Prop where
  tree : s.tree.Sound
  size : s.signals.size = s.tree.size
  sorted : ∀ id, (s.signalsOf id).staged.Sorted
  staged : ∀ id key v, (s.signalsOf id).staged.get? key = some v →
    ∃ i slot, s.tree.SignalAt ⟨id, i⟩ slot ∧ slot.key = key

theorem readField_of_signal {s : Simulation} {f : FieldRef} {slot : FieldSlot}
    (h : s.tree.SignalAt f slot) : s.readField f = .ok (s.current f slot) := by
  simp only [readField, h.1, h.2]
  rfl

theorem rose_iff {s s' : Simulation} (ht : s'.tree = s.tree) {f : FieldRef} :
    s.Rose s' f ↔ ∃ slot, s.tree.SignalAt f slot ∧ (s.current f slot).truthy = false ∧
      (s'.current f slot).truthy = true := by
  constructor
  · rintro ⟨old, new, hold, hnew, hfalse, htrue⟩
    cases hslot : s.tree.slot f.owner f.index with
    | error e =>
        simp only [readField, hslot] at hold
        cases hold
    | ok slot =>
        cases hst : slot.storage with
        | signal =>
            have hs : s.tree.SignalAt f slot := ⟨hslot, hst⟩
            rw [readField_of_signal hs] at hold
            rw [readField_of_signal (s := s') (by rwa [ht])] at hnew
            cases hold
            cases hnew
            exact ⟨slot, hs, hfalse, htrue⟩
        | _ =>
            simp only [readField, ht, hslot, hst] at hold hnew
            rw [hold] at hnew
            cases hnew
            rw [hfalse] at htrue
            cases htrue
  · rintro ⟨slot, hs, hfalse, htrue⟩
    exact ⟨_, _, readField_of_signal hs, readField_of_signal (by rwa [ht]), hfalse, htrue⟩

theorem current_congr {s s' : Simulation} (hs : s'.signals = s.signals) (f : FieldRef)
    (slot : FieldSlot) : s'.current f slot = s.current f slot := by
  rw [current, signalsOf, hs, current, signalsOf]

theorem staged?_congr {s s' : Simulation} (h : s'.signals = s.signals) (f : FieldRef)
    (slot : FieldSlot) : s'.staged? f slot = s.staged? f slot := by
  rw [staged?, signalsOf, h]
  rfl

theorem staged?_withValue (s : Simulation) (f g : FieldRef) (slot slot' : FieldSlot) (v : Value) :
    (s.withValue f slot v).staged? g slot' = s.staged? g slot' := by
  rw [staged?, staged?, signalsOf_withValue]
  split <;> rfl

theorem current_withValue {s : Simulation} (ht : s.tree.Sound)
    (hsize : s.signals.size = s.tree.size) {f g : FieldRef} {slot slot' : FieldSlot}
    (hf : s.tree.slot f.owner f.index = .ok slot) (hg : s.tree.slot g.owner g.index = .ok slot')
    (v : Value) :
    (s.withValue f slot v).current g slot' = if g = f then v else s.current g slot' := by
  rw [current, signalsOf_withValue]
  by_cases heq : g = f
  · subst heq
    rw [hf] at hg
    cases hg
    rw [if_pos ⟨rfl, hsize ▸ Tree.slot_lt_size hf⟩, SignalState.read_set, if_pos rfl, if_pos rfl]
  · rw [if_neg heq]
    split
    · rename_i howner
      rw [SignalState.read_set, if_neg (ht.key_ne hg hf heq howner.1)]
      rfl
    · rfl

theorem staged?_applyStaged (s : Simulation) (f : FieldRef) (slot : FieldSlot) :
    s.applyStaged.1.staged? f slot = none := by
  rw [staged?, signalsOf_applyStaged, SignalState.apply, SignalState.applyAll_staged]
  exact Table.get?_empty _

theorem rose_congr {s s₁ s₂ : Simulation} (ht : s₂.tree = s₁.tree) (hs : s₂.signals = s₁.signals)
    (f : FieldRef) : s.Rose s₂ f ↔ s.Rose s₁ f := by
  have hread : s₂.readField f = s₁.readField f :=
    readField_congr ht (fun id => by rw [signalsOf, hs, signalsOf]) f
  simp only [Rose, hread]

theorem not_rose_of_signals {s s' : Simulation} (ht : s'.tree = s.tree)
    (hs : s'.signals = s.signals) (f : FieldRef) : ¬ s.Rose s' f := by
  rw [rose_iff ht]
  rintro ⟨slot, -, hfalse, htrue⟩
  rw [current_congr hs, hfalse] at htrue
  cases htrue

namespace Coherent

variable {s : Simulation}

theorem congr {s' : Simulation} (h : s.Coherent) (ht : s'.tree = s.tree)
    (hs : s'.signals = s.signals) : s'.Coherent := by
  have hof : ∀ id, s'.signalsOf id = s.signalsOf id := fun id => by rw [signalsOf, hs, signalsOf]
  refine ⟨by rw [ht]; exact h.tree, by rw [ht, hs]; exact h.size, ?_, ?_⟩
  · intro id
    rw [hof]
    exact h.sorted id
  · intro id key v hv
    rw [hof] at hv
    rw [ht]
    exact h.staged id key v hv

theorem owner_lt (h : s.Coherent) {f : FieldRef} {slot : FieldSlot}
    (hf : s.tree.slot f.owner f.index = .ok slot) : f.owner < s.signals.size := by
  rw [h.size]
  exact Tree.slot_lt_size hf

theorem current_withValue (h : s.Coherent) {f g : FieldRef} {slot slot' : FieldSlot}
    (hf : s.tree.slot f.owner f.index = .ok slot) (hg : s.tree.slot g.owner g.index = .ok slot')
    (v : Value) :
    (s.withValue f slot v).current g slot' = if g = f then v else s.current g slot' :=
  Simulation.current_withValue h.tree h.size hf hg v

theorem withValue (h : s.Coherent) (f : FieldRef) (slot : FieldSlot) (v : Value) :
    (s.withValue f slot v).Coherent := by
  have hstaged : ∀ id, ((s.withValue f slot v).signalsOf id).staged = (s.signalsOf id).staged := by
    intro id
    rw [signalsOf_withValue]
    split <;> rfl
  refine ⟨h.tree, ?_, ?_, ?_⟩
  · exact (s.signals.size_set f.owner slot.key v).trans h.size
  · intro id
    rw [hstaged]
    exact h.sorted id
  · intro id key w hw
    rw [hstaged] at hw
    exact h.staged id key w hw

theorem rose_withValue (h : s.Coherent) {f : FieldRef} {slot : FieldSlot}
    (hf : s.tree.SignalAt f slot) (v : Value) (g : FieldRef) :
    s.Rose (s.withValue f slot v) g ↔
      g = f ∧ (s.current f slot).truthy = false ∧ v.truthy = true := by
  have htree : (s.withValue f slot v).tree = s.tree := rfl
  rw [rose_iff htree]
  constructor
  · rintro ⟨slot', hg, hfalse, htrue⟩
    rw [h.current_withValue hf.1 hg.1] at htrue
    by_cases heq : g = f
    · subst heq
      obtain rfl := hf.unique hg
      rw [if_pos rfl] at htrue
      exact ⟨rfl, hfalse, htrue⟩
    · rw [if_neg heq, hfalse] at htrue
      cases htrue
  · rintro ⟨rfl, hfalse, htrue⟩
    refine ⟨slot, hf, hfalse, ?_⟩
    rwa [h.current_withValue hf.1 hf.1, if_pos rfl]

theorem current_stage (s : Simulation) (f : FieldRef) (slot : FieldSlot) (v : Value)
    (g : FieldRef) (slot' : FieldSlot) :
    (s.stage f slot v).current g slot' = s.current g slot' := by
  rw [current, signalsOf_stage]
  split <;> rfl

theorem stage (h : s.Coherent) {f : FieldRef} {slot : FieldSlot} (hf : s.tree.SignalAt f slot)
    (v : Value) : (s.stage f slot v).Coherent := by
  refine ⟨h.tree, ?_, ?_, ?_⟩
  · exact (s.size_stage f slot v).trans h.size
  · intro id
    rw [signalsOf_stage]
    split
    · exact (h.sorted id).insert _ _
    · exact h.sorted id
  · intro id key w hw
    rw [signalsOf_stage] at hw
    split at hw
    · rename_i hid
      by_cases hkey : key = slot.key
      · subst hkey
        refine ⟨f.index, slot, ?_, rfl⟩
        rw [hid.1]
        exact hf
      · rw [SignalState.stage, Table.get?_insert_of_ne _ hkey] at hw
        exact h.staged id key w hw
    · exact h.staged id key w hw

theorem staged?_stage (h : s.Coherent) {f g : FieldRef} {slot slot' : FieldSlot}
    (hf : s.tree.SignalAt f slot) (hg : s.tree.SignalAt g slot') (v : Value) :
    (s.stage f slot v).staged? g slot' =
      if g = f then some (v.fit slot.width slot.signed) else s.staged? g slot' := by
  rw [staged?, signalsOf_stage]
  by_cases heq : g = f
  · subst heq
    obtain rfl := hf.unique hg
    rw [if_pos ⟨rfl, h.owner_lt hf.1⟩, if_pos rfl, SignalState.stage, Table.get?_insert_self]
  · rw [if_neg heq]
    split
    · rename_i howner
      rw [SignalState.stage, Table.get?_insert_of_ne _ (h.tree.key_ne hg.1 hf.1 heq howner.1)]
      rfl
    · rfl

theorem indexOfKey?_iff (h : s.Coherent) {f : FieldRef} {slot : FieldSlot}
    (hf : s.tree.SignalAt f slot) {index : Nat} :
    (s.tree.inst f.owner).indexOfKey? slot.key = some index ↔ index = f.index := by
  have hslot := Tree.slot_eq_ok.mp hf.1
  obtain ⟨hlt, hget⟩ := Array.getElem?_eq_some_iff.mp hslot
  constructor
  · intro hfound
    obtain ⟨hindex, hkey, -⟩ := Array.findIdx?_eq_some_iff_getElem.mp hfound
    refine h.tree.keyed f.owner index f.index _ slot ?_ hf.1 (by simpa using hkey)
    rw [Tree.slot_eq_ok, Array.getElem?_eq_getElem hindex]
  · rintro rfl
    rw [Instance.indexOfKey?, Array.findIdx?_eq_some_iff_getElem]
    refine ⟨hlt, by simp [hget], ?_⟩
    intro j hj
    have hne : (s.tree.inst f.owner).fields[j].key ≠ slot.key := by
      intro hkey
      have heq := h.tree.keyed f.owner j f.index _ slot
        (by rw [Tree.slot_eq_ok, Array.getElem?_eq_getElem (Nat.lt_trans hj hlt)]) hf.1 hkey
      omega
    simpa using hne

theorem mem_changes_apply (h : s.Coherent) {id : Nat} {c : Change} :
    c ∈ (s.signalsOf id).apply.2 ↔
      (s.signalsOf id).staged.get? c.key = some c.new ∧ c.old = (s.signalsOf id).read c.key ∧
        c.old.same c.new = false := by
  rw [SignalState.apply, SignalState.mem_changes_applyAll _ (h.sorted id).nodup,
    (h.sorted id).get?_eq_some_iff]
  rfl

/-- The changes of a commit are those of the signals whose staged value is another one. -/
theorem mem_changes_applyStaged (h : s.Coherent) {f : FieldRef} {old new : Value} :
    (f, old, new) ∈ s.applyStaged.2 ↔
      ∃ slot, s.tree.SignalAt f slot ∧ s.staged? f slot = some new ∧
        old = s.current f slot ∧ old.same new = false := by
  change (f, old, new) ∈ s.signals.apply.2.filterMap _ ↔ _
  rw [List.mem_filterMap]
  constructor
  · rintro ⟨⟨id, c⟩, hmem, hfound⟩
    obtain ⟨-, hc⟩ := SignalStore.mem_changes_apply.mp hmem
    obtain ⟨hnew, hold, hne⟩ := h.mem_changes_apply.mp hc
    obtain ⟨i, slot, hslot, hkey⟩ := h.staged id c.key c.new hnew
    obtain ⟨index, hindex, heq⟩ := Option.map_eq_some_iff.mp hfound
    rw [← hkey] at hindex
    obtain rfl := (h.indexOfKey?_iff hslot).mp hindex
    cases heq
    refine ⟨slot, hslot, ?_, ?_, hne⟩
    · rw [staged?, hkey]
      exact hnew
    · rw [current, hkey]
      exact hold
  · rintro ⟨slot, hslot, hnew, hold, hne⟩
    have hc : ⟨slot.key, old, new⟩ ∈ (s.signalsOf f.owner).apply.2 :=
      h.mem_changes_apply.mpr ⟨hnew, hold, hne⟩
    refine ⟨(f.owner, ⟨slot.key, old, new⟩), SignalStore.mem_changes_apply.mpr ⟨?_, hc⟩, ?_⟩
    · exact Simulation.mem_touched.mpr (SignalState.hasStaged_of_get? hnew)
    · dsimp only
      rw [(h.indexOfKey?_iff hslot).mpr rfl]
      rfl

theorem pairwise_changes_applyStaged (h : s.Coherent) :
    s.applyStaged.2.Pairwise fun c c' => c.1 ≠ c'.1 := by
  have hkeys : s.signals.apply.2.Pairwise fun x y => x.1 = y.1 → x.2.key ≠ y.2.key := by
    refine List.pairwise_flatMap.mpr ⟨fun id _ => ?_, ?_⟩
    · have hone : (s.signalsOf id).apply.2.Pairwise fun c c' => c.key ≠ c'.key := by
        rw [← List.pairwise_map (f := Change.key) (R := (· ≠ ·))]
        exact (SignalState.keys_applyAll _ _).nodup (h.sorted id).nodup
      rw [List.pairwise_map]
      exact hone.imp fun hne (_ : id = id) => hne
    · refine s.signals.touched_ascending.imp fun hlt x hx y hy heq => ?_
      obtain ⟨c, -, rfl⟩ := List.mem_map.mp hx
      obtain ⟨c', -, rfl⟩ := List.mem_map.mp hy
      exact absurd heq (Nat.ne_of_lt hlt)
  refine List.Pairwise.filterMap _ (fun x y hne f hf g hg heq => ?_) hkeys
  obtain ⟨i, hi, rfl⟩ := Option.map_eq_some_iff.mp hf
  obtain ⟨j, hj, rfl⟩ := Option.map_eq_some_iff.mp hg
  obtain ⟨howner, rfl⟩ := FieldRef.mk.inj heq
  rw [← howner] at hj
  obtain ⟨hlt, hkey, -⟩ := Array.findIdx?_eq_some_iff_getElem.mp hi
  obtain ⟨hlt', hkey', -⟩ := Array.findIdx?_eq_some_iff_getElem.mp hj
  simp only [decide_eq_true_eq] at hkey hkey'
  exact hne howner (hkey.symm.trans hkey')

theorem current_applyStaged (h : s.Coherent) {f : FieldRef} {slot : FieldSlot} :
    s.applyStaged.1.current f slot =
      match s.staged? f slot with
      | some v => if (s.current f slot).same v then s.current f slot else v
      | none => s.current f slot := by
  rw [current, signalsOf_applyStaged, SignalState.apply, staged?]
  cases hv : (s.signalsOf f.owner).staged.get? slot.key with
  | some v =>
      have hmem := (h.sorted f.owner).get?_eq_some_iff.mp hv
      exact SignalState.read_applyAll _ (h.sorted f.owner).nodup hmem
  | none =>
      refine SignalState.read_applyAll_of_not_mem _ ?_
      intro hmem
      obtain ⟨⟨key, v⟩, he, rfl⟩ := List.mem_map.mp hmem
      rw [(h.sorted f.owner).get?_eq_some_iff.mpr he] at hv
      cases hv

theorem current_applyStaged_of_mem (h : s.Coherent) {f : FieldRef} {slot : FieldSlot}
    {old new : Value} (hf : s.tree.SignalAt f slot) (hmem : (f, old, new) ∈ s.applyStaged.2) :
    s.applyStaged.1.current f slot = new := by
  obtain ⟨slot', hslot, hv, rfl, hne⟩ := h.mem_changes_applyStaged.mp hmem
  obtain rfl := hf.unique hslot
  rw [h.current_applyStaged, hv]
  simp [hne]

theorem current_applyStaged_of_not_mem (h : s.Coherent) {f : FieldRef} {slot : FieldSlot}
    (hf : s.tree.SignalAt f slot) (hnone : ∀ c ∈ s.applyStaged.2, c.1 ≠ f) :
    s.applyStaged.1.current f slot = s.current f slot := by
  rw [h.current_applyStaged]
  cases hv : s.staged? f slot with
  | none => rfl
  | some v =>
      cases hsame : (s.current f slot).same v with
      | true => simp [hsame]
      | false =>
          exact absurd rfl (hnone _ (h.mem_changes_applyStaged.mpr ⟨slot, hf, hv, rfl, hsame⟩))

theorem applyStaged (h : s.Coherent) : s.applyStaged.1.Coherent := by
  obtain ⟨signals, heq⟩ := s.applyStaged_eq
  have htree : s.applyStaged.1.tree = s.tree := by rw [heq]
  have hstaged : ∀ id, (s.applyStaged.1.signalsOf id).staged = .empty := by
    intro id
    rw [signalsOf_applyStaged, SignalState.apply, SignalState.applyAll_staged]
    rfl
  refine ⟨by rw [htree]; exact h.tree, ?_, ?_, ?_⟩
  · rw [htree, ← h.size, size_applyStaged]
  · intro id
    rw [hstaged]
    exact Table.sorted_empty
  · intro id key v hv
    rw [hstaged] at hv
    cases hv

theorem rose_applyStaged (h : s.Coherent) (f : FieldRef) :
    s.Rose s.applyStaged.1 f ↔
      ∃ old new, (f, old, new) ∈ s.applyStaged.2 ∧ old.truthy = false ∧ new.truthy = true := by
  obtain ⟨signals, heq⟩ := s.applyStaged_eq
  have htree : s.applyStaged.1.tree = s.tree := by rw [heq]
  rw [rose_iff htree]
  constructor
  · rintro ⟨slot, hslot, hfalse, htrue⟩
    rw [h.current_applyStaged] at htrue
    cases hv : s.staged? f slot with
    | none =>
        rw [hv] at htrue
        rw [hfalse] at htrue
        cases htrue
    | some v =>
        simp only [hv] at htrue
        split at htrue
        · rw [hfalse] at htrue
          cases htrue
        · rename_i hne
          refine ⟨_, v, h.mem_changes_applyStaged.mpr ⟨slot, hslot, hv, rfl, ?_⟩, hfalse, htrue⟩
          simpa using hne
  · rintro ⟨old, new, hmem, hfalse, htrue⟩
    obtain ⟨slot, hslot, hv, rfl, hne⟩ := h.mem_changes_applyStaged.mp hmem
    refine ⟨slot, hslot, hfalse, ?_⟩
    rw [h.current_applyStaged, hv]
    simpa [hne] using htrue

end Coherent

end Simulation

end Clockwork
