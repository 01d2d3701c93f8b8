import Clockwork.Proofs.Machine.Body

namespace Clockwork

namespace Simulation

theorem readField_congr {s s' : Simulation} (ht : s'.tree = s.tree)
    (hs : ∀ id, (s'.signalsOf id).current = (s.signalsOf id).current) (f : FieldRef) :
    s'.readField f = s.readField f := by
  simp only [readField, ht, SignalState.read, hs]

theorem signalsOf_withValue (s : Simulation) (f : FieldRef) (slot : FieldSlot) (v : Value)
    (id : Nat) :
    (s.withValue f slot v).signalsOf id =
      if id = f.owner ∧ f.owner < s.signals.size then (s.signalsOf id).set slot.key v
      else s.signalsOf id :=
  s.signals.get_set f.owner slot.key v id

theorem signalsOf_stage (s : Simulation) (f : FieldRef) (slot : FieldSlot) (v : Value) (id : Nat) :
    (s.stage f slot v).signalsOf id =
      if id = f.owner ∧ f.owner < s.signals.size then
        (s.signalsOf id).stage slot.key (v.fit slot.width slot.signed)
      else s.signalsOf id :=
  s.signals.get_stage f.owner slot.key (v.fit slot.width slot.signed) id

theorem size_stage (s : Simulation) (f : FieldRef) (slot : FieldSlot) (v : Value) :
    (s.stage f slot v).signals.size = s.signals.size :=
  s.signals.size_stage f.owner slot.key (v.fit slot.width slot.signed)

theorem readField_stage (s : Simulation) (f : FieldRef) (slot : FieldSlot) (v : Value)
    (g : FieldRef) : (s.stage f slot v).readField g = s.readField g := by
  apply readField_congr
  · rfl
  · intro id
    rw [signalsOf_stage]
    split <;> rfl

theorem Mild.readField {s s' : Simulation} (h : s.Mild s') (g : FieldRef) :
    s'.readField g = s.readField g := by
  obtain ⟨-, k, o, c, l, rfl⟩ := h
  rfl

theorem signalsOf_discardPending (s : Simulation) (id : Nat) :
    s.discardPending.signalsOf id = (s.signalsOf id).discard := s.signals.get_discard id

theorem size_discardPending (s : Simulation) : s.discardPending.signals.size = s.signals.size :=
  s.signals.size_discard

theorem readField_discardPending (s : Simulation) (g : FieldRef) :
    s.discardPending.readField g = s.readField g := by
  apply readField_congr
  · rfl
  · intro id
    rw [signalsOf_discardPending]
    rfl

theorem readField_error {s s' : Simulation} (ht : s'.tree = s.tree) {f : FieldRef} {e : SimError}
    (h : s.readField f = .error e) : s'.readField f = .error e := by
  simp only [readField, ht] at h ⊢
  cases hslot : s.tree.slot f.owner f.index with
  | error e' =>
      rw [hslot] at h
      exact h
  | ok slot =>
      rw [hslot] at h
      cases hst : slot.storage <;> simp only [hst] at h ⊢
      case unbound => exact h
      all_goals cases h

/-- The simulations agree on the value of every field. -/
def SameValues (s s' : Simulation) : Prop := ∀ f, s'.readField f = s.readField f

theorem SameValues.refl (s : Simulation) : s.SameValues s := fun _ => rfl

theorem SameValues.trans {s s₁ s₂ : Simulation} (h : s.SameValues s₁) (h₁ : s₁.SameValues s₂) :
    s.SameValues s₂ := fun f => (h₁ f).trans (h f)

theorem hasStaged_discardPending (s : Simulation) : s.discardPending.hasStaged = false := rfl

end Simulation

namespace SignalState

theorem read_set (s : SignalState) (key : Nat) (v : Value) (k : Nat) :
    (s.set key v).read k = if k = key then v else s.read k := by
  by_cases h : k = key
  · subst h
    simp [read, set]
  · simp [read, set, Table.get?_insert_of_ne _ h, h]

theorem read_applyAll_of_not_mem (s : SignalState) {l : List (Nat × Value)} {k : Nat}
    (hk : k ∉ l.map Prod.fst) : (s.applyAll l).1.read k = s.read k := by
  induction l generalizing s with
  | nil => rfl
  | cons e l ih =>
      obtain ⟨key, v⟩ := e
      rw [List.map_cons, List.mem_cons, not_or] at hk
      simp only [applyAll]
      split
      · exact ih s hk.2
      · refine (ih (s.set key v) hk.2).trans ?_
        rw [read_set, if_neg hk.1]

def committed (s : SignalState) (key : Nat) (v : Value) : Value :=
  if (s.read key).same v then s.read key else v

theorem read_applyAll (s : SignalState) {l : List (Nat × Value)} (hl : (l.map Prod.fst).Nodup)
    {k : Nat} {v : Value} (hk : (k, v) ∈ l) : (s.applyAll l).1.read k = s.committed k v := by
  induction l generalizing s with
  | nil => cases hk
  | cons e l ih =>
      obtain ⟨key, w⟩ := e
      rw [List.map_cons, List.nodup_cons] at hl
      rcases List.mem_cons.mp hk with heq | hmem
      · cases heq
        simp only [applyAll, committed]
        split
        · exact read_applyAll_of_not_mem s hl.1
        · refine (read_applyAll_of_not_mem (s.set k v) hl.1).trans ?_
          rw [read_set, if_pos rfl]
      · have hne : k ≠ key := by
          rintro rfl
          exact hl.1 (List.mem_map.mpr ⟨_, hmem, rfl⟩)
        simp only [applyAll]
        split
        · exact ih s hl.2 hmem
        · refine (ih (s.set key w) hl.2 hmem).trans ?_
          simp only [committed, read_set, if_neg hne]

theorem mem_changes_applyAll (s : SignalState) {l : List (Nat × Value)}
    (hl : (l.map Prod.fst).Nodup) {c : Change} :
    c ∈ (s.applyAll l).2 ↔
      (c.key, c.new) ∈ l ∧ c.old = s.read c.key ∧ c.old.same c.new = false := by
  induction l generalizing s with
  | nil => simp [applyAll]
  | cons e l ih =>
      obtain ⟨key, v⟩ := e
      rw [List.map_cons, List.nodup_cons] at hl
      have ne_of_mem : (c.key, c.new) ∈ l → c.key ≠ key := by
        intro hmem heq
        exact hl.1 (List.mem_map.mpr ⟨_, hmem, heq⟩)
      simp only [applyAll]
      split
      · rename_i hsame
        rw [ih s hl.2, List.mem_cons]
        constructor
        · rintro ⟨hmem, hold, hne⟩
          exact ⟨.inr hmem, hold, hne⟩
        · rintro ⟨heq | hmem, hold, hne⟩
          · cases heq
            rw [← hold] at hsame
            rw [hsame] at hne
            cases hne
          · exact ⟨hmem, hold, hne⟩
      · rename_i hsame
        rw [List.mem_cons, ih (s.set key v) hl.2, List.mem_cons]
        constructor
        · rintro (rfl | ⟨hmem, hold, hne⟩)
          · exact ⟨.inl rfl, rfl, by simpa using hsame⟩
          · refine ⟨.inr hmem, ?_, hne⟩
            rwa [read_set, if_neg (ne_of_mem hmem)] at hold
        · rintro ⟨heq | hmem, hold, hne⟩
          · obtain ⟨k, old, new⟩ := c
            cases heq
            exact .inl (congrArg (Change.mk k · new) hold)
          · refine .inr ⟨hmem, ?_, hne⟩
            rwa [read_set, if_neg (ne_of_mem hmem)]

theorem keys_applyAll (s : SignalState) (l : List (Nat × Value)) :
    ((s.applyAll l).2.map Change.key).Sublist (l.map Prod.fst) := by
  induction l generalizing s with
  | nil => exact .slnil
  | cons e l ih =>
      obtain ⟨key, v⟩ := e
      simp only [applyAll]
      split
      · exact (ih s).cons key
      · exact (ih (s.set key v)).cons_cons key

end SignalState

namespace Simulation

theorem hasStaged_congr {s s' : Simulation} (h : s'.signals = s.signals) :
    s'.hasStaged = s.hasStaged := by
  rw [hasStaged, touched, h, hasStaged, touched]

theorem mem_touched {s : Simulation} {id : Nat} :
    id ∈ s.touched ↔ (s.signalsOf id).hasStaged = true := SignalStore.mem_touched

theorem hasStaged_eq_false_iff (s : Simulation) :
    s.hasStaged = false ↔ ∀ id, (s.signalsOf id).hasStaged = false := by
  rw [hasStaged, Bool.not_eq_false', List.isEmpty_iff, List.eq_nil_iff_forall_not_mem]
  simp only [mem_touched, Bool.not_eq_true]

theorem applyStaged_eq (s : Simulation) :
    ∃ signals, s.applyStaged.1 = { s with signals := signals } := ⟨_, rfl⟩

theorem signalsOf_applyStaged (s : Simulation) (id : Nat) :
    s.applyStaged.1.signalsOf id = (s.signalsOf id).apply.1 := s.signals.get_apply id

theorem size_applyStaged (s : Simulation) : s.applyStaged.1.signals.size = s.signals.size :=
  s.signals.size_apply

theorem hasStaged_applyStaged (s : Simulation) : s.applyStaged.1.hasStaged = false := rfl

end Simulation

end Clockwork
