import Clockwork.Proofs.Machine.Step
import Clockwork.Proofs.Signals

namespace Clockwork

instance : StrictOrder ProcessRef where
  irrefl p h := by
    rcases h with h | ⟨-, h⟩ <;> exact Nat.lt_irrefl _ h
  trans h h' := by
    rcases h with h | ⟨h, hi⟩ <;> rcases h' with h' | ⟨h', hi'⟩
    · exact .inl (Nat.lt_trans h h')
    · exact .inl (h' ▸ h)
    · exact .inl (h ▸ h')
    · exact .inr ⟨h.trans h', Nat.lt_trans hi hi'⟩
  total {p q} h hne := by
    obtain ⟨i, k⟩ := p
    obtain ⟨j, l⟩ := q
    simp only [LT.lt, not_or, not_and, ne_eq, ProcessRef.mk.injEq] at h hne ⊢
    change ¬ i < j ∧ (i = j → ¬ k < l) at h
    change j < i ∨ j = i ∧ l < k
    omega

def SignalStore.ofStates (states : Array SignalState) : SignalStore := ⟨states, _, rfl⟩

/-- What a clocked process leaves behind: a value staged for a signal, or where it goes on. A mark
of nothing takes back what was left. -/
inductive Mark where
  | staged (owner key : Nat) (v : Option Value)
  | paused (p : ProcessRef) (pause : Option Pause)

namespace Mark

def place : Mark → (Nat × Nat) ⊕ ProcessRef
  | staged owner key _ => .inl (owner, key)
  | paused p _ => .inr p

def signals (k : Mark) (l : SignalStore) : SignalStore :=
  match k with
  | staged owner key v =>
    .ofStates (l.states.modify owner fun s => { s with staged := s.staged.put key v })
  | paused _ _ => l

def pauses (k : Mark) (t : Table ProcessRef Pause) : Table ProcessRef Pause :=
  match k with
  | staged _ _ _ => t
  | paused p pause => t.put p pause

def ofWrite (f : FieldRef) (slot : FieldSlot) (v : Value) : Mark :=
  staged f.owner slot.key (some (v.fit slot.width slot.signed))

end Mark

namespace Simulation

def mark (s : Simulation) (k : Mark) : Simulation :=
  { s with signals := k.signals s.signals, paused := k.pauses s.paused }

def marks (s : Simulation) (l : List Mark) : Simulation := l.foldl mark s

theorem marks_append (s : Simulation) (l l' : List Mark) :
    s.marks (l ++ l') = (s.marks l).marks l' := List.foldl_append

theorem tree_marks (s : Simulation) (l : List Mark) : (s.marks l).tree = s.tree := by
  induction l generalizing s with
  | nil => rfl
  | cons k l ih => exact ih (s.mark k)

theorem signals_marks {l : List Mark} (hl : ∀ k ∈ l, ∃ p, k.place = .inr p) (s : Simulation) :
    (s.marks l).signals = s.signals := by
  induction l generalizing s with
  | nil => rfl
  | cons k l ih =>
      refine (ih (fun k' hk' => hl k' (by simp [hk'])) (s.mark k)).trans ?_
      obtain ⟨p, hp⟩ := hl k (by simp)
      cases k with
      | staged owner key v => cases hp
      | paused q pause => rfl

/-- The tables of staged values and of paused processes are in order. -/
structure Ordered (s : Simulation) : Prop where
  staged : ∀ id, (s.signalsOf id).staged.Sorted
  paused : s.paused.Sorted

theorem signalsOf_mark (s : Simulation) (k : Mark) (id : Nat) :
    (s.mark k).signalsOf id =
      match k with
      | .staged owner key v =>
        if id = owner ∧ owner < s.signals.size then
          { s.signalsOf id with staged := (s.signalsOf id).staged.put key v }
        else s.signalsOf id
      | .paused _ _ => s.signalsOf id := by
  cases k with
  | staged owner key v =>
      exact SignalStore.get_modify s.signals.states
        (fun signals => { signals with staged := signals.staged.put key v }) owner id
  | paused p pause => rfl

theorem current_mark (s : Simulation) (k : Mark) (id : Nat) :
    ((s.mark k).signalsOf id).current = (s.signalsOf id).current := by
  rw [signalsOf_mark]
  cases k with
  | staged owner key v =>
      dsimp only
      split <;> rfl
  | paused p pause => rfl

@[simp] theorem readField_mark (s : Simulation) (k : Mark) (f : FieldRef) :
    (s.mark k).readField f = s.readField f := by
  have htree : (s.mark k).tree = s.tree := rfl
  exact readField_congr htree (s.current_mark k) f

namespace Ordered

variable {s : Simulation}

theorem mark (h : s.Ordered) (k : Mark) : (s.mark k).Ordered := by
  constructor
  · intro id
    rw [signalsOf_mark]
    cases k with
    | staged owner key v =>
        dsimp only
        split
        · exact (h.staged id).put key v
        · exact h.staged id
    | paused p pause => exact h.staged id
  · cases k with
    | staged owner key v => exact h.paused
    | paused p pause => exact h.paused.put p pause

theorem marks (h : s.Ordered) (l : List Mark) : (s.marks l).Ordered := by
  induction l generalizing s with
  | nil => exact h
  | cons k l ih => exact ih (h.mark k)

end Ordered

theorem mark_ofWrite (s : Simulation) (f : FieldRef) (slot : FieldSlot) (v : Value) :
    s.mark (.ofWrite f slot v) = s.stage f slot v := by
  have hsignals : (Mark.ofWrite f slot v).signals s.signals =
      s.signals.stage f.owner slot.key (v.fit slot.width slot.signed) := by
    apply SignalStore.ext_get
    · exact Array.size_modify.trans (s.size_stage f slot v).symm
    · intro id
      exact (s.signalsOf_mark _ id).trans (s.signalsOf_stage f slot v id).symm
  exact congrArg (fun l => { s with signals := l }) hsignals

@[simp] theorem marks_ofWrite (s : Simulation) (f : FieldRef) (slot : FieldSlot) (v : Value) :
    s.marks [.ofWrite f slot v] = s.stage f slot v := s.mark_ofWrite f slot v

theorem size_mark (s : Simulation) (k : Mark) : (s.mark k).signals.size = s.signals.size := by
  cases k with
  | staged owner key v => exact Array.size_modify
  | paused p pause => rfl

namespace Ordered

variable {s : Simulation}

/-- Marks at different places are left in any order. -/
theorem mark_comm (h : s.Ordered) {k k' : Mark} (hne : k.place ≠ k'.place) :
    (s.mark k).mark k' = (s.mark k').mark k := by
  have hsignals : ((s.mark k).mark k').signals = ((s.mark k').mark k).signals := by
    apply SignalStore.ext_get
    · simp only [size_mark]
    · intro id
      change ((s.mark k).mark k').signalsOf id = ((s.mark k').mark k).signalsOf id
      simp only [signalsOf_mark, size_mark]
      rcases k with ⟨i, a, v⟩ | ⟨p, pause⟩ <;> rcases k' with ⟨j, b, w⟩ | ⟨q, pause'⟩
      · dsimp only
        by_cases hi : id = i ∧ i < s.signals.size
        · by_cases hj : id = j ∧ j < s.signals.size
          · have hkey : a ≠ b := by
              rintro rfl
              exact hne (by rw [Mark.place, Mark.place, ← hi.1, ← hj.1])
            simp only [if_pos hi, if_pos hj, (h.staged id).put_comm hkey]
          · simp only [if_pos hi, if_neg hj]
        · simp only [if_neg hi]
      all_goals rfl
  have hpaused : ((s.mark k).mark k').paused = ((s.mark k').mark k).paused := by
    rcases k with ⟨i, a, v⟩ | ⟨p, pause⟩ <;> rcases k' with ⟨j, b, w⟩ | ⟨q, pause'⟩
    case paused.paused =>
      refine h.paused.put_comm ?_ pause pause'
      rintro rfl
      exact hne rfl
    all_goals rfl
  change { s with
    signals := ((s.mark k).mark k').signals, paused := ((s.mark k).mark k').paused } = _
  rw [hsignals, hpaused]
  rfl

theorem mark_back (h : s.Ordered) (k : Mark) :
    ∃ k' : Mark, k'.place = k.place ∧ (s.mark k).mark k' = s := by
  rcases k with ⟨i, a, v⟩ | ⟨p, pause⟩
  · refine ⟨.staged i a ((s.signalsOf i).staged.get? a), rfl, ?_⟩
    have hsignals : ((s.mark (.staged i a v)).mark
        (.staged i a ((s.signalsOf i).staged.get? a))).signals = s.signals := by
      apply SignalStore.ext_get
      · simp only [size_mark]
      · intro id
        change (((s.mark _).mark _).signalsOf id) = s.signalsOf id
        simp only [signalsOf_mark, size_mark]
        by_cases hi : id = i ∧ i < s.signals.size
        · simp only [if_pos hi]
          rw [← hi.1, (h.staged id).put_get?]
        · simp only [if_neg hi]
    exact congrArg (fun l => { s with signals := l }) hsignals
  · refine ⟨.paused p (s.paused.get? p), rfl, ?_⟩
    change { s with paused := (s.paused.put p pause).put p (s.paused.get? p) } = s
    rw [h.paused.put_get?]

theorem marks_mark (h : s.Ordered) {k : Mark} {l : List Mark}
    (hne : ∀ k' ∈ l, k.place ≠ k'.place) : (s.marks l).mark k = (s.mark k).marks l := by
  induction l generalizing s with
  | nil => rfl
  | cons k' l ih =>
      have hk : (s.mark k').mark k = (s.mark k).mark k' := (h.mark_comm (hne k' (by simp))).symm
      change ((s.mark k').marks l).mark k = ((s.mark k).mark k').marks l
      rw [ih (h.mark k') fun k₁ hk₁ => hne k₁ (by simp [hk₁]), hk]

theorem marks_comm (h : s.Ordered) {l l' : List Mark}
    (hne : ∀ k ∈ l, ∀ k' ∈ l', k.place ≠ k'.place) :
    (s.marks l').marks l = (s.marks l).marks l' := by
  induction l generalizing s with
  | nil => rfl
  | cons k l ih =>
      change ((s.marks l').mark k).marks l = ((s.mark k).marks l).marks l'
      rw [h.marks_mark (hne k (by simp))]
      exact ih (h.mark k) fun k₁ hk₁ => hne k₁ (by simp [hk₁])

theorem marks_back (h : s.Ordered) (l : List Mark) :
    ∃ l' : List Mark, (∀ k' ∈ l', ∃ k ∈ l, k'.place = k.place) ∧ (s.marks l).marks l' = s := by
  induction l generalizing s with
  | nil => exact ⟨[], by simp, rfl⟩
  | cons k l ih =>
      obtain ⟨l', hplaces, hback⟩ := ih (h.mark k)
      obtain ⟨k', hplace, hk⟩ := h.mark_back k
      refine ⟨l' ++ [k'], ?_, ?_⟩
      · intro k₁ hk₁
        rcases List.mem_append.mp hk₁ with hk₁ | hk₁
        · obtain ⟨k₂, hk₂, heq⟩ := hplaces k₁ hk₁
          exact ⟨k₂, by simp [hk₂], heq⟩
        · rw [List.mem_singleton] at hk₁
          exact ⟨k, by simp, by rw [hk₁, hplace]⟩
      · change ((s.mark k).marks l).marks (l' ++ [k']) = s
        rw [marks_append, hback]
        exact hk

end Ordered

end Simulation

end Clockwork
