import Clockwork.Proofs.Machine.Addressed
import Clockwork.Proofs.Machine.Edges

namespace Clockwork

/-- Changes that lead from one value to another one: each of them begins with what the one before it
has left. -/
def Replays (v : Value) : List (Value × Value) → Value → Prop
  | [], w => w = v
  | (old, new) :: l, w => old = v ∧ Replays new l w

theorem replays_append {v w : Value} {l l₁ : List (Value × Value)} :
    Replays v (l ++ l₁) w ↔ ∃ u, Replays v l u ∧ Replays u l₁ w := by
  induction l generalizing v with
  | nil => simp [Replays]
  | cons c l ih => simp only [List.cons_append, Replays, ih, and_assoc, exists_and_left]

theorem Replays.snoc {v old : Value} {l : List (Value × Value)} (h : Replays v l old)
    (new : Value) : Replays v (l ++ [(old, new)]) new :=
  replays_append.mpr ⟨old, h, rfl, rfl⟩

namespace Simulation

def history (s : Simulation) (name : String) : List (Value × Value) :=
  (s.recorded.filter fun c => decide (c.1 = name)).map (·.2)

theorem history_congr {s s' : Simulation} (h : s'.recorded = s.recorded) (name : String) :
    s'.history name = s.history name := by rw [history, h, history]

theorem history_append {s s' : Simulation} {name : String} {c : Value × Value}
    (h : s'.recorded = s.recorded ++ [(name, c)]) : s'.history name = s.history name ++ [c] := by
  simp [history, h]

theorem history_append_of_ne {s s' : Simulation} {name name' : String} {c : Value × Value}
    (h : s'.recorded = s.recorded ++ [(name', c)]) (hne : name' ≠ name) :
    s'.history name = s.history name := by
  simp [history, h, hne]

/-- Whether a field has a value already, as far as the value fits. -/
def holds (s : Simulation) (f : FieldRef) (v : Value) : Bool :=
  match s.tree.slot f.owner f.index with
  | .ok slot => (s.current f slot).same (v.fit slot.width slot.signed)
  | .error _ => true

end Simulation

namespace Machine

/-- The fields that the next step may give a value, one at most, with the value. -/
def given (m : Machine) : List (FieldRef × Value) :=
  m.write?.toList ++ match m.work with
    | .propagate (f :: _) v :: _ => [(f, v)]
    | _ => []

/-- No signal gets another value as long as its change by a commit is still to be worked off. -/
def Undisturbed (m : Machine) : Prop :=
  ∀ w ∈ m.given, ∀ c ∈ m.dueChanges, c.1 = w.1 → m.sim.holds w.1 w.2 = true

instance (m : Machine) : Decidable m.Undisturbed :=
  inferInstanceAs (Decidable (∀ w ∈ m.given, _))

/-- The changes that are still to be worked off are those of different signals. -/
structure DueOnce (m : Machine) : Prop where
  signals : ∀ c ∈ m.dueChanges, ∃ slot, m.sim.tree.SignalAt c.1 slot
  once : m.dueChanges.Pairwise fun c c' => c.1 ≠ c'.1

/-- What is on record of a signal leads from a value to the one that it has, or had before its
change by a commit that is still to be worked off. -/
def OnRecord (v₀ : Value) (f : FieldRef) (slot : FieldSlot) (m : Machine) : Prop :=
  ∃ v, Replays v₀ (m.sim.history (m.sim.signalName f)) v ∧
    ((∀ c ∈ m.dueChanges, c.1 ≠ f) ∧ m.sim.current f slot = v ∨
      (f, v, m.sim.current f slot) ∈ m.dueChanges)

section Steps

variable {outer : FieldRef → Prop} {m m' : Machine} {b : Beat}

/-- What a step is to the record of changes: it changes no signal, or it changes one by a write or a
binding, or it makes a commit, or it works off a change of a commit. -/
inductive RecordStep (m m' : Machine) : Prop
  | silent (hdue : m'.dueChanges = m.dueChanges) (hr : m'.sim.recorded = m.sim.recorded)
      (hcurrent : ∀ f slot, m.sim.tree.SignalAt f slot →
        m'.sim.current f slot = m.sim.current f slot)
  | driven {f : FieldRef} {slot : FieldSlot} {v : Value} (hf : m.sim.tree.SignalAt f slot)
      (hgiven : (f, v) ∈ m.given ∨ m.dueChanges = []) (hv : m.sim.holds f v = false)
      (hdue : m'.dueChanges = m.dueChanges)
      (hr : m'.sim.recorded = m.sim.recorded ++
        [(m.sim.signalName f, m.sim.current f slot, m'.sim.current f slot)])
      (hcurrent : ∀ g slot', m.sim.tree.SignalAt g slot' → g ≠ f →
        m'.sim.current g slot' = m.sim.current g slot')
  | commit {f : FieldRef} {old new : Value} {l : List (FieldRef × Value × Value)}
      (hnone : m.dueChanges = []) (hl : m.sim.applyStaged.2 = (f, old, new) :: l)
      (hdue : m'.dueChanges = l)
      (hr : m'.sim.recorded = m.sim.recorded ++ [(m.sim.signalName f, old, new)])
      (hcurrent : ∀ g slot, m'.sim.current g slot = m.sim.applyStaged.1.current g slot)
  | change {f : FieldRef} {old new : Value} (hdue : m.dueChanges = (f, old, new) :: m'.dueChanges)
      (hr : m'.sim.recorded = m.sim.recorded ++ [(m.sim.signalName f, old, new)])
      (hcurrent : ∀ g slot, m'.sim.current g slot = m.sim.current g slot)

theorem RecordStep.of_agrees (hs : m.sim.Agrees m'.sim) (hdue : m'.dueChanges = m.dueChanges) :
    RecordStep m m' :=
  .silent hdue hs.recorded fun f slot _ => Simulation.current_congr hs.signals f slot

theorem Drives.given {f : FieldRef} {v : Value} {base : List Frame} (h : Drives outer m f v base) :
    (f, v) ∈ m.given ∨ m.dueChanges = [] := by
  cases h with
  | write hslot hw =>
      rcases hw with hw | ⟨-, hwork⟩
      · exact .inl (by simp [Machine.given, hw])
      · exact .inr (by rw [dueChanges, hwork]; rfl)
  | pass hm => exact .inl (by simp [Machine.given, hm])

theorem WorkStep.recordStep (h : WorkStep outer m b m') (ha : Addressed m)
    (htracing : m.sim.tracing = .memory) : RecordStep m m' := by
  have happlied : ∀ f old new, (m.sim.applyStaged.1.changed f old new).recorded =
      m.sim.recorded ++ [(m.sim.signalName f, old, new)] := by
    intro f old new
    obtain ⟨signals, heq⟩ := m.sim.applyStaged_eq
    rw [heq]
    exact Simulation.recorded_changed (s := { m.sim with signals := signals }) htracing f old new
  cases h with
  | still hwork hs => exact .of_agrees hs (dueChanges_of_work hwork)
  | stage hslot hw hmode hwork hs =>
      refine .silent (dueChanges_of_work hwork) hs.recorded fun f slot _ => ?_
      rw [Simulation.current_congr hs.signals]
      exact Simulation.Coherent.current_stage _ _ _ _ _ _
  | same hd hslot hv hwork hs =>
      refine .of_agrees hs ?_
      rw [dueChanges, hwork, hd.due.1]
  | @changed _ f slot v base hd hslot hv hwork hs =>
      have hf := ha.drives hd hslot
      have hcurrent : ∀ g slot', m.sim.tree.SignalAt g slot' → m'.sim.current g slot' =
          if g = f then v.fit slot.width slot.signed else m.sim.current g slot' := by
        intro g slot' hg
        rw [Simulation.current_congr (hs.signals.trans (Simulation.signals_changed _ _ _ _)),
          ha.coherent.current_withValue hslot hg.1]
      refine .driven hf hd.given ?_ ?_ ?_ ?_
      · rw [Simulation.holds, hslot]
        exact hv
      · rw [dueChanges, hwork, ← hd.due.1]
        rfl
      · rw [hcurrent f slot hf, if_pos rfl, hs.recorded]
        exact Simulation.recorded_changed (s := m.sim.withValue f slot _) htracing _ _ _
      · intro g slot' hg hne
        rw [hcurrent g slot' hg, if_neg hne]
  | spent hm hg hwork hs =>
      refine .of_agrees hs ?_
      rw [dueChanges, dueChanges, hm, hwork, List.flatMap_cons, (due_of_isSpent hg).1]
      rfl
  | comb hm hwork hs =>
      refine .of_agrees hs ?_
      rcases hwork with hwork | ⟨d, hwork⟩ <;> rw [dueChanges, dueChanges, hm, hwork] <;> rfl
  | all hm hwork hs =>
      refine .of_agrees hs ?_
      rcases hwork with hwork | ⟨l, hwork | ⟨q, d, hwork⟩⟩ <;>
        rw [dueChanges, dueChanges, hm, hwork] <;> rfl
  | settle hm hwork hs =>
      refine .of_agrees hs ?_
      rw [dueChanges, dueChanges, hm, hwork]
      rfl
  | round hm hwork hs =>
      refine .silent ?_ hs.recorded fun f slot _ => Simulation.current_congr hs.signals f slot
      rw [dueChanges, dueChanges, hwork]
      rcases hm with hm | hm <;> rw [hm] <;> cases m.sim.pending <;> rfl
  | sync hm hwork hs =>
      refine .of_agrees hs ?_
      rw [dueChanges, dueChanges, hm, hwork]
      rfl
  | unchanged hm hl hwork hs =>
      obtain ⟨signals, heq⟩ := m.sim.applyStaged_eq
      refine .silent ?_ ?_ fun f slot hf => ?_
      · rw [dueChanges, dueChanges, hm, hwork]
        rfl
      · rw [hs.recorded, heq]
        rfl
      · rw [Simulation.current_congr hs.signals]
        exact ha.coherent.current_applyStaged_of_not_mem hf (by simp [hl])
  | commit hm hl hwork hs =>
      refine .commit ?_ hl ?_ ?_ ?_
      · rw [dueChanges, hm]
        rfl
      · rw [dueChanges, hwork]
        simp [Frame.dueChanges]
      · rw [hs.recorded, happlied]
      · exact Simulation.current_congr (hs.signals.trans (Simulation.signals_changed _ _ _ _))
  | @change _ f old new l hm hwork hs =>
      refine @RecordStep.change _ _ f old new ?_ ?_ ?_
      · rw [dueChanges, dueChanges, hm, hwork]
        simp [Frame.dueChanges]
      · rw [hs.recorded]
        exact Simulation.recorded_changed htracing f old new
      · exact Simulation.current_congr (hs.signals.trans (Simulation.signals_changed _ _ _ _))

theorem RecordStep.dueOnce (h : RecordStep m m') (ht : m'.sim.tree = m.sim.tree)
    (ha : Addressed m) (hd : DueOnce m) : DueOnce m' := by
  cases h with
  | silent hdue | driven _ _ _ hdue =>
      exact ⟨by rw [hdue, ht]; exact hd.signals, by rw [hdue]; exact hd.once⟩
  | @commit f old new l _ hl hdue =>
      have honce := ha.coherent.pairwise_changes_applyStaged
      rw [hl] at honce
      refine ⟨fun c hc => ?_, ?_⟩
      · rw [hdue] at hc
        have hmem : (c.1, c.2.1, c.2.2) ∈ m.sim.applyStaged.2 := by
          rw [hl]
          exact List.mem_cons_of_mem _ hc
        obtain ⟨slot, hslot, -⟩ := ha.coherent.mem_changes_applyStaged.mp hmem
        exact ⟨slot, by rwa [ht]⟩
      · rw [hdue]
        exact honce.tail
  | change hdue =>
      refine ⟨fun c hc => ?_, ?_⟩
      · rw [ht]
        exact hd.signals c (by rw [hdue]; exact List.mem_cons_of_mem _ hc)
      · have honce := hd.once
        rw [hdue] at honce
        exact honce.tail

variable {v₀ : Value} {f : FieldRef} {slot : FieldSlot}

theorem OnRecord.work_off {g : FieldRef} {old new : Value}
    {l : List (FieldRef × Value × Value)} {s : Simulation}
    (hr : ∃ v, Replays v₀ (s.history (s.signalName f)) v ∧
      ((∀ c ∈ (g, old, new) :: l, c.1 ≠ f) ∧ m'.sim.current f slot = v ∨
        (f, v, m'.sim.current f slot) ∈ (g, old, new) :: l))
    (ht : m'.sim.tree = s.tree) (hother : s.signalName g = s.signalName f → g = f)
    (honce : ((g, old, new) :: l).Pairwise fun c c' => c.1 ≠ c'.1)
    (hrecorded : m'.sim.recorded = s.recorded ++ [(s.signalName g, old, new)])
    (hdue : m'.dueChanges = l) : OnRecord v₀ f slot m' := by
  have hname : m'.sim.signalName f = s.signalName f := by
    simp only [Simulation.signalName, Simulation.fieldName, ht]
  obtain ⟨hfirst, -⟩ := List.pairwise_cons.mp honce
  obtain ⟨v, hv, hcase⟩ := hr
  by_cases hg : g = f
  · subst hg
    rcases hcase with ⟨hnone, -⟩ | hmem
    · exact absurd rfl (hnone _ List.mem_cons_self)
    · rcases List.mem_cons.mp hmem with heq | hmem
      · injection heq with _ heq
        injection heq with hold hnew
        refine ⟨new, ?_, .inl ⟨?_, hnew⟩⟩
        · rw [hname, Simulation.history_append hrecorded]
          exact (hold ▸ hv).snoc new
        · rw [hdue]
          exact fun c hc heq => hfirst c hc heq.symm
      · exact (hfirst (g, v, m'.sim.current g slot) hmem rfl).elim
  · refine ⟨v, ?_, ?_⟩
    · rw [hname, Simulation.history_append_of_ne hrecorded fun heq => hg (hother heq)]
      exact hv
    · rw [hdue]
      rcases hcase with ⟨hnone, hcurrent⟩ | hmem
      · exact .inl ⟨fun c hc => hnone c (List.mem_cons_of_mem _ hc), hcurrent⟩
      · rcases List.mem_cons.mp hmem with heq | hmem
        · injection heq with heq
          exact absurd heq.symm hg
        · exact .inr hmem

/-- What is on record of a signal leads to its value after every step that does not disturb the
changes of a commit, if no other signal has its name. -/
theorem RecordStep.onRecord (h : RecordStep m m') (ht : m'.sim.tree = m.sim.tree)
    (ha : Addressed m) (hd : DueOnce m) (hq : m.Undisturbed) (hf : m.sim.tree.SignalAt f slot)
    (hunique : ∀ g slot', m.sim.tree.SignalAt g slot' →
      m.sim.signalName g = m.sim.signalName f → g = f)
    (hr : OnRecord v₀ f slot m) : OnRecord v₀ f slot m' := by
  have hname : m'.sim.signalName f = m.sim.signalName f := by
    simp only [Simulation.signalName, Simulation.fieldName, ht]
  cases h with
  | silent hdue hrecorded hcurrent =>
      obtain ⟨v, hv, hcase⟩ := hr
      refine ⟨v, ?_, ?_⟩
      · rw [hname, Simulation.history_congr hrecorded]
        exact hv
      · rw [hdue, hcurrent f slot hf]
        exact hcase
  | @driven g slot' w hg hgiven hw hdue hrecorded hcurrent =>
      obtain ⟨v, hv, hcase⟩ := hr
      by_cases hgf : g = f
      · subst hgf
        obtain rfl := hf.unique hg
        have hnone : ∀ c ∈ m.dueChanges, c.1 ≠ g := by
          intro c hc heq
          rcases hgiven with hgiven | hnil
          · rw [hq _ hgiven c hc heq] at hw
            cases hw
          · rw [hnil] at hc
            cases hc
        rcases hcase with ⟨-, hcase⟩ | hmem
        · refine ⟨_, ?_, .inl ⟨by rwa [hdue], rfl⟩⟩
          rw [hname, Simulation.history_append hrecorded]
          exact (hcase ▸ hv).snoc _
        · exact absurd rfl (hnone _ hmem)
      · refine ⟨v, ?_, ?_⟩
        · rw [hname, Simulation.history_append_of_ne hrecorded
            fun heq => hgf (hunique g slot' hg heq)]
          exact hv
        · rw [hdue, hcurrent f slot hf fun heq => hgf heq.symm]
          exact hcase
  | @commit g old new l hnone hl hdue hrecorded hcurrent =>
      have hsignal : ∀ c ∈ (g, old, new) :: l, ∃ slot', m.sim.tree.SignalAt c.1 slot' ∧
          c.2.1 = m.sim.current c.1 slot' := by
        intro c hc
        rw [← hl] at hc
        obtain ⟨slot', hslot, -, hold, -⟩ := ha.coherent.mem_changes_applyStaged.mp hc
        exact ⟨slot', hslot, hold⟩
      obtain ⟨slot', hg, -⟩ := hsignal _ List.mem_cons_self
      refine .work_off ?_ ht (hunique g slot' hg) (hl ▸ ha.coherent.pairwise_changes_applyStaged)
        hrecorded hdue
      obtain ⟨v, hv, ⟨-, hcase⟩ | hmem⟩ := hr
      · refine ⟨v, hv, ?_⟩
        rw [hcurrent]
        by_cases hmem : ∃ c ∈ (g, old, new) :: l, c.1 = f
        · obtain ⟨⟨f, o, n⟩, hc, rfl⟩ := hmem
          obtain ⟨slot₁, hslot₁, hold⟩ := hsignal _ hc
          obtain rfl := hf.unique hslot₁
          rw [ha.coherent.current_applyStaged_of_mem hf (hl ▸ hc), ← hcase, ← hold]
          exact .inr hc
        · have hother : ∀ c ∈ (g, old, new) :: l, c.1 ≠ f := fun c hc heq => hmem ⟨c, hc, heq⟩
          rw [ha.coherent.current_applyStaged_of_not_mem hf (hl ▸ hother)]
          exact .inl ⟨hother, hcase⟩
      · rw [hnone] at hmem
        cases hmem
  | @change g old new hdue hrecorded hcurrent =>
      obtain ⟨slot', hg⟩ := hd.signals (g, old, new) (by rw [hdue]; exact List.mem_cons_self)
      refine .work_off ?_ ht (hunique g slot' hg) (hdue ▸ hd.once) hrecorded rfl
      rw [hcurrent, ← hdue]
      exact hr

end Steps

end Machine

end Clockwork
