import Clockwork.Proofs.Machine.Work

namespace Clockwork

namespace Simulation

variable (s : Simulation) (f : FieldRef) (old new : Value)

theorem tree_changed : (s.changed f old new).tree = s.tree := by
  obtain ⟨p, c, l, h⟩ := s.changed_eq f old new
  rw [h]

theorem wiring_changed : (s.changed f old new).wiring = s.wiring := by
  obtain ⟨p, c, l, h⟩ := s.changed_eq f old new
  rw [h]

theorem signals_changed : (s.changed f old new).signals = s.signals := by
  obtain ⟨p, c, l, h⟩ := s.changed_eq f old new
  rw [h]

end Simulation

namespace Machine

/-- What is under way concerns signals only. -/
structure Addressed (m : Machine) : Prop where
  coherent : m.sim.Coherent
  bound : ∀ d, ∀ f ∈ m.sim.tree.targets d, ∃ slot, m.sim.tree.SignalAt f slot
  passed : ∀ fs v, Frame.propagate fs v ∈ m.work → ∀ f ∈ fs, ∃ slot, m.sim.tree.SignalAt f slot

namespace Addressed

variable {m m' : Machine}

theorem of_agrees (h : Addressed m) {s : Simulation} (hs : s.Agrees m'.sim)
    (hcoherent : s.Coherent) (htree : s.tree = m.sim.tree)
    (hpassed : ∀ fs v, Frame.propagate fs v ∈ m'.work → ∀ f ∈ fs,
      ∃ slot, m.sim.tree.SignalAt f slot) : Addressed m' := by
  refine ⟨hcoherent.congr hs.tree hs.signals, ?_, ?_⟩
  · rw [hs.tree, htree]
    exact h.bound
  · rw [hs.tree, htree]
    exact hpassed

theorem drives {outer : FieldRef → Prop} (h : Addressed m) {f : FieldRef} {v : Value}
    {base : List Frame} (hd : Drives outer m f v base) {slot : FieldSlot}
    (hslot : m.sim.tree.slot f.owner f.index = .ok slot) : m.sim.tree.SignalAt f slot := by
  obtain ⟨slot', hs⟩ : ∃ slot', m.sim.tree.SignalAt f slot' := by
    cases hd with
    | write hs _ => exact ⟨_, hs⟩
    | @pass fs _ hm => exact h.passed (f :: fs) v (by simp [hm]) f (by simp)
  have heq := hs.1.symm.trans hslot
  cases heq
  exact hs

theorem passed_base {outer : FieldRef → Prop} (h : Addressed m) {f : FieldRef} {v : Value}
    {base : List Frame} (hd : Drives outer m f v base) :
    ∀ fs w, Frame.propagate fs w ∈ base → ∀ g ∈ fs, ∃ slot, m.sim.tree.SignalAt g slot := by
  intro fs w hmem
  cases hd with
  | write _ _ => exact h.passed fs w (by simpa using hmem)
  | @pass fs' rest hm =>
      rcases List.mem_cons.mp hmem with heq | hmem
      · cases heq
        intro g hg
        exact h.passed (f :: fs) v (by simp [hm]) g (by simp [hg])
      · exact h.passed fs w (by simp [hm, hmem])

end Addressed

variable {outer : FieldRef → Prop} {m m' : Machine} {b : Beat}

/-- What is under way goes on to concern signals. -/
theorem WorkStep.addressed (h : WorkStep outer m b m') (ha : Addressed m) : Addressed m' := by
  have fresh : ∀ {d w} {rest : List Frame}, (∀ fs v, Frame.propagate fs v ∈ rest → ∀ f ∈ fs,
      ∃ slot, m.sim.tree.SignalAt f slot) → ∀ fs v,
        Frame.propagate fs v ∈ Frame.propagate (m.sim.tree.targets d) w :: rest → ∀ f ∈ fs,
          ∃ slot, m.sim.tree.SignalAt f slot := by
    intro d w rest hrest fs v hmem
    rcases List.mem_cons.mp hmem with heq | hmem
    · cases heq
      exact ha.bound d
    · exact hrest fs v hmem
  cases h with
  | still hwork hs => exact ha.of_agrees hs ha.coherent rfl (by rw [hwork]; exact ha.passed)
  | stage hslot hw hmode hwork hs =>
      exact ha.of_agrees hs (ha.coherent.stage hslot _) rfl (by rw [hwork]; exact ha.passed)
  | same hd hslot hv hwork hs =>
      exact ha.of_agrees hs ha.coherent rfl (by rw [hwork]; exact ha.passed_base hd)
  | @changed _ f slot v base hd hslot hv hwork hs =>
      refine ha.of_agrees hs ?_ ?_ ?_
      · exact (ha.coherent.withValue f slot _).congr (Simulation.tree_changed _ _ _ _)
          (Simulation.signals_changed _ _ _ _)
      · exact Simulation.tree_changed _ _ _ _
      · rw [hwork]
        exact fresh (by simpa using ha.passed_base hd)
  | spent hm hg hwork hs =>
      refine ha.of_agrees hs ha.coherent rfl fun fs v hmem => ha.passed fs v ?_
      rw [hm]
      rw [hwork] at hmem
      exact List.mem_cons_of_mem _ hmem
  | comb hm hwork hs =>
      refine ha.of_agrees hs ha.coherent rfl fun fs v hmem => ha.passed fs v ?_
      rw [hm]
      rcases hwork with hwork | ⟨d, hwork⟩ <;> simpa [hwork] using hmem
  | all hm hwork hs =>
      refine ha.of_agrees hs ha.coherent rfl fun fs v hmem => ?_
      rcases hwork with hwork | ⟨l, hwork | ⟨p, d, hwork⟩⟩ <;> simp [hwork] at hmem
  | settle hm hwork hs =>
      exact ha.of_agrees hs ha.coherent rfl (by simp [hwork])
  | round hm hwork hs =>
      refine ha.of_agrees hs (ha.coherent.congr rfl rfl) rfl ?_
      rw [hwork]
      cases m.sim.pending <;> simp [syncsAfter]
  | sync hm hwork hs => exact ha.of_agrees hs ha.coherent rfl (by simp [hwork])
  | unchanged hm hl hwork hs =>
      obtain ⟨signals, heq⟩ := m.sim.applyStaged_eq
      exact ha.of_agrees hs ha.coherent.applyStaged (by rw [heq]) (by simp [hwork])
  | commit hm hl hwork hs =>
      obtain ⟨signals, heq⟩ := m.sim.applyStaged_eq
      refine ha.of_agrees hs ?_ ?_ ?_
      · exact ha.coherent.applyStaged.congr (Simulation.tree_changed _ _ _ _)
          (Simulation.signals_changed _ _ _ _)
      · rw [Simulation.tree_changed, heq]
      · rw [hwork]
        exact fresh (by simp)
  | change hm hwork hs =>
      refine ha.of_agrees hs ?_ ?_ ?_
      · exact ha.coherent.congr (Simulation.tree_changed _ _ _ _)
          (Simulation.signals_changed _ _ _ _)
      · exact Simulation.tree_changed _ _ _ _
      · rw [hwork]
        exact fresh (by simp)

end Machine

end Clockwork
