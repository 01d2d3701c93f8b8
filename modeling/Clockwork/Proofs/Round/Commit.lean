import Clockwork.Proofs.Machine.Bindings
import Clockwork.Proofs.Machine.Updates

namespace Clockwork

def Frame.spreads : Frame → Bool
  | .propagate _ _ | .combs _ | .combOver _ _ | .driven | .changes _ => true
  | _ => false

namespace Machine

/-- A field is given a value next: by a write, or since it follows another field. -/
def Gives (m : Machine) (f : FieldRef) : Prop :=
  (∃ v, m.write? = some (f, v)) ∨ ∃ fs v rest, m.work = .propagate (f :: fs) v :: rest

theorem Drives.gives {m : Machine} {f : FieldRef} {v : Value} {base : List Frame}
    (h : Drives (fun _ => False) m f v base) : m.Gives f := by
  cases h with
  | write _ hw => exact .inl ⟨v, hw.resolve_right fun h => h.1⟩
  | pass hm => exact .inr ⟨_, v, _, hm⟩

section Commit

variable {waker : Waker} {m m' : Machine}

theorem LayeredStack.round_head {l rest : List Frame} (h : LayeredStack l)
    (hw : l.filter Frame.isWork = .round :: rest) : ∃ below, l = .round :: below := by
  induction l with
  | nil => cases hw
  | cons f l ih =>
      obtain ⟨hf, hl⟩ := h
      cases hwork : f.isWork with
      | true =>
          rw [List.filter_cons_of_pos hwork] at hw
          cases hw
          exact ⟨l, rfl⟩
      | false =>
          rw [List.filter_cons_of_neg (by simp [hwork])] at hw
          obtain ⟨below, rfl⟩ := ih hl hw
          by_cases hend : ∃ name caller, f = .boundary name caller
          · obtain ⟨name, caller, rfl⟩ := hend
            obtain ⟨-, hb | ⟨_, _, _, hb⟩ | ⟨_, _, hb⟩⟩ := hf <;> cases hb
          · cases onBody_of_liesOn hf hwork fun name caller heq => hend ⟨name, caller, heq⟩

/-- What holds after the commit as long as its changes are worked off. -/
structure Settling (W : FieldRef → FieldSlot → Value → Prop) (m : Machine) : Prop where
  work : ∃ x, m.work = x ++ [.round, .settled] ∧ ∀ g ∈ x, g.spreads = true
  staged : m.sim.hasStaged = false
  values : ∀ f slot v, W f slot v →
    m.sim.tree.SignalAt f slot ∧ (m.sim.current f slot).same v = true

variable {W : FieldRef → FieldSlot → Value → Prop}

theorem Settling.of_agrees {s : Simulation} (hs : s.Agrees m.sim) (hstaged : s.hasStaged = false)
    (hvalues : ∀ f slot v, W f slot v →
      s.tree.SignalAt f slot ∧ (s.current f slot).same v = true)
    (hwork : ∃ x, m.work = x ++ [.round, .settled] ∧ ∀ g ∈ x, g.spreads = true) :
    Settling W m := by
  refine ⟨hwork, ?_, ?_⟩
  · exact (Simulation.hasStaged_congr hs.signals).trans hstaged
  · intro f slot v hW
    rw [hs.tree, Simulation.current_congr hs.signals]
    exact hvalues f slot v hW

theorem Settling.of_changed {s : Simulation} {f : FieldRef} {old new : Value}
    (hs : (s.changed f old new).Agrees m.sim) (hstaged : s.hasStaged = false)
    (hvalues : ∀ f slot v, W f slot v →
      s.tree.SignalAt f slot ∧ (s.current f slot).same v = true)
    (hwork : ∃ x, m.work = x ++ [.round, .settled] ∧ ∀ g ∈ x, g.spreads = true) :
    Settling W m := by
  refine .of_agrees hs ?_ ?_ hwork
  · exact (Simulation.hasStaged_congr (Simulation.signals_changed _ _ _ _)).trans hstaged
  · intro g slot v hW
    rw [Simulation.tree_changed, Simulation.current_congr (Simulation.signals_changed _ _ _ _)]
    exact hvalues g slot v hW

theorem Layered.mode_of_write (h : Layered m) {f : FieldRef} {v : Value}
    (hw : m.write? = some (f, v)) : m.activation.mode = modeAt m.stack := by
  rcases h.mode with hmode | ⟨-, name, caller, rest, hs⟩
  · exact hmode
  · obtain ⟨c, a, stack, s⟩ := m
    cases hs
    rw [write?_of_boundary] at hw
    cases hw

theorem Settling.step (h : Settling W m) (hl : Layered m) (hs : m.sim.Coherent)
    (hround : ¬ m.BeforeRound) (hgives : ∀ f, m.Gives f → ∀ slot v, ¬ W f slot v)
    (hstep : m.step waker = .go m') (hok : m'.fault? = none) : Settling W m' := by
  obtain ⟨x, hx, hspreads⟩ := h.work
  have hne : x ≠ [] := by
    rintro rfl
    exact hround (hl.stack.round_head hx)
  have same : ∀ {m'}, m.sim.Agrees m'.sim →
      (∃ x, m'.work = x ++ [.round, .settled] ∧ ∀ g ∈ x, g.spreads = true) → Settling W m' :=
    fun hsim hwork => .of_agrees hsim h.staged h.values hwork
  -- What a field that is driven adds to the frames.
  have base : ∀ {f v l}, Drives (fun _ => False) m f v l →
      ∃ x, l = x ++ [.round, .settled] ∧ ∀ g ∈ x, g.spreads = true := by
    intro f v l hd
    cases hd with
    | write _ _ =>
        refine ⟨.driven :: x, by rw [hx]; rfl, ?_⟩
        simpa [Frame.spreads] using hspreads
    | pass hm =>
        rw [hx] at hm
        cases x with
        | nil => exact absurd rfl hne
        | cons g x =>
            cases hm
            refine ⟨_ :: x, rfl, ?_⟩
            simpa [Frame.spreads] using fun g hg => hspreads g (by simp [hg])
  have hwork : WorkStep (fun _ => False) m m.beat m' := hl.workStep hstep (fault?_eq_none hok)
  generalize m.beat = b at hwork
  cases hwork with
  | still hwork hsim => exact same hsim ⟨x, hwork.trans hx, hspreads⟩
  | stage hslot hw hmode hwork hsim =>
      have hmodeAt := (hl.mode_of_write hw).symm.trans hmode
      obtain ⟨-, ps, hps⟩ := hl.stack.of_staged hmodeAt
      have hmem : Frame.syncs ps ∈ m.work := List.mem_filter.mpr ⟨hps, rfl⟩
      rw [hx] at hmem
      rcases List.mem_append.mp hmem with hmem | hmem
      · cases hspreads _ hmem
      · simp at hmem
  | same hd hslot hv hwork hsim => exact same hsim (by rw [hwork]; exact base hd)
  | @changed _ f slot v l hd hslot hv hwork hsim =>
      refine .of_changed hsim ?_ ?_ ?_
      · exact h.staged
      · intro g slot' w hW
        obtain ⟨hg, hsame⟩ := h.values g slot' w hW
        have hgf : g ≠ f := by
          rintro rfl
          exact hgives g hd.gives slot' w hW
        rw [hs.current_withValue hslot hg.1, if_neg hgf]
        exact ⟨hg, hsame⟩
      · obtain ⟨y, hy, hyspreads⟩ := base hd
        refine ⟨.propagate _ _ :: .combs _ :: y, by rw [hwork, hy]; rfl, ?_⟩
        simpa [Frame.spreads] using hyspreads
  | @spent _ g rest hm hg hwork hsim =>
      rw [hx] at hm
      cases x with
      | nil => exact absurd rfl hne
      | cons g' x =>
          cases hm
          exact same hsim ⟨x, hwork, fun g hg => hspreads g (by simp [hg])⟩
  | @comb _ p l rest hm hwork hsim =>
      rw [hx] at hm
      cases x with
      | nil => exact absurd rfl hne
      | cons g' x =>
          cases hm
          have hxs : ∀ g ∈ x, g.spreads = true := fun g hg => hspreads g (by simp [hg])
          rcases hwork with hwork | ⟨d, hwork⟩
          · refine same hsim ⟨.combs l :: x, hwork, ?_⟩
            simpa [Frame.spreads] using hxs
          · refine same hsim ⟨.combOver p d :: .combs l :: x, hwork, ?_⟩
            simpa [Frame.spreads] using hxs
  | change hm hwork hsim =>
      refine .of_changed hsim h.staged h.values ⟨[.propagate _ _, .combs _, .changes _], hwork, ?_⟩
      simp [Frame.spreads]
  | all hm | settle hm =>
      rw [hx] at hm
      have hlength := congrArg List.length hm
      simp at hlength
  | @sync _ p l hm =>
      rw [hx] at hm
      have heq := @List.append_cancel_right _ x _ [.syncs (p :: l), .commit] hm
      cases hspreads (.syncs (p :: l)) (by simp [heq])
  | unchanged hm | commit hm =>
      rw [hx] at hm
      have heq := @List.append_cancel_right _ x _ [.commit] hm
      cases hspreads .commit (by simp [heq])
  | round hm =>
      rcases hm with hm | hm <;> rw [hx] at hm
      · exact absurd (@List.append_cancel_right _ x _ [] hm) hne
      · have hlength := congrArg List.length hm
        simp at hlength

theorem same_applyStaged {s : Simulation} (hs : s.Coherent) {f : FieldRef} {slot : FieldSlot}
    {v : Value} (hv : s.staged? f slot = some v) :
    (s.applyStaged.1.current f slot).same v = true := by
  rw [hs.current_applyStaged, hv]
  dsimp only
  split
  · assumption
  · exact v.same_refl

theorem Settling.of_commit {v : Value} {rest : List Frame} (hc : m.control = .done (.value v))
    (hm : m.stack = .commit :: rest) (hl : Layered m) (hs : m.sim.Coherent)
    (hW : ∀ f slot v, W f slot v → m.sim.tree.SignalAt f slot ∧ m.sim.staged? f slot = some v)
    (hstep : m.step waker = .go m') : Settling W m' := by
  have hstack := hl.stack
  rw [hm] at hstack
  have htree : m.sim.applyStaged.1.tree = m.sim.tree := by
    obtain ⟨signals, heq⟩ := m.sim.applyStaged_eq
    rw [heq]
  have hvalues : ∀ f slot v, W f slot v → m.sim.applyStaged.1.tree.SignalAt f slot ∧
      (m.sim.applyStaged.1.current f slot).same v = true := by
    intro f slot v hv
    obtain ⟨hslot, hstaged⟩ := hW f slot v hv
    rw [htree]
    exact ⟨hslot, same_applyStaged hs hstaged⟩
  rw [step_done hc hm] at hstep
  cases hstep
  let m₁ : Machine := { m with stack := rest, sim := m.sim.applyStaged.1 }
  have hbase : m₁.work = [.round, .settled] := hstack.work_commit (.inl rfl)
  change Settling W (m₁.workOff m.sim.applyStaged.2)
  rcases m.sim.applyStaged.2 with _ | ⟨⟨g, old, new⟩, l⟩
  · exact .of_agrees (.refl _) m.sim.hasStaged_applyStaged hvalues ⟨[], hbase, by simp⟩
  · obtain ⟨hwork, hsim⟩ := workOff_work m₁ g old new l
    rw [hbase] at hwork
    exact .of_changed hsim m.sim.hasStaged_applyStaged hvalues
      ⟨[.propagate _ _, .combs _, .changes _], hwork, by simp [Frame.spreads]⟩

/-- The changes of a commit are worked off without a fault: nothing is staged before the next round,
and what is given no other value has kept the one of the commit. -/
theorem Leads.settling (h : Leads waker (fun m => ¬ m.BeforeRound) m m') (hl : Layered m)
    (hs : m.sim.Orderly) (hm : Settling W m)
    (hW : ∀ m₁, Leads waker (fun m => ¬ m.BeforeRound) m m₁ → ∀ f, m₁.Gives f →
      ∀ slot v, ¬ W f slot v) (hok : m'.fault? = none) :
    Settling W m' ∧ Layered m' ∧ m'.sim.Orderly := by
  induction h with
  | here => exact ⟨hm, hl, hs⟩
  | @step m₁ m₂ h hround hstep ih =>
      obtain ⟨hm₁, hl₁, hs₁⟩ := ih (fault?_of_step hstep hok)
      exact ⟨hm₁.step hl₁ hs₁.toCoherent hround (hW m₁ h) hstep hok, (hl₁.step hstep).1,
        step_orderly hs₁ hstep⟩

/-- A machine comes to where the next round is about to begin. -/
structure Arrives (waker : Waker) (m m' : Machine) : Prop where
  leads : Leads waker (fun m => ¬ m.BeforeRound) m m'
  round : m'.BeforeRound

theorem Arrives.tail (h : Arrives waker m m') {m₁ : Machine}
    (h₁ : Leads waker (fun m => ¬ m.BeforeRound) m m₁) : Arrives waker m₁ m' :=
  ⟨h₁.last h.leads (not_not_intro h.round), h.round⟩

theorem Arrives.cons {m₁ : Machine} (h : Leads waker (fun m => ¬ m.BeforeRound) m m₁)
    (h₁ : Arrives waker m₁ m') : Arrives waker m m' :=
  ⟨h.trans h₁.leads, h₁.round⟩

/-- When the next round is about to begin, the commit of the last one has left nothing staged, and
every signal that was given no value since has the one that was staged for it. -/
theorem Arrives.committed (h : Arrives waker m m') {v : Value} {rest : List Frame}
    (hc : m.control = .done (.value v)) (hm : m.stack = .commit :: rest) (hl : Layered m)
    (hs : m.sim.Orderly) (hok : m'.fault? = none) :
    m'.sim.hasStaged = false ∧ ∀ f slot v, m.sim.tree.SignalAt f slot →
      m.sim.staged? f slot = some v →
        (∀ m₁, Leads waker (fun m => ¬ m.BeforeRound) m m₁ → ¬ m₁.Gives f) →
          (m'.sim.current f slot).same v = true := by
  have hround : ¬ m.BeforeRound := by
    rintro ⟨below, hbelow⟩
    rw [hm] at hbelow
    cases hbelow
  rcases h.leads.head with rfl | ⟨-, m₁, hstep, hleads⟩
  · exact absurd h.round hround
  · let W : FieldRef → FieldSlot → Value → Prop := fun f slot v =>
      m.sim.tree.SignalAt f slot ∧ m.sim.staged? f slot = some v ∧
        ∀ m₁, Leads waker (fun m => ¬ m.BeforeRound) m m₁ → ¬ m₁.Gives f
    have hm₁ : Settling W m₁ :=
      .of_commit hc hm hl hs.toCoherent (fun f slot v hW => ⟨hW.1, hW.2.1⟩) hstep
    have hfirst : Leads waker (fun m => ¬ m.BeforeRound) m m₁ := .step .here hround hstep
    obtain ⟨hm', -, -⟩ := hleads.settling (hl.step hstep).1 (step_orderly hs hstep) hm₁
      (fun m₂ h₂ f hgives slot v hW => hW.2.2 m₂ (hfirst.trans h₂) hgives) hok
    exact ⟨hm'.staged, fun f slot v hslot hv hgives => (hm'.values f slot v ⟨hslot, hv, hgives⟩).2⟩

end Commit

end Machine

end Clockwork
