import Clockwork.Proofs.Machine.Underway
import Clockwork.Proofs.Number.Fit
import Clockwork.Proofs.Round.Batch
import Clockwork.Proofs.Values
/-!
What one step can do to the signals, faults or not: a body stages a value for a signal, a signal
takes a value as far as it fits, a commit makes what is staged current, or what is staged is
dropped. All this keeps the tables of the simulation in order.
-/

namespace Clockwork

namespace Simulation

/-- Staged values are those of signals, and all tables stand in order. -/
structure Orderly (s : Simulation) : Prop extends Coherent s where
  paused : s.paused.Sorted

namespace Orderly

variable {s s' : Simulation}

theorem ordered (h : s.Orderly) : s.Ordered := ⟨h.sorted, h.paused⟩

theorem congr (h : s.Orderly) (ht : s'.tree = s.tree) (hs : s'.signals = s.signals)
    (hp : s'.paused = s.paused) : s'.Orderly :=
  ⟨h.toCoherent.congr ht hs, by rw [hp]; exact h.paused⟩

theorem mild (h : s.Orderly) (hs : s.Mild s') : s'.Orderly := by
  obtain ⟨-, k, o, c, l, rfl⟩ := hs
  exact h.congr rfl rfl rfl

theorem announce (h : s.Orderly) (f : FieldRef) (name : String) (old new : Value) :
    ((s.trace f name old new).noteEdge f old new).Orderly := by
  obtain ⟨p, c, l, heq⟩ := s.announce_eq f name old new
  rw [heq]
  exact h.congr rfl rfl rfl

theorem withValue (h : s.Orderly) (f : FieldRef) (slot : FieldSlot) (v : Value) :
    (s.withValue f slot v).Orderly :=
  ⟨h.toCoherent.withValue f slot v, h.paused⟩

theorem stage (h : s.Orderly) {f : FieldRef} {slot : FieldSlot} (hf : s.tree.SignalAt f slot)
    (v : Value) : (s.stage f slot v).Orderly :=
  ⟨h.toCoherent.stage hf v, h.paused⟩

theorem applyStaged (h : s.Orderly) : s.applyStaged.1.Orderly := by
  refine ⟨h.toCoherent.applyStaged, ?_⟩
  obtain ⟨signals, heq⟩ := s.applyStaged_eq
  rw [heq]
  exact h.paused

theorem discardPending (h : s.Orderly) : s.discardPending.Orderly := by
  have hnone : ∀ id, (s.discardPending.signalsOf id).staged = .empty := by
    intro id
    rw [signalsOf_discardPending]
    rfl
  refine ⟨⟨h.tree, ?_, ?_, ?_⟩, h.paused⟩
  · exact s.size_discardPending.trans h.size
  · intro id
    rw [hnone]
    exact Table.sorted_empty
  · intro id key v hv
    rw [hnone] at hv
    cases hv

theorem pauses (h : s.Orderly) {l : List Mark} (hl : ∀ k ∈ l, ∃ p, k.place = .inr p) :
    (s.marks l).Orderly :=
  ⟨h.toCoherent.congr (s.tree_marks l) (signals_marks hl s), (h.ordered.marks l).paused⟩

end Orderly

/-- At most one of a few changes of the signals. -/
inductive Updates (s s' : Simulation) : Prop
  | same (ht : s'.tree = s.tree) (hs : s'.signals = s.signals)
  | staged {f : FieldRef} {slot : FieldSlot} (hf : s.tree.SignalAt f slot) (v : Value)
      (ht : s'.tree = s.tree) (hs : s'.signals = (s.stage f slot v).signals)
  | driven {f : FieldRef} {slot : FieldSlot} (hf : s.tree.slot f.owner f.index = .ok slot)
      (v : Value) (ht : s'.tree = s.tree)
      (hs : s'.signals = (s.withValue f slot (v.fit slot.width slot.signed)).signals)
  | committed (ht : s'.tree = s.tree)
      (hs : ∀ id, s'.signalsOf id = (s.signalsOf id).apply.1)
  | dropped (ht : s'.tree = s.tree) (hs : s'.signals = s.discardPending.signals)

/-- All current and staged values are such as their signals can keep. -/
structure Filled (s : Simulation) : Prop where
  current : ∀ f slot, s.tree.SignalAt f slot →
    (s.current f slot).fit slot.width slot.signed = s.current f slot
  staged : ∀ f slot v, s.tree.SignalAt f slot → s.staged? f slot = some v →
    v.fit slot.width slot.signed = v

variable {s s₁ s' : Simulation}

namespace Updates

theorem mild (h : s.Mild s') : s.Updates s' := by
  obtain ⟨-, k, o, c, l, rfl⟩ := h
  exact .same rfl rfl

theorem after (h : s.Updates s₁) (ht : s'.tree = s₁.tree) (hs : s'.signals = s₁.signals) :
    s.Updates s' := by
  cases h with
  | same ht₁ hs₁ => exact .same (ht.trans ht₁) (hs.trans hs₁)
  | staged hf v ht₁ hs₁ => exact .staged hf v (ht.trans ht₁) (hs.trans hs₁)
  | driven hf v ht₁ hs₁ => exact .driven hf v (ht.trans ht₁) (hs.trans hs₁)
  | committed ht₁ hs₁ =>
      refine .committed (ht.trans ht₁) fun id => ?_
      rw [signalsOf, hs]
      exact hs₁ id
  | dropped ht₁ hs₁ => exact .dropped (ht.trans ht₁) (hs.trans hs₁)

theorem before (h : s₁.Updates s') (ht : s₁.tree = s.tree) (hs : s₁.signals = s.signals) :
    s.Updates s' := by
  have hof : ∀ id, s₁.signalsOf id = s.signalsOf id := fun id => by rw [signalsOf, hs, signalsOf]
  cases h with
  | same ht₁ hs₁ => exact .same (ht₁.trans ht) (hs₁.trans hs)
  | staged hf v ht₁ hs₁ =>
      rw [ht] at hf
      refine .staged hf v (ht₁.trans ht) ?_
      simpa only [stage, hs] using hs₁
  | driven hf v ht₁ hs₁ =>
      rw [ht] at hf
      refine .driven hf v (ht₁.trans ht) ?_
      simpa only [Simulation.withValue, hs] using hs₁
  | committed ht₁ hs₁ =>
      refine .committed (ht₁.trans ht) fun id => ?_
      rw [hs₁, hof]
  | dropped ht₁ hs₁ =>
      refine .dropped (ht₁.trans ht) ?_
      simpa only [discardPending, hs] using hs₁

theorem announce (h : s.Updates s₁) (f : FieldRef) (name : String) (old new : Value) :
    s.Updates ((s₁.trace f name old new).noteEdge f old new) := by
  obtain ⟨p, c, l, heq⟩ := s₁.announce_eq f name old new
  rw [heq]
  exact h.after rfl rfl

/-- Every value that comes into a signal was made to fit it. -/
theorem filled (h : s.Updates s') (hs : s.Coherent) (hf : s.Filled) : s'.Filled := by
  cases h with
  | same ht hsig =>
      refine ⟨fun g slot hg => ?_, fun g slot v hg hv => ?_⟩
      · rw [ht] at hg
        rw [current_congr hsig]
        exact hf.current g slot hg
      · rw [ht] at hg
        rw [staged?_congr hsig] at hv
        exact hf.staged g slot v hg hv
  | @staged f slot hslot v ht hsig =>
      refine ⟨fun g slot' hg => ?_, fun g slot' w hg hw => ?_⟩
      · rw [ht] at hg
        rw [current_congr hsig, Coherent.current_stage]
        exact hf.current g slot' hg
      · rw [ht] at hg
        rw [staged?_congr hsig, hs.staged?_stage hslot hg] at hw
        split at hw
        · rename_i heq
          subst heq
          obtain rfl := hslot.unique hg
          cases hw
          exact Value.fit_fit _ _ _
        · exact hf.staged g slot' w hg hw
  | @driven f slot hslot v ht hsig =>
      refine ⟨fun g slot' hg => ?_, fun g slot' w hg hw => ?_⟩
      · rw [ht] at hg
        rw [current_congr hsig, hs.current_withValue hslot hg.1]
        split
        · rename_i heq
          subst heq
          have hsame : slot = slot' := Except.ok.inj (hslot.symm.trans hg.1)
          subst hsame
          exact Value.fit_fit _ _ _
        · exact hf.current g slot' hg
      · rw [ht] at hg
        rw [staged?_congr hsig, staged?_withValue] at hw
        exact hf.staged g slot' w hg hw
  | committed ht hsig =>
      refine ⟨fun g slot hg => ?_, fun g slot v hg hv => ?_⟩
      · rw [ht] at hg
        have hcurrent : s'.current g slot = s.applyStaged.1.current g slot := by
          rw [Simulation.current, hsig, Simulation.current, signalsOf_applyStaged]
        rw [hcurrent, hs.current_applyStaged]
        cases hv : s.staged? g slot with
        | none => exact hf.current g slot hg
        | some v =>
            dsimp only
            split
            · exact hf.current g slot hg
            · exact hf.staged g slot v hg hv
      · have hnone : s'.staged? g slot = none := by
          rw [staged?, hsig, ← signalsOf_applyStaged]
          exact staged?_applyStaged s g slot
        rw [hnone] at hv
        cases hv
  | dropped ht hsig =>
      refine ⟨fun g slot hg => ?_, fun g slot v hg hv => ?_⟩
      · rw [ht] at hg
        rw [current_congr hsig, Simulation.current, signalsOf_discardPending]
        exact hf.current g slot hg
      · rw [staged?_congr hsig, staged?, signalsOf_discardPending] at hv
        cases hv

end Updates

/-- What one step does: it changes the signals in one of those ways, and keeps the tables in
order. -/
structure Alters (s s' : Simulation) : Prop where
  updates : s.Updates s'
  orderly : s.Orderly → s'.Orderly

namespace Alters

theorem same (ht : s'.tree = s.tree) (hs : s'.signals = s.signals) (hp : s'.paused = s.paused) :
    s.Alters s' := ⟨.same ht hs, fun h => h.congr ht hs hp⟩

theorem refl (s : Simulation) : s.Alters s := .same rfl rfl rfl

theorem mild (h : s.Mild s') : s.Alters s' := ⟨.mild h, fun hs => hs.mild h⟩

theorem before (h : s₁.Alters s') (ht : s₁.tree = s.tree) (hs : s₁.signals = s.signals)
    (hp : s₁.paused = s.paused) : s.Alters s' :=
  ⟨h.updates.before ht hs, fun hs₀ => h.orderly (hs₀.congr ht hs hp)⟩

theorem announce (h : s.Alters s₁) (f : FieldRef) (name : String) (old new : Value) :
    s.Alters ((s₁.trace f name old new).noteEdge f old new) :=
  ⟨h.updates.announce f name old new, fun hs => (h.orderly hs).announce f name old new⟩

theorem stage {f : FieldRef} {slot : FieldSlot} (hf : s.tree.SignalAt f slot) (v : Value) :
    s.Alters (s.stage f slot v) := ⟨.staged hf v rfl rfl, fun h => h.stage hf v⟩

theorem withValue {f : FieldRef} {slot : FieldSlot} (hf : s.tree.slot f.owner f.index = .ok slot)
    (v : Value) : s.Alters (s.withValue f slot (v.fit slot.width slot.signed)) :=
  ⟨.driven hf v rfl rfl, fun h => h.withValue f slot _⟩

theorem applyStaged (s : Simulation) : s.Alters s.applyStaged.1 := by
  obtain ⟨signals, heq⟩ := s.applyStaged_eq
  have htree : s.applyStaged.1.tree = s.tree := by rw [heq]
  exact ⟨.committed htree s.signalsOf_applyStaged, fun h => h.applyStaged⟩

theorem discardPending (s : Simulation) : s.Alters s.discardPending :=
  ⟨.dropped rfl rfl, fun h => h.discardPending⟩

theorem insertPause (s : Simulation) (p : ProcessRef) (pause : Pause) :
    s.Alters { s with paused := s.paused.insert p pause } :=
  ⟨.same rfl rfl, fun h => ⟨h.toCoherent.congr rfl rfl, h.paused.insert p pause⟩⟩

theorem pauses {l : List Mark} (hl : ∀ k ∈ l, ∃ p, k.place = .inr p) : s.Alters (s.marks l) :=
  ⟨.same (s.tree_marks l) (signals_marks hl s), fun h => h.pauses hl⟩

end Alters

end Simulation

namespace Machine

variable (m : Machine)

theorem drive_alters (f : FieldRef) (v : Value) : m.sim.Alters (m.drive f v).sim := by
  cases hslot : m.sim.tree.slot f.owner f.index with
  | error e =>
      rw [drive_error hslot]
      exact .refl _
  | ok slot =>
      cases hv : ((m.sim.signalsOf f.owner).read slot.key).same
          (v.fit slot.width slot.signed) with
      | true =>
          rw [drive_same hslot hv]
          exact .refl _
      | false =>
          rw [drive_changed hslot hv]
          exact (Simulation.Alters.withValue hslot v).announce f slot.name _ _

theorem write_alters (f : FieldRef) (v : Value) (mode : WriteMode) :
    m.sim.Alters (m.write f v mode).sim := by
  simp only [write]
  cases hslot : m.sim.tree.slot f.owner f.index with
  | error e => exact .refl _
  | ok slot =>
      dsimp only
      cases hst : slot.storage with
      | signal =>
          cases mode with
          | staged => exact .stage ⟨hslot, hst⟩ v
          | immediate =>
              exact (drive_alters { m with
                sim := { m.sim with driveDepth := m.sim.driveDepth + 1 }
                stack := .driven :: m.stack } f v).before rfl rfl rfl
      | _ => exact .refl _

theorem BodyMove.alters {mode : WriteMode} {w : Option (FieldRef × Value)} {m m' : Machine}
    (hm : BodyMove mode w m m') : m.sim.Alters m'.sim := by
  cases hm with
  | quiet c a fs s ha hf hs => exact .mild hs
  | write f v hw => exact m.write_alters f v mode
  | callback k hook hk =>
      rw [callNow_sim]
      exact .same rfl rfl rfl

theorem runCombs_alters (l : List ProcessRef) : m.sim.Alters (m.runCombs l).sim := by
  cases l with
  | nil => exact .refl _
  | cons p l =>
      change m.sim.Alters (({ m with stack := .combs l :: m.stack } : Machine).runComb p).sim
      rcases ({ m with stack := .combs l :: m.stack } : Machine).runComb_cases p with
        ⟨c, -, heq⟩ | ⟨f, -, -, heq⟩
      · rw [heq]
        exact .refl _
      · rw [heq, runBody, block_sim]
        exact .same rfl rfl rfl

theorem runSync_alters (p : ProcessRef) : m.sim.Alters (m.runSync p).sim := by
  obtain ⟨c, a, base, s⟩ := m
  rw [runSync_begun, onto_sim]
  have hcases := begun_cases a p s
  generalize begun a p s = m at hcases ⊢
  cases hcases with
  | fault e => exact .refl _
  | «over» hl => exact Simulation.Alters.pauses fun k hk => ⟨p, hl k hk⟩
  | within hl hsim hin =>
      rw [hsim]
      exact Simulation.Alters.pauses fun k hk => ⟨p, hl k hk⟩

theorem runSyncs_alters (l : List ProcessRef) : m.sim.Alters (m.runSyncs l).sim := by
  cases l with
  | nil => exact .refl _
  | cons p l => exact runSync_alters { m with stack := .syncs l :: m.stack } p

theorem syncBody_alters (p : ProcessRef) (next : Nat) (body : List Stmt) :
    m.sim.Alters (m.syncBody p next body).sim := by
  cases body with
  | nil => exact .refl _
  | cons stmt body =>
      simp only [syncBody]
      split
      · exact .insertPause _ _ _
      · exact .refl _
      · exact .refl _

theorem workOff_alters {s : Simulation} {m : Machine} (h : s.Alters m.sim)
    (l : List (FieldRef × Value × Value)) : s.Alters (m.workOff l).sim := by
  rcases l with _ | ⟨⟨f, old, new⟩, l⟩
  · exact h
  · exact h.announce f _ old new

theorem round_alters : m.sim.Alters m.round.sim := by
  cases hb : m.sim.pending.isEmpty && !m.sim.hasStaged with
  | true =>
      rw [round_over hb]
      exact .refl _
  | false =>
      rw [round_begin hb]
      exact (runSyncs_alters { m with
        sim := { m.sim with pending := [] }
        stack := .commit :: .round :: m.stack } _).before rfl rfl rfl

theorem endDrive_alters (c : Completion) : m.sim.Alters (m.endDrive c).sim := by
  by_cases hin : 0 < m.undriven.sim.driveDepth
  · rw [endDrive_inner c hin]
    exact .same rfl rfl rfl
  · cases c with
    | failed e =>
        cases hr : m.sim.inRound with
        | true =>
            rw [endDrive_failed_inRound e hin hr]
            exact .same rfl rfl rfl
        | false =>
            rw [endDrive_failed_outside e hin hr]
            exact (Simulation.Alters.discardPending _).before rfl rfl rfl
    | _ =>
        rw [endDrive_settle hin (by simp)]
        cases hr : m.sim.inRound with
        | true =>
            rw [settle_inRound (m := m.undriven) hr]
            exact .same rfl rfl rfl
        | false =>
            rw [settle_outside (m := m.undriven) hr]
            exact (round_alters _).before rfl rfl rfl

theorem endRounds_alters (c : Completion) : m.sim.Alters (m.endRounds c).sim := by
  cases c with
  | failed e => exact (Simulation.Alters.discardPending _).before rfl rfl rfl
  | _ => exact .same rfl rfl rfl

/-- What a frame that is no part of a body makes of a completion. -/
theorem accept_alters (f : Frame) (c : Completion) : m.sim.Alters (m.accept f c).sim := by
  by_cases hb : f.inBody m.activation.mode
  · exact (accept_body rfl hb c).alters
  · cases f with
    | returning caller => cases c <;> exact .refl _
    | boundary name caller => cases c <;> exact .refl _
    | calling owner name =>
        cases c with
        | value v =>
            simp only [accept, resume]
            rw [callFunction_sim]
            exact .refl _
        | _ => exact .refl _
    | propagate targets w =>
        cases c with
        | value v =>
            cases targets with
            | nil => exact .refl _
            | cons f rest => exact drive_alters { m with stack := .propagate rest w :: m.stack } f w
        | _ => exact .refl _
    | combs rest =>
        cases c with
        | value v => exact m.runCombs_alters rest
        | _ => exact .refl _
    | combOver p depth => cases c <;> exact .same rfl rfl rfl
    | driven => cases c <;> exact m.endDrive_alters _
    | settled => cases c <;> exact m.endRounds_alters _
    | round =>
        cases c with
        | value v => exact m.round_alters
        | _ => exact .refl _
    | syncs rest =>
        cases c with
        | value v => exact m.runSyncs_alters rest
        | _ => exact .refl _
    | syncStep p next rest =>
        cases c with
        | value v => exact m.syncBody_alters p next rest
        | _ => exact .refl _
    | syncPause p next =>
        cases c with
        | value v =>
            simp only [accept, resume, withResult]
            split
            · exact .insertPause _ _ _
            · exact .refl _
        | _ => exact .refl _
    | commit =>
        cases c with
        | value v =>
            exact workOff_alters (m := m.setSim m.sim.applyStaged.1) (.applyStaged m.sim) _
        | _ => exact .refl _
    | changes rest =>
        cases c with
        | value v => exact workOff_alters (.refl m.sim) rest
        | _ => exact .refl _
    | clock field low high level => cases c <;> exact .refl _
    | clockEdge field low high level =>
        cases c with
        | value v =>
            exact write_alters { m with stack := .clock field low high (!level) :: m.stack } field _
              .immediate
        | _ => exact .refl _
    | _ => exact absurd trivial hb

theorem step_alters {waker : Waker} {m m' : Machine} (hstep : m.step waker = .go m') :
    m.sim.Alters m'.sim := by
  cases step_goes hstep with
  | eval e => exact (show BodyMove _ none m _ from eval_body rfl e).alters
  | exec s => exact (show BodyMove _ none m _ from exec_body rfl s).alters
  | store target v => exact (show BodyMove _ none m _ from store_body rfl target v).alters
  | matching p subject =>
      exact (show BodyMove _ none m _ from matchPattern_body rfl p subject).alters
  | await w hc h =>
      rcases await_go h with ⟨k, v, -, rfl⟩ | ⟨k, process, rest, -, -, rfl⟩
      · exact .same rfl rfl rfl
      · exact .same rfl rfl rfl
  | done c f rest => exact accept_alters { m with stack := rest } f c

theorem step_orderly {waker : Waker} {m m' : Machine} (h : m.sim.Orderly)
    (hstep : m.step waker = .go m') : m'.sim.Orderly := (step_alters hstep).orderly h

end Machine

end Clockwork
