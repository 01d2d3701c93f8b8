import Clockwork.Proofs.Calls.Reachable
import Clockwork.Proofs.Machine.Layers
import Clockwork.Proofs.Machine.Updates
import Clockwork.Proofs.Round.Batch
import Clockwork.Proofs.Round.Commit
import Clockwork.Proofs.Round.Failure
import Clockwork.Proofs.Round.Inward
/-!
Rounds in any order. Every step of a round leaves a mark of its write or marks of pauses, so the
last value that is written to a field is the one that waits for the commit. Processes that keep to
signals and write different fields leave the same whatever order they run in: the same staged
values and pauses before the commit, and the same simulation when the next round is about to
begin.
-/

namespace Clockwork

namespace Machine

variable {waker : Waker} {m₀ m m' : Machine} {f : FieldRef} {slot : FieldSlot} {v : Value}

/-- The marks of a step of a round: that of its write, or those of pauses. -/
inductive Stages (m : Machine) : List Mark → Prop
  | pauses {l : List Mark} (hw : ∀ f v slot, m.write? = some (f, v) → ¬ m.sim.tree.SignalAt f slot)
      (hl : ∀ k ∈ l, ∃ p, k.place = .inr p) : Stages m l
  | write {f : FieldRef} {v : Value} {slot : FieldSlot} (hw : m.write? = some (f, v))
      (hslot : m.sim.tree.SignalAt f slot) : Stages m [.ofWrite f slot v]

theorem stages_of_none (hw : m.write? = none) {l : List Mark}
    (hl : ∀ k ∈ l, ∃ p, k.place = .inr p) : Stages m l :=
  .pauses (fun f v slot h => by simp [hw] at h) hl

theorem Leaves.stages {p : ProcessRef} {a : Activation} {l : List Mark} (h : Leaves p m l)
    (hin : Within p a m) (base : List Frame) : Stages (m.onto base) l := by
  have hwrite := hin.write?_onto base
  cases h with
  | nothing hw => exact .pauses (fun f v slot h => hw f v slot (hwrite ▸ h)) (by simp)
  | write hw hslot => exact .write (hwrite.trans hw) hslot
  | pause pause hw => exact stages_of_none (hwrite.trans hw) (by simp [Mark.place])

theorem RoundState.stages (h : RoundState waker m₀ m) (hplain : PlainRound waker m₀)
    (hs : m.stack ≠ m₀.roundBase) (hstep : m.step waker = .go m') :
    ∃ l, Stages m l ∧ m'.sim = m.sim.marks l := by
  have hm' := h.step hs hstep
  have none : m.write? = none → m'.sim = m.sim → ∃ l, Stages m l ∧ m'.sim = m.sim.marks l :=
    fun hw hsim => ⟨[], stages_of_none hw (by simp), hsim⟩
  cases h.progress hplain with
  | @ready v s ran rest hb hrun =>
      rw [step_done (m := ⟨_, m₀.activation, _, s⟩) rfl rfl] at hstep
      cases hstep
      cases rest with
      | nil => exact none rfl rfl
      | cons p rest =>
          change ∃ l, _ ∧ ((⟨.done (.value v), m₀.activation, .syncs rest :: m₀.roundBase, s⟩ :
            Machine).runSync p).sim = s.marks l
          rw [runSync_begun, onto_sim]
          have hcases := begun_cases m₀.activation p s
          generalize begun m₀.activation p s = m at hcases ⊢
          cases hcases with
          | fault e => exact ⟨[], stages_of_none rfl (by simp), rfl⟩
          | «over» hl => exact ⟨_, stages_of_none rfl fun k hk => ⟨p, hl k hk⟩, rfl⟩
          | within hl hsim hin => exact ⟨_, stages_of_none rfl fun k hk => ⟨p, hl k hk⟩, hsim⟩
  | @within m p ran rest s l l' hb hrun hbegun hl hin hproceeds =>
      obtain ⟨m₁, h₁, rfl⟩ := hin.step_base hstep
      cases hin.step h₁ ((hplain _ h).1.symm.trans (hplain _ hm').1) with
      | within hleaves hsim hin₁ => exact ⟨_, hleaves.stages hin _, hsim⟩
      | value v hleaves => exact ⟨_, hleaves.stages hin _, rfl⟩
      | fault e hleaves => exact ⟨_, hleaves.stages hin _, rfl⟩
      | callback hcount =>
          refine absurd ⟨m₁.stack ++ [.syncs rest], by simp, ?_⟩ (hplain _ hm').2
          rw [List.countP_append]
          omega
  | finished hrun => exact absurd rfl hs
  | fault hstack =>
      rcases hstack with rfl | ⟨rest, rfl⟩
      · exact absurd rfl hs
      · rw [step_done (m := ⟨.done (.failed _), _, _, _⟩) rfl rfl] at hstep
        cases hstep
        exact none rfl rfl

theorem Stages.staged?_of_write {l : List Mark} (h : Stages m l) (hs : m.sim.Coherent)
    (hw : m.write? = some (f, v)) (hslot : m.sim.tree.SignalAt f slot) :
    (m.sim.marks l).staged? f slot = some (v.fit slot.width slot.signed) := by
  cases h with
  | pauses hnone hl => exact absurd hslot (hnone f v slot hw)
  | write hw' hslot' =>
      rw [hw] at hw'
      cases hw'
      obtain rfl := hslot.unique hslot'
      rw [Simulation.marks_ofWrite, hs.staged?_stage hslot hslot, if_pos rfl]

theorem Stages.staged?_of_ne {l : List Mark} (h : Stages m l) (hs : m.sim.Coherent)
    (hw : ∀ v, m.write? ≠ some (f, v)) (hslot : m.sim.tree.SignalAt f slot) :
    (m.sim.marks l).staged? f slot = m.sim.staged? f slot := by
  cases h with
  | pauses hnone hl =>
      rw [Simulation.staged?, Simulation.signalsOf, Simulation.signals_marks hl m.sim]
      rfl
  | @write g w slot' hw' hslot' =>
      have hne : f ≠ g := by
        rintro rfl
        exact hw w hw'
      rw [Simulation.marks_ofWrite, hs.staged?_stage hslot' hslot, if_neg hne]

/-- The last value that a round writes to a field before it comes to a state. -/
def LastWrite (waker : Waker) (m₀ : Machine) (f : FieldRef) (v : Value) (m : Machine) : Prop :=
  ∃ m₁ m₂, RoundState waker m₀ m₁ ∧ m₁.write? = some (f, v) ∧ m₁.step waker = .go m₂ ∧
    Leads waker (fun m => m.stack ≠ m₀.roundBase ∧ ∀ w, m.write? ≠ some (f, w)) m₂ m

theorem RoundState.orderly (h : RoundState waker m₀ m) (hs : m₀.sim.Orderly) : m.sim.Orderly := by
  induction h with
  | start => exact hs.congr rfl rfl rfl
  | step _ _ hstep ih => exact step_orderly ih hstep

theorem LastWrite.staged? (h : LastWrite waker m₀ f v m) (hplain : PlainRound waker m₀)
    (hs : m₀.sim.Orderly) (hslot : m.sim.tree.SignalAt f slot) :
    m.sim.staged? f slot = some (v.fit slot.width slot.signed) := by
  obtain ⟨m₁, m₂, h₁, hw, hstep, hleads⟩ := h
  have habove : m₁.stack ≠ m₀.roundBase := by
    intro heq
    cases hc : m₁.control with
    | done c => cases c <;> simp [write?, hc, heq, roundBase, Frame.write?] at hw
    | _ => simp [write?, hc] at hw
  have h₂ := h₁.step habove hstep
  induction hleads with
  | here =>
      obtain ⟨l, hl, hsim⟩ := h₁.stages hplain habove hstep
      rw [hsim, Simulation.tree_marks] at hslot
      rw [hsim]
      exact hl.staged?_of_write (h₁.orderly hs).toCoherent hw hslot
  | @step m₃ m₄ hleads hP hstep' ih =>
      have h₃ := hleads.roundState (fun _ hP => hP.1) h₂
      obtain ⟨l, hl, hsim⟩ := h₃.stages hplain hP.1 hstep'
      rw [hsim, Simulation.tree_marks] at hslot
      rw [hsim, hl.staged?_of_ne (h₃.orderly hs).toCoherent hP.2 hslot]
      exact ih hslot

variable {waker : Waker} {m m₀ : Machine}

theorem Layered.opening (h : Layered m) (hm : m.opening? = some m₀) (batch : List ProcessRef) :
    Layered (m₀.withBatch batch).beginRound := by
  have hplaced : Placed m₀ ∧ ∃ below, m₀.stack = .settled :: below := by
    obtain ⟨v, rest, hc, ⟨hs, rfl⟩ | ⟨hs, hd, hr, rfl⟩⟩ := opening?_cases hm
    · have hplaced := h.placed (by simp [hs])
      have hstack := h.stack
      rw [hs] at hstack
      exact ⟨hplaced.pop hs rfl rfl rfl (by simp), hstack.1⟩
    · have hplaced := h.placed (by simp [hs])
      have hdriven : Placed { m with stack := .driven :: rest } := by
        rw [← hs]
        exact hplaced
      have hundriven := Placed.undriven (m := { m with stack := rest }) hdriven
      exact ⟨hundriven.settling (Nat.eq_zero_of_not_pos hd) hr, rest, rfl⟩
  obtain ⟨hplaced, below, hbelow⟩ := hplaced
  have hround : Placed { m₀ with stack := .round :: m₀.stack } :=
    hplaced.cons ⟨below, hbelow⟩ rfl rfl rfl (by simp)
  have hcommit : Placed { m₀ with stack := .commit :: .round :: m₀.stack } :=
    hround.cons ⟨_, rfl⟩ rfl rfl rfl (by simp)
  have hsyncs : Placed { m₀ with stack := .syncs batch :: .commit :: .round :: m₀.stack } :=
    hcommit.cons ⟨_, rfl⟩ rfl rfl rfl (by simp)
  have hbegin := hsyncs.withSim (s := { m₀.sim with pending := [] })
    (hsyncs.counted.congr rfl rfl rfl)
  exact hbegin.complete rfl

theorem RoundState.layered (h : RoundState waker m₀ m) (hm : Layered m₀.beginRound) :
    Layered m := by
  induction h with
  | start => exact hm
  | step _ _ hstep ih => exact (ih.step hstep).1

end Machine

open Machine

theorem Reachable.states_layered {s : Simulation} {c : Command} {fuel : Nat} (h : Reachable s)
    {m : Machine} (hm : m ∈ c.states fuel s) : m.Layered ∧ m.sim.Orderly := by
  cases hrun : c.run fuel s with
  | none =>
      have hmap := Recorded.map_command fuel ⟨s, []⟩ c
      rw [hrun, Option.map_eq_none_iff] at hmap
      rw [Command.states, hmap] at hm
      cases hm
  | some r =>
      obtain ⟨s', fault⟩ := r
      have horders := Reachable.orders h.settled h.orderly hrun
      exact ⟨(horders.tidy m hm).toLayered, horders.kept m hm⟩

theorem Machine.Orderly.opening {m m₀ : Machine} (h : m.sim.Orderly) (hm : m.opening? = some m₀) :
    m₀.sim.Orderly := by
  obtain ⟨v, rest, -, ⟨-, rfl⟩ | ⟨-, -, -, rfl⟩⟩ := opening?_cases hm
  · exact h
  · exact h.congr rfl rfl rfl

/-- A batch of processes that keep to signals and write different fields may run in any order: it
comes to the same state before the commit, with the last value that was written to a field staged
for it, and to the same state when the next round is about to begin. Nothing is staged then, and
every signal that was given no value since the commit has the one that was staged for it. -/
theorem round_in_any_order {s : Simulation} {c : Command} {fuel : Nat} {waker : Waker}
    {m m₀ m₁ : Machine} {batch batch' : List ProcessRef} (hs : Reachable s)
    (hm : m ∈ c.states fuel s) (hopen : m.opening? = some m₀) (hbatch : batch.Nodup)
    (hperm : batch.Perm batch') (hplain : PlainRound waker (m₀.withBatch batch))
    (hwrites : ∀ p q f, Writes waker (m₀.withBatch batch) p f →
      Writes waker (m₀.withBatch batch) q f → p = q)
    (hend : RoundEnds waker (m₀.withBatch batch) m₁) :
    RoundEnds waker (m₀.withBatch batch') m₁ ∧
      (∀ f slot v, m₁.sim.tree.SignalAt f slot → LastWrite waker (m₀.withBatch batch) f v m₁ →
        m₁.sim.staged? f slot = some (v.fit slot.width slot.signed)) ∧
      (∀ m₂, Arrives waker (m₀.withBatch batch).beginRound m₂ ↔
        Arrives waker (m₀.withBatch batch').beginRound m₂) ∧
      ∀ m₂, Arrives waker (m₀.withBatch batch).beginRound m₂ → m₂.fault? = none →
        m₂.sim.hasStaged = false ∧ ∀ f slot v, m₁.sim.tree.SignalAt f slot →
          m₁.sim.staged? f slot = some v →
            (∀ m₃, Leads waker (fun m => ¬ m.BeforeRound) m₁ m₃ → ¬ m₃.Gives f) →
              (m₂.sim.current f slot).same v = true := by
  obtain ⟨hlayered, horderly⟩ := hs.states_layered hm
  have hs₀ := Machine.Orderly.opening horderly hopen
  obtain ⟨hleads, hleads'⟩ := hend.perm hplain hs₀.ordered hs₀.tree hbatch hwrites hperm
  have hamid : ∀ m, Amid m₀ m → ¬ m.BeforeRound := fun m hm => hm.2
  have hround := hleads.imp hamid
  have hround' := hleads'.imp hamid
  refine ⟨⟨?_, hend.stack, hend.ok⟩, ?_, ?_, ?_⟩
  · have hamid' : ∀ m, Amid m₀ m → m.stack ≠ (m₀.withBatch batch').roundBase := fun m hm => hm.1
    exact hleads'.roundState hamid' .start
  · exact fun f slot v hslot hlast => hlast.staged? hplain (hs₀.congr rfl rfl rfl) hslot
  · exact fun m₂ => ⟨fun h => (h.tail hround).cons hround', fun h => (h.tail hround').cons hround⟩
  · intro m₂ harrives hok
    obtain ⟨heq, -⟩ := hend.runsSyncs hplain
    have hlayered₁ := hend.state.layered (hlayered.opening hopen batch)
    exact (harrives.tail hround).committed (by rw [heq]) hend.stack hlayered₁
      (hend.state.orderly (hs₀.congr rfl rfl rfl)) hok

theorem Machine.roundAfter_add (waker : Waker) (m₀ : Machine) (k n : Nat) (m : Machine) :
    roundAfter waker m₀ (k + n) m =
      (roundAfter waker m₀ k m).bind fun m' => roundAfter waker m₀ n m' := by
  induction k generalizing m with
  | zero =>
      rw [Nat.zero_add]
      rfl
  | succ k ih =>
      rw [Nat.succ_add]
      simp only [roundAfter]
      split
      · rfl
      · split
        · exact ih _
        · rfl

theorem Machine.RoundState.exists_after {waker : Waker} {m₀ m : Machine}
    (h : RoundState waker m₀ m) : ∃ k, roundAfter waker m₀ k m₀.beginRound = some m := by
  induction h with
  | start => exact ⟨0, rfl⟩
  | @step m m' hm hs hstep ih =>
      obtain ⟨k, hk⟩ := ih
      have hlong : ¬ m.stack.length ≤ m₀.roundBase.length := fun h => hs (hm.stack_of_length h)
      refine ⟨k + 1, ?_⟩
      rw [roundAfter_add, hk]
      simp only [Option.bind_some, roundAfter, hlong, ↓reduceIte, hstep]

/-- Whether some steps lead a round to its end without a fault, none of its states reaches out,
and no process but `writer f` writes the field `f`. -/
def Machine.keepsApart (waker : Waker) (m₀ : Machine) (writer : FieldRef → ProcessRef) (n : Nat) :
    Bool :=
  ((roundAfter waker m₀ n m₀.beginRound).any fun m =>
    decide (m.stack.length ≤ m₀.roundBase.length) && m.fault?.isNone) &&
  (List.range (n + 1)).all fun k => (roundAfter waker m₀ k m₀.beginRound).all fun m =>
    !m.reachesOut && m.write?.all fun w => decide (m₀.running? m = some (writer w.1))

theorem Machine.keepsApart_sound {waker : Waker} {m₀ : Machine} {writer : FieldRef → ProcessRef}
    {n : Nat} (h : m₀.keepsApart waker writer n = true) :
    PlainRound waker m₀ ∧
      (∀ p q f, Writes waker m₀ p f → Writes waker m₀ q f → p = q) ∧
        ∃ m₁, RoundEnds waker m₀ m₁ := by
  obtain ⟨hend, hall⟩ := Bool.and_eq_true_iff.mp h
  obtain ⟨m₁, hm₁, hover⟩ := (Option.any_eq_true _ _).mp hend
  obtain ⟨hshort, hok⟩ := Bool.and_eq_true_iff.mp hover
  have hstate := RoundState.after .start n hm₁
  have hstates : ∀ m, RoundState waker m₀ m → m.reachesOut = false ∧
      ∀ w ∈ m.write?, m₀.running? m = some (writer w.1) := by
    intro m hm
    obtain ⟨k, hk⟩ := hm.exists_after
    have hkn : k ≤ n := by
      refine Nat.le_of_not_lt fun hlt => ?_
      obtain ⟨j, rfl⟩ := Nat.exists_eq_add_of_lt hlt
      rw [Nat.add_assoc, roundAfter_add, hm₁] at hk
      simp [roundAfter, of_decide_eq_true hshort] at hk
    have hchecked := List.all_eq_true.mp hall k (List.mem_range.mpr (Nat.lt_succ_of_le hkn))
    rw [hk] at hchecked
    obtain ⟨hinward, hwriter⟩ := Bool.and_eq_true_iff.mp hchecked
    refine ⟨by simpa using hinward, fun w hw => ?_⟩
    exact of_decide_eq_true ((Option.all_eq_true _ _).mp hwriter w hw)
  refine ⟨plainRound_of_inward fun m hm => (hstates m hm).1, ?_, m₁, hstate,
    hstate.stack_of_length (of_decide_eq_true hshort), Option.isNone_iff_eq_none.mp hok⟩
  rintro p q f ⟨m, v, hm, hp, hw⟩ ⟨m', v', hm', hq, hw'⟩
  have hpf := (hstates m hm).2 _ hw
  have hqf := (hstates m' hm').2 _ hw'
  rw [hp] at hpf
  rw [hq] at hqf
  cases hpf
  cases hqf
  rfl

def exchangeDesign : TypeTable :=
  ⟨[⟨"Top", .component {
      body := { Body.ofName "Top" with
        fields := [.ofType "clk" (.int 1 false),
          { Field.ofType "a" (.int 8 false) with initial := some (.int 1) },
          { Field.ofType "b" (.int 8 false) with initial := some (.int 2) }] }
      binds := []
      syncs := [
        { Function.ofName "p" with
          body := [.assign [.ownField 1] (.ownField 2)]
          process := some ⟨.sync, some (.ownField 0), none, []⟩ },
        { Function.ofName "q" with
          body := [.assign [.ownField 2] (.ownField 1)]
          process := some ⟨.sync, some (.ownField 0), none, []⟩ }]
      combs := []
      processes := [] }⟩], by decide⟩

def exchangeWriter (f : FieldRef) : ProcessRef := ⟨f.owner, f.index - 1⟩

/-- The exchange comes to the same in both orders. -/
theorem round_in_any_order_at_edge : ∃ s m m₀ m₁, Reachable s ∧
    m ∈ (Command.clockEdge "clk").states 200 s ∧ m.opening? = some m₀ ∧
      RoundEnds .nobody (m₀.withBatch [⟨0, 0⟩, ⟨0, 1⟩]) m₁ ∧
        RoundEnds .nobody (m₀.withBatch [⟨0, 1⟩, ⟨0, 0⟩]) m₁ ∧
          ∀ m₂, Arrives .nobody (m₀.withBatch [⟨0, 0⟩, ⟨0, 1⟩]).beginRound m₂ ↔
            Arrives .nobody (m₀.withBatch [⟨0, 1⟩, ⟨0, 0⟩]).beginRound m₂ := by
  have hchecked : ((exchangeDesign.after "Top" 200 [.start]).map fun s =>
      ((Command.clockEdge "clk").states 200 s).any fun m => m.opening?.any fun m₀ =>
        (m₀.withBatch [⟨0, 0⟩, ⟨0, 1⟩]).keepsApart .nobody exchangeWriter 25) = some true := by
    decide +kernel
  obtain ⟨s, hs, hany⟩ := Option.map_eq_some_iff.mp hchecked
  obtain ⟨m, hm, hopening⟩ := List.any_eq_true.mp hany
  obtain ⟨m₀, hm₀, hapart⟩ := (Option.any_eq_true _ _).mp hopening
  obtain ⟨hplain, hwrites, m₁, hend⟩ := keepsApart_sound hapart
  have hreach := TypeTable.reachable_after hs
  obtain ⟨hend', -, harrives, -⟩ := round_in_any_order hreach hm hm₀ (by decide)
    (.swap ⟨0, 1⟩ ⟨0, 0⟩ []) hplain hwrites hend
  exact ⟨s, m, m₀, m₁, hreach, hm, hm₀, hend, hend', harrives⟩

end Clockwork
