import Clockwork.Proofs.Calls.Session
import Clockwork.Proofs.Machine.Edges
/-!
The rounds of commands without a fault. The processes that are run in a round are those that some
field starts which has risen since the round before, each of them once.
-/

namespace Clockwork

section Rounds

variable (states : List Machine)

/-- The step from a state begins a round: it takes all that is pending. -/
def RoundAt (i : Nat) : Prop := ∃ m, states[i]? = some m ∧ m.beat = .round

/-- A field rises in the step from a state. -/
def RoseAt (i : Nat) (f : FieldRef) : Prop :=
  ∃ m m', states[i]? = some m ∧ states[i + 1]? = some m' ∧ m.sim.Rose m'.sim f

/-- No round begins from one state on before another one. -/
def NoRound (i k : Nat) : Prop := ∀ j, i ≤ j → j < k → ¬ RoundAt states j

/-- A field has risen since the last round that began before a state. -/
def RisenBefore (i : Nat) (f : FieldRef) : Prop :=
  ∃ k, k < i ∧ RoseAt states k f ∧ NoRound states k i

/-- The processes that are run in rounds by the steps from the first `k` states, without those from
the first `i` of them. -/
def activations (i k : Nat) : List ProcessRef :=
  ((states.take k).drop i).filterMap Machine.activated?

/-- A round begins with the step from a state, and no other one before a later state, with which the
next round begins or all is over. -/
structure IsRound (i k : Nat) : Prop where
  begins : RoundAt states i
  lt : i < k
  alone : NoRound states (i + 1) k
  ends : RoundAt states k ∨ k = states.length

end Rounds

variable {states : List Machine}

theorem NoRound.succ {i k : Nat} (h : NoRound states i k) (hk : ¬ RoundAt states k) :
    NoRound states i (k + 1) := by
  intro j hij hjk hj
  by_cases heq : j = k
  · exact hk (heq ▸ hj)
  · exact h j hij (by omega) hj

theorem NoRound.unique {i i' k : Nat} (hi : RoundAt states i) (hik : i < k)
    (h : NoRound states (i + 1) k) (hi' : RoundAt states i') (hik' : i' < k)
    (h' : NoRound states (i' + 1) k) : i = i' := by
  by_cases hlt : i < i'
  · exact absurd hi' (h i' hlt hik')
  · by_cases hgt : i' < i
    · exact absurd hi (h' i hgt hik)
    · omega

theorem risenBefore_zero (f : FieldRef) : ¬ RisenBefore states 0 f := by
  rintro ⟨k, hk, -⟩
  cases hk

theorem risenBefore_succ {k : Nat} {f : FieldRef} (hk : ¬ RoundAt states k) :
    RisenBefore states (k + 1) f ↔ RisenBefore states k f ∨ RoseAt states k f := by
  constructor
  · rintro ⟨j, hj, hrose, hnone⟩
    by_cases heq : j = k
    · exact .inr (heq ▸ hrose)
    · exact .inl ⟨j, by omega, hrose, fun j' hj' hk' => hnone j' hj' (by omega)⟩
  · rintro (⟨j, hj, hrose, hnone⟩ | hrose)
    · exact ⟨j, by omega, hrose, hnone.succ hk⟩
    · refine ⟨k, by omega, hrose, NoRound.succ ?_ hk⟩
      intro j hj hjk
      omega

theorem risenBefore_succ_of_round {k : Nat} (f : FieldRef) (hk : RoundAt states k) :
    ¬ RisenBefore states (k + 1) f := by
  rintro ⟨j, hj, -, hnone⟩
  exact hnone k (by omega) (by omega) hk

theorem activations_self (k : Nat) : activations states k k = [] := by
  rw [activations, List.drop_eq_nil_of_le (List.length_take_le k states)]
  rfl

theorem activations_succ {i k : Nat} {m : Machine} (hik : i ≤ k) (hm : states[k]? = some m) :
    activations states i (k + 1) = activations states i k ++ m.activated?.toList := by
  obtain ⟨hlt, rfl⟩ := List.getElem?_eq_some_iff.mp hm
  have hlen : (states.take k).length = k := by
    rw [List.length_take]
    omega
  rw [activations, List.take_succ_eq_append_getElem hlt, List.drop_append_of_le_length (by omega),
    List.filterMap_append]
  congr 1

theorem roundAt_iff {k : Nat} {m : Machine} (hm : states[k]? = some m) :
    RoundAt states k ↔ m.beat = .round := by
  constructor
  · rintro ⟨m', hm', hbeat⟩
    rw [hm] at hm'
    cases hm'
    exact hbeat
  · exact fun h => ⟨m, hm, h⟩

theorem roseAt_iff {k : Nat} {m m' : Machine} {f : FieldRef} (hm : states[k]? = some m)
    (hm' : states[k + 1]? = some m') : RoseAt states k f ↔ m.sim.Rose m'.sim f := by
  constructor
  · rintro ⟨a, b, ha, hb, hrose⟩
    rw [hm] at ha
    rw [hm'] at hb
    cases ha
    cases hb
    exact hrose
  · exact fun h => ⟨m, m', hm, hm', h⟩

/-- How far the processes of a round have been run at a state, if some are left: those that were
pending when the round began are those that were run since, and those that are left. Before the
first round there are none. -/
def RanUntil (states : List Machine) (k : Nat) (left : List ProcessRef) : Prop :=
  (NoRound states 0 k ∧ activations states 0 k = [] ∧ left = []) ∨
    ∃ i m, i < k ∧ states[i]? = some m ∧ m.beat = .round ∧ NoRound states (i + 1) k ∧
      m.sim.pending = activations states i k ++ left

theorem RanUntil.succ {k : Nat} {left left' : List ProcessRef} {m : Machine}
    (h : RanUntil states k left) (hm : states[k]? = some m) (hbeat : m.beat ≠ .round)
    (hleft : left = m.activated?.toList ++ left') : RanUntil states (k + 1) left' := by
  have hnone : ¬ RoundAt states k := by rwa [roundAt_iff hm]
  rcases h with ⟨hno, hnil, rfl⟩ | ⟨i, mi, hi, hmi, hbegin, hno, hbatch⟩
  · obtain ⟨hact, rfl⟩ := List.append_eq_nil_iff.mp hleft.symm
    refine .inl ⟨hno.succ hnone, ?_, rfl⟩
    rw [activations_succ (Nat.zero_le k) hm, hnil, hact]
    rfl
  · refine .inr ⟨i, mi, by omega, hmi, hbegin, hno.succ hnone, ?_⟩
    rw [hbatch, activations_succ (by omega) hm, hleft, List.append_assoc]

theorem Machine.WorkStep.left {outer : FieldRef → Prop} {m m' : Machine}
    (h : WorkStep outer m m.beat m') (hbeat : m.beat ≠ .round) :
    m.dueSyncs = m.activated?.toList ++ m'.dueSyncs := by
  unfold activated?
  split
  · rename_i hother
    rw [hother] at h
    exact h.dueSyncs_other.symm
  · rename_i hround
    exact absurd hround hbeat
  · rename_i p hsync
    rw [hsync] at h
    exact h.dueSyncs_sync

namespace Recorded.Runs

variable {outer : FieldRef → Prop} {s₀ : Simulation} {r : Recorded} {k : Nat} {m : Machine}
  (h : Runs outer s₀ none r)

include h

theorem started? (hm : r.states[k]? = some m) (f : FieldRef) :
    m.sim.started? f = s₀.started? f := by
  have hdesign := (h.tidy m (List.mem_of_getElem? hm)).design
  rw [Simulation.started?, hdesign.wiring, Simulation.started?]

theorem ranUntil (hm : r.states[k]? = some m) : RanUntil r.states k m.dueSyncs := by
  refine h.induct (P := fun k m => RanUntil r.states k m.dueSyncs) ?_ ?_ hm
  · intro m hwork _
    refine .inl ⟨fun j _ hj => by omega, activations_self 0, ?_⟩
    rw [Machine.dueSyncs, hwork]
    rfl
  · intro k m m' hm hm' _ hstep hran
    by_cases hbeat : m.beat = .round
    · rw [hbeat] at hstep
      refine .inr ⟨k, m, by omega, hm, hbeat, fun j hj hjk => by omega, ?_⟩
      have hact : m.activated? = m.sim.pending.head? := by simp [Machine.activated?, hbeat]
      rw [activations_succ (Nat.le_refl k) hm, activations_self, hact, hstep.dueSyncs_round.2]
      cases m.sim.pending <;> rfl
    · exact hran.succ hm hbeat (hstep.left hbeat)

theorem ranUntil_end (hk : RoundAt r.states k ∨ k = r.states.length) :
    RanUntil r.states k [] := by
  rcases hk with ⟨m, hm, hbeat⟩ | rfl
  · have hran := h.ranUntil hm
    rcases h.last_or_step hm with ⟨-, hwork⟩ | ⟨m', -, hstep⟩
    · rw [Machine.beat_of_onBody (Machine.onBody_of_work hwork)] at hbeat
      cases hbeat
    · rw [hbeat] at hstep
      rwa [hstep.dueSyncs_round.1] at hran
  · cases hlen : r.states.length with
    | zero => exact .inl ⟨fun j _ hj => by omega, activations_self 0, rfl⟩
    | succ k =>
        have hm : r.states[k]? = some r.states[k] := List.getElem?_eq_getElem (by omega)
        rcases h.last_or_step hm with ⟨-, hwork⟩ | ⟨m', hm', -⟩
        · have hbeat := Machine.beat_of_onBody (Machine.onBody_of_work hwork)
          refine (h.ranUntil hm).succ hm (by simp [hbeat]) ?_
          rw [Machine.dueSyncs, hwork]
          simp [Machine.activated?, hbeat]
        · obtain ⟨hlt, -⟩ := List.getElem?_eq_some_iff.mp hm'
          omega

theorem activations_round {i : Nat} {mi : Machine} (hround : IsRound r.states i k)
    (hi : r.states[i]? = some mi) : activations r.states i k = mi.sim.pending := by
  rcases h.ranUntil_end hround.ends with
    ⟨hno, -, -⟩ | ⟨i', mi', hi', hmi', hbegin, hno, hbatch⟩
  · exact absurd hround.begins (hno i (Nat.zero_le i) hround.lt)
  · obtain rfl := NoRound.unique hround.begins hround.lt hround.alone ⟨mi', hmi', hbegin⟩ hi' hno
    rw [hi] at hmi'
    cases hmi'
    rw [hbatch, List.append_nil]

theorem activations_none (hk : NoRound r.states 0 k) : activations r.states 0 k = [] := by
  have hran : ∀ left, RanUntil r.states k left → activations r.states 0 k = [] := by
    rintro left (⟨-, hnil, -⟩ | ⟨i, m, hi, hm, hbegin, -⟩)
    · exact hnil
    · exact absurd ⟨m, hm, hbegin⟩ (hk i (Nat.zero_le i) hi)
  by_cases hlt : k < r.states.length
  · exact hran _ (h.ranUntil (List.getElem?_eq_getElem hlt))
  · have htake : activations r.states 0 k = activations r.states 0 r.states.length := by
      rw [activations, activations, List.take_of_length_le (by omega), List.take_length]
    rw [htake]
    rcases h.ranUntil_end (.inr rfl) with ⟨-, hnil, -⟩ | ⟨i, m, hi, hm, hbegin, -⟩
    · exact hnil
    · exact absurd ⟨m, hm, hbegin⟩ (hk i (Nat.zero_le i) (by omega))

/-- A process is due exactly if a field that starts it has risen since the last round. -/
theorem due_iff (hs : Reachable s₀) (hm : r.states[k]? = some m) :
    m.sim.pending.Nodup ∧
      ∀ p, m.Due p ↔ ∃ f, RisenBefore r.states k f ∧ p ∈ s₀.started? f := by
  refine h.induct (P := fun k m => m.sim.pending.Nodup ∧ ∀ p, m.Due p ↔
    ∃ f, RisenBefore r.states k f ∧ p ∈ s₀.started? f) ?_ ?_ hm
  · intro m hwork hsim
    have hpending : m.sim.pending = [] := hsim.agrees.pending.trans hs.settled.rest.pending
    refine ⟨by simp [hpending], ?_⟩
    intro p
    have hdue : m.dueChanges = [] := by
      rw [Machine.dueChanges, hwork]
      rfl
    simp [Machine.Due, hpending, hdue, risenBefore_zero]
  · intro k m m' hm hm' _ hstep hdue
    obtain ⟨hnodup, hdue⟩ := hdue
    refine ⟨hstep.nodup hnodup, ?_⟩
    intro p
    by_cases hround : m.beat = .round
    · rw [hround] at hstep
      have hnone := hstep.begins.2.1 p
      simp [hnone, risenBefore_succ_of_round _ ((roundAt_iff hm).mpr hround)]
    · have hnone : ¬ RoundAt r.states k := by rwa [roundAt_iff hm]
      rw [hstep.due (h.addressed hs hm) hround, hdue, ← exists_or]
      refine exists_congr fun f => ?_
      rw [risenBefore_succ hnone, roseAt_iff hm hm', h.started? hm, or_and_right]

end Recorded.Runs

/-- Commands that come to no fault run in each round exactly those processes whose clock or reset
has risen since the round before, each of them once, and run no process outside of rounds. -/
theorem rounds_run_risen {s s' : Simulation} {states : List Machine} (hs : Reachable s)
    (h : Session s states s') :
    (∀ i k, IsRound states i k → (activations states i k).Nodup ∧ ∀ p,
      p ∈ activations states i k ↔ ∃ f, s.tree.Starts f p ∧ RisenBefore states i f) ∧
      ∀ k, NoRound states 0 k → activations states 0 k = [] := by
  have hruns := h.runs hs
  obtain ⟨log, hwiring⟩ := hs.designed.wiring
  refine ⟨?_, fun k => hruns.activations_none⟩
  intro i k hround
  obtain ⟨m, hm, hbeat⟩ := hround.begins
  obtain ⟨hnodup, hdue⟩ := hruns.due_iff hs hm
  rw [hruns.activations_round hround hm]
  refine ⟨hnodup, ?_⟩
  intro p
  have hpending : m.Due p ↔ p ∈ m.sim.pending := by
    rcases hruns.last_or_step hm with ⟨-, hwork⟩ | ⟨m', -, hstep⟩
    · rw [Machine.beat_of_onBody (Machine.onBody_of_work hwork)] at hbeat
      cases hbeat
    · rw [hbeat] at hstep
      simp [Machine.Due, hstep.begins.1]
  rw [← hpending, hdue]
  refine exists_congr fun f => ?_
  rw [Simulation.started?, Wiring.mem_started_iff hwiring, and_comm]

/-- An edge that two processes wait for. -/
theorem rounds_run_risen_at_edge : ∃ s s' states i, Reachable s ∧ Session s states s' ∧
    RoundAt states i ∧
      (∀ i k, IsRound states i k → (activations states i k).Nodup ∧ ∀ p,
        p ∈ activations states i k ↔ ∃ f, s.tree.Starts f p ∧ RisenBefore states i f) ∧
        ∀ k, NoRound states 0 k → activations states 0 k = [] := by
  have hround : ((pausingDesign.after "Top" 200 [.start]).bind fun s =>
      ((Command.clockEdge "clk").run 200 s).map fun r =>
        r.2.isNone && ((Command.clockEdge "clk").states 200 s).any fun m => m.beat = .round) =
          some true := by
    decide +kernel
  obtain ⟨s, hs, hedge⟩ := Option.bind_eq_some_iff.mp hround
  obtain ⟨⟨s', fault⟩, hrun, hok⟩ := Option.map_eq_some_iff.mp hedge
  obtain ⟨hnone, hany⟩ := Bool.and_eq_true_iff.mp hok
  obtain rfl := Option.isNone_iff_eq_none.mp hnone
  obtain ⟨m, hm, hbeat⟩ := List.any_eq_true.mp hany
  obtain ⟨i, hi⟩ := List.getElem?_of_mem hm
  have hreach := TypeTable.reachable_after hs
  have hsession : Session s ((Command.clockEdge "clk").states 200 s) s' := .command .start hrun
  exact ⟨s, s', _, i, hreach, hsession, ⟨m, hi, by simpa using hbeat⟩,
    rounds_run_risen hreach hsession⟩

end Clockwork
