import Clockwork.Proofs.Calls.Record
import Clockwork.Proofs.Machine.Fault
import Clockwork.Proofs.Round.Snapshot
/-!
Rounds in which a clocked process comes to a fault. Nothing catches a fault, so the run ends with
it; what was staged and what is pending is dropped. The pauses that processes of the round came to
before stand.
-/

namespace Clockwork

namespace Machine

theorem run_failed_settled (waker : Waker) (m : Machine) (e : SimError) (below : List Frame)
    (hc : m.control = .done (.failed e)) (hs : m.stack = .settled :: below) :
    ∃ s, Unwound m.sim s ∧ s.inRound = false ∧ s.pending = [] ∧ s.hasStaged = false ∧
      ∀ fuel, m.stack.length < fuel → m.run waker fuel = some (s, .over (.failed e)) := by
  let m₁ : Machine := { m with stack := below }.endRounds (.failed e)
  have hm₁ : Unwound m.sim m₁.sim := (unwind_failsWith { m with stack := below } .settled e).sim
  obtain ⟨s, hsim, hrun⟩ := run_failed waker m₁ e rfl
  refine ⟨s, hm₁.trans hsim, hsim.inRound rfl, hsim.pending rfl,
    hsim.staged (Simulation.hasStaged_discardPending _), ?_⟩
  intro fuel hfuel
  cases fuel with
  | zero => exact absurd hfuel (Nat.not_lt_zero _)
  | succ fuel =>
      simp only [run, step_done hc hs]
      refine hrun fuel ?_
      rw [hs] at hfuel
      exact Nat.lt_of_succ_lt_succ hfuel

theorem RoundState.run_eq {waker : Waker} {m₀ m : Machine} (h : RoundState waker m₀ m) :
    ∃ k, ∀ fuel, m₀.beginRound.run waker (fuel + k) = m.run waker fuel := by
  induction h with
  | start => exact ⟨0, fun fuel => rfl⟩
  | step _ _ hstep ih =>
      obtain ⟨k, hk⟩ := ih
      refine ⟨k + 1, fun fuel => ?_⟩
      rw [← run_of_step hstep, ← hk (fuel + 1)]
      congr 1
      omega

/-- A round that came to a fault ends its run with it: nothing is pending or staged any more, and
unless a callback changed a signal all fields have the values from before the round. The processes
that ran before the one at fault keep the pauses that they came to, the one at fault will begin
anew, and all others are where they were. -/
theorem failed_round_keeps (waker : Waker) (m₀ m : Machine) (below : List Frame) (e : SimError)
    (hr : m₀.sim.inRound = true) (hs : m₀.stack = .settled :: below)
    (h : RoundState waker m₀ m) (hstack : m.stack = m₀.roundBase)
    (hc : m.control = .done (.failed e)) :
    ∃ s n, (∀ fuel, n < fuel → m₀.beginRound.run waker fuel = some (s, .over (.failed e))) ∧
      s.inRound = false ∧ s.pending = [] ∧ s.hasStaged = false ∧
      ((∀ m₁ m₂, RoundState waker m₀ m₁ → InCallback m₀ m₁ → m₁.step waker = .go m₂ →
        m₁.sim.SameValues m₂.sim) → m₀.sim.SameValues s) ∧
      s.paused = m.sim.paused ∧
      ∃ ran p rest, m₀.sim.pending = ran ++ p :: rest ∧
        ((∀ q, q ∉ ran ++ [p] → s.paused.get? q = m₀.sim.paused.get? q) ∧
            s.paused.get? p = none ∨
          (∀ q, q ∉ ran → s.paused.get? q = m₀.sim.paused.get? q) ∧
            ∃ e', isReset m₀.sim p = .error e') := by
  let m₁ : Machine := { m with stack := .settled :: below }
  have htwo : ∀ fuel, m.run waker (fuel + 2) = m₁.run waker fuel := by
    intro fuel
    have hbase : m.stack = .commit :: .round :: .settled :: below := by
      rw [hstack, roundBase, hs]
    rw [run_of_step (step_done hc hbase), run_of_step (step_done rfl rfl)]
    simp only [accept, unwind, complete, m₁, ← hc]
  obtain ⟨s, hsim, hround, hpending, hstaged, hrun⟩ :=
    run_failed_settled waker m₁ e below hc rfl
  obtain ⟨k, hk⟩ := h.run_eq
  refine ⟨s, m₁.stack.length + 2 + k, ?_, hround, hpending, hstaged, ?_, hsim.paused, ?_⟩
  · intro fuel hfuel
    obtain ⟨fuel, rfl⟩ : ∃ n, fuel = n + 2 + k := ⟨fuel - (2 + k), by omega⟩
    rw [hk, htwo]
    exact hrun fuel (by omega)
  · intro hcallbacks
    exact (h.values_of_callbacks hcallbacks).trans hsim.values
  · obtain ⟨ran, p, rest, hb, hfault⟩ : ∃ ran p rest, m₀.sim.pending = ran ++ p :: rest ∧
        Faulty m₀.sim ran p m.sim := by
      have hshape := h.shape
      cases hshape with
      | failed e' a s' ran p rest hb hfault => exact ⟨ran, p, rest, hb, hfault hr⟩
      | finished v a s' => cases hc
      | ready v a s' ran rest hb hk => simp [roundBase] at hstack
      | failing e' a s' ran p rest hb hk => simp [roundBase] at hstack
      | leaving c a s' name caller ran p rest hb hk => simp [roundBase] at hstack
      | body c a s' y g name caller ran p rest hb hk ha hy hg =>
          exact absurd (congrArg List.length hstack) (by simp; omega)
      | callback c a s' x hook a' y g name caller ran p rest hb hk ha hy hg =>
          exact absurd (congrArg List.length hstack) (by simp; omega)
    refine ⟨ran, p, rest, hb, ?_⟩
    have hpaused : s.paused = m.sim.paused := hsim.paused
    rw [hpaused]
    rcases hfault with ⟨hkept, hnone⟩ | ⟨hkept, herror⟩
    · exact .inl ⟨hkept.paused, hnone⟩
    · exact .inr ⟨hkept.paused, herror⟩

def roundAfter (waker : Waker) (m₀ : Machine) : Nat → Machine → Option Machine
  | 0, m => some m
  | n + 1, m =>
    if m.stack.length ≤ m₀.roundBase.length then none
    else
      match m.step waker with
      | .go m' => roundAfter waker m₀ n m'
      | _ => none

theorem RoundState.after {waker : Waker} {m₀ m m' : Machine} (h : RoundState waker m₀ m) (n : Nat)
    (hn : roundAfter waker m₀ n m = some m') : RoundState waker m₀ m' := by
  induction n generalizing m with
  | zero =>
      cases hn
      exact h
  | succ n ih =>
      simp only [roundAfter] at hn
      split at hn
      · cases hn
      · rename_i hlong
        split at hn
        · rename_i m₁ hstep
          refine ih (.step h ?_ hstep) hn
          intro heq
          exact hlong (by simp [heq])
        · cases hn

theorem RoundState.stack_of_length {waker : Waker} {m₀ m : Machine} (h : RoundState waker m₀ m)
    (hlen : m.stack.length ≤ m₀.roundBase.length) : m.stack = m₀.roundBase := by
  cases h.shape with
  | finished => rfl
  | failed => rfl
  | _ =>
      simp only [List.length_append, List.length_cons] at hlen
      omega

end Machine

/-- A clocked process lets an edge pass before it writes `q`; a second one asserts that `bad` is
zero. -/
def pausingDesign : TypeTable :=
  ⟨[⟨"Top", .component {
      body := { Body.ofName "Top" with
        fields := [.ofType "clk" (.int 1 false), .ofType "bad" (.int 1 false),
          .ofType "q" (.int 8 false)] }
      binds := []
      syncs := [
        { Function.ofName "a" with
          body := [.expr (.builtinCall .cycles [.int 1]), .assign [.ownField 2] (.int 5)]
          process := some ⟨.sync, some (.ownField 0), none, []⟩ },
        { Function.ofName "b" with
          body := [.assertion .assert (.compareWith (.ownField 1) .eq (.int 0)) none]
          process := some ⟨.sync, some (.ownField 0), none, []⟩ }]
      combs := []
      processes := [] }⟩], by decide⟩

def Simulation.isPaused (s : Simulation) (index : Nat) : Bool :=
  s.paused.contains ⟨Tree.root, index⟩

def Simulation.given (s : Simulation) (path : String) (n : Int) (fuel : Nat) : Option Simulation :=
  (s.setInput fuel path (.int n)).map (·.1)

/-- The edge at which `bad` is set comes to a fault, yet the first process is paused after it as it
was not before, and at the next edge it goes on where the failed one left it. -/
theorem failed_edge_moves_process :
    let before := (pausingDesign.started "Top" 200).bind fun s => s.given "bad" 1 200
    let failed := before.bind fun s => s.pulsed "clk" 200
    let next := (failed.bind fun s => s.given "bad" 0 200).bind fun s => s.pulsed "clk" 200
    (before.bind fun s => s.clockEdge 200 "clk").map (fun r => r.2.isOk) = some false ∧
      before.map (fun s => s.isPaused 0) = some false ∧
      failed.map (fun s => s.isPaused 0) = some true ∧
      (next.bind fun s => s.number? "q") = some 5 := by
  decide +kernel

/-- The round of that edge fails in its second process, and the pause of the first one outlasts
it. -/
theorem failed_round_keeps_at_edge : ∃ s m m₀ m₁,
    ((pausingDesign.started "Top" 200).bind fun s => s.given "bad" 1 200) = some s ∧
      m ∈ (Command.clockEdge "clk").states 200 s ∧ m.opening? = some m₀ ∧
      Machine.RoundState .nobody m₀ m₁ ∧ m₁.stack = m₀.roundBase ∧
      ∃ s' n, (∀ fuel, n < fuel → m₀.beginRound.run .nobody fuel =
          some (s', .over (.failed (.assertionFailed 0 "assertion in Top.b does not hold")))) ∧
        s'.pending = [] ∧ s'.hasStaged = false ∧ s'.isPaused 0 = true := by
  have hchecked : (((pausingDesign.started "Top" 200).bind fun s => s.given "bad" 1 200).map
      fun s => ((Command.clockEdge "clk").states 200 s).any fun m => m.opening?.any fun m₀ =>
        !m.sim.inRound && m₀.sim.inRound &&
          (Machine.roundAfter .nobody m₀ 17 m₀.beginRound).any fun m₁ => decide
            (m₁.stack.length ≤ m₀.roundBase.length ∧ m₁.sim.isPaused 0 = true ∧
              m₁.fault? = some (.assertionFailed 0 "assertion in Top.b does not hold"))) =
      some true := by
    decide +kernel
  obtain ⟨s, hs, hstates⟩ := Option.map_eq_some_iff.mp hchecked
  obtain ⟨m, hm, hopening⟩ := List.any_eq_true.mp hstates
  obtain ⟨m₀, hm₀, hround⟩ := (Option.any_eq_true _ _).mp hopening
  simp only [Bool.and_eq_true, Bool.not_eq_true'] at hround
  obtain ⟨⟨houtside, hinside⟩, hafter⟩ := hround
  obtain ⟨m₁, hm₁, hover⟩ := (Option.any_eq_true _ _).mp hafter
  obtain ⟨hshort, hpaused, hfault⟩ := of_decide_eq_true hover
  obtain ⟨below, hbelow⟩ := Machine.opening?_outside hm₀ houtside hinside
  have hstate : Machine.RoundState .nobody m₀ m₁ := Machine.RoundState.after .start 17 hm₁
  have hstack := hstate.stack_of_length hshort
  obtain ⟨s', n, hrun, -, hpending, hstaged, -, hsame, -⟩ :=
    Machine.failed_round_keeps .nobody m₀ m₁ below _ hinside hbelow hstate hstack
      (Machine.control_of_fault? hfault)
  refine ⟨s, m, m₀, m₁, hs, hm, hm₀, hstate, hstack, s', n, hrun, hpending, hstaged, ?_⟩
  rw [Simulation.isPaused, hsame]
  exact hpaused

end Clockwork
