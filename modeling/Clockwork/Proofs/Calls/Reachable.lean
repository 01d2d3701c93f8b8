import Clockwork.Proofs.Calls.Rest
import Clockwork.Proofs.Machine.Updates
import Clockwork.Proofs.Round.Failure
import Clockwork.Proofs.Values
/-!
Simulations that commands lead to. They are at rest between commands. What every step keeps, all
commands keep, between them and in all states of their runs.
-/

namespace Clockwork

/-- A simulation that commands lead to from the start of one that was elaborated. -/
inductive Reachable : Simulation → Prop
  | initial {types : TypeTable} {objects : Objects} {top : String} {values : Table String Value}
      {settings : ElabSettings} {options : SimOptions} {e : Elaborated} {log : List LogRecord}
      {s : Simulation} (he : elaborate types objects top values settings = (.ok e, log))
      (hs : Simulation.ofElaborated e options = .ok s) : Reachable s
  | command {s s' : Simulation} {c : Command} {fuel : Nat} {fault : Option SimError}
      (h : Reachable s) (hrun : c.run fuel s = some (s', fault)) : Reachable s'

namespace Simulation

/-- A simulation that has just been made of a tree. -/
structure Fresh (e : Elaborated) (s : Simulation) : Prop where
  tree : s.tree = e.tree
  wiring : ∃ log, Wiring.ofTree e.tree = .ok (s.wiring, log)
  signals : s.signals = .start e.tree.signals
  tasks : s.kernel.tasks = .empty
  driveDepth : s.driveDepth = 0
  combDepth : s.combDepth = 0
  inRound : s.inRound = false
  pending : s.pending = []
  paused : s.paused = .empty

theorem tasks_hook {t : Tree} {k k' : Kernel Empty EventHook Task} {h : EventHook}
    (hk : hook t k h = .ok k') : k'.tasks = k.tasks := by
  simp only [hook] at hk
  split at hk
  · cases hk
  · split at hk <;> cases hk
    exact k.tasks_setEvent _ _

theorem tasks_hooks {t : Tree} {hooks : List EventHook} {k k' : Kernel Empty EventHook Task}
    (hk : hooks.foldlM (hook t) k = .ok k') : k'.tasks = k.tasks := by
  induction hooks generalizing k with
  | nil =>
      cases hk
      rfl
  | cons h hooks ih =>
      rw [List.foldlM_cons] at hk
      obtain ⟨k₁, hk₁, hk⟩ := bind_eq_ok hk
      exact (ih hk).trans (tasks_hook hk₁)

theorem fresh_ofElaborated {e : Elaborated} {options : SimOptions} {s : Simulation}
    (h : ofElaborated e options = .ok s) : s.Fresh e := by
  obtain ⟨⟨wiring, log⟩, hwiring, h⟩ := bind_eq_ok h
  obtain ⟨k, hk, h⟩ := bind_eq_ok h
  cases h
  exact ⟨rfl, ⟨log, hwiring⟩, rfl, tasks_hooks hk, rfl, rfl, rfl, rfl, rfl⟩

theorem AtRest.coherent {s : Simulation} (h : s.AtRest) (ht : s.tree.Sound)
    (hsize : s.signals.size = s.tree.size) : s.Coherent := by
  refine ⟨ht, hsize, ?_, ?_⟩
  · intro id
    rw [h.unstaged id]
    exact Table.sorted_empty
  · intro id key v hv
    rw [h.unstaged id] at hv
    cases hv

end Simulation

theorem Command.recorded {s s' : Simulation} {c : Command} {fuel : Nat} {fault : Option SimError}
    (h : c.run fuel s = some (s', fault)) :
    (⟨s, []⟩ : Recorded).command fuel c = some (⟨s', c.states fuel s⟩, fault) := by
  have hmap := Recorded.map_command fuel ⟨s, []⟩ c
  rw [h] at hmap
  obtain ⟨⟨r, fault'⟩, hrun, heq⟩ := Option.map_eq_some_iff.mp hmap
  cases heq
  rw [Command.states, hrun]
  rfl

namespace Reachable

/-- What holds of all simulations between commands. -/
structure Settled (s : Simulation) : Prop where
  rest : s.AtRest
  tasks : s.SoundTasks

theorem Settled.command {s s' : Simulation} {c : Command} {fuel : Nat} {fault : Option SimError}
    (h : Settled s) (hrun : c.run fuel s = some (s', fault)) :
    Settled s' ∧ s.SameDesign s' ∧ ∀ m ∈ c.states fuel s, m.Tidy s := by
  have hbegun : Recorded.Rests s ⟨s, []⟩ := ⟨h.rest, h.tasks, .refl s, by simp⟩
  have hover := (Recorded.rests_invariant (fun _ => True) s).command hbegun
    (fun _ _ => trivial) (Command.recorded hrun)
  exact ⟨⟨hover.rest, hover.tasks⟩, hover.design, hover.tidy⟩

theorem fresh_settled {e : Elaborated} {s : Simulation} (h : s.Fresh e) : Settled s := by
  have hnone : s.hasStaged = false := by
    rw [Simulation.hasStaged, Simulation.touched, h.signals]
    rfl
  refine ⟨⟨h.driveDepth, h.combDepth, h.inRound, h.pending, Simulation.touched_eq_nil hnone,
    Simulation.unstaged_of_hasStaged hnone⟩, ?_⟩
  intro id t hid
  rw [h.tasks] at hid
  cases hid

theorem settled {s : Simulation} (h : Reachable s) : Settled s := by
  induction h with
  | initial _ hs => exact fresh_settled (Simulation.fresh_ofElaborated hs)
  | command _ hrun ih => exact (ih.command hrun).1

/-- What was made of types when a simulation was elaborated, and what commands do not change. -/
structure Designed (s : Simulation) : Prop where
  tree : s.tree.Sound
  bound : ∀ d, ∀ f ∈ s.tree.targets d, ∃ slot, s.tree.SignalAt f slot
  wiring : ∃ log, Wiring.ofTree s.tree = .ok (s.wiring, log)
  size : s.signals.size = s.tree.size

theorem designed {s : Simulation} (h : Reachable s) : Designed s := by
  induction h with
  | @initial _ _ _ _ _ _ e _ s he hs =>
      have hfresh := Simulation.fresh_ofElaborated hs
      have hrun := elaborate_run he
      have hsound := hrun.sound Tree.sound_empty
      rw [← hfresh.tree] at hrun hsound
      refine ⟨hsound, hrun.bound fun _ => rfl, ?_, ?_⟩
      · rw [hfresh.tree]
        exact hfresh.wiring
      · rw [hfresh.signals, SignalStore.size_start, ← hfresh.tree]
        exact hsound.size
  | command h hrun ih =>
      obtain ⟨-, hdesign, -⟩ := h.settled.command hrun
      refine ⟨?_, ?_, ?_, ?_⟩
      · rw [hdesign.tree]
        exact ih.tree
      · rw [hdesign.tree]
        exact ih.bound
      · rw [hdesign.tree, hdesign.wiring]
        exact ih.wiring
      · rw [hdesign.size, hdesign.tree]
        exact ih.size

theorem coherent {s : Simulation} (h : Reachable s) : s.Coherent :=
  h.settled.rest.coherent h.designed.tree h.designed.size

end Reachable

/-- After a command nothing is under way, pending or staged, whether the command came to a fault or
not, and in between combinational processes were never nested deeper than allowed. -/
theorem command_leaves_nothing {s s' : Simulation} {c : Command} {fuel : Nat}
    {fault : Option SimError} (h : Reachable s) (hrun : c.run fuel s = some (s', fault)) :
    s'.AtRest ∧ ∀ m ∈ c.states fuel s, m.sim.combDepth ≤ s.maxCombDepth := by
  obtain ⟨⟨hrest, -⟩, -, htidy⟩ := h.settled.command hrun
  refine ⟨hrest, ?_⟩
  intro m hm
  have hbound := (htidy m hm).bound
  rwa [(htidy m hm).design.maxCombDepth] at hbound

def TypeTable.after (types : TypeTable) (top : String) (fuel : Nat) (commands : List Command) :
    Option Simulation :=
  (types.simulation top).bind fun s =>
    commands.foldlM (fun s c => (c.run fuel s).map (·.1)) s

theorem Reachable.commands {fuel : Nat} {commands : List Command} {s s' : Simulation}
    (h : Reachable s)
    (hrun : commands.foldlM (fun s c => (c.run fuel s).map (·.1)) s = some s') :
    Reachable s' := by
  induction commands generalizing s with
  | nil =>
      cases hrun
      exact h
  | cons c commands ih =>
      rw [List.foldlM_cons] at hrun
      obtain ⟨s₁, hs₁, hrun⟩ := Option.bind_eq_some_iff.mp hrun
      obtain ⟨⟨s₁, fault⟩, hc, rfl⟩ := Option.map_eq_some_iff.mp hs₁
      exact ih (h.command hc) hrun

theorem TypeTable.exists_elaborated {types : TypeTable} {top : String} {options : SimOptions}
    {s : Simulation} (h : types.simulationWith top options = some s) :
    ∃ e log, elaborate types .empty top .empty .standard = (.ok e, log) ∧
      Simulation.ofElaborated e options = .ok s := by
  simp only [TypeTable.simulationWith] at h
  split at h
  · rename_i e he
    cases hsim : Simulation.ofElaborated e options with
    | error e' =>
        rw [hsim] at h
        cases h
    | ok s₁ =>
        rw [hsim] at h
        cases h
        exact ⟨e, _, Prod.ext he rfl, hsim⟩
  · cases h

theorem TypeTable.reachable_after {types : TypeTable} {top : String} {fuel : Nat}
    {commands : List Command} {s : Simulation} (h : types.after top fuel commands = some s) :
    Reachable s := by
  obtain ⟨s₀, hs₀, hrun⟩ := Option.bind_eq_some_iff.mp h
  obtain ⟨e, log, he, hsim⟩ := TypeTable.exists_elaborated hs₀
  exact Reachable.commands (.initial he hsim) hrun

/-- An edge at which a process fails an assertion. -/
theorem command_leaves_nothing_at_edge : ∃ s s' e,
    pausingDesign.after "Top" 200 [.start, .setInput "bad" (.int 1)] = some s ∧
      (Command.clockEdge "clk").run 200 s = some (s', some e) ∧ s'.AtRest ∧
        ∀ m ∈ (Command.clockEdge "clk").states 200 s, m.sim.combDepth ≤ s.maxCombDepth := by
  have hfault : ((pausingDesign.after "Top" 200 [.start, .setInput "bad" (.int 1)]).bind fun s =>
      ((Command.clockEdge "clk").run 200 s).map (·.2.isSome)) = some true := by
    decide +kernel
  obtain ⟨s, hs, hedge⟩ := Option.bind_eq_some_iff.mp hfault
  obtain ⟨⟨s', fault⟩, hrun, hsome⟩ := Option.map_eq_some_iff.mp hedge
  obtain ⟨e, rfl⟩ := Option.isSome_iff_exists.mp hsome
  exact ⟨s, s', e, hs, hrun, command_leaves_nothing (TypeTable.reachable_after hs) hrun⟩

theorem Simulation.Begins.alters {s : Simulation} {outer : FieldRef → Prop} {m : Machine}
    (hm : s.Begins outer m) : s.Alters m.sim := by
  cases hm with
  | write f v hf => exact s.machine.write_alters f v .immediate
  | combs =>
      exact (Machine.runCombs_alters
        { ({ s with driveDepth := s.driveDepth + 1 } : Simulation).machine with
          stack := [.driven] } _).before rfl rfl rfl
  | call owner function args =>
      rw [Machine.callNow_sim]
      exact .refl _
  | event event =>
      have hmove :
          Machine.BodyMove .immediate s.machine.write? s.machine (s.machine.setEvent event) :=
        Machine.setEvent_body (m := s.machine) rfl event
      exact hmove.alters

def Simulation.Kept (P : Simulation → Prop) : Prop := ∀ {s s'}, s.Alters s' → P s → P s'

theorem Simulation.kept_orderly : Kept Orderly := fun ha h => ha.orderly h

section Kept

variable {P : Simulation → Prop} (hP : Simulation.Kept P)

include hP

namespace Machine

theorem states_kept {waker : Waker} (fuel : Nat) {m : Machine} (h : P m.sim) :
    ∀ m' ∈ m.states waker fuel, P m'.sim :=
  states_keep (P := fun m => P m.sim) (fun h hstep => hP (step_alters hstep) h) fuel h

theorem run_kept {waker : Waker} {fuel : Nat} {m : Machine} {s : Simulation} {o : Outcome}
    (h : P m.sim) (hrun : m.run waker fuel = some (s, o)) : P s := by
  obtain ⟨m', hlast, hend⟩ := run_ends hrun
  have hm' := states_kept hP fuel h m' (List.mem_of_getLast? hlast)
  rcases hend with ⟨c, -, hover⟩ | ⟨t, -, hparked⟩
  · obtain ⟨-, -, rfl⟩ := step_over hover
    exact hm'
  · obtain ⟨-, -, -, -, k, -, rfl⟩ := step_parked hparked
    exact hP (Simulation.Alters.same (s := m'.sim) rfl rfl rfl) hm'

end Machine

namespace Recorded

omit hP in
/-- Simulations at rest with a property now and in all states of their runs so far. -/
structure Keeps (P : Simulation → Prop) (s₀ : Simulation) (r : Recorded) : Prop
    extends Rests s₀ r where
  now : P r.sim
  all : ∀ m ∈ r.states, P m.sim

theorem keeps_invariant (outer : FieldRef → Prop) (s₀ : Simulation) :
    Invariant outer fun _ => Keeps P s₀ where
  tasks hr := hr.tasks
  fails _ hr := hr
  change {_ r} k started traced hr hk :=
    ⟨(rests_invariant outer s₀).change (e := none) k started traced hr.toRests hk,
      hP (Simulation.Alters.same (s := r.sim) rfl rfl rfl) hr.now, hr.all⟩
  run {e r m fuel r' result} hr hm hrun := by
    have hrests := (rests_invariant outer s₀).run (e := none) hr.toRests hm hrun
    have hbegun := hP hm.alters hr.now
    obtain ⟨⟨s, result'⟩, hmachine, heq⟩ := Option.map_eq_some_iff.mp hrun
    cases heq
    obtain ⟨o, hend, -⟩ := Simulation.runMachine_ends hmachine
    refine ⟨hrests, Machine.run_kept hP hbegun hend, ?_⟩
    intro m' hm'
    rcases List.mem_append.mp hm' with hm' | hm'
    · exact hr.all m' hm'
    · rcases List.mem_cons.mp hm' with rfl | hm'
      · exact hr.now
      · exact Machine.states_kept hP fuel hbegun m' hm'
  poll {e r t fuel r' turn} hr ht hrun := by
    obtain ⟨hrests, hturn⟩ := (rests_invariant outer s₀).poll (e := none) hr.toRests ht hrun
    obtain ⟨⟨s, turn'⟩, hpoll, heq⟩ := Option.map_eq_some_iff.mp hrun
    cases heq
    obtain ⟨o, hend, -⟩ := Simulation.pollTask_ends hpoll
    refine ⟨⟨hrests, Machine.run_kept hP hr.now hend, ?_⟩, hturn⟩
    intro m hm
    rcases List.mem_append.mp hm with hm | hm
    · exact hr.all m hm
    · exact Machine.states_kept hP fuel hr.now m hm

end Recorded

theorem Reachable.Settled.keeps {s s' : Simulation} {c : Command} {fuel : Nat}
    {fault : Option SimError} (h : Settled s) (hs : P s) (hrun : c.run fuel s = some (s', fault)) :
    Recorded.Keeps P s ⟨s', c.states fuel s⟩ := by
  have hbegun : Recorded.Keeps P s ⟨s, []⟩ := ⟨⟨h.rest, h.tasks, .refl s, by simp⟩, hs, by simp⟩
  exact (Recorded.keeps_invariant hP (fun _ => True) s).command hbegun (fun _ _ => trivial)
    (Command.recorded hrun)

end Kept

/-- Simulations at rest whose tables stand in order, now and in all states of their runs so far. -/
structure Recorded.Orders (s₀ : Simulation) (r : Recorded) : Prop extends Rests s₀ r where
  orderly : r.sim.Orderly
  kept : ∀ m ∈ r.states, m.sim.Orderly

namespace Reachable

theorem orders {s s' : Simulation} {c : Command} {fuel : Nat} {fault : Option SimError}
    (h : Settled s) (hs : s.Orderly) (hrun : c.run fuel s = some (s', fault)) :
    Recorded.Orders s ⟨s', c.states fuel s⟩ := by
  have hkeeps := h.keeps Simulation.kept_orderly hs hrun
  exact ⟨hkeeps.toRests, hkeeps.now, hkeeps.all⟩

theorem orderly {s : Simulation} (h : Reachable s) : s.Orderly := by
  refine ⟨h.coherent, ?_⟩
  induction h with
  | initial _ hs =>
      rw [(Simulation.fresh_ofElaborated hs).paused]
      exact Table.sorted_empty
  | command h hrun ih => exact (orders h.settled ⟨h.coherent, ih⟩ hrun).orderly.paused

end Reachable

end Clockwork
