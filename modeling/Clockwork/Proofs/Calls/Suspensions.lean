import Clockwork.Proofs.Calls.Waits
/-!
Bodies that are given up because they try to wait. Nothing of them is left at any place, in the
state in which they are given up and in all later ones (`illegal_suspension_leaves_nothing_parked`).
-/

namespace Clockwork

open Executor

def Machine.Outcome.fault? : Outcome → Option SimError
  | .over (.failed e) => some e
  | _ => none

namespace Simulation

def beginTurn (s : Simulation) (id : Nat) : Simulation :=
  s.updateScheduler fun s => { s with tasks := s.tasks.erase id, running := some id }

def endTurn (s : Simulation) (id : Nat) : Machine.Outcome → Simulation
  | .over _ => s.setKernel s.kernel.endTurn
  | .parked t =>
    if s.kernel.scheduler.cancelled then s.setKernel (s.kernel.endTurn.giveUp t.wait)
    else s.setKernel (s.kernel.endTurn.setTasks (s.kernel.scheduler.tasks.insert id t))

theorem waker_of_idle {s : Simulation} (h : s.kernel.scheduler.running = none) :
    s.waker = .nobody := by
  simp only [Simulation.waker, h]

theorem abandonTask_eq (t : Task) (s : Simulation) :
    abandonTask t s = s.setKernel (s.kernel.giveUp t.wait) := by
  rcases t with ⟨_ | w, activation, stack⟩ <;> rfl

theorem tasks_giveUp (k : Kernel Empty EventHook Task) (w? : Option Wait) :
    (k.giveUp w?).tasks = k.tasks := by
  cases w? with
  | none => rfl
  | some w => exact k.tasks_abandon w

end Simulation

namespace Recorded

open Machine Simulation

variable {s₀ : Simulation} {r r' : Recorded} {batch batch' : List (Entry Empty)} {fuel : Nat}

/-- The turn of a task, if it did not end meanwhile. -/
inductive Turned (fuel id : Nat) (r : Recorded) : Recorded → Option SimError → Prop
  | passed (htask : r.sim.kernel.tasks.get? id = none) : Turned fuel id r r none
  | ran {t : Task} {s : Simulation} {o : Outcome} (htask : r.sim.kernel.tasks.get? id = some t)
      (hrun : (t.machine (r.sim.beginTurn id)).run (.task id) fuel = some (s, o)) :
      Turned fuel id r
        ⟨s.endTurn id o, r.states ++ (t.machine (r.sim.beginTurn id)).states (.task id) fuel⟩
        o.fault?

theorem turned_of_runTask {id : Nat} {e : Option SimError}
    (hrun : host.runTask fuel id r = some (r', e)) : Turned fuel id r r' e := by
  simp only [Host.runTask] at hrun
  split at hrun
  · rename_i htask
    cases hrun
    exact .passed htask
  · rename_i t htask
    split at hrun
    · cases hrun
    · rename_i r₂ turn hpoll
      obtain ⟨⟨s, turn⟩, hpoll, heq⟩ := Option.map_eq_some_iff.mp hpoll
      cases heq
      obtain ⟨o, hran, hparked, hfailed⟩ := pollTask_ends hpoll
      have hend := Turned.ran (r := r) (t := t) htask hran
      cases turn with
      | ended fault =>
          cases hrun
          cases o with
          | parked t' => cases (hparked t').mp rfl
          | «over» c =>
              suffices hfault : (Outcome.over c).fault? = e by rwa [hfault] at hend
              cases e with
              | some e =>
                  rw [(hfailed e).mpr rfl]
                  rfl
              | none =>
                  cases c with
                  | failed e => cases (hfailed e).mp rfl
                  | _ => rfl
      | waits t' =>
          obtain rfl := (hparked t').mpr rfl
          dsimp only at hrun
          simp only [endTurn] at hend
          split at hrun
          · rename_i hcancelled
            cases hrun
            have hcancelled : s.kernel.scheduler.cancelled = true := hcancelled
            rw [if_pos hcancelled] at hend
            simp only [host, abandonTask_eq]
            exact hend
          · rename_i hcancelled
            cases hrun
            have hcancelled : ¬ s.kernel.scheduler.cancelled = true := hcancelled
            rw [if_neg hcancelled] at hend
            exact hend

/-- Simulations at rest, where all who wait are tasks, and were so far. -/
structure Attended (s₀ : Simulation) (r : Recorded) (batch : List (Entry Empty)) : Prop
    extends Rests s₀ r where
  began : Sound Task.wait ⟨s₀.kernel, 0, []⟩
  /-- What happened so far was a run of an executor. -/
  led : ∃ l, Run Task.wait ⟨s₀.kernel, 0, []⟩ l ⟨r.sim.kernel, 0, batch⟩
  idle : r.sim.kernel.scheduler.running = none
  outside : r.sim.kernel.OutsideBodies
  followed : Followed r.states

namespace Attended

theorem sound (h : Attended s₀ r batch) : Sound Task.wait ⟨r.sim.kernel, 0, batch⟩ := by
  obtain ⟨l, hrun⟩ := h.led
  exact h.began.run hrun

theorem leads (h : Attended s₀ r batch) {k : Kernel Empty EventHook Task} {l : List Executor.Mark}
    (hrun : Run Task.wait ⟨r.sim.kernel, 0, batch⟩ l ⟨k, 0, batch'⟩) :
    ∃ l, Run Task.wait ⟨s₀.kernel, 0, []⟩ l ⟨k, 0, batch'⟩ := by
  obtain ⟨l₀, hbefore⟩ := h.led
  exact ⟨_, hbefore.trans hrun⟩

theorem update (h : Attended s₀ r batch) {f : Scheduler Empty Task → Scheduler Empty Task}
    {l : List Executor.Mark} (hrun : Run Task.wait ⟨r.sim.kernel, 0, batch⟩ l
      ⟨{ r.sim.kernel with scheduler := f r.sim.kernel.scheduler }, 0, batch'⟩)
    (htasks : (f r.sim.kernel.scheduler).tasks = r.sim.kernel.scheduler.tasks)
    (hidle : (f r.sim.kernel.scheduler).running = r.sim.kernel.scheduler.running) :
    Attended s₀ (host.update f r) batch' where
  toRests := (rests_invariant (fun _ => True) s₀).keeps.update (f := none) h.toRests f htasks
  began := h.began
  led := h.leads hrun
  idle := hidle.trans h.idle
  outside := h.outside.congr htasks
  followed := h.followed

theorem waits (h : Attended s₀ r batch) {id : Nat} {rest : List Nat} {t : Task}
    (hready : r.sim.kernel.scheduler.ready = id :: rest)
    (htask : r.sim.kernel.tasks.get? id = some t) :
    (t.machine ((host.update (fun s => { s with ready := rest }) r).sim.beginTurn id)).Waits
      (.task id) batch := by
  have hstart := h.sound.step (.turn 0 batch h.idle hready htask)
  rw [Multiset.add_zero] at hstart
  exact waits_task hstart rfl (h.outside.erase rfl) (h.outside id t htask)

theorem endTurn {m : Machine} {s : Simulation} {o : Outcome} {id : Nat}
    (hend : WaitsEnd (.task id) batch m s o) :
    (∃ l, Run Task.wait ⟨s.kernel, held (.task id) o.wait?, batch⟩ l
      ⟨(s.endTurn id o).kernel, 0, batch⟩) ∧
      (s.endTurn id o).kernel.scheduler.running = none ∧
      (s.endTurn id o).kernel.OutsideBodies := by
  have hrunning := running_of_waker hend.waker
  have hnone (w : Wait) : (Waker.task id, w) ∉ (0 : Multiset (Waker × Wait)) :=
    Multiset.notMem_zero _
  cases o with
  | «over» c =>
      exact ⟨⟨_, Step.run (.finish batch hrunning hnone)⟩, rfl, hend.outside.congr rfl⟩
  | parked t =>
      have hsound := hend.sound
      rw [← Multiset.add_zero (held _ _)] at hsound ⊢
      simp only [Simulation.endTurn]
      split
      · rename_i hcancelled
        refine ⟨⟨_, Step.run (.giveUp batch t.wait hrunning hcancelled hnone)⟩, ?_, ?_⟩
        · exact congrArg Roster.running (roster_giveUp hsound.endTurn.tidy t.wait)
        · exact hend.outside.congr (tasks_giveUp _ _)
      · rename_i hcancelled
        refine ⟨⟨_, Step.run (.park batch t hrunning (by simpa using hcancelled) hnone)⟩, rfl, ?_⟩
        exact hend.outside.insert (hend.parked t rfl) rfl

/-- A task whose turn it is runs until it waits or ends. -/
theorem turn {id : Nat} {rest : List Nat} {e : Option SimError} (h : Attended s₀ r batch)
    (hready : r.sim.kernel.scheduler.ready = id :: rest)
    (hrun : host.runTask fuel id (host.update (fun s => { s with ready := rest }) r) =
      some (r', e)) : Attended s₀ r' batch := by
  have hkeeps := (rests_invariant (fun _ => True) s₀).keeps
  have hrests : Rests s₀ r' :=
    hkeeps.runTask (f := none)
      (hkeeps.update (f := none) h.toRests (fun s => { s with ready := rest }) rfl) hrun
  cases turned_of_runTask hrun with
  | passed htask => exact h.update (Step.run (.pass 0 batch hready htask)) rfl rfl
  | @ran t s o htask hran =>
      have hbegin : Run Task.wait ⟨r.sim.kernel, 0, batch⟩ [.polled id] _ :=
        Step.run (.turn 0 batch h.idle hready htask)
      rw [Multiset.add_zero] at hbegin
      have hwaits := h.waits hready htask
      have hend := hwaits.run hran
      have hacts := hend.acts.run
      rw [wait?_task (h.outside id t htask)] at hacts
      obtain ⟨⟨l, hfinish⟩, hidle, houtside⟩ := endTurn hend
      exact ⟨hrests, h.began, h.leads (hbegin.trans (hacts.trans hfinish)), hidle, houtside,
        h.followed.append (followed_task hwaits (h.outside id t htask) fuel)⟩

theorem take {s : Scheduler Empty Task} {due : List (Entry Empty)} (h : Attended s₀ r [])
    (hdue : r.sim.kernel.scheduler.takeDue = some (s, due)) :
    Attended s₀ (host.update (fun s => (s.takeDue.map (·.1)).getD s) r) due := by
  have htaken : ((r.sim.kernel.scheduler.takeDue.map (·.1)).getD r.sim.kernel.scheduler) = s := by
    rw [hdue]
    rfl
  have hroster := (Scheduler.roster_takeDue hdue).1
  refine h.update (f := fun s => (s.takeDue.map (·.1)).getD s) (l := []) ?_ ?_ ?_
  · rw [htaken]
    exact Step.run (.take 0 [] hdue)
  · rw [htaken]
    exact congrArg Roster.tasks hroster
  · rw [htaken]
    exact congrArg Roster.running hroster

theorem fire {x : Entry Empty} {me : Waker} (h : Attended s₀ r (x :: batch))
    (hdue : x.due = .sleeper me) :
    Attended s₀ (host.update (fun s => s.fire x.seq me) r) batch := by
  refine h.update (f := fun s => s.fire x.seq me) (Step.run (.fire r.sim.kernel 0 batch hdue)) ?_ ?_
  · cases me <;> rfl
  · cases me <;> rfl

theorem guides (s₀ : Simulation) : host.Guides fun _ => Attended s₀ where
  turn h hready hrun := h.turn hready hrun
  take h hdue := h.take hdue
  fire h hdue := h.fire hdue
  call {_ _ _ _ body _ _ _} _ _ _ := nomatch body
  begin {_ r} h := h.update
    (Step.run (.tick r.sim.kernel 0 [] r.sim.kernel.scheduler.now false)) rfl rfl
  jump {_ r} stop h := by
    refine h.update (l := [])
      (f := fun s => if s.now.fs < stop then { s with now := .ofFs stop } else s) ?_ ?_ ?_
    · split
      · exact Step.run (.tick r.sim.kernel 0 [] (.ofFs stop) r.sim.kernel.scheduler.stopped)
      · exact .nil _
    · split <;> rfl
    · split <;> rfl

/-- A run from outside of all tasks ends without a wait. -/
theorem run {outer : FieldRef → Prop} {m : Machine} {result : Except SimError Value}
    (h : Attended s₀ r []) (hm : r.sim.Begins outer m)
    (hrun : r.runMachine fuel m = some (r', result)) : Attended s₀ r' [] := by
  have hrests : Rests s₀ r' := (rests_invariant outer s₀).run (e := none) h.toRests hm hrun
  have hrest : r.sim.machine.Waits .nobody [] :=
    ⟨h.sound, waker_of_idle h.idle, nofun, h.outside⟩
  have hidle : ∀ w, r.sim.machine.control ≠ .await w := by simp [Simulation.machine]
  have htidy := h.rest.begins h.tasks h.design hm
  obtain ⟨⟨s, result⟩, hmachine, heq⟩ := Option.map_eq_some_iff.mp hrun
  cases heq
  obtain ⟨o, hran, -⟩ := runMachine_ends hmachine
  have hasks := asks_begins hm
  have hend := (hrest.asks hasks hidle).run hran
  have hbegin : Acts Task.wait ⟨r.sim.kernel, 0, []⟩ ⟨m.sim.kernel, held .nobody m.wait?, []⟩ :=
    (hasks.deed hidle).acts h.sound (by simp)
  have hnone : o.wait? = none := by
    obtain ⟨m', hlast, ⟨c, rfl, -⟩ | ⟨t, rfl, hparked⟩⟩ := run_ends hran
    · rfl
    · -- What is parked is outside of all bodies, and a run from outside never waits there.
      have hmem := List.mem_of_getLast? hlast
      obtain ⟨hlayered, hground⟩ := (Outer.begins hm).states htidy fuel m' hmem
      obtain ⟨hin, hc, -⟩ := step_parked hparked
      have hsome := hground.inside hlayered.toLayered hc
      rw [hin] at hsome
      cases hsome
  have hacts := hbegin.trans hend.acts
  rw [hnone] at hacts
  exact ⟨hrests, h.began, h.leads (Acts.run hacts), idle_of_waker hend.waker, hend.outside,
    h.followed.append (followed_begins hrest hm htidy fuel)⟩

theorem kernel_cancel (r : Recorded) (id : Nat) : (host.cancel r id).sim.kernel =
    (Executor.cancel Task.wait ⟨r.sim.kernel, 0, []⟩ id).kernel := by
  have hscheduler : host.scheduler r = r.sim.kernel.scheduler := rfl
  simp only [Host.cancel, Executor.cancel, hscheduler]
  rcases hcancel : r.sim.kernel.scheduler.cancel id with ⟨scheduler, _ | t⟩
  · show { r.sim.kernel with scheduler := (r.sim.kernel.scheduler.cancel id).1 } = _
    rw [hcancel]
    rfl
  · show (Simulation.abandonTask t (r.sim.updateScheduler fun s => (s.cancel id).1)).kernel = _
    rw [abandonTask_eq]
    show Kernel.giveUp { r.sim.kernel with scheduler := (r.sim.kernel.scheduler.cancel id).1 } _ = _
    rw [hcancel]
    rfl

theorem cancel (h : Attended s₀ r []) (id : Nat) : Attended s₀ (host.cancel r id) [] := by
  have hrests : Rests s₀ (host.cancel r id) :=
    (rests_invariant (fun _ => True) s₀).conducts.cancel (e := none) id h.toRests
  have hact : Act Task.wait ⟨r.sim.kernel, 0, []⟩
    (Executor.cancel Task.wait ⟨r.sim.kernel, 0, []⟩ id) := .cancel _ id
  have hstates : (host.cancel r id).states = r.states := by
    simp only [Host.cancel]
    split <;> rfl
  have houtside : (Executor.cancel Task.wait ⟨r.sim.kernel, 0, []⟩ id).kernel.OutsideBodies := by
    cases htask : r.sim.kernel.scheduler.tasks.get? id with
    | some t =>
        rw [cancel_of_task htask]
        exact h.outside.erase (tasks_giveUp _ _)
    | none =>
        rw [cancel_of_absent htask (by rw [h.idle]; simp)]
        exact h.outside
  refine ⟨hrests, h.began, ?_, ?_, ?_, hstates ▸ h.followed⟩
  · rw [kernel_cancel]
    exact h.leads (Step.run (.act hact))
  · rw [kernel_cancel]
    exact (hact.running h.sound).trans h.idle
  · rw [kernel_cancel]
    exact houtside

theorem conducts (outer : FieldRef → Prop) (s₀ : Simulation) :
    Conducts outer fun _ => Attended s₀ where
  guides := guides s₀
  fails _ h := h
  announce {_ r} traced h :=
    ⟨(rests_invariant outer s₀).change (e := none) r.sim.kernel true traced h.toRests h.tasks,
      h.began, h.led, h.idle, h.outside, h.followed⟩
  spawn {_ r a stack} h ht hbody :=
    ⟨(rests_invariant outer s₀).conducts.spawn (e := none) h.toRests ht hbody,
      h.began, h.leads (Step.run (.act (.spawn r.sim.kernel 0 [] rfl))), h.idle,
      h.outside.insert (t := ⟨none, a, stack⟩) hbody rfl, h.followed⟩
  run h hm hrun := h.run hm hrun
  cancel id h := h.cancel id
  stop {_ r} h := h.update
    (Step.run (.tick r.sim.kernel 0 [] r.sim.kernel.scheduler.now true)) rfl rfl
  clear {_ r} event h := by
    have hcall : r.sim.kernel.Call (r.sim.kernel.clearFlag event) := .clearFlag _ event
    exact ⟨(rests_invariant outer s₀).conducts.clear (e := none) event h.toRests,
      h.began, h.leads (Step.run (.act (.call 0 [] hcall))),
      (congrArg Roster.running hcall.change.roster).trans h.idle,
      h.outside.congr (r.sim.kernel.tasks_clearFlag event), h.followed⟩

end Attended

end Recorded

namespace Simulation

/-- The kernel of a design that has just been elaborated has nobody at any place. -/
theorem sound_kernelOf (o : Objects) : Sound Task.wait ⟨kernelOf o, 0, []⟩ := by
  have hchannel (id : Nat) : ∃ n, (kernelOf o).channel id = .ofCapacity n := by
    simp only [Kernel.channel, kernelOf, Array.getElem?_map]
    cases o.channels[id]? with
    | none => exact ⟨0, rfl⟩
    | some n => exact ⟨n, rfl⟩
  have hlock (id : Nat) : (kernelOf o).lock id = .free := by
    simp only [Kernel.lock, kernelOf, Array.getElem?_replicate]
    split <;> rfl
  have hevent (id : Nat) : ∃ b, (kernelOf o).event id = .ofScheduler b := by
    simp only [Kernel.event, kernelOf, Array.getElem?_map]
    cases o.events[id]? with
    | none => exact ⟨false, rfl⟩
    | some b => exact ⟨b, rfl⟩
  have hwaiting (p : Kernel.Place) : (kernelOf o).waiting p = [] := by
    cases p with
    | agenda => rfl
    | getters id => obtain ⟨n, hn⟩ := hchannel id; rw [Kernel.waiting, hn]; rfl
    | putters id => obtain ⟨n, hn⟩ := hchannel id; rw [Kernel.waiting, hn]; rfl
    | lock id => rw [Kernel.waiting, hlock]; rfl
    | event id => obtain ⟨b, hb⟩ := hevent id; rw [Kernel.waiting, hb]; rfl
  have hgranted (p : Kernel.Place) : (kernelOf o).granted p = [] := by
    cases p with
    | lock id => rw [Kernel.granted, hlock]; rfl
    | _ => rfl
  have hinitial : Sound Task.wait (initial : Executor Empty EventHook Task) := sound_initial
  refine ⟨⟨fun {p x} hx => ?_, fun {p t} ht => ?_⟩, ⟨fun id => ?_, Scheduler.tidy_initial⟩,
    hinitial.regular⟩
  · rw [hwaiting] at hx
    cases hx
  · rw [hgranted] at ht
    cases ht
  · show ((kernelOf o).lock id).Numbered
    rw [hlock]
    exact Lock.numbered_free

theorem acts_hooks {t : Tree} {hooks : List EventHook} {k k' : Kernel Empty EventHook Task}
    (hk : hooks.foldlM (hook t) k = .ok k') : Acts Task.wait ⟨k, 0, []⟩ ⟨k', 0, []⟩ := by
  induction hooks generalizing k with
  | nil =>
      cases hk
      exact .refl
  | cons e hooks ih =>
      rw [List.foldlM_cons] at hk
      obtain ⟨k₁, hk₁, hk⟩ := bind_eq_ok hk
      simp only [hook] at hk₁
      split at hk₁
      · cases hk₁
      · split at hk₁ <;> cases hk₁
        rename_i hbind
        exact .head (.call 0 [] (.bindCallback hbind)) (ih hk)

theorem acts_ofElaborated {e : Elaborated} {options : SimOptions} {s : Simulation}
    (hs : ofElaborated e options = .ok s) :
    Acts Task.wait ⟨kernelOf e.objects, 0, []⟩ ⟨s.kernel, 0, []⟩ := by
  obtain ⟨⟨wiring, log⟩, -, hs⟩ := bind_eq_ok hs
  obtain ⟨k, hk, hs⟩ := bind_eq_ok hs
  cases hs
  exact acts_hooks hk

end Simulation

open Simulation Machine Recorded

theorem Reachable.attended {s : Simulation} (h : Reachable s) : Recorded.Attended s ⟨s, []⟩ [] := by
  suffices hkernel : Sound Task.wait ⟨s.kernel, 0, []⟩ ∧ s.kernel.scheduler.running = none ∧
      s.kernel.OutsideBodies from
    ⟨.of_settled h.settled, hkernel.1, ⟨[], .nil _⟩, hkernel.2.1, hkernel.2.2, .nil⟩
  induction h with
  | @initial _ _ _ _ _ _ e _ _ _ hs =>
      have hacts := acts_ofElaborated hs
      have hempty := sound_kernelOf e.objects
      refine ⟨hempty.acts hacts, hacts.running hempty, fun id t ht => ?_⟩
      rw [(fresh_ofElaborated hs).tasks] at ht
      cases ht
  | @command s s' c fuel fault h hrun ih =>
      have hbegun : Recorded.Attended s ⟨s, []⟩ [] :=
        ⟨.of_settled h.settled, ih.1, ⟨[], .nil _⟩, ih.2.1, ih.2.2, .nil⟩
      have hover := (Attended.conducts (fun _ => True) s).command hbegun (fun _ _ => trivial)
        (Command.recorded hrun)
      exact ⟨hover.sound, hover.idle, hover.outside⟩

theorem Reachable.punctual {s : Simulation} (h : Reachable s) :
    Punctual Task.wait ⟨s.kernel, 0, []⟩ := by
  induction h with
  | @initial _ _ _ _ _ _ e _ _ _ hs =>
      have hempty : Punctual Task.wait ⟨kernelOf e.objects, 0, []⟩ := by
        refine ⟨⟨.nil, by simp [kernelOf, Scheduler.initial, Scheduler.dates]⟩, ?_, ?_⟩
        · rintro me w n (hheld | ⟨x, hx, -⟩)
          · cases hheld
          · cases hx
        · rintro me me' w w' n (hheld | ⟨x, hx, -⟩)
          · cases hheld
          · cases hx
      exact hempty.run (acts_ofElaborated hs).run
  | @command s s' c fuel fault h hrun ih =>
      have hover := (Attended.conducts (fun _ => True) s).command h.attended (fun _ _ => trivial)
        (Command.recorded hrun)
      obtain ⟨l, hled⟩ := hover.led
      exact ih.run hled

theorem Commands.followed {s s' : Simulation} {states : List Machine} (h : Reachable s)
    (hrun : Commands s states s') : Followed states := by
  induction hrun with
  | start => exact .nil
  | command hrun hc ih =>
      have hbegun := (hrun.reachable h).attended
      exact ih.append ((Attended.conducts (fun _ => True) _).command hbegun (fun _ _ => trivial)
        (Command.recorded hc)).followed

namespace Machine

variable {m : Machine} {states : List Machine} {base : List Frame} {i j : Nat}

/-- A task has a wait in progress: one that is in the table, or the one whose turn it is. -/
def InProgress (m : Machine) (id : Nat) (w : Wait) : Prop :=
  (∃ t, m.sim.kernel.tasks.get? id = some t ∧ t.wait = some w) ∨
    m.sim.kernel.scheduler.running = some id ∧ m.control = .await w

/-- Whoever waits at a place, and whoever a lock is granted to, is a task with that wait in
progress. -/
structure Owned (m : Machine) : Prop where
  waiting : ∀ {p x}, x ∈ m.sim.kernel.waiting p →
    ∃ id w, x.2 = .task id ∧ m.InProgress id w ∧ w.ticket? = some (p, x.1)
  granted : ∀ {p t}, t ∈ m.sim.kernel.granted p →
    ∃ id w, m.InProgress id w ∧ w.ticket? = some (p, t)

theorem Attended.owned (h : m.Attended) : m.Owned := by
  obtain ⟨⟨batch, hwaits⟩, hinside⟩ := h
  have hclaims {me : Waker} {w : Wait} (hc : m.sim.kernel.scheduler.roster.Claims Task.wait
      (held m.sim.waker m.wait?) me w) : ∃ id, me = .task id ∧ m.InProgress id w := by
    rcases hc with hloose | ⟨id, t, rfl, ht, hw⟩
    · obtain ⟨rfl, hwait⟩ := mem_held.mp hloose
      obtain ⟨hc, hin⟩ := wait?_eq_some hwait
      cases hwaker : m.sim.waker with
      | nobody =>
          have hsome := hinside hwaker w hc
          rw [hin] at hsome
          cases hsome
      | task id => exact ⟨id, rfl, .inr ⟨running_of_waker hwaker, hc⟩⟩
    · exact ⟨id, rfl, .inl ⟨t, ht, hw⟩⟩
  constructor
  · intro p x hx
    obtain ⟨w, hw, hticket⟩ := hwaits.sound.backed.waiting hx
    obtain ⟨id, hid, hprogress⟩ := hclaims hw
    exact ⟨id, w, hid, hprogress, hticket⟩
  · intro p t ht
    obtain ⟨me, w, hw, hticket⟩ := hwaits.sound.backed.granted ht
    obtain ⟨id, -, hprogress⟩ := hclaims hw
    exact ⟨id, w, hprogress, hticket⟩

/-- All states after the one at `i` and up to the one at `j` lie above a stack, but the one at `i`
does not. -/
structure Spans (states : List Machine) (base : List Frame) (i j : Nat) : Prop where
  lt : i < j
  before : ∀ m, states[i]? = some m → ¬ base <:+ m.stack
  within : ∀ k, i < k → k ≤ j → ∃ m, states[k]? = some m ∧ base <:+ m.stack

theorem exists_spans (hfirst : ∀ m, states.head? = some m → ¬ base <:+ m.stack)
    (hm : states[j]? = some m) (hbase : base <:+ m.stack) : ∃ i, Spans states base i j := by
  induction j generalizing m with
  | zero =>
      rw [← List.head?_eq_getElem?] at hm
      exact absurd hbase (hfirst m hm)
  | succ j ih =>
      obtain ⟨hlt, -⟩ := List.getElem?_eq_some_iff.mp hm
      have hj : states[j]? = some states[j] := List.getElem?_eq_getElem (by omega)
      by_cases habove : base <:+ states[j].stack
      · obtain ⟨i, hij, hbefore, hwithin⟩ := ih hj habove
        refine ⟨i, by omega, hbefore, fun k hik hkj => ?_⟩
        by_cases hk : k = j + 1
        · exact ⟨m, hk ▸ hm, hbase⟩
        · exact hwithin k hik (by omega)
      · refine ⟨j, by omega, fun m' hm' => ?_, fun k hik hkj => ?_⟩
        · rw [hj] at hm'
          cases hm'
          exact habove
        · obtain rfl : k = j + 1 := by omega
          exact ⟨m, hm, hbase⟩

theorem innermostBody_of_suffix {process : String} {caller : Activation} {rest l : List Frame}
    (h : .boundary process caller :: rest <:+ l) : innermostBody l ≠ none := by
  obtain ⟨y, rfl⟩ := h
  intro hnone
  exact no_boundary_of_innermostBody hnone _ (by simp) process caller rfl

/-- Nobody comes to a place while a body runs that must not wait. -/
theorem Followed.sheds (h : Followed states) {process : String} {caller : Activation}
    {rest : List Frame} {m₀ : Machine}
    (hspan : Spans states (.boundary process caller :: rest) i j) (hm₀ : states[i]? = some m₀) :
    ∀ k, i ≤ k → k ≤ j → ∀ m, states[k]? = some m → m₀.sim.kernel.Sheds m.sim.kernel := by
  intro k hik
  induction k, hik using Nat.le_induction with
  | base =>
      intro _ m hm
      cases hm₀.symm.trans hm
      exact .refl _
  | succ k hik ih =>
      intro hkj m hm
      obtain ⟨hlt, -⟩ := List.getElem?_eq_some_iff.mp hm
      have hk : states[k]? = some states[k] := List.getElem?_eq_getElem (by omega)
      refine (ih (by omega) _ hk).trans ?_
      rcases h.linked k _ m hk hm with hsheds | hnone
      · exact hsheds
      · obtain ⟨m', hm', habove⟩ := hspan.within (k + 1) (by omega) hkj
        cases hm.symm.trans hm'
        exact absurd hnone (innermostBody_of_suffix habove)

end Machine

/-- When a body that must not wait is given up because it tried to, nobody is at any place who was
not there before the body began, and no lock is granted to anybody who did not queue for it before.
In all states of all commands, those that follow included, whoever waits at a place and whoever a
lock is granted to is a task with that wait in progress. So nothing is ever spent on what such a
body asked for. -/
theorem illegal_suspension_leaves_nothing_parked {s s' : Simulation} {states : List Machine}
    (h : Reachable s) (hrun : Commands s states s') :
    (∀ {j : Nat} {m : Machine} {process name : String} {caller : Activation} {rest : List Frame},
      states[j]? = some m → m.stack = .boundary process caller :: rest →
        m.control = .done (.failed (.illegalSuspension name)) →
          ∃ i m₀, Spans states m.stack i j ∧ states[i]? = some m₀ ∧
            m₀.sim.kernel.Sheds m.sim.kernel) ∧
      (∀ m ∈ states, m.Owned) ∧ s'.machine.Owned := by
  have hfollowed := hrun.followed h
  refine ⟨fun {j m process _ caller rest} hm hs _ => ?_, fun m hm => (hfollowed.all m hm).owned, ?_⟩
  · have hfirst (m' : Machine) (hm' : states.head? = some m') : ¬ m.stack <:+ m'.stack := by
      intro habove
      rw [hs] at habove
      exact innermostBody_of_suffix habove (hfollowed.first m' hm')
    obtain ⟨i, hspan⟩ := exists_spans hfirst hm (List.suffix_refl _)
    obtain ⟨hlt, -⟩ := List.getElem?_eq_some_iff.mp hm
    have hbegun : i < states.length := hspan.lt.trans hlt
    have hi : states[i]? = some states[i] := List.getElem?_eq_getElem hbegun
    refine ⟨i, _, hspan, hi, ?_⟩
    exact hfollowed.sheds (hs ▸ hspan) hi j hspan.lt.le le_rfl m hm
  · have hover := (hrun.reachable h).attended
    have hrest : s'.machine.Waits .nobody [] :=
      ⟨hover.sound, waker_of_idle hover.idle, nofun, hover.outside⟩
    refine Machine.Attended.owned ⟨⟨[], ?_⟩, fun _ => nofun⟩
    exact hrest.waker.symm ▸ hrest

def takeBell : Stmt := .expr (.await (.call (.member (.ownField 1) "acquire") [] []))

/-- A free process takes a lock and then waits for it, and a clocked process asks for the lock. -/
def contendedDesign : TypeTable :=
  ⟨[⟨"Top", .component {
      body := { Body.ofName "Top" with
        fields := [.ofType "clk" (.int 1 false), .ofType "bell" .lock] }
      binds := []
      syncs := [
        { Function.ofName "ring" with
          body := [takeBell]
          process := some ⟨.sync, some (.ownField 0), none, []⟩ }]
      combs := []
      processes := [
        { Function.ofName "hold" with
          body := [takeBell, takeBell]
          isAsync := true
          process := some ⟨.free, none, none, []⟩ }] }⟩], by decide⟩

/-- Whether a body is given up at a state because it tried to wait. -/
def Machine.givesUp (m : Machine) : Bool :=
  match m.stack, m.control with
  | .boundary _ _ :: _, .done (.failed (.illegalSuspension _)) => true
  | _, _ => false

theorem Machine.givesUp_iff {m : Machine} (h : m.givesUp = true) :
    ∃ process caller rest name, m.stack = .boundary process caller :: rest ∧
      m.control = .done (.failed (.illegalSuspension name)) := by
  unfold givesUp at h
  split at h
  · rename_i process caller rest name hs hc
    exact ⟨process, caller, rest, name, hs, hc⟩
  · cases h

/-- When the clocked process is given up, only the free one waits for the lock, as before. -/
theorem contended_process_leaves_nothing_parked : ∃ s s' states m,
    contendedDesign.after "Top" 200 [.start] = some s ∧ Commands s states s' ∧ m ∈ states ∧
      m.givesUp = true ∧ m.sim.kernel.waiting (.lock 0) = [(0, .task 0)] ∧
        (∃ i j m₀, Spans states m.stack i j ∧ states[j]? = some m ∧ states[i]? = some m₀ ∧
          m₀.sim.kernel.Sheds m.sim.kernel) ∧
        (∀ m ∈ states, m.Owned) ∧ s'.machine.Owned := by
  have hedge : ((contendedDesign.after "Top" 200 [.start]).map fun s =>
      ((Command.clockEdge "clk").run 200 s).isSome &&
        ((Command.clockEdge "clk").states 200 s).any fun m =>
          m.givesUp && decide (m.sim.kernel.waiting (.lock 0) = [(0, .task 0)])) = some true := by
    decide +kernel
  obtain ⟨s, hs, hedge⟩ := Option.map_eq_some_iff.mp hedge
  obtain ⟨hrun, hany⟩ := Bool.and_eq_true_iff.mp hedge
  obtain ⟨⟨s', fault⟩, hrun⟩ := Option.isSome_iff_exists.mp hrun
  obtain ⟨m, hm, htest⟩ := List.any_eq_true.mp hany
  obtain ⟨hgives, hwaiting⟩ := Bool.and_eq_true_iff.mp htest
  have hcommands : Commands s ([] ++ (Command.clockEdge "clk").states 200 s) s' :=
    .command .start hrun
  rw [List.nil_append] at hcommands
  obtain ⟨process, caller, rest, name, hstack, hcontrol⟩ := Machine.givesUp_iff hgives
  obtain ⟨j, hj⟩ := List.mem_iff_getElem?.mp hm
  obtain ⟨hspans, howned⟩ :=
    illegal_suspension_leaves_nothing_parked (TypeTable.reachable_after hs) hcommands
  obtain ⟨i, m₀, hspan, hi, hsheds⟩ := hspans hj hstack hcontrol
  exact ⟨s, s', _, m, hs, hcommands, hm, hgives, of_decide_eq_true hwaiting,
    ⟨i, j, m₀, hspan, hj, hi, hsheds⟩, howned⟩

end Clockwork
