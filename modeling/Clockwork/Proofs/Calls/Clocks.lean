import Clockwork.Proofs.Calls.Suspensions
import Clockwork.Proofs.Concurrency.Schedule.Moves
/-!
Clocks. A task that waits for an entry of the agenda is spared by the turns of all others
(`Attended.spares`). So between its own turns a clock waits for its next edge, and in each of them
it gives its signal the level of that edge and waits for the half of the period that follows
(`Clock.Keeps.move`). The edges of a run up to a time are those of a clock that never drifts
(`clock_edges_do_not_drift`).
-/

namespace Clockwork

open Executor

namespace Machine

variable {me : Waker} {m m' : Machine} {r : Simulation × Outcome}

theorem run_mono {n k : Nat} (hrun : m.run me n = some r) (hnk : n ≤ k) :
    m.run me k = some r ∧ m.states me k = m.states me n := by
  induction n generalizing m k with
  | zero => cases hrun
  | succ n ih =>
      obtain ⟨k, rfl⟩ := Nat.exists_eq_add_of_le' (Nat.le_trans (Nat.le_add_left 1 n) hnk)
      simp only [run, states] at hrun ⊢
      cases hstep : m.step me with
      | go m' =>
          rw [hstep] at hrun
          obtain ⟨hmore, hstates⟩ := ih hrun (Nat.le_of_succ_le_succ hnk)
          exact ⟨hmore, congrArg (m :: ·) hstates⟩
      | «over» c s =>
          rw [hstep] at hrun
          exact ⟨hrun, rfl⟩
      | parked t s =>
          rw [hstep] at hrun
          exact ⟨hrun, rfl⟩

theorem run_of_go {fuel : Nat} (hrun : m.run me fuel = some r) (hstep : m.step me = .go m') :
    ∃ n, m'.run me n = some r ∧ m.states me fuel = m :: m'.states me n := by
  cases fuel with
  | zero => cases hrun
  | succ n =>
      simp only [run, states, hstep] at hrun ⊢
      exact ⟨n, hrun, rfl⟩

end Machine

def Machine.Outcome.turn : Machine.Outcome → Turn Task
  | .over (.failed e) => .ended (some e)
  | .over _ => .ended none
  | .parked t => .waits t

theorem Simulation.pollTask_eq (fuel : Nat) (t : Task) (s : Simulation) :
    Simulation.pollTask fuel t s =
      ((t.machine s).run s.waker fuel).map fun r => (r.1, r.2.turn) := by
  simp only [pollTask]
  split
  · rename_i hrun
    rw [show (t.machine s).run s.waker fuel = none from hrun]
    rfl
  · rename_i s' t' hrun
    rw [show (t.machine s).run s.waker fuel = some (s', .parked t') from hrun]
    rfl
  · rename_i s' e hrun
    rw [show (t.machine s).run s.waker fuel = some (s', .over (.failed e)) from hrun]
    rfl
  · rename_i s' c hfailed hrun
    rw [show (t.machine s).run s.waker fuel = some (s', .over c) from hrun]
    cases c with
    | failed e => exact absurd rfl (hfailed e)
    | _ => rfl

namespace Recorded

open Machine Simulation

theorem pollTask_mono {n k : Nat} {t : Task} {r : Recorded} {x : Recorded × Turn Task}
    (hpoll : r.pollTask n t = some x) (hnk : n ≤ k) : r.pollTask k t = some x := by
  obtain ⟨⟨s, turn⟩, hturn, rfl⟩ := Option.map_eq_some_iff.mp hpoll
  obtain ⟨o, hrun, -⟩ := pollTask_ends hturn
  obtain ⟨hmore, hstates⟩ := run_mono hrun hnk
  have hsame : Simulation.pollTask k t r.sim = Simulation.pollTask n t r.sim := by
    rw [pollTask_eq, pollTask_eq, hmore, hrun]
  simp only [pollTask, hsame, hturn, hstates, Option.map_some]

theorem host_lawful : host.Lawful where
  scheduler_update _ _ := rfl
  update_update _ _ _ := rfl
  update_congr {f g r} hfg := by
    have hfg : f r.sim.kernel.scheduler = g r.sim.kernel.scheduler := hfg
    simp only [host, updateScheduler, hfg]
  update_self {f r} hf := by
    have hf : f r.sim.kernel.scheduler = r.sim.kernel.scheduler := hf
    simp only [host, updateScheduler, hf]
  poll_mono hpoll hnk := pollTask_mono hpoll hnk
  call_mono {_ _ body _ _} := nomatch body

end Recorded

def Scheduler.Awaits (s : Scheduler Empty Task) (id n : Nat) : Prop :=
  ∃ t w, s.tasks.get? id = some t ∧ t.wait = some w ∧ w.ticket? = some (.agenda, n)

/-- What the turn of another task leaves of one. -/
structure Scheduler.Spares (s : Scheduler Empty Task) (id : Nat) (s' : Scheduler Empty Task) :
    Prop where
  now : s'.now = s.now
  task : s'.tasks.get? id = s.tasks.get? id
  ready : id ∈ s.ready → id ∈ s'.ready
  entry : ∀ {e}, e ∈ s.agenda → s.Awaits id e.seq → e ∈ s'.agenda
  fired : ∀ {n}, s.Awaits id n → (n ∈ s'.fired ↔ n ∈ s.fired)

theorem Scheduler.Spares.passes {s s₁ s' : Scheduler Empty Task} {id : Nat} (h : s.Spares id s₁)
    (hp : s₁.Passes (s.Awaits id) s') (hid : id < s₁.nextTask) : s.Spares id s' where
  now := hp.now.trans h.now
  task := (hp.tasks hid).trans h.task
  ready hready := hp.ready.subset (h.ready hready)
  entry he hn := hp.entry (h.entry he hn) hn
  fired hn := (hp.fired hn).trans (h.fired hn)

namespace Recorded

open Machine Simulation

variable {s₀ : Simulation} {r r' : Recorded} {batch batch' : List (Entry Empty)}
  {fuel id other : Nat} {rest : List Nat} {e : Option SimError}

namespace Attended

theorem punctual (h : Attended s₀ r batch) (hs : Reachable s₀) :
    Punctual Task.wait ⟨r.sim.kernel, 0, batch⟩ := by
  obtain ⟨l, hled⟩ := h.led
  exact hs.punctual.run hled

theorem move {stop : Nat} {l : List Dispatch} (h : Attended s₀ r batch)
    (hmove : host.Move stop r batch l r' batch') : Attended s₀ r' batch' := by
  cases hmove with
  | pass hready hgone => exact h.update (Step.run (.pass 0 [] hready hgone)) rfl rfl
  | poll hready _ hrun => exact h.turn hready hrun
  | take _ _ hdue _ => exact h.take hdue
  | fire hdue => exact h.fire hdue
  | @call _ _ _ _ body => exact nomatch body

theorem others (h : Attended s₀ r []) (hs : Reachable s₀) {t' : Task}
    (ht' : r.sim.kernel.tasks.get? other = some t') (hne : other ≠ id) :
    (∀ w, t'.wait = some w → w.Other (r.sim.kernel.scheduler.Awaits id)) ∧
      ∀ n, r.sim.kernel.scheduler.Awaits id n → n < r.sim.kernel.scheduler.nextSeq := by
  have hpunctual := h.punctual hs
  have hengaged {id n : Nat} {t : Task} {w : Wait} (ht : r.sim.kernel.tasks.get? id = some t)
      (hw : t.wait = some w) : Engaged Task.wait ⟨r.sim.kernel, 0, []⟩ (.task id) w :=
    .inr ⟨(id, t), Table.mem_of_get? ht, rfl, hw⟩
  constructor
  · rintro w hw n hn ⟨t₁, w₁, ht₁, hw₁, hn₁⟩
    have hsame := hpunctual.apart (hengaged (n := n) ht' hw) (hengaged (n := n) ht₁ hw₁) hn hn₁
    cases hsame
    exact hne rfl
  · rintro n ⟨t₁, w₁, ht₁, hw₁, hn₁⟩
    exact hpunctual.below (hengaged (n := n) ht₁ hw₁) hn₁

theorem spares (h : Attended s₀ r []) (hs : Reachable s₀) {t : Task}
    (ht : r.sim.kernel.tasks.get? id = some t)
    (hready : r.sim.kernel.scheduler.ready = other :: rest) (hne : other ≠ id)
    (hrun : host.runTask fuel other (host.update (fun s => { s with ready := rest }) r) =
      some (r', e)) :
    r.sim.kernel.scheduler.Spares id r'.sim.kernel.scheduler ∧
      ∃ states, r'.states = r.states ++ states ∧
        ∀ m ∈ states, m.sim.kernel.scheduler.running = some other := by
  have hrest (hid : id ∈ r.sim.kernel.scheduler.ready) : id ∈ rest := by
    rw [hready, List.mem_cons] at hid
    exact hid.resolve_left hne.symm
  cases turned_of_runTask hrun with
  | passed htask =>
      exact ⟨⟨rfl, rfl, hrest, fun he _ => he, fun _ => Iff.rfl⟩, [], by simp; rfl, by simp⟩
  | @ran t' s o htask hran =>
      have hwaits := h.waits hready htask
      generalize hbegun :
        (host.update (fun s => { s with ready := rest }) r).sim.beginTurn other = s₁ at hran hwaits
      obtain ⟨hother, hbelow⟩ := h.others hs htask hne
      let kept := r.sim.kernel.scheduler.Awaits id
      let J (k : Kernel Empty EventHook Task) (w? : Option Wait) : Prop :=
        s₁.kernel.scheduler.Passes kept k.scheduler ∧ ∀ w, w? = some w → w.Other kept
      have hnext {k : Kernel Empty EventHook Task}
          (hk : s₁.kernel.scheduler.Passes kept k.scheduler) (n : Nat) (hn : kept n) :
          n < k.scheduler.nextSeq := by
        subst hbegun
        exact Nat.lt_of_lt_of_le (hbelow n hn) hk.nextSeq
      have hstart : J s₁.kernel (t'.machine s₁).wait? := by
        rw [wait?_task (h.outside other t' htask)]
        exact ⟨.refl kept _, hother⟩
      obtain ⟨⟨hpasses, hlast⟩, hstates⟩ := hwaits.run_keeps hstart
        (fun hdeed ⟨hk, hw⟩ => by
          obtain ⟨hk', hw'⟩ := hdeed.passes (hnext hk) hw
          exact ⟨hk.trans hk', hw'⟩)
        (fun hpoll ⟨hk, hw⟩ => by
          obtain ⟨hk', hw'⟩ := Kernel.passes_waiting (hw _ rfl) (hnext hk) hpoll
          exact ⟨hk.trans hk', fun w hw => by cases hw; exact hw'⟩) hran
      have hid : id < s.kernel.scheduler.nextTask := by
        have hold : id < r.sim.kernel.scheduler.nextTask :=
          h.sound.regular.table (Table.mem_of_get? ht)
        subst hbegun
        exact Nat.lt_of_lt_of_le hold hpasses.nextTask
      have hend : r.sim.kernel.scheduler.Spares id s.kernel.scheduler := by
        subst hbegun
        have hbegin : r.sim.kernel.scheduler.Spares id
            ((host.update (fun s => { s with ready := rest }) r).sim.beginTurn
              other).kernel.scheduler :=
          ⟨rfl, Table.get?_erase_of_ne _ hne.symm, hrest, fun he _ => he, fun _ => Iff.rfl⟩
        exact hbegin.passes hpasses (h.sound.regular.table (Table.mem_of_get? ht))
      refine ⟨?_, _, rfl, fun m hm => ?_⟩
      · cases o with
        | «over» c => exact ⟨hend.now, hend.task, hend.ready, hend.entry, hend.fired⟩
        | parked t =>
            simp only [Simulation.endTurn]
            split
            · have hover : r.sim.kernel.scheduler.Spares id s.kernel.endTurn.scheduler :=
                ⟨hend.now, hend.task, hend.ready, hend.entry, hend.fired⟩
              exact hover.passes (Kernel.passes_giveUp _ hlast) hid
            · refine ⟨hend.now, ?_, hend.ready, hend.entry, hend.fired⟩
              exact (Table.get?_insert_of_ne _ hne.symm t).trans hend.task
      · obtain ⟨hk, -⟩ := hstates m hm
        subst hbegun
        exact hk.running

end Attended

end Recorded

/-- A clock: the task that drives a field, the time at which it was started, and the period. -/
structure Clock where
  task : Nat
  field : FieldRef
  start : Nat
  period : Nat

/-- What the body of a task writes itself at a state, and when: the bodies that run because of it
have frames above the first one. -/
def Machine.ownWrite? (id : Nat) (m : Machine) : Option (Nat × FieldRef × Value) :=
  if m.sim.kernel.scheduler.running = some id ∧ m.stack.length = 1 then
    m.write?.map fun (f, v) => (m.sim.kernel.scheduler.now.fs, f, v)
  else none

theorem Machine.ownWrite?_of_length {id : Nat} {m : Machine} (h : m.stack.length ≠ 1) :
    m.ownWrite? id = none := if_neg fun ⟨_, hlength⟩ => h hlength

theorem Machine.ownWrite?_of_running {id other : Nat} {m : Machine}
    (h : m.sim.kernel.scheduler.running = some other) (hne : other ≠ id) :
    m.ownWrite? id = none := by
  refine if_neg fun ⟨hrunning, _⟩ => hne ?_
  exact Option.some.inj (h.symm.trans hrunning)

theorem Machine.ownWrite?_of_write {id : Nat} {m : Machine} (h : m.write? = none) :
    m.ownWrite? id = none := by
  simp only [ownWrite?, h, Option.map_none, ite_self]

namespace Clock

variable (c : Clock)

def level (n : Nat) : Bool := n % 2 == 0

def half (n : Nat) : Nat := if level n then c.period / 2 else c.period - c.period / 2

def edge : Nat → Nat
  | 0 => c.start + c.half 0
  | n + 1 => edge n + c.half (n + 1)

def writes (n : Nat) : List (Nat × FieldRef × Value) :=
  (List.range n).map fun k => (c.edge k, c.field, .int (Value.ofTruth (level k)))

def frame (n : Nat) : Frame :=
  .clock c.field (c.period / 2) (c.period - c.period / 2) (level n)

def edgeFrame (n : Nat) : Frame :=
  .clockEdge c.field (c.period / 2) (c.period - c.period / 2) (level n)

def asleep (n seq : Nat) (a : Activation) : Task :=
  ⟨some (.sleep (c.half n) (some seq)), a, [c.edgeFrame n]⟩

def entry (n seq : Nat) : Entry Empty :=
  ⟨.ofFs (min (c.edge n) Bounded.max64), seq, .sleeper (.task c.task)⟩

theorem level_succ (n : Nat) : level (n + 1) = !level n := by
  simp only [level]
  rcases Nat.mod_two_eq_zero_or_one n with h | h
  · simp [h, Nat.add_mod]
  · simp [h, Nat.add_mod]

theorem writes_succ (n : Nat) :
    c.writes (n + 1) = c.writes n ++ [(c.edge n, c.field, .int (Value.ofTruth (level n)))] := by
  simp [writes, List.range_succ]

theorem edge_even_odd (k : Nat) :
    c.edge (2 * k) = c.start + c.period / 2 + k * c.period ∧
      c.edge (2 * k + 1) = c.start + (k + 1) * c.period := by
  have hodd (n : Nat) : c.half (2 * n + 1) = c.period - c.period / 2 := by
    simp [half, level, Nat.add_mod]
  have heven (n : Nat) : c.half (2 * n) = c.period / 2 := by simp [half, level]
  induction k with
  | zero =>
      refine ⟨by simp [edge, half, level], ?_⟩
      show c.start + c.half (2 * 0) + c.half (2 * 0 + 1) = _
      rw [heven, hodd]
      omega
  | succ k ih =>
      have hrising : c.edge (2 * (k + 1)) = c.start + c.period / 2 + (k + 1) * c.period := by
        show c.edge (2 * k + 1) + c.half (2 * (k + 1)) = _
        rw [ih.2, heven]
        omega
      refine ⟨hrising, ?_⟩
      show c.edge (2 * (k + 1)) + c.half (2 * (k + 1) + 1) = _
      rw [hrising, hodd, Nat.add_mul (k + 1) 1 c.period]
      omega

variable {c}

theorem half_pos (hp : 2 ≤ c.period) (n : Nat) : 0 < c.half n := by
  unfold half
  split <;> omega

theorem edge_lt_edge (hp : 2 ≤ c.period) {i j : Nat} (hij : i < j) : c.edge i < c.edge j := by
  induction j, hij using Nat.le_induction with
  | base => exact Nat.lt_add_of_pos_right (half_pos hp (i + 1))
  | succ j _ ih => exact ih.trans (Nat.lt_add_of_pos_right (half_pos hp (j + 1)))

section Turns

open Machine

variable {n : Nat} {m m' : Machine} {batch : List (Entry Empty)} {me : Waker}

/-- A clock is about to wait for an edge: the write of the one before is under way, or over. -/
inductive Settling (c : Clock) (n : Nat) (m : Machine) : Prop
  | driving (h : Grounded [c.frame n] m)
  | failed (e : SimError) (hc : m.control = .done (.failed e)) (hs : m.stack = [])
  | resting (hc : m.control = .await (.sleep (c.half n) none)) (hs : m.stack = [c.edgeFrame n])

theorem poll_new (k : Kernel Empty EventHook Task) (me : Waker) (delay : Nat) :
    k.poll me (.sleep delay none) =
      ({ k with scheduler := (k.scheduler.schedule delay (.sleeper me)).1 },
        .waiting (.sleep delay (some k.scheduler.nextSeq))) := rfl

theorem Settling.step (h : c.Settling n m) (hl : m.Layered) (hstep : m.step me = .go m') :
    c.Settling n m' := by
  cases h with
  | driving hground =>
      by_cases hs : m.stack = [c.frame n]
      · cases hground with
        | above y f hs' _ =>
            have hlength := congrArg List.length (hs.symm.trans hs')
            simp at hlength
        | ended v hc hplain _ =>
            rw [step_done hc hs] at hstep
            cases hstep
            cases v with
            | value v => exact .resting rfl rfl
            | failed e => exact .failed e rfl rfl
            | _ => cases hplain
      · exact .driving (hground.step rfl hl hs hstep)
  | failed e hc hs =>
      simp only [Machine.step, hc, hs] at hstep
      cases hstep
  | resting hc hs =>
      have hin : innermostBody m.stack = none := by rw [hs]; rfl
      simp only [Machine.step, hc, Machine.await, hin, poll_new] at hstep
      cases hstep

theorem Settling.no_write (h : c.Settling n m) (id : Nat) : m.ownWrite? id = none := by
  cases h with
  | driving hground =>
      cases hground with
      | above y f hs _ => exact ownWrite?_of_length (by simp [hs])
      | ended v hc _ hs =>
          refine ownWrite?_of_write ?_
          cases v <;> simp [write?, hc, hs, Frame.write?, frame]
  | failed e hc hs => exact ownWrite?_of_length (by simp [hs])
  | resting hc hs => exact ownWrite?_of_write (by simp [write?, hc])

/-- A clock that is about to wait for an edge comes to wait for it, and writes nothing before. -/
theorem Settling.run {s₀ s : Simulation} {o : Outcome} {fuel : Nat} (h : c.Settling n m)
    (hw : m.Waits (.task c.task) batch) (ht : m.Tidy s₀)
    (hrun : m.run (.task c.task) fuel = some (s, o)) (hok : o.fault? = none) :
    (m.states (.task c.task) fuel).filterMap (ownWrite? c.task) = [] ∧
      s.kernel.scheduler.now = m.sim.kernel.scheduler.now ∧
      s.kernel.scheduler.cancelled = m.sim.kernel.scheduler.cancelled ∧
      ∃ seq a, o = .parked (c.asleep n seq a) ∧ seq ∉ s.kernel.scheduler.fired ∧
        ⟨m.sim.kernel.scheduler.target (c.half n), seq, .sleeper (.task c.task)⟩ ∈
          s.kernel.scheduler.agenda := by
  have hkeep : ∀ m' ∈ m.states (.task c.task) fuel, (m'.Tidy s₀ ∧ c.Settling n m') ∧
      m'.Waits (.task c.task) batch :=
    states_keep (fun ⟨⟨ht, h⟩, hw⟩ hstep =>
      ⟨⟨ht.step hstep, h.step ht.toLayered hstep⟩, hw.step hstep⟩) fuel ⟨⟨ht, h⟩, hw⟩
  have hnone : ∀ w : Wait, w.Other fun _ => False := fun _ _ _ hn => hn
  obtain ⟨-, hpasses⟩ := hw.run_keeps
    (J := fun k _ => m.sim.kernel.scheduler.Passes (fun _ => False) k.scheduler) (.refl _ _)
    (fun hdeed hk => hk.trans (hdeed.passes (fun _ => False.elim) fun w _ => hnone w).1)
    (fun hpoll hk => hk.trans (Kernel.passes_waiting (hnone _) (fun _ => False.elim) hpoll).1) hrun
  obtain ⟨m', hlast, hend⟩ := run_ends hrun
  have hmem := List.mem_of_getLast? hlast
  obtain ⟨⟨htidy, hsettling⟩, hwaits⟩ := hkeep m' hmem
  have hsame := hpasses m' hmem
  have hwrites : (m.states (.task c.task) fuel).filterMap (ownWrite? c.task) = [] :=
    List.filterMap_eq_nil_iff.mpr fun m' hm' => (hkeep m' hm').1.2.no_write c.task
  rcases hend with ⟨v, rfl, hover⟩ | ⟨t, rfl, hparked⟩
  · obtain ⟨hs, hc, -⟩ := step_over hover
    cases hsettling with
    | driving hground =>
        cases hground with
        | above y f hs' _ => simp [hs] at hs'
        | ended _ _ _ hs' => simp [hs] at hs'
    | failed e hc' _ =>
        cases hc.symm.trans hc'
        cases hok
    | resting _ hs' => simp [hs] at hs'
  · obtain ⟨w, w', k, hc, hin, hpoll, rfl, rfl⟩ := parked_poll hparked
    cases hsettling with
    | driving hground =>
        have hsome := hground.inside htidy.toLayered (by simp [hc])
        rw [hin] at hsome
        cases hsome
    | failed e hc' _ => cases hc.symm.trans hc'
    | resting hc' hs' =>
        cases hc.symm.trans hc'
        rw [poll_new] at hpoll
        cases hpoll
        refine ⟨hwrites, hsame.now, hsame.cancelled, _, m'.activation, by rw [hs']; rfl, ?_, ?_⟩
        · intro hfired
          have hbelow := hwaits.sound.tidy.scheduler.below m'.sim.kernel.scheduler.nextSeq
            (List.mem_append_right _ (List.mem_append_left _ hfired))
          exact Nat.lt_irrefl _ hbelow
        · have htarget : m'.sim.kernel.scheduler.target (c.half n) =
              m.sim.kernel.scheduler.target (c.half n) := by
            simp only [Scheduler.target, hsame.now]
          rw [← htarget]
          exact (Scheduler.insertEntry_perm _ _).mem_iff.mpr (List.mem_cons_self ..)

/-- A clock whose edge is not due yet goes on waiting. -/
theorem run_asleep {s s' : Simulation} {o : Outcome} {fuel seq : Nat} {a : Activation}
    (hfired : seq ∉ s.kernel.scheduler.fired)
    (hentry : c.entry n seq ∈ s.kernel.scheduler.agenda)
    (hrun : ((c.asleep n seq a).machine s).run (.task c.task) fuel = some (s', o)) :
    (((c.asleep n seq a).machine s).states (.task c.task) fuel).filterMap (ownWrite? c.task) = [] ∧
      o = .parked (c.asleep n seq a) ∧ s'.kernel.scheduler.fired = s.kernel.scheduler.fired ∧
      s'.kernel.scheduler.cancelled = s.kernel.scheduler.cancelled ∧
      c.entry n seq ∈ s'.kernel.scheduler.agenda := by
  cases fuel with
  | zero => cases hrun
  | succ fuel =>
      have hin : innermostBody [c.edgeFrame n] = none := rfl
      simp only [Machine.run, Machine.states, Task.machine, asleep, Machine.step, Machine.await,
        hin, Kernel.poll, Scheduler.pollSleep, hfired, if_false] at hrun ⊢
      cases hrun
      refine ⟨?_, rfl, rfl, rfl, ?_⟩
      · exact List.filterMap_eq_nil_iff.mpr fun m hm => by
          rw [List.mem_singleton.mp hm]
          exact ownWrite?_of_write rfl
      · exact List.mem_map.mpr ⟨_, hentry, if_pos rfl⟩

/-- A clock whose edge is due gives its field the level of that edge, and waits for the next one. -/
theorem run_woken {s₀ s s' : Simulation} {o : Outcome} {fuel seq : Nat} {a : Activation}
    (hfired : seq ∈ s.kernel.scheduler.fired)
    (hw : ((c.asleep n seq a).machine s).Waits (.task c.task) batch)
    (ht : ((c.asleep n seq a).machine s).Tidy s₀)
    (hrun : ((c.asleep n seq a).machine s).run (.task c.task) fuel = some (s', o))
    (hok : o.fault? = none) :
    (((c.asleep n seq a).machine s).states (.task c.task) fuel).filterMap (ownWrite? c.task) =
        [(s.kernel.scheduler.now.fs, c.field, .int (Value.ofTruth (level n)))] ∧
      s'.kernel.scheduler.now = s.kernel.scheduler.now ∧
      s'.kernel.scheduler.cancelled = s.kernel.scheduler.cancelled ∧
      ∃ seq a, o = .parked (c.asleep (n + 1) seq a) ∧ seq ∉ s'.kernel.scheduler.fired ∧
        ⟨s.kernel.scheduler.target (c.half (n + 1)), seq, .sleeper (.task c.task)⟩ ∈
          s'.kernel.scheduler.agenda := by
  have hin : innermostBody [c.edgeFrame n] = none := rfl
  let k : Kernel Empty EventHook Task :=
    { s.kernel with
      scheduler :=
        { s.kernel.scheduler with fired := s.kernel.scheduler.fired.filter (· ≠ seq) } }
  let m₁ : Machine := ⟨.done (.value .none), a, [c.edgeFrame n], s.setKernel k⟩
  let m₂ : Machine := { m₁ with stack := [c.frame (n + 1)] }
  let m₃ : Machine := m₂.write c.field (.int (Value.ofTruth (level n))) .immediate
  have hwake : ((c.asleep n seq a).machine s).step (.task c.task) = .go m₁ := by
    simp only [Task.machine, asleep, Machine.step, Machine.await, hin, Kernel.poll,
      Scheduler.pollSleep, hfired, if_true]
    rfl
  have hwrite : m₁.step (.task c.task) = .go m₃ := by
    simp only [m₃, m₂, frame, level_succ]
    rfl
  obtain ⟨i, hrun₁, hstates₁⟩ := run_of_go hrun hwake
  obtain ⟨j, hrun₂, hstates₂⟩ := run_of_go hrun₁ hwrite
  have hw₁ := hw.step hwake
  have hsame : s.kernel.scheduler.Passes (fun _ => False) m₃.sim.kernel.scheduler := by
    have hpolled : s.kernel.scheduler.Passes (fun _ => False) k.scheduler :=
      ⟨rfl, rfl, rfl, List.prefix_rfl, fun he _ => he, False.elim, Nat.le_refl _, fun _ => rfl,
        Nat.le_refl _⟩
    exact hpolled.trans ((hw₁.deed hwrite).passes (fun _ => False.elim) fun w _ n _ hn => hn).1
  have hsettling : c.Settling (n + 1) m₃ := .driving (.write (m := m₂) rfl c.field _)
  obtain ⟨hwrites, hnow, hcancelled, seq', a', ho, hfired', hentry⟩ :=
    hsettling.run (hw₁.step hwrite) ((ht.step hwake).step hwrite) hrun₂ hok
  refine ⟨?_, hnow.trans hsame.now, hcancelled.trans hsame.cancelled, seq', a', ho, hfired', ?_⟩
  · have hrunning : m₁.sim.kernel.scheduler.running = some c.task := hw₁.running rfl
    have hown : m₁.ownWrite? c.task =
        some (s.kernel.scheduler.now.fs, c.field, .int (Value.ofTruth (level n))) :=
      if_pos ⟨hrunning, rfl⟩
    rw [hstates₁, hstates₂, List.filterMap_cons_none (ownWrite?_of_write rfl),
      List.filterMap_cons_some hown, hwrites]
  · have htarget : m₃.sim.kernel.scheduler.target (c.half (n + 1)) =
        s.kernel.scheduler.target (c.half (n + 1)) := by
      simp only [Scheduler.target, hsame.now]
    rw [← htarget]
    exact hentry

end Turns

section Course

open Machine Recorded Simulation

variable {s₀ : Simulation} {r r' : Recorded} {s s' : Scheduler Empty Task}
  {batch batch' : List (Entry Empty)} {stop n fuel : Nat}

/-- Where a clock is between turns when some edges are over. -/
inductive Course (c : Clock) (stop n : Nat) (s : Scheduler Empty Task)
    (batch : List (Entry Empty)) : Prop
  | fresh {a : Activation} (hn : n = 0) (htask : s.tasks.get? c.task = some ⟨none, a, [c.frame 0]⟩)
      (hready : c.task ∈ s.ready) (hnow : s.now.fs = c.start)
  | asleep {seq : Nat} {a : Activation} (htask : s.tasks.get? c.task = some (c.asleep n seq a))
      (hentry : c.entry n seq ∈ s.agenda) (hfired : seq ∉ s.fired)
  | due {seq : Nat} {a : Activation} (htask : s.tasks.get? c.task = some (c.asleep n seq a))
      (hentry : c.entry n seq ∈ batch) (hnow : s.now.fs = c.edge n) (hstop : c.edge n ≤ stop)
  | woken {seq : Nat} {a : Activation} (htask : s.tasks.get? c.task = some (c.asleep n seq a))
      (hfired : seq ∈ s.fired) (hready : c.task ∈ s.ready) (hnow : s.now.fs = c.edge n)
      (hstop : c.edge n ≤ stop)

theorem Course.task (h : c.Course stop n s batch) : ∃ t, s.tasks.get? c.task = some t := by
  cases h with
  | fresh _ htask => exact ⟨_, htask⟩
  | asleep htask => exact ⟨_, htask⟩
  | due htask => exact ⟨_, htask⟩
  | woken htask => exact ⟨_, htask⟩

theorem Course.spares (h : c.Course stop n s []) (hs : s.Spares c.task s') :
    c.Course stop n s' [] := by
  cases h with
  | fresh hn htask hready hnow =>
      exact .fresh hn (hs.task.trans htask) (hs.ready hready) (hs.now ▸ hnow)
  | @asleep seq a htask hentry hfired =>
      have hmine : s.Awaits c.task seq := ⟨_, _, htask, rfl, rfl⟩
      exact .asleep (hs.task.trans htask) (hs.entry hentry hmine)
        (fun hin => hfired ((hs.fired hmine).mp hin))
  | due htask hentry => cases hentry
  | @woken seq a htask hfired hready hnow hstop =>
      have hmine : s.Awaits c.task seq := ⟨_, _, htask, rfl, rfl⟩
      exact .woken (hs.task.trans htask) ((hs.fired hmine).mpr hfired) (hs.ready hready)
        (hs.now ▸ hnow) hstop

theorem Course.take {due : List (Entry Empty)} (h : c.Course stop n s []) (hready : s.ready = [])
    (hdue : s.takeDue = some (s', due)) (hstop : s'.now.fs ≤ stop) (hbound : stop < Bounded.max64) :
    c.Course stop n s' due := by
  obtain ⟨-, hagenda, htimes, -, -⟩ := Scheduler.takeDue_spec hdue
  obtain ⟨hroster, hfiredSame, -⟩ := Scheduler.roster_takeDue hdue
  have htasks : s'.tasks = s.tasks := congrArg Roster.tasks hroster
  cases h with
  | fresh _ _ hin => simp [hready] at hin
  | @asleep seq a htask hentry hfired =>
      rw [hagenda] at hentry
      rcases List.mem_append.mp hentry with htaken | hleft
      · have htime : min (c.edge n) Bounded.max64 = s'.now.fs :=
          congrArg Instant.fs (htimes _ htaken)
        have hedge : s'.now.fs = c.edge n := by omega
        exact .due (htasks ▸ htask) htaken hedge (hedge ▸ hstop)
      · exact .asleep (htasks ▸ htask) hleft (hfiredSame ▸ hfired)
  | due _ hentry => cases hentry
  | woken _ _ hin => simp [hready] at hin

/-- The first entry taken out is a sleeper, and is woken: the clock, or another one. -/
theorem Course.fire {e : Entry Empty} {me : Waker} (h : c.Course stop n s (e :: batch))
    (ht : s.Tidy (e :: batch)) (hdue : e.due = .sleeper me) :
    c.Course stop n (s.fire e.seq me) batch := by
  have htasks : (s.fire e.seq me).tasks = s.tasks := by cases me <;> rfl
  have hnow : (s.fire e.seq me).now = s.now := by cases me <;> rfl
  have hfired : (s.fire e.seq me).fired = e.seq :: s.fired := by cases me <;> rfl
  have hagenda : (s.fire e.seq me).agenda = s.agenda := by cases me <;> rfl
  have hready {id : Nat} (hid : id ∈ s.ready) : id ∈ (s.fire e.seq me).ready := by
    cases me with
    | nobody => exact hid
    | task _ => exact List.mem_append_left _ hid
  cases h with
  | fresh hn htask hin hstart => exact .fresh hn (htasks ▸ htask) (hready hin) (hnow ▸ hstart)
  | @asleep seq a htask hentry hnot =>
      refine .asleep (htasks ▸ htask) (hagenda ▸ hentry) ?_
      rw [hfired, List.mem_cons]
      rintro (rfl | hold)
      · exact ht.apart _ hentry (by simp [Scheduler.past, entry])
      · exact hnot hold
  | @due seq a htask hentry hedge hstop =>
      rcases List.mem_cons.mp hentry with rfl | hlater
      · cases hdue
        refine .woken (htasks ▸ htask) ?_ ?_ (hnow ▸ hedge) hstop
        · rw [hfired]
          exact List.mem_cons_self ..
        · exact List.mem_append_right _ (List.mem_singleton.mpr rfl)
      · exact .due (htasks ▸ htask) hlater (hnow ▸ hedge) hstop
  | woken htask hin hid hedge hstop =>
      refine .woken (htasks ▸ htask) ?_ (hready hid) (hnow ▸ hedge) hstop
      rw [hfired]
      exact List.mem_cons_of_mem _ hin

theorem target_half (hp : 2 ≤ c.period) (hnow : s.now.fs + c.half n = c.edge n) :
    s.target (c.half n) = .ofFs (min (c.edge n) Bounded.max64) := by
  rw [Scheduler.target, if_neg (half_pos hp n).ne', Instant.after, Bounded.add64, hnow]

theorem course_endTurn {s : Simulation} {o : Outcome} {seq : Nat} {a : Activation}
    (ho : o = .parked (c.asleep n seq a)) (hcancelled : s.kernel.scheduler.cancelled = false)
    (hentry : c.entry n seq ∈ s.kernel.scheduler.agenda) (hfired : seq ∉ s.kernel.scheduler.fired) :
    c.Course stop n (s.endTurn c.task o).kernel.scheduler [] := by
  subst ho
  simp only [Simulation.endTurn, hcancelled, Bool.false_eq_true, if_false]
  exact .asleep (Table.get?_insert_self _ _ _) hentry hfired

/-- What is known of a run while a clock is in the course of it: what the clock wrote so far, and
that no edge was beyond the end of the run. -/
structure Keeps (c : Clock) (stop n : Nat) (s₀ : Simulation) (r : Recorded)
    (batch : List (Entry Empty)) : Prop extends Attended s₀ r batch where
  course : c.Course stop n r.sim.kernel.scheduler batch
  written : r.states.filterMap (ownWrite? c.task) = c.writes n
  past : ∀ k, k < n → c.edge k ≤ stop

/-- In a turn of its own a clock writes at the edge that is due, if one is. -/
theorem Keeps.turn (h : c.Keeps stop n s₀ r []) (hp : 2 ≤ c.period) {rest : List Nat}
    (hready : r.sim.kernel.scheduler.ready = c.task :: rest)
    (hrun : host.runTask fuel c.task (host.update (fun s => { s with ready := rest }) r) =
      some (r', none)) : ∃ n, c.Keeps stop n s₀ r' [] := by
  have hover := h.toAttended.turn hready hrun
  have hquiet : r.sim.kernel.scheduler.cancelled = false := h.sound.regular.quiet h.idle
  obtain ⟨t, ht⟩ := h.course.task
  generalize hok : (none : Option SimError) = fault at hrun
  cases turned_of_runTask hrun with
  | passed htask => cases ht.symm.trans htask
  | @ran t s o htask hran =>
      have hwaits := h.toAttended.waits hready htask
      have htidy := hover.tidy _ (List.mem_append_right _ (List.mem_of_head? (states_head hran)))
      have hwritten (l : List Machine) : (r.states ++ l).filterMap (ownWrite? c.task) =
          c.writes n ++ l.filterMap (ownWrite? c.task) := by
        rw [List.filterMap_append, h.written]
      generalize hbegun : (host.update (fun s => { s with ready := rest }) r).sim.beginTurn c.task =
        s₁ at hran hwaits htidy hover ⊢
      have hnow : s₁.kernel.scheduler.now = r.sim.kernel.scheduler.now := by rw [← hbegun]; rfl
      have hfired : s₁.kernel.scheduler.fired = r.sim.kernel.scheduler.fired := by
        rw [← hbegun]; rfl
      have hagenda : s₁.kernel.scheduler.agenda = r.sim.kernel.scheduler.agenda := by
        rw [← hbegun]; rfl
      have hcancelled : s₁.kernel.scheduler.cancelled = false := by rw [← hbegun]; exact hquiet
      have hentry {n seq : Nat} (hdate : s₁.kernel.scheduler.now.fs + c.half n = c.edge n)
          (hin : ⟨s₁.kernel.scheduler.target (c.half n), seq, .sleeper (.task c.task)⟩ ∈
            s.kernel.scheduler.agenda) : c.entry n seq ∈ s.kernel.scheduler.agenda := by
        rwa [target_half hp hdate] at hin
      cases h.course with
      | @fresh a hn htask' _ hstart =>
          cases htask.symm.trans htask'
          subst hn
          have hsettling : c.Settling 0 ((⟨none, a, [c.frame 0]⟩ : Task).machine s₁) :=
            .driving (.ended _ rfl rfl rfl)
          obtain ⟨hwrites, -, hsame, seq, a, ho, hnot, hin⟩ :=
            hsettling.run hwaits htidy hran hok.symm
          have hdate : s₁.kernel.scheduler.now.fs + c.half 0 = c.edge 0 := by
            rw [hnow, hstart]
            rfl
          refine ⟨0, hover, course_endTurn ho (hsame.trans hcancelled) (hentry hdate hin) hnot, ?_,
            h.past⟩
          exact (hwritten _).trans (by rw [hwrites, List.append_nil])
      | asleep htask' hold hnot =>
          cases htask.symm.trans htask'
          obtain ⟨hwrites, ho, hfired', hsame, hin⟩ :=
            run_asleep (hfired ▸ hnot) (hagenda ▸ hold) hran
          refine ⟨n, hover, course_endTurn ho (hsame.trans hcancelled) hin ?_, ?_, h.past⟩
          · rw [hfired', hfired]
            exact hnot
          · exact (hwritten _).trans (by rw [hwrites, List.append_nil])
      | due _ hin => cases hin
      | woken htask' hin _ hedge hstop =>
          cases htask.symm.trans htask'
          obtain ⟨hwrites, -, hsame, seq, a, ho, hnot, hnew⟩ :=
            run_woken (hfired ▸ hin) hwaits htidy hran hok.symm
          have hdate : s₁.kernel.scheduler.now.fs + c.half (n + 1) = c.edge (n + 1) := by
            rw [hnow, hedge]
            rfl
          refine ⟨n + 1, hover, course_endTurn ho (hsame.trans hcancelled) (hentry hdate hnew) hnot,
            ?_, fun k hk => ?_⟩
          · exact (hwritten _).trans (by rw [hwrites, writes_succ, hnow, hedge])
          · rcases Nat.lt_succ_iff_lt_or_eq.mp hk with hk | rfl
            · exact h.past k hk
            · exact hstop

/-- Whatever happens in a run, a clock keeps its course. -/
theorem Keeps.move {l : List Dispatch} (h : c.Keeps stop n s₀ r batch) (hs : Reachable s₀)
    (hp : 2 ≤ c.period) (hbound : stop < Bounded.max64)
    (hmove : host.Move stop r batch l r' batch') : ∃ n, c.Keeps stop n s₀ r' batch' := by
  have hover := h.toAttended.move hmove
  cases hmove with
  | @pass id rest hready hgone =>
      obtain ⟨t, ht⟩ := h.course.task
      have hne : id ≠ c.task := by
        rintro rfl
        cases ht.symm.trans hgone
      refine ⟨n, hover, h.course.spares ⟨rfl, rfl, fun hin => ?_, fun he _ => he, fun _ => .rfl⟩,
        h.written, h.past⟩
      rw [show r.sim.kernel.scheduler.ready = id :: rest from hready, List.mem_cons] at hin
      exact hin.resolve_left hne.symm
  | @poll _ id _ rest _ hready _ hrun =>
      by_cases hid : id = c.task
      · subst hid
        exact h.turn hp hready hrun
      · obtain ⟨t, ht⟩ := h.course.task
        obtain ⟨hspares, states, hstates, hrunning⟩ := h.toAttended.spares hs ht hready hid hrun
        refine ⟨n, hover, h.course.spares hspares, ?_, h.past⟩
        have hnone : states.filterMap (ownWrite? c.task) = [] :=
          List.filterMap_eq_nil_iff.mpr fun m hm => ownWrite?_of_running (hrunning m hm) hid
        rw [hstates, List.filterMap_append, h.written, hnone, List.append_nil]
  | @take s due hready _ hdue hstop =>
      have htaken : (host.update Scheduler.taken r).sim.kernel.scheduler = s := by
        show (r.sim.kernel.scheduler.takeDue.map (·.1)).getD r.sim.kernel.scheduler = s
        rw [show r.sim.kernel.scheduler.takeDue = some (s, _) from hdue]
        rfl
      refine ⟨n, hover, ?_, h.written, h.past⟩
      rw [htaken]
      exact h.course.take hready hdue hstop hbound
  | fire hdue => exact ⟨n, hover, h.course.fire h.sound.tidy.scheduler hdue, h.written, h.past⟩
  | @call _ _ _ body => exact nomatch body

theorem Keeps.path {l : List Dispatch} (h : c.Keeps stop n s₀ r batch) (hs : Reachable s₀)
    (hp : 2 ≤ c.period) (hbound : stop < Bounded.max64) (hpath : host.Path stop r batch l r') :
    ∃ n, c.Keeps stop n s₀ r' [] := by
  induction hpath generalizing n with
  | nil => exact ⟨n, h⟩
  | cons hmove _ ih =>
      obtain ⟨n, h⟩ := h.move hs hp hbound hmove
      exact ih h

theorem Keeps.beyond (h : c.Keeps stop n s₀ r []) (hs : Reachable s₀) (hrests : host.Rests stop r) :
    stop < c.edge n := by
  have hready : r.sim.kernel.scheduler.ready = [] := hrests.ready
  cases h.course with
  | fresh _ _ hin => simp [hready] at hin
  | asleep _ hentry _ =>
      have hlate := Scheduler.lt_of_mem_dates (h.toAttended.punctual hs).order.ascending
        hrests.beyond (Scheduler.mem_dates hentry)
      exact Nat.lt_of_lt_of_le hlate (Nat.min_le_left _ _)
  | due _ hentry => cases hentry
  | woken _ _ hin => simp [hready] at hin

end Course

end Clock

open Machine Simulation

theorem Clock.mem_writes {c : Clock} {stop n : Nat} (hp : 2 ≤ c.period)
    (hpast : ∀ k, k < n → c.edge k ≤ stop) (hbeyond : stop < c.edge n) {t : Nat} {f : FieldRef}
    {v : Value} : (t, f, v) ∈ c.writes n ↔ f = c.field ∧ t ≤ stop ∧
      ((v = .int 1 ∧ ∃ k, t = c.start + c.period / 2 + k * c.period) ∨
        (v = .int 0 ∧ ∃ k, t = c.start + (k + 1) * c.period)) := by
  have hedge (k : Nat) : k < n ↔ c.edge k ≤ stop := by
    refine ⟨hpast k, fun hle => Nat.lt_of_not_le fun hnk => ?_⟩
    rcases Nat.lt_or_eq_of_le hnk with hlt | rfl
    · exact absurd (c.edge_lt_edge hp hlt) (by omega)
    · omega
  have hrising (k : Nat) : Value.ofTruth (level (2 * k)) = 1 := by simp [level, Value.ofTruth]
  have hfalling (k : Nat) : Value.ofTruth (level (2 * k + 1)) = 0 := by
    simp [level, Value.ofTruth, Nat.add_mod]
  simp only [writes, List.mem_map, List.mem_range, Prod.mk.injEq]
  constructor
  · rintro ⟨k, hk, rfl, rfl, rfl⟩
    refine ⟨rfl, hpast k hk, ?_⟩
    rcases Nat.even_or_odd' k with ⟨j, rfl | rfl⟩
    · exact .inl ⟨by rw [hrising], j, (c.edge_even_odd j).1⟩
    · exact .inr ⟨by rw [hfalling], j, (c.edge_even_odd j).2⟩
  · rintro ⟨rfl, hstop, ⟨rfl, k, rfl⟩ | ⟨rfl, k, rfl⟩⟩
    · rw [← (c.edge_even_odd k).1] at hstop ⊢
      exact ⟨2 * k, (hedge _).mpr hstop, rfl, rfl, by rw [hrising]⟩
    · rw [← (c.edge_even_odd k).2] at hstop ⊢
      exact ⟨2 * k + 1, (hedge _).mpr hstop, rfl, rfl, by rw [hfalling]⟩

theorem Clock.writes_ascending {c : Clock} (hp : 2 ≤ c.period) (n : Nat) :
    (c.writes n).Pairwise (·.1 < ·.1) := by
  simp only [writes, List.pairwise_map]
  exact List.pairwise_lt_range.imp fun hij => c.edge_lt_edge hp hij

/-- A clock that was just started keeps its course in a run up to a time. -/
theorem Clock.keeps_runUntil {s s' : Simulation} {c : Clock} {stop fuel : Nat} (hs : Reachable s)
    (hp : 2 ≤ c.period) (hstart : c.Course stop 0 s.kernel.scheduler [])
    (hbound : stop < Bounded.max64) (hrun : s.runUntil fuel stop = some (s', .ok ()))
    (hgoes : s'.kernel.scheduler.stopped = false) :
    ∃ n, ((Command.runUntil stop).states fuel s).filterMap (ownWrite? c.task) = c.writes n ∧
      (∀ k, k < n → c.edge k ≤ stop) ∧ stop < c.edge n := by
  have hcommand : (Command.runUntil stop).run fuel s = some (s', none) := by
    simp only [Command.run, hrun, Option.map_some, Command.faultOf]
  have hrecorded : Recorded.host.runUntil fuel stop ⟨s, []⟩ =
      some (⟨s', (Command.runUntil stop).states fuel s⟩, none) := Command.recorded hcommand
  obtain ⟨log, r, hpath, hrests, hend⟩ :=
    (Host.runUntil_iff_runsUntil Recorded.host_lawful).mp ⟨⟨fuel, hrecorded⟩, hgoes⟩
  have hbegun : c.Keeps stop 0 s
      (Recorded.host.update (fun s => { s with stopped := false }) ⟨s, []⟩) [] := by
    refine ⟨?_, hstart.spares ⟨rfl, rfl, id, fun he _ => he, fun _ => .rfl⟩, rfl, ?_⟩
    · exact hs.attended.update (Step.run (.tick s.kernel 0 [] s.kernel.scheduler.now false)) rfl rfl
    · intro k hk
      cases hk
  obtain ⟨n, hkeeps⟩ := hbegun.path hs hp hbound hpath
  have hstates : (Command.runUntil stop).states fuel s = r.states := congrArg Recorded.states hend
  exact ⟨n, hstates ▸ hkeeps.written, hkeeps.past, hkeeps.beyond hs hrests⟩

/-- A task that was started as a clock and runs up to a time right after that, neither stopped nor
with a fault, sets its field at the middle of every period and clears it at the end of every one, up
to that time, and writes at no other time: whatever the design does besides. -/
theorem clock_edges_do_not_drift {s s₁ s₂ : Simulation} {path : String}
    {period id stop fuel : Nat} (h : Reachable s) (hclock : s.driveClock path period = (s₁, .ok id))
    (hbound : stop < Bounded.max64) (hrun : s₁.runUntil fuel stop = some (s₂, .ok ()))
    (hgoes : s₂.kernel.scheduler.stopped = false) :
    ∃ f, s.tree.resolveField path = .ok f ∧
      (((Command.runUntil stop).states fuel s₁).filterMap (ownWrite? id)).Pairwise (·.1 < ·.1) ∧
      ∀ t g v, (t, g, v) ∈ ((Command.runUntil stop).states fuel s₁).filterMap (ownWrite? id) ↔
        g = f ∧ t ≤ stop ∧
          ((v = .int 1 ∧ ∃ k, t = s.now.fs + period / 2 + k * period) ∨
            (v = .int 0 ∧ ∃ k, t = s.now.fs + (k + 1) * period)) := by
  have hcommand : (Command.driveClock path period).run 0 s = some (s₁, none) := by
    simp only [Command.run, hclock, Command.faultOf]
  have hreach : Reachable s₁ := h.command hcommand
  simp only [driveClock] at hclock
  split at hclock
  · cases hclock
  · rename_i hlong
    split at hclock
    · cases hclock
    · rename_i f hf
      let c : Clock := ⟨s.kernel.scheduler.nextTask, f, s.now.fs, period⟩
      have hp : 2 ≤ c.period := Nat.le_of_not_lt hlong
      obtain ⟨rfl, hid⟩ := Prod.mk.inj hclock
      obtain rfl : c.task = id := Except.ok.inj hid
      have hstart : c.Course stop 0 (s.spawn (.begin Tree.root "" .immediate)
          [.clock f (period / 2) (period - period / 2) true]).1.kernel.scheduler [] :=
        .fresh rfl (Table.get?_insert_self _ _ _)
          (List.mem_append_right _ (List.mem_singleton.mpr rfl)) rfl
      obtain ⟨n, hwritten, hpast, hbeyond⟩ :=
        Clock.keeps_runUntil hreach hp hstart hbound hrun hgoes
      rw [hwritten]
      exact ⟨f, hf, Clock.writes_ascending hp n, fun t g v => Clock.mem_writes hp hpast hbeyond⟩

def countingDesign : TypeTable :=
  ⟨[⟨"Top", .component { Component.ofName "Top" with
      body := { Body.ofName "Top" with
        fields := [.ofType "clk" (.int 1 false), .ofType "aux" (.int 1 false),
          .ofType "n" (.int 8 false)] }
      syncs := [{ Function.ofName "count" with
        body := [.assign [.ownField 2] (.binary (.ownField 2) .add (.int 1))]
        process := some ⟨.sync, some (.ownField 0), none, []⟩ }] }⟩], by decide⟩

/-- While another clock runs, a clock of five units is started at the time 3. Up to 14 its field
rises twice and falls twice. -/
theorem clock_edges_do_not_drift_with_another : ∃ s s₁ s₂ id f,
    countingDesign.after "Top" 200 [.start, .driveClock "aux" 4, .runUntil 3] = some s ∧
      s.driveClock "clk" 5 = (s₁, .ok id) ∧ s₁.runUntil 200 14 = some (s₂, .ok ()) ∧
      s₂.kernel.scheduler.stopped = false ∧ s.tree.resolveField "clk" = .ok f ∧
      (((Command.runUntil 14).states 200 s₁).filterMap (ownWrite? id)).map (·.1) = [5, 8, 10, 13] ∧
      (((Command.runUntil 14).states 200 s₁).filterMap (ownWrite? id)).Pairwise (·.1 < ·.1) ∧
      ∀ t g v, (t, g, v) ∈ ((Command.runUntil 14).states 200 s₁).filterMap (ownWrite? id) ↔
        g = f ∧ t ≤ 14 ∧
          ((v = .int 1 ∧ ∃ k, t = s.now.fs + 5 / 2 + k * 5) ∨
            (v = .int 0 ∧ ∃ k, t = s.now.fs + (k + 1) * 5)) := by
  have htest : ((countingDesign.after "Top" 200 [.start, .driveClock "aux" 4, .runUntil 3]).map
      fun s => (s.driveClock "clk" 5).2.toOption.any fun id =>
        decide ((((Command.runUntil 14).states 200 (s.driveClock "clk" 5).1).filterMap
            (ownWrite? id)).map (·.1) = [5, 8, 10, 13]) &&
          ((s.driveClock "clk" 5).1.runUntil 200 14).any fun r =>
            r.2.toOption.isSome && !r.1.kernel.scheduler.stopped) = some true := by
    decide +kernel
  obtain ⟨s, hs, htest⟩ := Option.map_eq_some_iff.mp htest
  rcases hclock : s.driveClock "clk" 5 with ⟨s₁, e | id⟩
  · rw [hclock] at htest
    cases htest
  · rw [hclock] at htest
    obtain ⟨htimes, hends⟩ := Bool.and_eq_true_iff.mp htest
    rcases hrun : s₁.runUntil 200 14 with _ | ⟨s₂, e | u⟩
    · rw [hrun] at hends
      cases hends
    · rw [hrun] at hends
      cases hends
    · rw [hrun] at hends
      have hgoes : s₂.kernel.scheduler.stopped = false := by
        simpa [Except.toOption] using hends
      obtain ⟨f, hf, hwrites⟩ := clock_edges_do_not_drift (TypeTable.reachable_after hs) hclock
        (by decide) hrun hgoes
      exact ⟨s, s₁, s₂, id, f, hs, hclock, hrun, hgoes, hf, of_decide_eq_true htimes, hwrites⟩

end Clockwork
