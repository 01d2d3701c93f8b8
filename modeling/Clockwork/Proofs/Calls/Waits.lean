import Clockwork.Proofs.Calls.Session
import Clockwork.Proofs.Concurrency.Cancellation.Sleeps
import Clockwork.Proofs.Machine.Requests
/-!
Who waits while commands run. A body that must not wait leaves nobody at any place: a wait in it is
tried once and given up in the same step (`Kernel.sheds_attempt`), so from the state before the body
began to the state in which it is given up nobody comes, and locks are granted to those only who
queued for them (`Sheds`). And in all states of all commands, whoever waits at a place is a task
with a wait of its own in progress (`Machine.Owned`).
-/

namespace Clockwork

open Executor

namespace Kernel

variable {κ ε τ : Type} {k k₁ k' : Kernel κ ε τ} {batch : List (Entry κ)}

/-- Nobody comes to a place, and locks are granted to those only who queued for them. -/
structure Sheds (k k' : Kernel κ ε τ) : Prop where
  waiting : ∀ {p x}, x ∈ k'.waiting p → x ∈ k.waiting p
  granted : ∀ {p t}, t ∈ k'.granted p → t ∈ k.granted p ∨ t ∈ (k.waiting p).map (·.1)

theorem Sheds.refl (k : Kernel κ ε τ) : k.Sheds k := ⟨id, .inl⟩

theorem Sheds.trans (h : k.Sheds k₁) (h₁ : k₁.Sheds k') : k.Sheds k' := by
  refine ⟨fun hx => h.waiting (h₁.waiting hx), fun ht => ?_⟩
  rcases h₁.granted ht with hgranted | hqueued
  · exact h.granted hgranted
  · obtain ⟨x, hx, rfl⟩ := List.mem_map.mp hqueued
    exact .inr (List.mem_map_of_mem (h.waiting hx))

theorem Change.sheds {gone : Option (Place × Nat)} (c : k.Change k' gone none) : k.Sheds k' where
  waiting {p x} hx := by
    rcases c.waiting p x hx with ⟨hold, -⟩ | hcome
    · exact hold
    · cases hcome
  granted {p t} ht := (c.granted p t ht).1

theorem sheds_poll (ht : k.Tidy batch) {me : Waker} {w : Wait} {v : Value}
    (hpoll : k.poll me w = (k', .over v)) : k.Sheds k' := by
  have hchange := change_poll ht me w
  rw [hpoll] at hchange
  exact hchange.sheds

/-- A wait that is tried once and then given up leaves nobody at any place. -/
theorem sheds_attempt (ht : k.Tidy batch) {me : Waker} {w w' : Wait}
    (hpoll : k.poll me w = (k₁, .waiting w')) : k.Sheds (k₁.abandon w') := by
  have hcome := change_poll ht me w
  rw [hpoll] at hcome
  have hgo := change_abandon (hcome.tidy ht) w'
  have hold {p : Place} {x : Nat × Waker} (hx : x ∈ k₁.waiting p)
      (hne : w'.ticket? ≠ some (p, x.1)) : x ∈ k.waiting p := by
    rcases hcome.waiting p x hx with ⟨hold, -⟩ | hparty
    · exact hold
    · obtain ⟨y, hy, heq⟩ := Option.map_eq_some_iff.mp hparty
      cases heq
      exact absurd hy hne
  constructor
  · intro p x hx
    rcases hgo.waiting p x hx with ⟨hx₁, hne⟩ | hnone
    · exact hold hx₁ hne
    · cases hnone
  · intro p t ht
    obtain ⟨hbefore, hne⟩ := hgo.granted p t ht
    rcases hbefore with hgranted | hqueued
    · exact (hcome.granted p t hgranted).1
    · obtain ⟨x, hx, rfl⟩ := List.mem_map.mp hqueued
      exact .inr (List.mem_map_of_mem (hold hx hne))

theorem Request.sheds {k k' : Kernel Empty EventHook Task} (h : k.Request k') : k.Sheds k' := by
  cases h with
  | none => exact .refl k
  | tryGet id => exact (Call.tryGet k id).change.sheds
  | tryPut id v => exact (Call.tryPut k id v).change.sheds
  | tryAcquire id => exact (Call.tryAcquire k id).change.sheds
  | release h => exact (Call.release h).change.sheds
  | setFlag id => exact (Call.setFlag k id).change.sheds
  | clearFlag id => exact (Call.clearFlag k id).change.sheds
  | spawn id owner name =>
      refine (Call.setFlag k id).change.sheds.trans ⟨fun {p x} hx => ?_, fun {p t} ht => .inl ?_⟩
      · exact (waiting_scheduler (k := (k.setFlag id).1) rfl p) ▸ hx
      · exact (granted_scheduler (k := (k.setFlag id).1) _ p) ▸ ht

def OutsideBodies (k : Kernel Empty EventHook Task) : Prop :=
  ∀ id t, k.tasks.get? id = some t → Machine.innermostBody t.stack = none

namespace OutsideBodies

variable {k k' : Kernel Empty EventHook Task}

theorem congr (h : k.OutsideBodies) (htasks : k'.tasks = k.tasks) : k'.OutsideBodies := by
  intro id t ht
  rw [htasks] at ht
  exact h id t ht

theorem insert (h : k.OutsideBodies) {id : Nat} {t : Task}
    (ht : Machine.innermostBody t.stack = none) (htasks : k'.tasks = k.tasks.insert id t) :
    k'.OutsideBodies := by
  intro id' t' ht'
  rw [htasks] at ht'
  by_cases hid : id' = id
  · subst hid
    rw [Table.get?_insert_self] at ht'
    cases ht'
    exact ht
  · rw [Table.get?_insert_of_ne _ hid] at ht'
    exact h id' t' ht'

theorem erase (h : k.OutsideBodies) {id : Nat} (htasks : k'.tasks = k.tasks.erase id) :
    k'.OutsideBodies := by
  intro id' t' ht'
  rw [htasks] at ht'
  by_cases hid : id' = id
  · subst hid
    rw [Table.get?_erase_self] at ht'
    cases ht'
  · rw [Table.get?_erase_of_ne _ hid] at ht'
    exact h id' t' ht'

theorem request (h : k.OutsideBodies) (hr : k.Request k') : k'.OutsideBodies := by
  cases hr with
  | none => exact h
  | tryGet id => exact h.congr (k.tasks_tryGet id)
  | tryPut id v => exact h.congr (k.tasks_tryPut id v)
  | tryAcquire id => exact h.congr (k.tasks_tryAcquire id)
  | release hrelease => exact h.congr (k.tasks_release hrelease)
  | setFlag id => exact h.congr (k.tasks_setFlag id)
  | clearFlag id => exact h.congr (k.tasks_clearFlag id)
  | spawn id owner name =>
      exact (h.congr (k.tasks_setFlag id)).insert (t := .calling owner name) rfl rfl

end OutsideBodies

/-- What one step does to a kernel, and to the wait that its task is in. -/
inductive Deed (me : Waker) (k : Kernel Empty EventHook Task) :
    Option Wait → Kernel Empty EventHook Task → Option Wait → Prop
  | request {k' : Kernel Empty EventHook Task} {w? : Option Wait} (h : k.Request k')
      (hnew : ∀ w, w? = some w → w.ticket? = none) : Deed me k none k' w?
  | tried {k' : Kernel Empty EventHook Task} {w : Wait} {v : Value} (hnew : w.ticket? = none)
      (hpoll : k.poll .nobody w = (k', .over v)) : Deed me k none k' none
  | dropped {k₁ : Kernel Empty EventHook Task} {w w' : Wait} (hnew : w.ticket? = none)
      (hpoll : k.poll .nobody w = (k₁, .waiting w')) : Deed me k none (k₁.abandon w') none
  | ends {k' : Kernel Empty EventHook Task} {w : Wait} {v : Value}
      (hpoll : k.poll me w = (k', .over v)) : Deed me k (some w) k' none

theorem Request.passes {k k' : Kernel Empty EventHook Task} {kept : Nat → Prop}
    (h : k.Request k') : k.scheduler.Passes kept k'.scheduler := by
  cases h with
  | none => exact .refl kept _
  | tryGet id => exact passes_wake? (k.setChannel id _) _
  | tryPut id v =>
      simp only [Kernel.tryPut]
      split
      · exact passes_wake? (k.setChannel id _) _
      · exact .refl kept _
  | tryAcquire id => exact .refl kept _
  | @release id k' hrelease =>
      simp only [Kernel.release] at hrelease
      split at hrelease <;> cases hrelease
      exact passes_wake? (k.setLock id _) _
  | setFlag id => exact .wakeAll _ _
  | clearFlag id => exact .refl kept _
  | spawn id owner name => exact Scheduler.Passes.trans (.wakeAll _ _) (.spawn _ _)

theorem passes_waiting {me : Waker} {k k₁ : Kernel Empty EventHook Task} {kept : Nat → Prop}
    {w w' : Wait} (hw : w.Other kept) (hkept : ∀ n, kept n → n < k.scheduler.nextSeq)
    (hpoll : k.poll me w = (k₁, .waiting w')) :
    k.scheduler.Passes kept k₁.scheduler ∧ w'.Other kept := by
  have hpasses := k.passes_poll me hw
  rw [hpoll] at hpasses
  refine ⟨hpasses, fun n hn hmine => ?_⟩
  rcases poll_number hpoll hn with hsame | ⟨rfl, -⟩
  · exact hw n hsame hmine
  · exact Nat.lt_irrefl _ (hkept _ hmine)

namespace Deed

variable {me : Waker} {k k' : Kernel Empty EventHook Task} {w? w?' : Option Wait}
  {batch : List (Entry Empty)} {kept : Nat → Prop}

theorem acts (h : Deed me k w? k' w?') (hs : Sound Task.wait ⟨k, held me w?, batch⟩)
    (hme : ∀ id, me = .task id → k.scheduler.running = some id) :
    Acts Task.wait ⟨k, held me w?, batch⟩ ⟨k', held me w?', batch⟩ := by
  cases h with
  | request hrequest hnew =>
      have hacts := hrequest.acts 0 batch
      refine Relation.ReflTransGen.trans hacts ?_
      cases w?' with
      | none => exact .refl
      | some w =>
          refine .single (.begin _ 0 batch (hnew w rfl) fun id hid => ?_)
          exact (hacts.running hs).trans (hme id hid)
  | @tried k' w v hnew hpoll =>
      have hbegin : Act Task.wait ⟨k, 0, batch⟩ ⟨k, {(.nobody, w)}, batch⟩ :=
        .begin _ 0 batch hnew (by simp)
      exact .head hbegin (.single (.ends 0 batch hpoll))
  | @dropped k₁ w w' hnew hpoll =>
      have hbegin : Act Task.wait ⟨k, 0, batch⟩ ⟨k, {(.nobody, w)}, batch⟩ :=
        .begin _ 0 batch hnew (by simp)
      exact .head hbegin (.head (.waits 0 batch hpoll) (.single (.drop _ 0 batch .nobody _)))
  | ends hpoll => exact .single (.ends 0 batch hpoll)

theorem outside (h : Deed me k w? k' w?') (ho : k.OutsideBodies) : k'.OutsideBodies := by
  cases h with
  | request hrequest hnew => exact ho.request hrequest
  | @tried _ w _ hnew hpoll =>
      have htasks := k.tasks_poll .nobody w
      rw [hpoll] at htasks
      exact ho.congr htasks
  | @dropped k₁ w w' hnew hpoll =>
      have htasks := k.tasks_poll .nobody w
      rw [hpoll] at htasks
      exact ho.congr ((k₁.tasks_abandon w').trans htasks)
  | @ends _ w _ hpoll =>
      have htasks := k.tasks_poll me w
      rw [hpoll] at htasks
      exact ho.congr htasks

theorem sheds (h : Deed me k w? k' w?') (ht : k.Tidy batch) : k.Sheds k' := by
  cases h with
  | request hrequest hnew => exact hrequest.sheds
  | tried hnew hpoll => exact sheds_poll ht hpoll
  | dropped hnew hpoll => exact sheds_attempt ht hpoll
  | ends hpoll => exact sheds_poll ht hpoll

theorem passes (h : Deed me k w? k' w?') (hkept : ∀ n, kept n → n < k.scheduler.nextSeq)
    (hw : ∀ w, w? = some w → w.Other kept) :
    k.scheduler.Passes kept k'.scheduler ∧ ∀ w, w?' = some w → w.Other kept := by
  cases h with
  | request hrequest hnew => exact ⟨hrequest.passes, fun w hw' => .of_new (hnew w hw')⟩
  | @tried _ w _ hnew hpoll =>
      have hpasses := k.passes_poll .nobody (.of_new hnew : w.Other kept)
      rw [hpoll] at hpasses
      exact ⟨hpasses, nofun⟩
  | dropped hnew hpoll =>
      obtain ⟨hpasses, hother⟩ := passes_waiting (.of_new hnew) hkept hpoll
      exact ⟨hpasses.trans (passes_abandon _ hother), nofun⟩
  | ends hpoll =>
      have hpasses := k.passes_poll me (hw _ rfl)
      rw [hpoll] at hpasses
      exact ⟨hpasses, nofun⟩

end Deed

end Kernel

namespace Machine

variable {me : Waker} {batch : List (Entry Empty)} {m m' : Machine}

def wait? (m : Machine) : Option Wait :=
  match m.control with
  | .await w => if (innermostBody m.stack).isSome then none else some w
  | _ => none

theorem wait?_await {w : Wait} (hc : m.control = .await w) (hin : innermostBody m.stack = none) :
    m.wait? = some w := by
  simp [wait?, hc, hin]

theorem wait?_inside (hin : (innermostBody m.stack).isSome) : m.wait? = none := by
  unfold wait?
  split
  · rw [if_pos hin]
  · rfl

theorem wait?_of_ne (h : ∀ w, m.control ≠ .await w) : m.wait? = none := by
  unfold wait?
  split
  · rename_i w hc
    exact absurd hc (h w)
  · rfl

theorem wait?_eq_some {w : Wait} (h : m.wait? = some w) :
    m.control = .await w ∧ innermostBody m.stack = none := by
  unfold wait? at h
  split at h
  · rename_i w' hc
    split at h
    · cases h
    · rename_i hin
      cases h
      exact ⟨hc, by simpa using hin⟩
  · cases h

/-- What is known of a run whose waits are polled with a waker. -/
structure Waits (me : Waker) (batch : List (Entry Empty)) (m : Machine) : Prop where
  sound : Sound Task.wait ⟨m.sim.kernel, held me m.wait?, batch⟩
  waker : m.sim.waker = me
  fresh : ∀ w, m.control = .await w → (innermostBody m.stack).isSome → w.ticket? = none
  outside : m.sim.kernel.OutsideBodies

theorem running_of_waker {s : Simulation} {id : Nat} (h : s.waker = .task id) :
    s.kernel.scheduler.running = some id := by
  unfold Simulation.waker at h
  split at h
  · rename_i id' hrunning
    cases h
    exact hrunning
  · cases h

theorem idle_of_waker {s : Simulation} (h : s.waker = .nobody) :
    s.kernel.scheduler.running = none := by
  unfold Simulation.waker at h
  split at h
  · cases h
  · assumption

theorem waker_congr {s s' : Simulation}
    (h : s'.kernel.scheduler.running = s.kernel.scheduler.running) : s'.waker = s.waker := by
  simp only [Simulation.waker, h]

theorem Asks.deed (h : m.Asks m') (hwait : ∀ w, m.control ≠ .await w) :
    Kernel.Deed me m.sim.kernel m.wait? m'.sim.kernel m'.wait? := by
  rw [wait?_of_ne hwait]
  exact .request h.request fun w hw => h.not_queued (wait?_eq_some hw).1

theorem ticket?_of_step (h : m.step me = .go m') : m'.control.ticket? = none := by
  by_cases hwait : ∃ w, m.control = .await w
  · obtain ⟨w, hc⟩ := hwait
    simp only [step, hc] at h
    rcases await_go h with ⟨k, v, -, rfl⟩ | ⟨k, process, rest, -, -, rfl⟩
    · rfl
    · rfl
  · exact (step_asks h fun w hc => hwait ⟨w, hc⟩).fresh

namespace Waits

theorem running (h : m.Waits me batch) {id : Nat} (hid : me = .task id) :
    m.sim.kernel.scheduler.running = some id :=
  running_of_waker (h.waker.trans hid)

theorem deed (h : m.Waits me batch) (hstep : m.step me = .go m') :
    Kernel.Deed me m.sim.kernel m.wait? m'.sim.kernel m'.wait? := by
  by_cases hwait : ∃ w, m.control = .await w
  · obtain ⟨w, hc⟩ := hwait
    cases hin : innermostBody m.stack with
    | none =>
        rw [wait?_await hc hin]
        simp only [step, hc, Machine.await, hin] at hstep
        rcases hpoll : m.sim.kernel.poll me w with ⟨k, v | w'⟩
        all_goals
          rw [hpoll] at hstep
          cases hstep
        exact .ends hpoll
    | some r =>
        have hsome : (innermostBody m.stack).isSome := by rw [hin]; rfl
        rw [wait?_inside hsome]
        simp only [step, hc, Machine.await, hin] at hstep
        rcases hpoll : m.sim.kernel.poll .nobody w with ⟨k, v | w'⟩
        all_goals
          rw [hpoll] at hstep
          cases hstep
        · exact .tried (h.fresh w hc hsome) hpoll
        · exact .dropped (h.fresh w hc hsome) hpoll
  · have hother : ∀ w, m.control ≠ .await w := fun w hc => hwait ⟨w, hc⟩
    exact (step_asks hstep hother).deed hother

theorem next (h : m.Waits me batch)
    (hd : Kernel.Deed me m.sim.kernel m.wait? m'.sim.kernel m'.wait?)
    (hfresh : m'.control.ticket? = none) : m'.Waits me batch := by
  have hacts := hd.acts h.sound fun _ => h.running
  exact ⟨h.sound.acts hacts, (waker_congr (hacts.running h.sound)).trans h.waker,
    fun w hc _ => by rwa [hc] at hfresh, hd.outside h.outside⟩

theorem step (h : m.Waits me batch) (hstep : m.step me = .go m') : m'.Waits me batch :=
  h.next (h.deed hstep) (ticket?_of_step hstep)

theorem asks (h : m.Waits me batch) (ha : m.Asks m') (hwait : ∀ w, m.control ≠ .await w) :
    m'.Waits me batch :=
  h.next (ha.deed hwait) ha.fresh

end Waits

def Outcome.wait? : Outcome → Option Wait
  | .over _ => none
  | .parked t => t.wait

structure WaitsEnd (me : Waker) (batch : List (Entry Empty)) (m : Machine) (s : Simulation)
    (o : Outcome) : Prop where
  acts : Acts Task.wait ⟨m.sim.kernel, held me m.wait?, batch⟩ ⟨s.kernel, held me o.wait?, batch⟩
  sound : Sound Task.wait ⟨s.kernel, held me o.wait?, batch⟩
  waker : s.waker = me
  outside : s.kernel.OutsideBodies
  parked : ∀ t, o = .parked t → innermostBody t.stack = none

theorem parked_poll {t : Task} {s : Simulation} (h : m.step me = .parked t s) :
    ∃ w w' k, m.control = .await w ∧ innermostBody m.stack = none ∧
      m.sim.kernel.poll me w = (k, .waiting w') ∧ t = ⟨some w', m.activation, m.stack⟩ ∧
      s = m.sim.setKernel k := by
  obtain ⟨hin, hdone, -⟩ := step_parked h
  unfold step at h
  split at h
  · cases h
  · cases h
  · cases h
  · cases h
  · rename_i w hc
    simp only [Machine.await, hin] at h
    rcases hpoll : m.sim.kernel.poll me w with ⟨k, v | w'⟩
    all_goals
      rw [hpoll] at h
      cases h
    exact ⟨w, w', k, hc, hin, hpoll, rfl, rfl⟩
  · rename_i c hc
    exact absurd hc (hdone c)

theorem Waits.run_keeps {J : Kernel Empty EventHook Task → Option Wait → Prop}
    (h : m.Waits me batch) (hJ : J m.sim.kernel m.wait?)
    (hdeed : ∀ {k k' w? w?'}, Kernel.Deed me k w? k' w?' → J k w? → J k' w?')
    (hpark : ∀ {k k' w w'}, k.poll me w = (k', .waiting w') → J k (some w) → J k' (some w'))
    {fuel : Nat} {s : Simulation} {o : Outcome} (hrun : m.run me fuel = some (s, o)) :
    J s.kernel o.wait? ∧ ∀ m' ∈ m.states me fuel, J m'.sim.kernel m'.wait? := by
  have hkeep : ∀ m' ∈ m.states me fuel, m'.Waits me batch ∧ J m'.sim.kernel m'.wait? :=
    states_keep (fun h hstep => ⟨h.1.step hstep, hdeed (h.1.deed hstep) h.2⟩) fuel ⟨h, hJ⟩
  refine ⟨?_, fun m' hm' => (hkeep m' hm').2⟩
  obtain ⟨m', hlast, hend⟩ := run_ends hrun
  have hm' := (hkeep m' (List.mem_of_getLast? hlast)).2
  rcases hend with ⟨c, rfl, hover⟩ | ⟨t, rfl, hparked⟩
  · obtain ⟨-, hc, rfl⟩ := step_over hover
    rwa [wait?_of_ne (by simp [hc])] at hm'
  · obtain ⟨w, w', k, hc, hin, hpoll, rfl, rfl⟩ := parked_poll hparked
    rw [wait?_await hc hin] at hm'
    exact hpark hpoll hm'

theorem Waits.run (h : m.Waits me batch) {fuel : Nat} {s : Simulation} {o : Outcome}
    (hrun : m.run me fuel = some (s, o)) : WaitsEnd me batch m s o := by
  let start : Executor Empty EventHook Task := ⟨m.sim.kernel, held me m.wait?, batch⟩
  let J (k : Kernel Empty EventHook Task) (w? : Option Wait) : Prop :=
    Acts Task.wait start ⟨k, held me w?, batch⟩ ∧ k.OutsideBodies
  have hJ : J s.kernel o.wait? := by
    refine (h.run_keeps (J := J) ⟨.refl, h.outside⟩ (fun hdeed hJ => ?_)
      (fun hpoll hJ => ?_) hrun).1
    · obtain ⟨hacts, houtside⟩ := hJ
      refine ⟨hacts.trans (hdeed.acts (h.sound.acts hacts) fun id hid => ?_),
        hdeed.outside houtside⟩
      exact (hacts.running h.sound).trans (h.running hid)
    · obtain ⟨hacts, houtside⟩ := hJ
      rename_i k k' w w'
      have htasks := k.tasks_poll me w
      rw [hpoll] at htasks
      exact ⟨hacts.trans (.single (.waits 0 batch hpoll)), houtside.congr htasks⟩
  obtain ⟨hacts, houtside⟩ := hJ
  have hwaker := (waker_congr (hacts.running h.sound)).trans h.waker
  refine ⟨hacts, h.sound.acts hacts, hwaker, houtside, ?_⟩
  rintro t rfl
  obtain ⟨m', -, ⟨c, ho, -⟩ | ⟨t', ho, hparked⟩⟩ := run_ends hrun
  · cases ho
  · cases ho
    obtain ⟨-, -, -, -, hin, -, rfl, -⟩ := parked_poll hparked
    exact hin

end Machine

def Frame.isGround : Frame → Bool
  | .driven | .settled | .boundary _ _ => true
  | _ => false

namespace Machine

variable {me : Waker} {m m' : Machine} {s : Simulation}

/-- All of a run above a stack belongs to a write or to a body that must not wait, or is over. -/
inductive Grounded (base : List Frame) (m : Machine) : Prop
  | above (y : List Frame) (f : Frame) (hs : m.stack = y ++ f :: base) (hf : f.isGround = true)
  | ended (c : Completion) (hc : m.control = .done c) (hplain : c.isPlain = true)
      (hs : m.stack = base)

namespace Grounded

variable {base : List Frame}

theorem inside (h : Grounded base m) (hl : m.Layered) (hc : ∀ c, m.control ≠ .done c) :
    (innermostBody m.stack).isSome := by
  cases h with
  | ended c hdone _ _ => exact absurd hdone (hc c)
  | above y f hs hf =>
      rw [Option.isSome_iff_ne_none]
      intro hnone
      have hbodies := no_boundary_of_innermostBody hnone
      have hbodily := (hl.looking hc).onBody
      have hstack := hl.stack
      rw [← List.append_nil m.stack] at hstack hbodily
      have hmem : f ∈ m.stack := by simp [hs]
      have hwork := hstack.body hbodily hbodies f hmem
      cases f with
      | boundary process caller => exact hbodies _ hmem process caller rfl
      | driven => cases hwork
      | settled => cases hwork
      | _ => cases hf

theorem onto {f : Frame} (hf : f.isGround = true) (m₀ : Machine) :
    Grounded base (m₀.onto (f :: base)) := .above m₀.stack f rfl hf

theorem write (hs : m.stack = base) (f : FieldRef) (v : Value) :
    Grounded base (m.write f v .immediate) := by
  rcases m.write_cases f v .immediate with ⟨e, heq⟩ | ⟨slot, -, -, -, heq⟩
  · rw [heq]
    exact .ended _ rfl rfl hs
  · rw [heq rfl]
    let m₀ : Machine :=
      ⟨m.control, m.activation, [], { m.sim with driveDepth := m.sim.driveDepth + 1 }⟩
    show Grounded base ((m₀.onto (.driven :: m.stack)).drive f v)
    rw [drive_onto, hs]
    exact onto rfl _

/-- What is left below the lowest frame is over, or settles. -/
theorem endDrive (hs : m.stack = base) {c : Completion} (hplain : c.isPlain = true) :
    Grounded base (m.endDrive c) := by
  by_cases hin : 0 < m.undriven.sim.driveDepth
  · rw [endDrive_inner c hin]
    exact .ended c rfl hplain hs
  · have hsettle : Grounded base m.undriven.settle := by
      cases hround : m.undriven.sim.inRound with
      | true =>
          rw [settle_inRound hround]
          exact .ended _ rfl rfl hs
      | false =>
          rw [settle_outside hround]
          let m₀ : Machine :=
            ⟨m.control, m.activation, [], { m.undriven.sim with inRound := true }⟩
          show Grounded base (m₀.onto (.settled :: m.stack)).round
          rw [round_onto, hs]
          exact onto rfl _
    cases c with
    | failed e =>
        cases hround : m.sim.inRound with
        | true =>
            rw [endDrive_failed_inRound e hin hround]
            exact .ended _ rfl rfl hs
        | false =>
            rw [endDrive_failed_outside e hin hround]
            exact .ended _ rfl rfl hs
    | value v =>
        rw [endDrive_settle hin (by simp)]
        exact hsettle
    | _ => cases hplain

theorem ground {f : Frame} (hf : f.isGround = true) (hl : m.Layered) {c : Completion}
    (hc : m.control = .done c) (hs : m.stack = f :: base) (hstep : m.step me = .go m') :
    Grounded base m' := by
  rw [step_done hc hs] at hstep
  cases hstep
  have hplain (hwork : f.isWork = true) : c.isPlain = true := by
    obtain ⟨c', hc', hplain⟩ := hl.control (by simp [hs, onBody, hwork])
    cases hc.symm.trans hc'
    exact hplain
  cases f with
  | boundary process caller => cases c <;> exact .ended _ rfl rfl rfl
  | driven =>
      have hend : ({ m with stack := base } : Machine).accept .driven c =
          ({ m with stack := base } : Machine).endDrive c := by cases c <;> rfl
      rw [hend]
      exact endDrive (m := { m with stack := base }) rfl (hplain rfl)
  | settled =>
      have hplain := hplain rfl
      cases c with
      | value v => exact .ended _ rfl rfl rfl
      | failed e => exact .ended _ rfl rfl rfl
      | _ => cases hplain
  | _ => cases hf

theorem step (h : Grounded base m) (hbase : innermostBody base = none) (hl : m.Layered)
    (hne : m.stack ≠ base) (hstep : m.step me = .go m') : Grounded base m' := by
  cases h with
  | ended c hc _ hs => exact absurd hs hne
  | above y f hs hf =>
      by_cases hend : y = [] ∧ ∃ c, m.control = .done c
      · obtain ⟨rfl, c, hc⟩ := hend
        exact ground hf hl hc hs hstep
      · have hgo : y ≠ [] ∨ ∀ c, m.control ≠ .done c := by
          by_cases hy : y = []
          · exact .inr fun c hc => hend ⟨hy, c, hc⟩
          · exact .inl hy
        rcases step_above hs hgo hstep with ⟨y', hs'⟩ | ⟨process, rest, e, hin, hs', hc'⟩
        · exact .above y' f hs' hf
        · -- The innermost body below is the lowest frame itself.
          cases f with
          | boundary name caller =>
              cases hin
              exact .above [] _ hs' rfl
          | driven => cases hbase.symm.trans hin
          | settled => cases hbase.symm.trans hin
          | _ => cases hf

end Grounded

/-- A run from outside of all tasks; at the end of an event its value is dropped. -/
def Outer (m : Machine) : Prop := Grounded [] m ∨ Grounded [.discard] m

namespace Outer

theorem inside (h : Outer m) (hl : m.Layered) (hc : ∀ c, m.control ≠ .done c) :
    (innermostBody m.stack).isSome :=
  h.elim (·.inside hl hc) (·.inside hl hc)

theorem step (h : Outer m) (hl : m.Layered) (hstep : m.step me = .go m') : Outer m' := by
  rcases h with h | h
  · by_cases hs : m.stack = []
    · cases h with
      | above y f hs' _ => simp [hs] at hs'
      | ended c hc _ _ =>
          simp only [Machine.step, hc, hs] at hstep
          cases hstep
    · exact .inl (h.step rfl hl hs hstep)
  · by_cases hs : m.stack = [.discard]
    · cases h with
      | above y f hs' hf =>
          cases y with
          | nil => simp [hs] at hs'
          | cons g y => simp [hs] at hs'
      | ended c hc hplain _ =>
          rw [step_done hc hs] at hstep
          cases hstep
          cases c with
          | value v => exact .inl (.ended _ rfl rfl rfl)
          | failed e => exact .inl (.ended _ rfl rfl rfl)
          | _ => cases hplain
    · exact .inr (h.step rfl hl hs hstep)

theorem begins {outer : FieldRef → Prop} (hm : s.Begins outer m) : Outer m := by
  cases hm with
  | write f v _ => exact .inl (.write (m := s.machine) rfl f v)
  | combs =>
      let m₀ : Machine := { s.machine with sim := { s with driveDepth := s.driveDepth + 1 } }
      show Outer ((m₀.onto [.driven]).runCombs s.wiring.order)
      rw [runCombs_onto]
      exact .inl (.onto rfl _)
  | call owner function args =>
      show Outer ((s.machine.onto [.boundary function s.machine.activation]).callFunction owner
        function args [] .immediate)
      rw [callFunction_onto]
      exact .inl (.onto rfl _)
  | event event =>
      rcases h : s.kernel.setFlag event with ⟨k, _ | hook | hook⟩
      all_goals simp only [setEvent, Simulation.machine, h]
      · exact .inl (.ended _ rfl rfl rfl)
      · let m₀ : Machine := (s.setKernel k).machine
        show Outer ((m₀.onto [.boundary hook.method m₀.activation, .discard]).callFunction
          hook.owner hook.method [] [] .immediate)
        rw [callFunction_onto]
        exact .inr (.onto rfl _)
      · split
        · exact .inl (.ended _ rfl rfl rfl)
        · exact .inl (.ended _ rfl rfl rfl)

theorem states {s₀ : Simulation} (h : Outer m) (ht : m.Tidy s₀) (fuel : Nat) :
    ∀ m' ∈ m.states me fuel, m'.Tidy s₀ ∧ Outer m' :=
  states_keep (fun h hstep => ⟨h.1.step hstep, h.2.step h.1.toLayered hstep⟩) fuel ⟨ht, h⟩

end Outer

variable {me : Waker} {batch : List (Entry Empty)} {m m' : Machine} {s : Simulation}

theorem asks_begins {outer : FieldRef → Prop} (hm : s.Begins outer m) : s.machine.Asks m := by
  cases hm with
  | write f v _ => exact write_asks f v .immediate
  | combs => exact (runCombs_asks s.wiring.order).after rfl
  | call owner function args => exact callNow_asks owner function args
  | event event => exact setEvent_asks event

structure Attended (m : Machine) : Prop where
  waits : ∃ batch, m.Waits m.sim.waker batch
  inside : m.sim.waker = .nobody → ∀ w, m.control = .await w → (innermostBody m.stack).isSome

/-- Nobody comes to a place on the way from a state to the next one, unless that is outside of all
bodies that must not wait. -/
def Led (m m' : Machine) : Prop :=
  m.sim.kernel.Sheds m'.sim.kernel ∨ innermostBody m'.stack = none

structure Followed (states : List Machine) : Prop where
  all : ∀ m ∈ states, m.Attended
  linked : Linked Led states
  first : ∀ m, states.head? = some m → innermostBody m.stack = none

theorem Followed.nil : Followed [] := ⟨by simp, .nil, by simp⟩

theorem Followed.append {l l' : List Machine} (h : Followed l) (h' : Followed l') :
    Followed (l ++ l') := by
  refine ⟨fun m hm => ?_, ?_, fun m hm => ?_⟩
  · exact (List.mem_append.mp hm).elim (h.all m) (h'.all m)
  · exact h.linked.append h'.linked fun a b _ hb => .inr (h'.first b hb)
  · cases l with
    | nil => exact h'.first m hm
    | cons a l => exact h.first m hm

theorem eq_of_states_head {waker : Waker} {fuel : Nat}
    (h : (m.states waker fuel).head? = some m') : m' = m := by
  cases fuel with
  | zero => cases h
  | succ fuel =>
      rw [states, List.head?_cons] at h
      exact (Option.some.inj h).symm

theorem Waits.linked (h : m.Waits me batch) (fuel : Nat) : Linked Led (m.states me fuel) := by
  induction fuel generalizing m with
  | zero => exact .nil
  | succ fuel ih =>
      rw [states]
      cases hstep : m.step me with
      | go m' =>
          refine (ih (h.step hstep)).cons fun b hb => ?_
          rw [eq_of_states_head hb]
          exact .inl ((h.deed hstep).sheds h.sound.tidy)
      | _ => exact Linked.nil.cons (by simp)

theorem wait?_task {t : Task} (ht : innermostBody t.stack = none) :
    (t.machine s).wait? = t.wait := by
  rcases t with ⟨_ | w, activation, stack⟩
  · rfl
  · exact wait?_await rfl ht

theorem waits_task {t : Task} (hsound : Sound Task.wait ⟨s.kernel, held me t.wait, batch⟩)
    (hwaker : s.waker = me) (houtside : s.kernel.OutsideBodies)
    (ht : innermostBody t.stack = none) : (t.machine s).Waits me batch := by
  refine ⟨?_, hwaker, fun w _ hin => ?_, houtside⟩
  · rw [wait?_task ht]
    exact hsound
  · rw [show innermostBody (t.machine s).stack = none from ht] at hin
    cases hin

theorem followed_task {t : Task} {id : Nat} (h : (t.machine s).Waits (.task id) batch)
    (ht : innermostBody t.stack = none) (fuel : Nat) :
    Followed ((t.machine s).states (.task id) fuel) := by
  refine ⟨fun m hm => ?_, h.linked fuel, fun m hm => ?_⟩
  · have hm := states_keep Waits.step fuel h m hm
    refine ⟨⟨batch, hm.waker.symm ▸ hm⟩, fun hnone => ?_⟩
    cases hm.waker.symm.trans hnone
  · rw [eq_of_states_head hm]
    exact ht

theorem followed_begins {s₀ : Simulation} {outer : FieldRef → Prop}
    (h : s.machine.Waits .nobody batch) (hm : s.Begins outer m) (htidy : m.Tidy s₀) (fuel : Nat) :
    Followed (s.machine :: m.states .nobody fuel) := by
  have hidle : ∀ w, s.machine.control ≠ .await w := by simp [Simulation.machine]
  have hbegun := h.asks (asks_begins hm) hidle
  have hall {m' : Machine} (hw : m'.Waits .nobody batch)
      (hin : ∀ w, m'.control = .await w → (innermostBody m'.stack).isSome) : m'.Attended :=
    ⟨⟨batch, hw.waker.symm ▸ hw⟩, fun _ => hin⟩
  refine ⟨fun m' hm' => ?_, (hbegun.linked fuel).cons fun b hb => ?_, fun m' hm' => ?_⟩
  · rcases List.mem_cons.mp hm' with rfl | hm'
    · exact hall h (by simp [Simulation.machine])
    · have hw := states_keep Waits.step fuel hbegun m' hm'
      obtain ⟨hlayered, hground⟩ := (Outer.begins hm).states htidy fuel m' hm'
      refine hall hw fun w hc => hground.inside hlayered.toLayered ?_
      simp [hc]
  · rw [eq_of_states_head hb]
    have hdeed : Kernel.Deed .nobody s.kernel s.machine.wait? m.sim.kernel m.wait? :=
      (asks_begins hm).deed hidle
    exact .inl (hdeed.sheds h.sound.tidy)
  · cases hm'
    rfl

end Machine

end Clockwork
