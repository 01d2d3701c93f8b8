import Clockwork.Proofs.Concurrency.Cancellation.Hosts
import Clockwork.Script.Machine

namespace Clockwork.Script

open Executor

def Kept.wait? : Kept → Option Wait
  | .wait w _ => some w
  | .guard _ => none

theorem Instr.ticket?_wait? {i : Instr} {wait : Wait} (h : i.wait? = some wait) :
    wait.ticket? = none := by
  cases i <;> cases h <;> rfl

def Next.world : Next → World
  | .go _ w => w
  | .await _ _ w => w
  | .stop _ w => w

namespace World

def scheduler (w : World) : Scheduler Labelled Task := w.kernel.scheduler

def keptWaits (w : World) : Multiset (Waker × Wait) :=
  heldBy (fun _ => .nobody) (fun e => e.2.wait?) w.kept.entries

theorem keptWaits_congr {w w' : World} (h : w'.kept = w.kept) : w'.keptWaits = w.keptWaits := by
  rw [keptWaits, keptWaits, h]

/-- Acts on the executor lead from a world to another one, whatever waits there are besides. -/
structure ActsTo (w w' : World) : Prop where
  acts : ∀ loose batch, Acts Task.wait ⟨w.kernel, loose, batch⟩ ⟨w'.kernel, loose, batch⟩
  kept : w'.kept = w.kept

variable {w w' : World}

namespace ActsTo

theorem refl (w : World) : w.ActsTo w := ⟨fun _ _ => .refl, rfl⟩

theorem trans {w₁ : World} (h₁ : w.ActsTo w₁) (h : w₁.ActsTo w') : w.ActsTo w' :=
  ⟨fun loose batch => (h₁.acts loose batch).trans (h.acts loose batch), h.kept.trans h₁.kept⟩

theorem of_act (hact : ∀ loose batch, Act Task.wait ⟨w.kernel, loose, batch⟩
    ⟨w'.kernel, loose, batch⟩) (hkept : w'.kept = w.kept) : w.ActsTo w' :=
  ⟨fun loose batch => .single (hact loose batch), hkept⟩

theorem of_call (hcall : w.kernel.Call w'.kernel) (hkept : w'.kept = w.kept) : w.ActsTo w' :=
  of_act (fun loose batch => .call loose batch hcall) hkept

theorem callsTo (h : w.ActsTo w') : w.scheduler.CallsTo w'.scheduler := (h.acts 0 []).callsTo

end ActsTo

variable (w)

theorem actsTo_unlock (lock : Nat) : w.ActsTo (w.unlock lock) := by
  unfold unlock
  split
  · rename_i k hrelease
    exact .of_call (.release hrelease) rfl
  · exact .refl w

theorem actsTo_unwind (stack : List Frame) : w.ActsTo (w.unwind stack) := by
  unfold unwind
  induction stack generalizing w with
  | nil => exact .refl w
  | cons frame stack ih =>
      refine ActsTo.trans ?_ (ih _)
      cases frame with
      | holding label lock => exact w.actsTo_unlock lock
      | _ => exact .refl w

theorem actsTo_abandon (task : Task) :
    ActsTo { w with kernel := w.kernel.giveUp task.wait } (abandon task w) := by
  unfold abandon
  cases task.wait with
  | none => exact w.actsTo_unwind task.stack
  | some wait => exact actsTo_unwind _ task.stack

theorem actsTo_start (stack : List Frame) : w.ActsTo (w.start stack).1 :=
  .of_act (fun loose batch => .spawn w.kernel loose batch rfl) rfl

theorem actsTo_cancel (id : Nat) : w.ActsTo (host.cancel w id) := by
  have hcancel : ActsTo w
      { w with
        kernel := Kernel.giveUp { w.kernel with scheduler := (w.kernel.scheduler.cancel id).1 }
          ((w.kernel.scheduler.cancel id).2.bind Task.wait) } :=
    .of_act (fun loose batch => .cancel ⟨w.kernel, loose, batch⟩ id) rfl
  refine hcancel.trans ?_
  simp only [Host.cancel, host]
  cases (w.kernel.scheduler.cancel id).2 with
  | none => exact .refl _
  | some task => exact actsTo_abandon (w.updateScheduler fun s => (s.cancel id).1) task

theorem instant_cancel (label : String) {n id : Nat} (h : w.spawned[n]? = some id) :
    w.instant label (.cancel n) = .ok (host.cancel w id, .nothing, none) := by
  simp only [instant, h, Host.cancel, host]
  cases (w.kernel.scheduler.cancel id).2 <;> rfl

/-- An instruction that does not wait acts on the executor. -/
theorem actsTo_instant {label : String} {i : Instr} {r : World × Outcome × Option Labelled}
    (h : w.instant label i = .ok r) : w.ActsTo r.1 := by
  cases i with
  | log | inspect | isLocked | isSet | isDone | wait | waitDelta | put | putEnd | get | getEnd
  | acquire | waitFor | guarded | times | forever =>
      cases h
      exact .refl w
  | fail => cases h
  | tryPut ch v =>
      cases h
      exact .of_call (.tryPut w.kernel ch v) rfl
  | tryGet ch =>
      cases h
      exact .of_call (.tryGet w.kernel ch) rfl
  | ends ch v =>
      cases h
      have hput : w.ActsTo { w with kernel := (w.kernel.tryPut ch v).1 } :=
        .of_call (.tryPut w.kernel ch v) rfl
      exact hput.trans (.of_call (.tryGet _ ch) rfl)
  | tryAcquire l =>
      cases h
      exact .of_call (.tryAcquire w.kernel l) rfl
  | release l =>
      simp only [instant] at h
      split at h
      · rename_i k hrelease
        cases h
        exact .of_call (.release hrelease) rfl
      · cases h
  | set e =>
      have hset : w.ActsTo { w with kernel := (w.kernel.setFlag e).1 } :=
        .of_call (.setFlag w.kernel e) rfl
      simp only [instant] at h
      split at h
      · cases h
        exact hset
      · cases h
        exact hset
      · cases h
        exact hset.trans (actsTo_start _ _)
  | clear e =>
      cases h
      exact .of_call (.clearFlag w.kernel e) rfl
  | stop =>
      cases h
      exact .of_call (.stop w.kernel) rfl
  | spawn program =>
      cases h
      exact ⟨(w.actsTo_start _).acts, rfl⟩
  | cancel n =>
      cases hid : w.spawned[n]? with
      | none =>
          simp only [instant, hid] at h
          cases h
          exact .refl w
      | some id =>
          rw [w.instant_cancel label hid] at h
          cases h
          exact w.actsTo_cancel id
  | after delay body =>
      cases h
      exact .of_call (.after w.kernel delay _) rfl
  | bindCallback e immediate body =>
      simp only [instant] at h
      split at h
      · rename_i ev hbind
        cases h
        exact .of_call (.bindCallback hbind) rfl
      · cases h

/-- Where a step leads by acts, and that a wait it leads to is a new one. -/
structure Stepped (w : World) (next : Next) : Prop where
  actsTo : w.ActsTo next.world
  fresh : ∀ {wait stack w'}, next = .await wait stack w' → wait.ticket? = none

theorem Stepped.of_go {stack : List Frame} (h : w.ActsTo w') : w.Stepped (.go stack w') :=
  ⟨h, nofun⟩

theorem stepped_begin (label : String) (i : Instr) (stack : List Frame) :
    w.Stepped (w.begin label i stack) := by
  unfold begin
  split
  · exact .of_go _ (.refl w)
  · exact .of_go _ (.refl w)
  · refine ⟨.refl w, fun heq => ?_⟩
    cases heq
    rfl
  · split
    · rename_i wait hwait
      refine ⟨.refl w, fun heq => ?_⟩
      cases heq
      exact Instr.ticket?_wait? hwait
    · split
      · exact ⟨w.actsTo_unwind stack, nofun⟩
      · rename_i hinstant
        exact .of_go _ ⟨(w.actsTo_instant hinstant).acts, (w.actsTo_instant hinstant).kept⟩
      · rename_i hinstant
        exact .of_go _ (w.actsTo_instant hinstant)

theorem stepped_step (stack : List Frame) : w.Stepped (w.step stack) := by
  cases stack with
  | nil => exact ⟨.refl w, nofun⟩
  | cons frame stack =>
      cases frame with
      | program label rest =>
          cases rest with
          | nil => exact .of_go _ ⟨(ActsTo.refl w).acts, rfl⟩
          | cons i rest => exact w.stepped_begin label i _
      | callback label rest =>
          cases rest with
          | nil => exact .of_go _ (.refl w)
          | cons i rest => exact w.stepped_begin label i _
      | awaiting => exact .of_go _ (.refl w)
      | locking => exact .of_go _ ⟨(ActsTo.refl w).acts, rfl⟩
      | holding label l =>
          exact .of_go _ ⟨(w.actsTo_unlock l).acts, (w.actsTo_unlock l).kept⟩
      | setting => exact .of_go _ ⟨(ActsTo.refl w).acts, rfl⟩
      | times label n program => cases n <;> exact .of_go _ (.refl w)
      | forever => exact .of_go _ (.refl w)

theorem kept_resume (wait : Wait) (result : Value) (stack : List Frame) :
    (w.resume wait result stack).1.kept = w.kept := by
  unfold resume
  split <;> rfl

theorem kernel_resume (wait : Wait) (result : Value) (stack : List Frame) :
    (w.resume wait result stack).1.kernel = w.kernel := by
  unfold resume
  split <;> rfl

def MayBegin (w : World) (me : Waker) : Prop :=
  ∀ id, me = .task id → w.kernel.scheduler.running = some id

/-- What scripts do to a world whatever else is going on: they call the scheduler, and leave alone
what is kept outside of all tasks. -/
structure Runs (w w' : World) : Prop where
  callsTo : w.scheduler.CallsTo w'.scheduler
  kept : w'.kept = w.kept

variable {w}

theorem ActsTo.runs (h : w.ActsTo w') : w.Runs w' := ⟨h.callsTo, h.kept⟩

theorem Runs.trans {w₁ : World} (h₁ : w.Runs w₁) (h : w₁.Runs w') : w.Runs w' :=
  ⟨h₁.callsTo.trans h.callsTo, h.kept.trans h₁.kept⟩

theorem runs_abandon (w : World) (task : Task) : w.Runs (abandon task w) :=
  ⟨(w.kernel.callsTo_giveUp task.wait).trans (actsTo_abandon w task).callsTo,
    (actsTo_abandon w task).kept⟩

theorem runs_run_await (me : Waker) (fuel : Nat) :
    (∀ {stack : List Frame} {w w' : World} {turn : Turn Task},
      run me fuel stack w = some (w', turn) → w.Runs w') ∧
    ∀ {wait : Wait} {stack : List Frame} {w w' : World} {turn : Turn Task},
      await me fuel wait stack w = some (w', turn) → w.Runs w' := by
  -- Running and waiting call each other, each time with less fuel.
  induction fuel with
  | zero => exact ⟨nofun, nofun⟩
  | succ fuel ih =>
      refine ⟨fun {stack w w' turn} h => ?_, fun {wait stack w w' turn} h => ?_⟩
      · have hstep := (w.stepped_step stack).actsTo.runs
        simp only [run] at h
        split at h
        · rename_i heq
          rw [heq] at hstep
          exact hstep.trans (ih.1 h)
        · rename_i heq
          rw [heq] at hstep
          cases h
          exact hstep
        · rename_i heq
          rw [heq] at hstep
          exact hstep.trans (ih.2 h)
      · have hpoll := w.kernel.callsTo_poll me wait
        simp only [await] at h
        split at h
        · rename_i heq
          rw [heq] at hpoll
          cases h
          exact ⟨hpoll, rfl⟩
        · rename_i k result heq
          rw [heq] at hpoll
          have hresume : w.Runs (resume { w with kernel := k } wait result stack).1 := by
            refine ⟨?_, kept_resume { w with kernel := k } wait result stack⟩
            rw [scheduler, scheduler, kernel_resume]
            exact hpoll
          exact hresume.trans (ih.1 h)

theorem runs_pollTask {fuel : Nat} {task : Task} {turn : Turn Task}
    (h : pollTask fuel task w = some (w', turn)) : w.Runs w' := by
  simp only [pollTask] at h
  split at h
  · exact (runs_run_await _ fuel).1 h
  · exact (runs_run_await _ fuel).2 h

theorem runs_runCallback {fuel : Nat} {b : Labelled} {fault : Option SimError}
    (h : runCallback fuel b w = some (w', fault)) : w.Runs w' := by
  unfold runCallback at h
  split at h
  · cases h
  · rename_i hrun
    cases h
    exact (runs_run_await .nobody fuel).1 hrun
  · rename_i w₁ task hrun
    cases h
    exact ((runs_run_await .nobody fuel).1 hrun).trans (runs_abandon w₁ task)

theorem host_callsOnly : host.CallsOnly where
  scheduler_update _ _ := rfl
  poll h := (runs_pollTask h).callsTo
  call h := (runs_runCallback h).callsTo
  abandon task w := (w.runs_abandon task).callsTo

variable {me : Waker} {rest : Multiset (Waker × Wait)} {batch : List (Entry Labelled)}
  {turn : Turn Task}

/-- Whatever a script does until it waits or ends consists of acts on the executor. It begins one
wait at a time, and polls it at once. -/
theorem acts_run_await (me : Waker) (fuel : Nat) :
    (∀ {stack : List Frame} {w w' : World} {turn : Turn Task},
      Sound Task.wait ⟨w.kernel, rest, batch⟩ → w.MayBegin me →
      run me fuel stack w = some (w', turn) →
      Acts Task.wait ⟨w.kernel, rest, batch⟩ ⟨w'.kernel, turn.held Task.wait me + rest, batch⟩) ∧
    ∀ {wait : Wait} {stack : List Frame} {w w' : World} {turn : Turn Task},
      Sound Task.wait ⟨w.kernel, (me, wait) ::ₘ rest, batch⟩ → w.MayBegin me →
      await me fuel wait stack w = some (w', turn) →
      Acts Task.wait ⟨w.kernel, (me, wait) ::ₘ rest, batch⟩
        ⟨w'.kernel, turn.held Task.wait me + rest, batch⟩ := by
  induction fuel with
  | zero => exact ⟨nofun, nofun⟩
  | succ fuel ih =>
      refine ⟨fun {stack w w' turn} hs hmay h => ?_, fun {wait stack w w' turn} hs hmay h => ?_⟩
      · obtain ⟨hacts, hfresh⟩ := w.stepped_step stack
        have hto := hacts.acts rest batch
        have hmay' : (w.step stack).world.MayBegin me :=
          fun id hid => (hto.running hs).trans (hmay id hid)
        simp only [run] at h
        split at h
        · rename_i heq
          rw [heq] at hto hmay'
          exact hto.trans (ih.1 (hs.acts hto) hmay' h)
        · rename_i heq
          rw [heq] at hto
          cases h
          rw [Turn.held, Multiset.zero_add]
          exact hto
        · rename_i wait stack' w₁ heq
          rw [heq] at hto hmay'
          -- The wait is a new one, so nobody is known at any place because of it yet.
          have hbegin := hto.tail (.begin w₁.kernel rest batch (hfresh heq) hmay')
          exact hbegin.trans (ih.2 (hs.acts hbegin) hmay' h)
      · simp only [await] at h
        split at h
        · rename_i k wait' hpoll
          cases h
          rw [Turn.held, held, Multiset.singleton_add]
          exact .single (.waits rest batch hpoll)
        · rename_i k result hpoll
          have hover : Acts Task.wait ⟨w.kernel, (me, wait) ::ₘ rest, batch⟩ ⟨k, rest, batch⟩ :=
            .single (.ends rest batch hpoll)
          have hkernel : (resume { w with kernel := k } wait result stack).1.kernel = k :=
            kernel_resume _ wait result stack
          rw [← hkernel] at hover
          refine hover.trans (ih.1 (hs.acts hover) (fun id hid => ?_) h)
          exact (hover.running hs).trans (hmay id hid)

theorem acts_runCallback {fuel : Nat} {b : Labelled} {fault : Option SimError}
    (hs : Sound Task.wait ⟨w.kernel, rest, batch⟩) (h : runCallback fuel b w = some (w', fault)) :
    Acts Task.wait ⟨w.kernel, rest, batch⟩ ⟨w'.kernel, rest, batch⟩ := by
  unfold runCallback at h
  split at h
  · cases h
  · rename_i w₁ _ hrun
    cases h
    have hacts := (acts_run_await .nobody fuel).1 hs nofun hrun
    rw [Turn.held, Multiset.zero_add] at hacts
    exact hacts
  · rename_i w₁ task hrun
    cases h
    have hacts := (acts_run_await .nobody fuel).1 hs nofun hrun
    exact (hacts.trans (acts_giveUp _ _ _ _ _)).trans ((actsTo_abandon w₁ task).acts rest batch)

theorem acts_pollTask {fuel id : Nat} {task : Task}
    (hrunning : w.kernel.scheduler.running = some id)
    (hs : Sound Task.wait ⟨w.kernel, held (.task id) task.wait + rest, batch⟩)
    (h : pollTask fuel task w = some (w', turn)) :
    Acts Task.wait ⟨w.kernel, held (.task id) task.wait + rest, batch⟩
      ⟨w'.kernel, turn.held Task.wait (.task id) + rest, batch⟩ := by
  have hmay : w.MayBegin (.task id) := fun id' heq => Waker.task.inj heq ▸ hrunning
  simp only [pollTask, hrunning] at h
  cases hwait : task.wait with
  | none =>
      rw [hwait] at h
      rw [hwait, held, Multiset.zero_add] at hs
      rw [held, Multiset.zero_add]
      exact (acts_run_await _ fuel).1 hs hmay h
  | some wait =>
      rw [hwait] at h
      rw [hwait, held, Multiset.singleton_add] at hs
      rw [held, Multiset.singleton_add]
      exact (acts_run_await _ fuel).2 hs hmay h

theorem host_drives : host.Drives Task.wait World.kernel keptWaits where
  scheduler _ := rfl
  kernel_update _ _ := rfl
  kept_update _ _ := rfl
  nobody {w x} hx := by
    obtain ⟨e, -, hheld⟩ := mem_heldBy.mp hx
    exact (mem_held.mp hheld).1
  poll {fuel id task w w' turn batch} hrunning hs h := by
    rw [keptWaits_congr (runs_pollTask h).kept]
    exact acts_pollTask hrunning hs h
  call {fuel body w w' fault batch} hs h := by
    rw [keptWaits_congr (runs_runCallback h).kept]
    exact acts_runCallback hs h
  abandon task w others batch := by
    have hgive := actsTo_abandon w task
    have hkept : (host.abandon task w).keptWaits = w.keptWaits := keptWaits_congr hgive.kept
    rw [hkept]
    exact hgive.acts (others + w.keptWaits) batch

end World

end Clockwork.Script
