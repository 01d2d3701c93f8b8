import Clockwork.Proofs.Concurrency.Cancellation.Executor
import Clockwork.Proofs.Concurrency.Dispatch
import Clockwork.Proofs.Concurrency.Schedule.Course
import Mathlib.Logic.Relation

namespace Clockwork

namespace Kernel

variable {κ ε τ : Type} (k : Kernel κ ε τ)

theorem callsTo_wake? (w : Option Waker) : k.scheduler.CallsTo (k.wake? w).scheduler :=
  k.scheduler.callsTo_wakeAll w.toList

theorem callsTo_poll (waker : Waker) (w : Wait) :
    k.scheduler.CallsTo (k.poll waker w).1.scheduler := by
  cases w with
  | sleep delay entry =>
      have hsleep := k.scheduler.callsTo_pollSleep delay entry waker
      simp only [poll]
      rcases hpoll : k.scheduler.pollSleep delay entry waker with s | ⟨seq, s⟩
      · rw [hpoll] at hsleep
        exact hsleep
      · rw [hpoll] at hsleep
        exact hsleep
  | get id ticket =>
      simp only [poll]
      cases (k.channel id).pollGet ticket waker with
      | complete v c woken => exact callsTo_wake? (k.setChannel id c) _
      | waiting t c => exact .refl _
  | put id v ticket =>
      simp only [poll]
      cases (k.channel id).pollPut v ticket waker with
      | complete v c woken => exact callsTo_wake? (k.setChannel id c) _
      | waiting t c => exact .refl _
  | acquire id ticket =>
      simp only [poll]
      cases (k.lock id).poll ticket waker <;> exact .refl _
  | event id start ticket =>
      simp only [poll]
      cases (k.event id).poll start ticket waker <;> exact .refl _

theorem callsTo_abandon (w : Wait) : k.scheduler.CallsTo (k.abandon w).scheduler := by
  cases w with
  | sleep delay entry => exact k.scheduler.callsTo_abandonSleep entry
  | get id ticket => exact callsTo_wake? (k.setChannel id _) _
  | put id v ticket => exact callsTo_wake? (k.setChannel id _) _
  | acquire id ticket => exact callsTo_wake? (k.setLock id _) _
  | event id start ticket => exact .refl _

theorem callsTo_giveUp (w? : Option Wait) : k.scheduler.CallsTo (k.giveUp w?).scheduler := by
  cases w? with
  | none => exact .refl _
  | some w => exact k.callsTo_abandon w

theorem Call.callsTo {k k' : Kernel κ ε τ} (h : k.Call k') :
    k.scheduler.CallsTo k'.scheduler := by
  cases h with
  | tryGet id => exact callsTo_wake? (k.setChannel id (k.channel id).tryGet.1) _
  | tryPut id v =>
      simp only [Kernel.tryPut]
      split
      · exact callsTo_wake? (k.setChannel id _) _
      · exact .refl _
  | @release _ id hrelease =>
      simp only [Kernel.release] at hrelease
      split at hrelease
      · cases hrelease
        exact callsTo_wake? (k.setLock id _) _
      · cases hrelease
  | setFlag id => exact k.scheduler.callsTo_wakeAll _
  | after delay body => exact k.scheduler.callsTo_schedule delay (.callback body)
  | stop => exact k.scheduler.callsTo_stop
  | _ => exact .refl _

end Kernel

namespace Executor

variable {κ ε τ : Type} {wait : τ → Option Wait} {s s₁ s' : Executor κ ε τ} {k : Kernel κ ε τ}
  {loose : Multiset (Waker × Wait)} {batch : List (Entry κ)} {l l' : List Mark}

/-- Any number of acts. -/
abbrev Acts (wait : τ → Option Wait) : Executor κ ε τ → Executor κ ε τ → Prop :=
  Relation.ReflTransGen (Act wait)

theorem Run.trans (h₁ : Run wait s l s₁) (h : Run wait s₁ l' s') : Run wait s (l ++ l') s' := by
  induction h₁ with
  | nil => exact h
  | cons hstep _ ih =>
      rw [List.append_assoc]
      exact .cons hstep (ih h)

theorem Step.run (h : Step wait s l s') : Run wait s l s' := by
  have hrun := Run.cons h (.nil s')
  rwa [List.append_nil] at hrun

theorem Acts.run (h : Acts wait s s') : Run wait s [] s' := by
  induction h with
  | refl => exact .nil _
  | tail _ ha ih => exact ih.trans (Step.act ha).run

theorem Reachable.run (h : Reachable wait s) (hrun : Run wait s l s') : Reachable wait s' := by
  obtain ⟨l₀, hbefore⟩ := h
  exact ⟨l₀ ++ l, hbefore.trans hrun⟩

theorem Sound.acts (h : Sound wait s) (ha : Acts wait s s') : Sound wait s' := h.run ha.run

theorem Act.running (h : Act wait s s') (hs : Sound wait s) :
    s'.kernel.scheduler.running = s.kernel.scheduler.running := by
  cases h with
  | call loose batch hcall => exact congrArg Roster.running hcall.change.roster
  | spawn => rfl
  | cancel _ id =>
      cases htask : s.kernel.scheduler.tasks.get? id with
      | some task =>
          rw [cancel_of_task htask]
          exact congrArg Roster.running (roster_giveUp (hs.evict htask).tidy (wait task))
      | none =>
          by_cases hrunning : s.kernel.scheduler.running = some id
          · rw [cancel_of_running htask hrunning]
          · rw [cancel_of_absent htask hrunning]
  | begin => rfl
  | @ends k k' loose batch me w result hpoll =>
      have hchange := Kernel.change_poll hs.tidy me w
      rw [hpoll] at hchange
      exact congrArg Roster.running hchange.roster
  | @waits k k' loose batch me w w' hpoll =>
      have hchange := Kernel.change_poll hs.tidy me w
      rw [hpoll] at hchange
      exact congrArg Roster.running hchange.roster
  | drop k loose batch me w =>
      exact congrArg Roster.running (Kernel.change_abandon hs.tidy w).roster

theorem Acts.running (h : Acts wait s s') (hs : Sound wait s) :
    s'.kernel.scheduler.running = s.kernel.scheduler.running := by
  induction h with
  | refl => rfl
  | tail hmany ha ih => exact (ha.running (hs.acts hmany)).trans ih

theorem acts_giveUp (k : Kernel κ ε τ) (loose : Multiset (Waker × Wait)) (batch : List (Entry κ))
    (me : Waker) (w? : Option Wait) :
    Acts wait ⟨k, held me w? + loose, batch⟩ ⟨k.giveUp w?, loose, batch⟩ := by
  rcases w? with _ | w
  · rw [held, Multiset.zero_add]
    exact .refl
  · rw [held, Multiset.singleton_add]
    exact .single (.drop k loose batch me w)

theorem acts_foldl {α : Type} {f : Kernel κ ε τ → α → Kernel κ ε τ}
    (hf : ∀ (k : Kernel κ ε τ) (a : α), k.Call (f k a)) (l : List α) (k : Kernel κ ε τ)
    (loose : Multiset (Waker × Wait)) (batch : List (Entry κ)) :
    Acts wait ⟨k, loose, batch⟩ ⟨l.foldl f k, loose, batch⟩ := by
  induction l generalizing k with
  | nil => exact .refl
  | cons a l ih => exact .head (.call loose batch (hf k a)) (ih (f k a))

theorem Act.callsTo (h : Act wait s s') :
    s.kernel.scheduler.CallsTo s'.kernel.scheduler := by
  cases h with
  | call loose batch hcall => exact hcall.callsTo
  | @spawn k loose batch task _ => exact k.scheduler.callsTo_spawn task
  | cancel _ id =>
      have hgiveUp := Kernel.callsTo_giveUp
        { s.kernel with scheduler := (s.kernel.scheduler.cancel id).1 }
        ((s.kernel.scheduler.cancel id).2.bind wait)
      exact (s.kernel.scheduler.alike_cancel id).callsTo.trans hgiveUp
  | begin => exact .refl _
  | @ends k k' loose batch me w result hpoll =>
      have hcalls := k.callsTo_poll me w
      rwa [hpoll] at hcalls
  | @waits k k' loose batch me w w' hpoll =>
      have hcalls := k.callsTo_poll me w
      rwa [hpoll] at hcalls
  | drop k loose batch me w => exact k.callsTo_abandon w

theorem Acts.callsTo (h : Acts wait s s') : s.kernel.scheduler.CallsTo s'.kernel.scheduler := by
  induction h with
  | refl => exact .refl _
  | tail _ ha ih => exact ih.trans ha.callsTo

end Executor

def Turn.held {τ : Type} (wait : τ → Option Wait) (me : Waker) : Turn τ → Multiset (Waker × Wait)
  | .ended _ => 0
  | .waits task => Executor.held me (wait task)

namespace Host

open Executor

variable {ω κ ε τ : Type} {h : Host ω κ τ} {wait : τ → Option Wait} {kernel : ω → Kernel κ ε τ}
  {kept : ω → Multiset (Waker × Wait)}

def endTurn (h : Host ω κ τ) (w : ω) : ω :=
  h.update (fun s => { s with running := none, cancelled := false }) w

def abandonAll (h : Host ω κ τ) (tasks : List τ) (w : ω) : ω :=
  tasks.foldl (fun w task => h.abandon task w) w

/-- Tasks and callbacks do nothing to the kernel of a world but act on it. Waits that are kept
outside of all tasks are polled with a waker that wakes nobody. -/
structure Drives (h : Host ω κ τ) (wait : τ → Option Wait) (kernel : ω → Kernel κ ε τ)
    (kept : ω → Multiset (Waker × Wait)) : Prop where
  scheduler : ∀ w, h.scheduler w = (kernel w).scheduler
  kernel_update : ∀ f w,
    kernel (h.update f w) = { kernel w with scheduler := f (kernel w).scheduler }
  kept_update : ∀ f w, kept (h.update f w) = kept w
  nobody : ∀ {w x}, x ∈ kept w → x.1 = .nobody
  /-- The turn of a task leads from the wait that the task is in to the one that it ends in. -/
  poll : ∀ {fuel id task w w' turn batch}, (kernel w).scheduler.running = some id →
    Sound wait ⟨kernel w, held (.task id) (wait task) + kept w, batch⟩ →
    h.poll fuel task w = some (w', turn) →
    Acts wait ⟨kernel w, held (.task id) (wait task) + kept w, batch⟩
      ⟨kernel w', turn.held wait (.task id) + kept w', batch⟩
  call : ∀ {fuel body w w' fault batch}, Sound wait ⟨kernel w, kept w, batch⟩ →
    h.call fuel body w = some (w', fault) →
    Acts wait ⟨kernel w, kept w, batch⟩ ⟨kernel w', kept w', batch⟩
  abandon : ∀ task w others batch,
    Acts wait ⟨(kernel w).giveUp (wait task), others + kept w, batch⟩
      ⟨kernel (h.abandon task w), others + kept (h.abandon task w), batch⟩

namespace Drives

variable (d : h.Drives wait kernel kept) {w w₁ w' : ω} {batch batch₁ batch' : List (Entry κ)}
  {fuel : Nat} {e : Option SimError}

theorem kernel_endTurn (d : h.Drives wait kernel kept) (w : ω) :
    kernel (h.endTurn w) = (kernel w).endTurn := d.kernel_update _ w

theorem kept_endTurn (d : h.Drives wait kernel kept) (w : ω) : kept (h.endTurn w) = kept w :=
  d.kept_update _ w

/-- A run of the executor leads from a world to another one. No task is running in either. -/
def Leads (_ : h.Drives wait kernel kept) (w : ω) (batch : List (Entry κ)) (w' : ω)
    (batch' : List (Entry κ)) : Prop :=
  Sound wait ⟨kernel w, kept w, batch⟩ → (kernel w).scheduler.running = none →
    (∃ l, Run wait ⟨kernel w, kept w, batch⟩ l ⟨kernel w', kept w', batch'⟩) ∧
      (kernel w').scheduler.running = none

theorem Leads.refl (w : ω) (batch : List (Entry κ)) : d.Leads w batch w batch :=
  fun _ hidle => ⟨⟨[], .nil _⟩, hidle⟩

variable {d}

theorem Leads.trans (h₁ : d.Leads w batch w₁ batch₁) (h₂ : d.Leads w₁ batch₁ w' batch') :
    d.Leads w batch w' batch' := by
  intro hs hidle
  obtain ⟨⟨l₁, hrun₁⟩, hidle₁⟩ := h₁ hs hidle
  obtain ⟨⟨l₂, hrun₂⟩, hidle₂⟩ := h₂ (hs.run hrun₁) hidle₁
  exact ⟨⟨l₁ ++ l₂, hrun₁.trans hrun₂⟩, hidle₂⟩

theorem Leads.step {l : List Mark}
    (hstep : Executor.Step wait ⟨kernel w, kept w, batch⟩ l ⟨kernel w', kept w', batch'⟩)
    (hidle : (kernel w').scheduler.running = (kernel w).scheduler.running) :
    d.Leads w batch w' batch' :=
  fun _ hidle₁ => ⟨⟨l, hstep.run⟩, hidle.trans hidle₁⟩

variable (d)

include d

theorem no_task (w : ω) (id : Nat) (wt : Wait) : (.task id, wt) ∉ kept w := by
  intro hw
  cases d.nobody hw

theorem run_finish {id : Nat} (hrunning : (kernel w).scheduler.running = some id) :
    Run wait ⟨kernel w, kept w, batch⟩ [] ⟨kernel (h.endTurn w), kept (h.endTurn w), batch⟩ := by
  rw [d.kernel_endTurn, d.kept_endTurn]
  exact Executor.Step.run (.finish batch hrunning (d.no_task w id))

theorem run_park {id : Nat} (task : τ) (hrunning : (kernel w).scheduler.running = some id)
    (hmarked : (kernel w).scheduler.cancelled = false) :
    Run wait ⟨kernel w, held (.task id) (wait task) + kept w, batch⟩ []
        ⟨kernel (h.update (fun s => { s with tasks := s.tasks.insert id task }) (h.endTurn w)),
          kept (h.update (fun s => { s with tasks := s.tasks.insert id task }) (h.endTurn w)),
          batch⟩ := by
  rw [d.kernel_update, d.kept_update, d.kernel_endTurn, d.kept_endTurn]
  exact Executor.Step.run (.park batch task hrunning hmarked (d.no_task w id))

theorem run_giveUp {id : Nat} (task : τ) (hrunning : (kernel w).scheduler.running = some id)
    (hmarked : (kernel w).scheduler.cancelled = true)
    (hs : Sound wait ⟨kernel w, held (.task id) (wait task) + kept w, batch⟩) :
    Run wait ⟨kernel w, held (.task id) (wait task) + kept w, batch⟩ [.gaveUp id (wait task)]
        ⟨kernel (h.abandon task (h.endTurn w)), kept (h.abandon task (h.endTurn w)), batch⟩ ∧
      (kernel (h.abandon task (h.endTurn w))).scheduler.running = none := by
  have hgive : Executor.Step wait ⟨kernel w, held (.task id) (wait task) + kept w, batch⟩
      [.gaveUp id (wait task)] ⟨(kernel w).endTurn.giveUp (wait task), kept w, batch⟩ :=
    .giveUp batch (wait task) hrunning hmarked (d.no_task w id)
  have hacts := d.abandon task (h.endTurn w) 0 batch
  rw [d.kernel_endTurn, d.kept_endTurn, Multiset.zero_add, Multiset.zero_add] at hacts
  constructor
  · exact hgive.run.trans hacts.run
  · refine (hacts.running (hs.step hgive)).trans ?_
    exact congrArg Roster.running (roster_giveUp hs.endTurn.tidy (wait task))

/-- A task whose turn it is runs until it waits or ends. -/
theorem leads_runTask {id : Nat} {rest : List Nat} (hready : (h.scheduler w).ready = id :: rest)
    (hrun : h.runTask fuel id (h.update (fun s => { s with ready := rest }) w) = some (w', e)) :
    d.Leads w batch w' batch := by
  intro hs hidle
  have hkernel := d.kernel_update (fun s => { s with ready := rest }) w
  have hkept := d.kept_update (fun s => { s with ready := rest }) w
  rw [d.scheduler] at hready
  generalize h.update (fun s => { s with ready := rest }) w = w₁ at hrun hkernel hkept
  simp only [Host.runTask, d.scheduler] at hrun
  split at hrun
  · rename_i htask
    cases hrun
    rw [hkernel] at htask
    refine ⟨⟨[], Executor.Step.run ?_⟩, (congrArg (·.scheduler.running) hkernel).trans hidle⟩
    rw [hkernel, hkept]
    exact .pass (kept w) batch hready htask
  · rename_i task htask
    rw [hkernel] at htask
    have hkernel₂ := d.kernel_update
      (fun s => { s with tasks := s.tasks.erase id, running := some id }) w₁
    have hkept₂ := d.kept_update
      (fun s => { s with tasks := s.tasks.erase id, running := some id }) w₁
    generalize h.update (fun s => { s with tasks := s.tasks.erase id, running := some id }) w₁ = w₂
      at hrun hkernel₂ hkept₂
    rw [hkernel] at hkernel₂
    -- The turn begins; the wait of the task is at work from here to the end of the turn.
    have hturn : Executor.Step wait ⟨kernel w, kept w, batch⟩ [.polled id]
        ⟨kernel w₂, held (.task id) (wait task) + kept w₂, batch⟩ := by
      rw [hkernel₂, hkept₂, hkept]
      exact .turn (kept w) batch hidle hready htask
    split at hrun
    · cases hrun
    · rename_i w₃ turn hpoll
      have hrunning₂ : (kernel w₂).scheduler.running = some id := by rw [hkernel₂]
      have hacts := d.poll hrunning₂ (hs.step hturn) hpoll
      have hs₃ := (hs.step hturn).acts hacts
      have hrunning₃ := (hacts.running (hs.step hturn)).trans hrunning₂
      have hsofar := hturn.run.trans hacts.run
      cases turn with
      | ended fault =>
          cases hrun
          rw [Turn.held, Multiset.zero_add] at hsofar
          refine ⟨⟨_, hsofar.trans (d.run_finish hrunning₃)⟩, ?_⟩
          exact congrArg (·.scheduler.running) (d.kernel_endTurn w₃)
      | waits task' =>
          dsimp only at hrun
          split at hrun
          · rename_i hmarked
            cases hrun
            obtain ⟨hend, hidle'⟩ := d.run_giveUp task' hrunning₃ hmarked hs₃
            exact ⟨⟨_, hsofar.trans hend⟩, hidle'⟩
          · rename_i hmarked
            cases hrun
            rw [Bool.not_eq_true] at hmarked
            refine ⟨⟨_, hsofar.trans (d.run_park task' hrunning₃ hmarked)⟩, ?_⟩
            rw [d.kernel_update]
            exact congrArg (·.scheduler.running) (d.kernel_endTurn w₃)

theorem leads_update {f : Scheduler κ τ → Scheduler κ τ} {l : List Mark}
    (hstep : Executor.Step wait ⟨kernel w, kept w, batch⟩ l
      ⟨{ kernel w with scheduler := f (kernel w).scheduler }, kept w, batch'⟩)
    (hidle : (f (kernel w).scheduler).running = (kernel w).scheduler.running) :
    d.Leads w batch (h.update f w) batch' := by
  apply Leads.step
  · rw [d.kernel_update, d.kept_update]
    exact hstep
  · rw [d.kernel_update]
    exact hidle

/-- While time goes on, a run of the executor leads from a world to those that follow. -/
theorem guides (w : ω) (batch : List (Entry κ)) : h.Guides fun _ => d.Leads w batch where
  turn hlead hready hrun := hlead.trans (d.leads_runTask hready hrun)
  take {_ w₁ s due} hlead hdue := by
    rw [d.scheduler] at hdue
    refine hlead.trans (d.leads_update (l := []) ?_ ?_)
    · rw [hdue]
      exact .take (kept w₁) [] hdue
    · rw [hdue]
      exact congrArg Roster.running (Scheduler.roster_takeDue hdue).1
  fire {_ w₁ e me rest} hlead hdue := by
    refine hlead.trans (d.leads_update (.fire (kernel w₁) (kept w₁) rest hdue) ?_)
    cases me <;> rfl
  call {_ fuel w₁ e body rest w₂ fault} hlead hdue hcall := by
    refine hlead.trans fun hs hidle => ?_
    have hpop : Executor.Step wait ⟨kernel w₁, kept w₁, e :: rest⟩ []
      ⟨kernel w₁, kept w₁, rest⟩ := .callback (kernel w₁) (kept w₁) rest e
    have hacts := d.call (hs.step hpop) hcall
    exact ⟨⟨_, hpop.run.trans hacts.run⟩, (hacts.running (hs.step hpop)).trans hidle⟩
  begin {_ w₁} hlead :=
    hlead.trans
      (d.leads_update (l := [])
        (.tick (kernel w₁) (kept w₁) [] (kernel w₁).scheduler.now false) rfl)
  jump {_ w₁} stop hlead := by
    refine hlead.trans (d.leads_update (l := []) ?_ ?_)
    · split
      · exact .tick (kernel w₁) (kept w₁) [] (.ofFs stop) (kernel w₁).scheduler.stopped
      · exact .tick (kernel w₁) (kept w₁) [] (kernel w₁).scheduler.now (kernel w₁).scheduler.stopped
    · split <;> rfl

theorem acts_cancel (w : ω) (id : Nat) (others : Multiset (Waker × Wait))
    (batch : List (Entry κ)) :
    Acts wait (Executor.cancel wait ⟨kernel w, others + kept w, batch⟩ id)
      ⟨kernel (h.cancel w id), others + kept (h.cancel w id), batch⟩ := by
  have hkernel := d.kernel_update (fun s => (s.cancel id).1) w
  have hkept := d.kept_update (fun s => (s.cancel id).1) w
  simp only [Host.cancel, Executor.cancel, d.scheduler]
  rw [← hkernel]
  cases ((kernel w).scheduler.cancel id).2 with
  | none =>
      rw [hkept]
      exact .refl
  | some task =>
      have hacts := d.abandon task (h.update (fun s => (s.cancel id).1) w) others batch
      rw [hkept] at hacts
      exact hacts

theorem leads_cancel (w : ω) (id : Nat) : d.Leads w batch (h.cancel w id) batch := by
  intro hs hidle
  have hacts : Acts wait ⟨kernel w, 0 + kept w, batch⟩
      ⟨kernel (h.cancel w id), 0 + kept (h.cancel w id), batch⟩ :=
    .head (.cancel _ id) (d.acts_cancel w id 0 batch)
  rw [Multiset.zero_add, Multiset.zero_add] at hacts
  exact ⟨⟨_, hacts.run⟩, (hacts.running hs).trans hidle⟩

theorem acts_abandonAll (l : List (Nat × τ)) (w : ω) (batch : List (Entry κ)) :
    Acts wait ⟨kernel w, heldBy (.task ·.1) (wait ·.2) l + kept w, batch⟩
      ⟨kernel (h.abandonAll (l.map (·.2)) w), kept (h.abandonAll (l.map (·.2)) w), batch⟩ := by
  induction l generalizing w with
  | nil =>
      show Acts wait ⟨kernel w, 0 + kept w, batch⟩ ⟨kernel w, kept w, batch⟩
      rw [Multiset.zero_add]
  | cons e l ih =>
      rw [heldBy_cons, Multiset.add_assoc]
      exact (acts_giveUp (kernel w) _ batch (.task e.1) (wait e.2)).trans
        ((d.abandon e.2 w _ batch).trans (ih (h.abandon e.2 w)))

theorem leads_shutdown (w : ω) : d.Leads w [] (h.shutdown w) [] := by
  intro hs hidle
  have hkernel := d.kernel_update (fun s => { s with tasks := .empty }) w
  have hkept := d.kept_update (fun s => { s with tasks := .empty }) w
  simp only [Host.shutdown, d.scheduler]
  generalize h.update (fun s => { s with tasks := .empty }) w = w₁ at hkernel hkept
  -- The tasks leave the table all at once, and are given up one after the other.
  have hdisband : Executor.Step wait ⟨kernel w, kept w, []⟩ [] _ := .disband (kept w) [] hidle
  have hall := d.acts_abandonAll (kernel w).scheduler.tasks.entries w₁ []
  rw [hkernel, hkept] at hall
  show (∃ l, Run wait ⟨kernel w, kept w, []⟩ l
      ⟨kernel (h.update _ (h.abandonAll _ w₁)), kept (h.update _ (h.abandonAll _ w₁)), []⟩) ∧
    (kernel (h.update _ (h.abandonAll _ w₁))).scheduler.running = none
  generalize h.abandonAll ((kernel w).scheduler.tasks.entries.map (·.2)) w₁ = w₂ at hall
  have hidle₂ := (hall.running (hs.step hdisband)).trans hidle
  have hclear : d.Leads w₂ [] (h.update (fun s => { s with agenda := [], cancelled := false }) w₂)
      [] := d.leads_update (l := []) (.clear (kept w₂) [] hidle₂) rfl
  obtain ⟨⟨l, hlast⟩, hend⟩ := hclear ((hs.step hdisband).acts hall) hidle₂
  exact ⟨⟨_, (hdisband.run.trans hall.run).trans hlast⟩, hend⟩

theorem command (hcommand : h.Command w w') : d.Leads w [] w' [] := by
  cases hcommand with
  | runReady hrun => exact (d.guides w []).runReady (f := none) (.refl d w []) hrun
  | advance hrun => exact (d.guides w []).advance (f := none) (.refl d w []) hrun
  | runUntil hrun => exact (d.guides w []).runUntil (f := none) (.refl d w []) hrun
  | cancel id => exact d.leads_cancel w id
  | shutdown => exact d.leads_shutdown w

end Drives

end Host

end Clockwork
