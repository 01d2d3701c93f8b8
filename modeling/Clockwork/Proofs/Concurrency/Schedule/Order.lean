import Clockwork.Proofs.Concurrency.Schedule.Invariant
import Clockwork.Proofs.Concurrency.Scripts
/-!
The order of dispatch. In every session with a new scheduler, entries are dispatched in the order of
their dates, each at its own time and not twice, and time does not leave a femtosecond before the
delta steps that were asked for in it are over (`entries_dispatched_in_order`).
-/

namespace Clockwork

open scoped List

namespace Journal.Regular

variable {κ τ : Type} {s s' : Scheduler κ τ} {batch : List (Entry κ)} {j more : Journal}

theorem call (h : j.Regular (s.book batch)) (hcall : Scheduler.Call s more s')
    (hu : more.Unsaturated) : (j ++ more).Regular (s'.book batch) := by
  cases hcall with
  | schedule delay due =>
      have htime : s.target delay = s.now.plus delay :=
        Scheduler.target_eq_plus (hu List.mem_cons_self)
      have hperm := Scheduler.insertEntry_perm ⟨s.target delay, s.nextSeq, due⟩ s.agenda
      refine h.schedule htime rfl (hperm.map Entry.date) ?_
      refine Scheduler.ascending_insertEntry h.ascending_pending fun f hf => ?_
      exact h.below f.date (h.made_of_pending (Scheduler.mem_dates hf))
  | abandonSleep entry =>
      have hcancel := h.cancel fun d => decide (some d.seq = entry)
      rw [Scheduler.book, Scheduler.dates_abandonSleep]
      cases entry <;> exact hcancel
  | other halike =>
      rw [List.append_nil, halike.book_eq]
      exact h

theorem calls (h : j.Regular (s.book batch)) (hcalls : Scheduler.Calls s more s')
    (hu : more.Unsaturated) : (j ++ more).Regular (s'.book batch) := by
  induction hcalls generalizing j with
  | nil =>
      rw [List.append_nil]
      exact h
  | cons hcall _ ih =>
      rw [← List.append_assoc]
      exact ih (h.call hcall hu.left) hu.right

variable {ω : Type} {host : Host ω κ τ} {w w' : ω} {batch' : List (Entry κ)}

theorem step (hc : host.CallsOnly) (h : j.Regular ((host.scheduler w).book batch))
    (hstep : host.Step w batch more w' batch') (hu : more.Unsaturated) :
    (j ++ more).Regular ((host.scheduler w').book batch') := by
  cases hstep with
  | settle f hf =>
      rw [List.append_nil, hc.scheduler_update, hf.book_eq]
      exact h
  | poll fuel _ hj => exact h.calls hj hu
  | abandon task hj => exact h.calls hj hu
  | take hdue =>
      obtain ⟨⟨e, he, hnow⟩, hagenda, hpresent, hseq, hlate⟩ := Scheduler.takeDue_spec hdue
      have hascending : Date.Ascending (host.scheduler w).dates := h.ascending_pending
      have hdates : (host.scheduler w).dates = batch'.map Entry.date ++ _ :=
        (congrArg (List.map Entry.date) hagenda).trans List.map_append
      rw [List.append_nil, hc.scheduler_update, hdue, Option.map_some, Option.getD_some,
        Scheduler.book, hseq]
      rw [Scheduler.book, hdates] at h
      refine h.take ?_ ?_ ?_
      · rw [hnow]
        exact h.future e.date (hdates ▸ Scheduler.mem_dates he)
      · intro d hd
        obtain ⟨e', he', rfl⟩ := List.mem_map.mp hd
        exact hpresent e' he'
      · intro d hd
        obtain ⟨e', he', rfl⟩ := List.mem_map.mp hd
        exact hlate hascending e' he'
  | fire hdue =>
      rw [hc.scheduler_update, (Scheduler.alike_fire _ _ _).book_eq]
      exact h.dispatch
  | call fuel hdue hcall hj =>
      rw [List.append_cons]
      exact h.dispatch.calls hj fun ho => hu (List.mem_cons_of_mem _ ho)
  | jump stop hlate =>
      rw [List.append_nil, hc.scheduler_update]
      split
      · rename_i hstop
        have hascending : Date.Ascending (host.scheduler w).dates := h.ascending_pending
        -- No entry is due at that time, so that none is taken out.
        have hnone : j.Regular ⟨(host.scheduler w).now, (host.scheduler w).nextSeq, [],
          [] ++ (host.scheduler w).dates⟩ := h
        refine hnone.take (Instant.before_iff.mpr (.inl hstop))
          (fun _ hd => absurd hd List.not_mem_nil) fun d hd => ?_
        exact Instant.before_iff.mpr (.inl (Scheduler.lt_of_mem_dates hascending hlate hd))
      · exact h
  | clear =>
      have hcancel := h.cancel fun _ => true
      rw [List.filter_true, Bool.not_true, List.filter_false] at hcancel
      rw [hc.scheduler_update]
      exact hcancel

theorem course (hc : host.CallsOnly) (h : j.Regular ((host.scheduler w).book batch))
    (hcourse : host.Course w batch more w' batch') (hu : more.Unsaturated) :
    (j ++ more).Regular ((host.scheduler w').book batch') := by
  induction hcourse generalizing j with
  | nil =>
      rw [List.append_nil]
      exact h
  | cons hstep _ ih =>
      rw [← List.append_assoc]
      exact ih (h.step hc hstep hu.left) hu.right

theorem session {w₀ : ω} (hc : host.CallsOnly) (h₀ : host.scheduler w₀ = .initial)
    (hsession : host.Session w₀ j w) (hu : j.Unsaturated) :
    j.Regular ((host.scheduler w).book []) := by
  induction hsession with
  | start =>
      rw [h₀]
      exact regular_initial
  | outside _ hcalls ih => exact (ih hu.left).calls hcalls hu.right
  | command _ _ hcourse ih => exact (ih hu.left).course hc hcourse hu.right

end Journal.Regular

/-- The entries are dispatched in order. `pending` are those that are still to be dispatched. -/
structure Journal.Timely (j : Journal) (pending : List Date) : Prop where
  /-- An entry is due at the very instant that its delay leads to. -/
  scheduled : ∀ {date start delay}, .made date start delay ∈ j → date.time = start.plus delay
  numbered : (j.made.map Date.seq).Pairwise (· < ·)
  /-- What is dispatched earlier is due earlier, or at the same instant and made earlier. -/
  ascending : Date.Ascending j.dispatched
  punctual : ∀ {date now}, .dispatched date now ∈ j → now = date.time
  /-- Every entry made was dispatched, or was cancelled, or is pending. -/
  accounted : j.dispatched ++ j.cancelled ++ pending ~ j.made
  /-- No entry is dispatched twice, or dispatched and cancelled, or dispatched and pending. -/
  once : (j.dispatched ++ j.cancelled ++ pending).Nodup
  /-- Entries of a later femtosecond come after the delta steps of an earlier one. -/
  drained : j.Drained

theorem Journal.Regular.timely {j : Journal} {b : Book} (h : j.Regular b) :
    j.Timely (b.batch ++ b.pending) where
  scheduled ho := h.truthful _ ho
  numbered := h.numbered
  ascending := by
    have hascending := h.ascending
    rw [List.append_assoc] at hascending
    exact (List.pairwise_append.mp hascending).1
  punctual ho := h.truthful _ ho
  accounted := h.accounted
  once := by
    have hmade : j.made.Nodup := (List.pairwise_map.mp h.numbered).imp fun hlt heq =>
      Nat.ne_of_lt hlt (congrArg Date.seq heq)
    exact h.accounted.nodup_iff.mpr hmade
  drained := h.drained

namespace Host

variable {ω κ τ : Type} {h : Host ω κ τ} {w₀ : ω}

/-- Take any host whose tasks and callbacks use the scheduler by calls only, and any session with it
that begins with a new scheduler. Whatever a command does is a course of small steps; and in every
state within a course, also between the entries of one instant, all entries so far were dispatched
in order, if no target time saturates. -/
theorem entries_dispatched_in_order (hc : h.CallsOnly) (h₀ : h.scheduler w₀ = .initial) :
    (∀ {w w' : ω}, h.Command w w' → ∃ more, h.Course w [] more w' []) ∧
      ∀ {j more : Journal} {w w' : ω} {batch : List (Entry κ)}, h.Session w₀ j w →
        h.Course w [] more w' batch → (j ++ more).Unsaturated →
          (j ++ more).Timely (batch.map Entry.date ++ (h.scheduler w').dates) := by
  refine ⟨fun hcommand => hcommand.reaches hc, ?_⟩
  intro j more w w' batch hsession hcourse hu
  have hbefore : j.Regular ((h.scheduler w).book []) := .session hc h₀ hsession hu.left
  exact (hbefore.course hc hcourse hu.right).timely

/-- A scheduler for scripts: a callback is due at 3 fs, another one at the next delta step, and a
sleep until 3 fs was given up. -/
def threeEntries : Scheduler Script.Labelled Script.Task :=
  let s := (Scheduler.initial.schedule 3 (.callback ⟨"late", []⟩)).1
  let s := (s.schedule 0 (.callback ⟨"soon", [.after 0 []]⟩)).1
  (s.schedule 3 (.sleeper .nobody)).1.abandonSleep (some 2)

def threeEntriesWorld : Script.World :=
  (Script.World.ofParts [] 0 0).updateScheduler fun _ => threeEntries

def threeEntriesJournal : Journal :=
  [.made ⟨⟨3, 0⟩, 0⟩ ⟨0, 0⟩ 3, .made ⟨⟨0, 1⟩, 1⟩ ⟨0, 0⟩ 0, .made ⟨⟨3, 0⟩, 2⟩ ⟨0, 0⟩ 3,
    .cancelled ⟨⟨3, 0⟩, 2⟩, .dispatched ⟨⟨0, 1⟩, 1⟩ ⟨0, 1⟩, .made ⟨⟨0, 2⟩, 3⟩ ⟨0, 1⟩ 0,
    .dispatched ⟨⟨0, 2⟩, 3⟩ ⟨0, 2⟩, .dispatched ⟨⟨3, 0⟩, 0⟩ ⟨3, 0⟩]

/-- The callback at the next delta step is dispatched first, and asks for another one without a
delay; that one comes before the callback at 3 fs. -/
theorem entries_dispatched_in_order_in_script :
    ∃ w, Script.World.host.Session (.ofParts [] 0 0) threeEntriesJournal w ∧
      threeEntriesJournal.Unsaturated ∧
      threeEntriesJournal.dispatched = [⟨⟨0, 1⟩, 1⟩, ⟨⟨0, 2⟩, 3⟩, ⟨⟨3, 0⟩, 0⟩] ∧
      threeEntriesJournal.cancelled = [⟨⟨3, 0⟩, 2⟩] ∧
      threeEntriesJournal.Timely w.scheduler.dates := by
  let w₀ : Script.World := .ofParts [] 0 0
  let w : Script.World :=
    ((Script.World.host.runUntil 9 10 threeEntriesWorld).map (·.1)).getD threeEntriesWorld
  have hcalls : Scheduler.Calls (Script.World.host.scheduler w₀) (threeEntriesJournal.take 4)
      (Script.World.host.scheduler threeEntriesWorld) :=
    .cons (.schedule _ 3 _) (.cons (.schedule _ 0 _) (.cons (.schedule _ 3 _)
      (.cons (.abandonSleep _ (some 2)) (.nil _))))
  have hrun : Script.World.host.runUntil 9 10 threeEntriesWorld = some (w, none) := rfl
  have hcourse : Script.World.host.Course threeEntriesWorld []
      [.dispatched ⟨⟨0, 1⟩, 1⟩ ⟨0, 1⟩, .made ⟨⟨0, 2⟩, 3⟩ ⟨0, 1⟩ 0,
        .dispatched ⟨⟨0, 2⟩, 3⟩ ⟨0, 2⟩, .dispatched ⟨⟨3, 0⟩, 0⟩ ⟨3, 0⟩] w [] := by
    refine .cons (.settle (fun s => { s with stopped := false }) ⟨rfl, rfl, rfl⟩) ?_
    refine .cons (.take rfl) ?_
    change Script.World.host.Course _ _
      ([.dispatched ⟨⟨0, 1⟩, 1⟩ ⟨0, 1⟩, .made ⟨⟨0, 2⟩, 3⟩ ⟨0, 1⟩ 0] ++ _) w []
    refine .cons (.call 9 rfl rfl ?_) ?_
    · exact (Scheduler.Call.schedule _ 0 _).calls
    refine .cons (.take rfl) ?_
    refine .cons (.call 9 rfl rfl (.nil _)) ?_
    refine .cons (.take rfl) ?_
    refine .cons (.call 9 rfl rfl (.nil _)) ?_
    refine .cons (.jump 10 ?_) (.nil _ [])
    exact nofun
  have hstart : Script.World.host.Session w₀ [] w₀ := .start
  have hsession : Script.World.host.Session w₀ threeEntriesJournal w :=
    (hstart.outside hcalls).command (.runUntil hrun) hcourse
  have hu : threeEntriesJournal.Unsaturated := by
    intro date start delay hmade
    simp only [threeEntriesJournal, List.mem_cons, Incident.made.injEq, reduceCtorEq, false_or,
      List.not_mem_nil, or_false] at hmade
    obtain ⟨-, rfl, rfl⟩ | ⟨-, rfl, rfl⟩ | ⟨-, rfl, rfl⟩ | ⟨-, rfl, rfl⟩ := hmade <;> decide
  have htimely :=
    (entries_dispatched_in_order Script.World.host_callsOnly rfl).2 hsession (.nil w []) hu
  exact ⟨w, hsession, hu, rfl, rfl, htimely⟩

end Host

end Clockwork
