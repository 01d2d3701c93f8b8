import Clockwork.Proofs.Concurrency.Scripts
import Clockwork.Proofs.Concurrency.Schedule.Course
/-!
Worlds of scripts in a session, and what is left of a task that was cancelled. A session begins with
channels, locks and events; then the host is told to go on, instructions are carried out, and waits
are kept, polled and given up under names. Every world of a session is reachable as an executor
(`World.Reached.atRest`), so that what is shown of all hosts that drive an executor is true of
scripts at any time (`Host.cancel_leaves_no_trace`).
-/

namespace Clockwork

namespace Script.World

open Executor

variable {w w' : World} {name : String}

def otherWaits (w : World) (name : String) : Multiset (Waker × Wait) :=
  heldBy (fun _ => .nobody) (fun e => e.2.wait?) (w.kept.erase name).entries

theorem keptWaits_put (hsorted : w.kept.Sorted) (kept? : Option Kept)
    (h : w'.kept = w.kept.put name kept?) :
    w'.keptWaits = held .nobody (kept?.bind Kept.wait?) + w.otherWaits name := by
  rw [keptWaits, h]
  cases kept? with
  | none =>
      rw [Option.bind_none, held, Multiset.zero_add]
      rfl
  | some kept =>
      exact (heldBy_perm (hsorted.insert_perm name kept) _ _).trans (heldBy_cons _ _ _ _)

theorem keptWaits_eq (hsorted : w.kept.Sorted) (name : String) :
    w.keptWaits = held .nobody ((w.kept.get? name).bind Kept.wait?) + w.otherWaits name :=
  keptWaits_put hsorted _ (hsorted.put_self name).symm

theorem kept_letGo (w : World) (kept : Kept) : (w.letGo kept).kept = w.kept := by
  cases kept with
  | wait wait guard => rfl
  | guard lock => exact (w.actsTo_unlock lock).kept

theorem acts_letGo (w : World) (kept : Kept) (loose : Multiset (Waker × Wait))
    (batch : List (Entry Labelled)) :
    Acts Task.wait ⟨w.kernel, held .nobody kept.wait? + loose, batch⟩
      ⟨(w.letGo kept).kernel, loose, batch⟩ := by
  cases kept with
  | wait wait guard => exact acts_giveUp w.kernel loose batch .nobody (some wait)
  | guard lock =>
      rw [Kept.wait?, held, Multiset.zero_add]
      exact (w.actsTo_unlock lock).acts loose batch

inductive Reached : World → Prop
  | start (capacities : List Nat) (locks events : Nat) : Reached (ofParts capacities locks events)
  | command {w w' : World} : Reached w → host.Command w w' → Reached w'
  | perform {w w' : World} {fuel : Nat} {i : Instr} {r : Except SimError Outcome} :
      Reached w → w.perform fuel i = some (w', r) → Reached w'
  /-- A wait begins under a name, in place of what was kept under it. -/
  | keep {w : World} (name : String) {wait : Wait} (guard : Option Nat) :
      Reached w → wait.ticket? = none → Reached (w.beginKept name wait guard)
  | poll {w : World} (name : String) : Reached w → Reached (w.pollKept name).1
  | drop {w : World} (name : String) : Reached w → Reached (w.endKept name).1
  | read {w : World} : Reached w → Reached { w with notes := [] }

/-- No task runs, and the executor is reachable. -/
structure AtRest (w : World) : Prop where
  reachable : Reachable Task.wait ⟨w.kernel, w.keptWaits, []⟩
  idle : w.kernel.scheduler.running = none
  sorted : w.kept.Sorted

namespace AtRest

theorem acts (h : w.AtRest) (hsorted : w'.kept.Sorted)
    (ha : Acts Task.wait ⟨w.kernel, w.keptWaits, []⟩ ⟨w'.kernel, w'.keptWaits, []⟩) :
    w'.AtRest :=
  ⟨h.reachable.run ha.run, (ha.running h.reachable.sound).trans h.idle, hsorted⟩

theorem acts_kept (h : w.AtRest) (hkept : w'.kept = w.kept)
    (ha : Acts Task.wait ⟨w.kernel, w.keptWaits, []⟩ ⟨w'.kernel, w.keptWaits, []⟩) :
    w'.AtRest := by
  apply h.acts (hkept ▸ h.sorted)
  rw [keptWaits_congr hkept]
  exact ha

theorem put (h : w.AtRest) (name : String) (kept? : Option Kept)
    (hkept : w'.kept = w.kept.put name kept?)
    (ha : Acts Task.wait
      ⟨w.kernel, held .nobody ((w.kept.get? name).bind Kept.wait?) + w.otherWaits name, []⟩
      ⟨w'.kernel, held .nobody (kept?.bind Kept.wait?) + w.otherWaits name, []⟩) : w'.AtRest := by
  rw [← keptWaits_eq h.sorted, ← keptWaits_put h.sorted kept? hkept] at ha
  apply h.acts _ ha
  rw [hkept]
  exact h.sorted.put name kept?

end AtRest

theorem atRest_ofParts (capacities : List Nat) (locks events : Nat) :
    (ofParts capacities locks events).AtRest := by
  have hnew : AtRest ⟨.initial, #[], [], .empty⟩ := ⟨⟨[], .nil _⟩, rfl, Table.sorted_empty⟩
  have hkept : (ofParts capacities locks events).kept = .empty := rfl
  apply hnew.acts_kept hkept
  refine (acts_foldl (fun k c => .addChannel k c) capacities .initial 0 []).trans ?_
  refine (acts_foldl (fun k _ => .addLock k) (List.range locks) _ 0 []).trans ?_
  exact acts_foldl (fun k _ => .addEvent k false) (List.range events) _ 0 []

theorem kept_course {batch batch' : List (Entry Labelled)} {j : Journal}
    (h : host.Course w batch j w' batch') : w'.kept = w.kept := by
  induction h with
  | nil => rfl
  | @cons w _ _ _ _ _ _ _ hstep _ ih =>
      refine ih.trans ?_
      cases hstep with
      | poll fuel hpoll => exact (runs_pollTask hpoll).kept
      | call fuel hdue hcall => exact (runs_runCallback hcall).kept
      | abandon task => exact (w.runs_abandon task).kept
      | _ => rfl

theorem AtRest.command (h : w.AtRest) (hcommand : host.Command w w') : w'.AtRest := by
  obtain ⟨⟨l, hrun⟩, hidle⟩ := host_drives.command hcommand h.reachable.sound h.idle
  obtain ⟨j, hcourse⟩ := hcommand.reaches host_callsOnly
  exact ⟨h.reachable.run hrun, hidle, kept_course hcourse ▸ h.sorted⟩

theorem AtRest.perform (h : w.AtRest) {fuel : Nat} {i : Instr} {r : Except SimError Outcome}
    (hperform : w.perform fuel i = some (w', r)) : w'.AtRest := by
  simp only [World.perform] at hperform
  split at hperform
  · cases hperform
    exact h
  · rename_i hinstant
    cases hperform
    exact h.acts_kept (w.actsTo_instant hinstant).kept ((w.actsTo_instant hinstant).acts _ [])
  · rename_i w₁ outcome b hinstant
    obtain ⟨⟨w₂, fault⟩, hcall, heq⟩ := Option.map_eq_some_iff.mp hperform
    have h₁ : w₁.AtRest :=
      h.acts_kept (w.actsTo_instant hinstant).kept ((w.actsTo_instant hinstant).acts _ [])
    have h₂ : w₂.AtRest :=
      h₁.acts_kept (runs_runCallback hcall).kept (acts_runCallback h₁.reachable.sound hcall)
    cases fault <;> cases heq <;> exact h₂

theorem AtRest.keep (h : w.AtRest) (name : String) {wait : Wait} (guard : Option Nat)
    (hnew : wait.ticket? = none) : (w.beginKept name wait guard).AtRest := by
  let w₁ := (w.keep name (.wait wait guard)).1
  have hkept : (w.beginKept name wait guard).kept = w₁.kept := by
    show (Option.elim (w.kept.get? name) w₁ w₁.letGo).kept = w₁.kept
    cases w.kept.get? name with
    | none => rfl
    | some old => exact w₁.kept_letGo old
  apply h.put name (some (.wait wait guard)) hkept
  -- The new wait begins before the one that was kept under its name is given up.
  have hbegin (loose : Multiset (Waker × Wait)) :
      Act Task.wait ⟨w.kernel, loose, []⟩ ⟨w.kernel, (.nobody, wait) ::ₘ loose, []⟩ :=
    .begin w.kernel loose [] hnew nofun
  refine .head (hbegin _) ?_
  show Acts Task.wait _
    ⟨(Option.elim (w.kept.get? name) w₁ w₁.letGo).kernel, {(.nobody, wait)} + _, []⟩
  rw [← Multiset.add_cons, Multiset.singleton_add]
  cases w.kept.get? name with
  | none =>
      rw [Option.bind_none, held, Multiset.zero_add]
      exact .refl
  | some old => exact w₁.acts_letGo old _ []

theorem AtRest.poll (h : w.AtRest) (name : String) : (w.pollKept name).1.AtRest := by
  unfold pollKept
  split
  · rename_i wait guard hget
    have hbefore : held .nobody ((w.kept.get? name).bind Kept.wait?) + w.otherWaits name =
        (.nobody, wait) ::ₘ w.otherWaits name := by
      rw [hget]
      exact Multiset.singleton_add _ _
    split
    · rename_i k wait' hpoll
      apply h.put name (some (.wait wait' guard)) rfl
      rw [hbefore]
      exact .single (.waits _ [] hpoll)
    · rename_i k result hpoll
      have hover : Acts Task.wait ⟨w.kernel, (.nobody, wait) ::ₘ w.otherWaits name, []⟩
          ⟨k, 0 + w.otherWaits name, []⟩ := by
        rw [Multiset.zero_add]
        exact .single (.ends _ [] hpoll)
      rw [← hbefore] at hover
      cases guard with
      | none => exact h.put name none rfl hover
      | some lock => exact h.put name (some (.guard lock)) rfl hover
  · exact h

theorem AtRest.drop (h : w.AtRest) (name : String) : (w.endKept name).1.AtRest := by
  unfold endKept
  split
  · exact h
  · rename_i kept hget
    have hacts := acts_letGo { w with kept := w.kept.erase name } kept (w.otherWaits name) []
    apply h.put name none (kept_letGo _ kept)
    rw [hget, Option.bind_none, held, Multiset.zero_add]
    exact hacts

theorem Reached.atRest (h : w.Reached) : w.AtRest := by
  induction h with
  | start capacities locks events => exact atRest_ofParts capacities locks events
  | command _ hcommand ih => exact ih.command hcommand
  | perform _ hperform ih => exact ih.perform hperform
  | keep name guard _ hnew ih => exact ih.keep name guard hnew
  | poll name _ ih => exact ih.poll name
  | drop name _ ih => exact ih.drop name
  | read _ ih => exact ⟨ih.reachable, ih.idle, ih.sorted⟩

def performed (w : World) (i : Instr) : World := ((w.perform 9 i).map (·.1)).getD w

def waited (w : World) : World := ((host.runReady 9 w).map (·.1)).getD w

theorem Reached.performed (h : w.Reached) (i : Instr) : (w.performed i).Reached := by
  unfold World.performed
  cases hperform : w.perform 9 i with
  | none => exact h
  | some r => exact h.perform hperform

theorem Reached.waited (h : w.Reached) : w.waited.Reached := by
  unfold World.waited
  cases hready : host.runReady 9 w with
  | none => exact h
  | some r => exact h.command (.runReady hready)

end Script.World

namespace Host

open Executor

variable {ω κ ε τ : Type} {h : Host ω κ τ} {wait : τ → Option Wait} {kernel : ω → Kernel κ ε τ}
  {kept : ω → Multiset (Waker × Wait)}

/-- Take any host that drives an executor, and cancel a task at any time: between two commands, or
while a task or a callback is at work, with the waits `loose` of those who are at work. Whatever the
host does on command is a run of the executor, and so is what the task that is at work goes on to
do. A task that is in the table is given up at once: its wait is forgotten, what it got is passed
on, and the rest of what it holds is given up by acts. In every run from there on, whatever others
do, the task is not polled, and unless its turn still lasts no place holds anything of it. When such
a turn ends in a wait, that wait is forgotten as well, and what it got is passed on. -/
theorem cancel_leaves_no_trace (d : h.Drives wait kernel kept) {w : ω}
    {loose : Multiset (Waker × Wait)} {batch : List (Entry κ)}
    (reached : Reachable wait ⟨kernel w, loose + kept w, batch⟩) {id : Nat}
    (live : (h.scheduler w).isLive id = true) :
    (∀ {w₁ w₂ : ω}, h.Command w₁ w₂ → d.Leads w₁ [] w₂ []) ∧
      (∀ {task : τ} {wt : Wait}, (h.scheduler w).tasks.get? id = some task → wait task = some wt →
        ∃ k : Kernel κ ε τ, k.Forgets wt ∧ (kernel w).PassesOn k wt ∧
          Acts wait ⟨k, loose + kept w, batch⟩
            ⟨kernel (h.cancel w id), loose + kept (h.cancel w id), batch⟩) ∧
      ∀ {l : List Mark} {s : Executor κ ε τ},
        Run wait ⟨kernel (h.cancel w id), loose + kept (h.cancel w id), batch⟩ l s →
          .polled id ∉ l ∧
          (s.kernel.scheduler.running ≠ some id → FreeOf wait s id) ∧
          ∀ {wt : Wait} {s' : Executor κ ε τ}, Executor.Step wait s [.gaveUp id (some wt)] s' →
            s'.kernel.Forgets wt ∧ s.kernel.PassesOn s'.kernel wt := by
  have hs := reached.sound
  have hcancel := d.acts_cancel w id loose batch
  rw [d.scheduler] at live ⊢
  refine ⟨d.command, fun htask hwait => ?_, fun {l s} hrun => ?_⟩
  · obtain ⟨hforgets, hpasses⟩ := cancel_passesOn hs htask hwait
    exact ⟨_, hforgets, hpasses, hcancel⟩
  · -- The task departs when it is cancelled; giving up the rest of it belongs to what follows.
    have hgone := departed_cancel hs live
    have hsound := hs.act (.cancel _ id)
    have hall := hcancel.run.trans hrun
    obtain ⟨hdeparted, hnever⟩ := hgone.run hsound hall
    refine ⟨hnever, hdeparted.freeOf (hsound.run hall), fun hstep => ?_⟩
    exact hstep.gaveUp_passesOn (hsound.run hall)

/-- A lock is taken, two tasks ask for it, and it is released. It is granted to the first task,
which has not been polled since. -/
def contested : Script.World :=
  let taken := (Script.World.ofParts [] 1 0).performed (.tryAcquire 0)
  let asked := (taken.performed (.spawn [.acquire 0])).performed (.spawn [.acquire 0])
  asked.waited.performed (.release 0)

theorem reached_contested : contested.Reached := by
  apply Script.World.Reached.performed
  apply Script.World.Reached.waited
  apply Script.World.Reached.performed
  apply Script.World.Reached.performed
  apply Script.World.Reached.performed
  exact .start [] 1 0

/-- The lock goes on to the second task when the first one is cancelled. -/
theorem contested_lock_goes_on :
    (contested.kernel.lock 0).granted = [0] ∧
      ((Script.World.host.cancel contested 0).kernel.lock 0).granted = [1] ∧
      FreeOf Script.Task.wait
        ⟨(Script.World.host.cancel contested 0).kernel,
          0 + (Script.World.host.cancel contested 0).keptWaits, []⟩ 0 := by
  have hreachable : Reachable Script.Task.wait
      ⟨contested.kernel, 0 + contested.keptWaits, []⟩ := by
    rw [Multiset.zero_add]
    exact reached_contested.atRest.reachable
  have hlive : (Script.World.host.scheduler contested).isLive 0 = true := by decide +kernel
  have hidle : (Script.World.host.cancel contested 0).kernel.scheduler.running ≠ some 0 := by
    decide +kernel
  obtain ⟨-, -, hafter⟩ := cancel_leaves_no_trace Script.World.host_drives hreachable hlive
  refine ⟨?_, ?_, (hafter (.nil _)).2.1 hidle⟩
  · decide +kernel
  · decide +kernel

end Host

end Clockwork
