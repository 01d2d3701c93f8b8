import Clockwork.Proofs.Concurrency.Schedule.Clock
import Clockwork.Proofs.Concurrency.Schedule.Moves
/-!
Runs in two parts. A run up to a time that is interrupted at an earlier one comes through a state
at rest there (`Path.split`). At the interruption the clock goes on by itself, but the next move
sets it to the time of the first entry anyway (`Rests.move_jump_iff`), so that nothing can be seen
of the interruption (`split_run_unobservable`).
-/

namespace Clockwork

namespace Host

variable {ω κ τ : Type} {h : Host ω κ τ} {a b : Nat} {w w' w₁ w₂ : ω}
  {batch batch₁ : List (Entry κ)}
  {l l₁ l₂ : List Dispatch}

theorem Move.widen (hab : a ≤ b) (hmove : h.Move a w batch l w₁ batch₁) :
    h.Move b w batch l w₁ batch₁ := by
  cases hmove with
  | pass hready hgone => exact .pass hready hgone
  | poll hready htask hrun => exact .poll hready htask hrun
  | take hready hgoes hdue hstop => exact .take hready hgoes hdue (Nat.le_trans hstop hab)
  | fire hdue => exact .fire hdue
  | call hdue hcall => exact .call hdue hcall

theorem Path.widen (hab : a ≤ b) (hpath : h.Path a w batch l w') : h.Path b w batch l w' := by
  induction hpath with
  | nil => exact .nil _
  | cons hmove _ ih => exact .cons (hmove.widen hab) ih

theorem Rests.narrow (hab : a ≤ b) (hr : h.Rests b w) : h.Rests a w where
  ready := hr.ready
  goes := hr.goes
  beyond e he := Nat.lt_of_le_of_lt hab (hr.beyond e he)

theorem Move.narrow_or_rests (hmove : h.Move b w batch l w₁ batch₁) :
    h.Move a w batch l w₁ batch₁ ∨ batch = [] ∧ h.Rests a w := by
  cases hmove with
  | pass hready hgone => exact .inl (.pass hready hgone)
  | poll hready htask hrun => exact .inl (.poll hready htask hrun)
  | fire hdue => exact .inl (.fire hdue)
  | call hdue hcall => exact .inl (.call hdue hcall)
  | take hready hgoes hdue hstop =>
      rename_i s
      rcases Nat.lt_or_ge a s.now.fs with hlate | hearly
      · right
        refine ⟨rfl, hready, hgoes, fun e he => ?_⟩
        obtain ⟨f, hf, hnow⟩ := Scheduler.takeDue_head hdue
        rw [he] at hf
        cases hf
        rw [← hnow]
        exact hlate
      · exact .inl (.take hready hgoes hdue hearly)

theorem Path.split (hab : a ≤ b) (hpath : h.Path b w batch l w') (hr : h.Rests b w') :
    ∃ w₁ l₁ l₂, h.Path a w batch l₁ w₁ ∧ h.Rests a w₁ ∧ h.Path b w₁ [] l₂ w' ∧ l = l₁ ++ l₂ := by
  induction hpath with
  | nil w => exact ⟨w, [], [], .nil w, hr.narrow hab, .nil w, rfl⟩
  | @cons w w₂ w' batch batch₂ l l' hmove hpath ih =>
      rcases hmove.narrow_or_rests with hearly | ⟨rfl, hrest⟩
      · obtain ⟨w₁, l₁, l₂, h₁, hr₁, h₂, rfl⟩ := ih hr
        refine ⟨w₁, l ++ l₁, l₂, .cons hearly h₁, hr₁, h₂, ?_⟩
        exact (List.append_assoc l l₁ l₂).symm
      · exact ⟨w, [], l ++ l', .nil w, hrest, .cons hmove hpath, rfl⟩

/-- From a state at rest a run goes on alike whether the clock went on by itself or not: the next
move takes out the first entries, and sets the clock to their time. -/
theorem Rests.move_jump_iff (hl : h.Lawful) (hr : h.Rests a w) :
    h.Move b (h.update (Scheduler.jumpTo a) w) [] l w₁ batch₁ ↔ h.Move b w [] l w₁ batch₁ := by
  have hscheduler : h.scheduler (h.update (Scheduler.jumpTo a) w) = (h.scheduler w).jumpTo a :=
    hl.scheduler_update _ w
  have hworld : ∀ {s due}, (h.scheduler w).takeDue = some (s, due) →
      h.update Scheduler.taken (h.update (Scheduler.jumpTo a) w) = h.update Scheduler.taken w := by
    intro s due hdue
    rw [hl.update_update]
    exact hl.update_congr (Scheduler.taken_jumpTo hdue)
  constructor
  · intro hmove
    cases hmove with
    | pass hready =>
        rw [hscheduler, Scheduler.jumpTo_ready, hr.ready] at hready
        cases hready
    | poll hready =>
        rw [hscheduler, Scheduler.jumpTo_ready, hr.ready] at hready
        cases hready
    | take _ _ hdue hstop =>
        rw [hscheduler, Scheduler.takeDue_jumpTo] at hdue
        rw [hworld hdue]
        exact .take hr.ready hr.goes hdue hstop
  · intro hmove
    cases hmove with
    | pass hready => cases hr.ready.symm.trans hready
    | poll hready => cases hr.ready.symm.trans hready
    | take hready hgoes hdue hstop =>
        rw [← hworld hdue]
        refine .take ?_ ?_ ?_ hstop
        · rw [hscheduler, Scheduler.jumpTo_ready]
          exact hready
        · rw [hscheduler, Scheduler.jumpTo_stopped]
          exact hgoes
        · rw [hscheduler, Scheduler.takeDue_jumpTo]
          exact hdue

theorem Lawful.rests_jump_iff (hl : h.Lawful) :
    h.Rests b (h.update (Scheduler.jumpTo a) w) ↔ h.Rests b w := by
  constructor
  · rintro ⟨hready, hgoes, hbeyond⟩
    rw [hl.scheduler_update] at hready hgoes hbeyond
    rw [Scheduler.jumpTo_ready] at hready
    rw [Scheduler.jumpTo_stopped] at hgoes
    rw [Scheduler.jumpTo_agenda] at hbeyond
    exact ⟨hready, hgoes, hbeyond⟩
  · rintro ⟨hready, hgoes, hbeyond⟩
    constructor
    · rw [hl.scheduler_update, Scheduler.jumpTo_ready]
      exact hready
    · rw [hl.scheduler_update, Scheduler.jumpTo_stopped]
      exact hgoes
    · rw [hl.scheduler_update, Scheduler.jumpTo_agenda]
      exact hbeyond

/-- The second part of a run does what the undivided run does from the interruption on. -/
theorem Rests.runsUntil_jump_iff (hl : h.Lawful) (hab : a ≤ b) (hr : h.Rests a w) :
    h.RunsUntil b (h.update (Scheduler.jumpTo a) w) l w' ↔
      ∃ w₁, h.Path b w [] l w₁ ∧ h.Rests b w₁ ∧ w' = h.update (Scheduler.jumpTo b) w₁ := by
  have hreset : h.update (fun s => { s with stopped := false }) (h.update (Scheduler.jumpTo a) w) =
      h.update (Scheduler.jumpTo a) w := by
    apply hl.update_self
    have hgoes : (h.scheduler (h.update (Scheduler.jumpTo a) w)).stopped = false := by
      rw [hl.scheduler_update, Scheduler.jumpTo_stopped]
      exact hr.goes
    rw [← hgoes]
  have hend : h.update (Scheduler.jumpTo b) (h.update (Scheduler.jumpTo a) w) =
      h.update (Scheduler.jumpTo b) w := by
    rw [hl.update_update]
    exact hl.update_congr (Scheduler.jumpTo_jumpTo hab _)
  rw [RunsUntil, hreset]
  constructor
  · rintro ⟨w₁, hpath, hr₁, rfl⟩
    cases hpath with
    | nil => exact ⟨w, .nil w, hl.rests_jump_iff.mp hr₁, hend⟩
    | cons hmove hpath => exact ⟨w₁, .cons ((hr.move_jump_iff hl).mp hmove) hpath, hr₁, rfl⟩
  · rintro ⟨w₁, hpath, hr₁, rfl⟩
    cases hpath with
    | nil => exact ⟨_, .nil _, hl.rests_jump_iff.mpr hr₁, hend.symm⟩
    | cons hmove hpath => exact ⟨w₁, .cons ((hr.move_jump_iff hl).mpr hmove) hpath, hr₁, rfl⟩

theorem Lawful.runsUntil_split (hl : h.Lawful) (hab : a ≤ b) :
    h.RunsUntil b w l w' ↔
      ∃ l₁ w₁ l₂, h.RunsUntil a w l₁ w₁ ∧ h.RunsUntil b w₁ l₂ w' ∧ l = l₁ ++ l₂ := by
  constructor
  · rintro ⟨v, hpath, hr, rfl⟩
    obtain ⟨w₁, l₁, l₂, h₁, hr₁, h₂, rfl⟩ := hpath.split hab hr
    refine ⟨l₁, h.update (Scheduler.jumpTo a) w₁, l₂, ⟨w₁, h₁, hr₁, rfl⟩, ?_, rfl⟩
    exact (hr₁.runsUntil_jump_iff hl hab).mpr ⟨v, h₂, hr, rfl⟩
  · rintro ⟨l₁, w₁, l₂, ⟨v₁, h₁, hr₁, rfl⟩, hsecond, rfl⟩
    obtain ⟨v, h₂, hr, rfl⟩ := (hr₁.runsUntil_jump_iff hl hab).mp hsecond
    exact ⟨v, (h₁.widen hab).trans h₂, hr, rfl⟩

theorem RunsUntil.lt_of_mem_dates {w₀ : ω} {j : Journal} (hl : h.Lawful) (hc : h.CallsOnly)
    (h₀ : h.scheduler w₀ = .initial) (hsession : h.Session w₀ j w) (hrun : h.RunsUntil b w l w')
    {d : Date} (hd : d ∈ (h.scheduler w').dates) : b < d.time.fs := by
  obtain ⟨⟨fuel, hcommand⟩, -⟩ := (runUntil_iff_runsUntil hl).mpr ⟨l, hrun⟩
  obtain ⟨more, hcourse⟩ := (Command.runUntil hcommand).reaches hc
  have hclocked : j.Clocked ((h.scheduler w).book []) := .session hc h₀ hsession
  have hascending : Date.Ascending (h.scheduler w').dates := (hclocked.course hc hcourse).ascending
  obtain ⟨w₁, -, hr, rfl⟩ := hrun
  apply Scheduler.lt_of_mem_dates hascending _ hd
  rw [hl.scheduler_update, Scheduler.jumpTo_agenda]
  exact hr.beyond

/-- Take any host whose scheduler is a part of the world that tasks and callbacks use by calls only.
A run that nothing fails in and nothing stops does one sequence of things and comes to one end; it
can be divided at any earlier time, and the two parts together do the same things at the same times
and come to the same end. In sessions that begin with a new scheduler, no entry up to the end of a
run is left after it. -/
theorem split_run_unobservable (hl : h.Lawful) (hc : h.CallsOnly) :
    (∀ {stop : Nat} {w w' : ω},
      (∃ fuel, h.runUntil fuel stop w = some (w', none)) ∧ (h.scheduler w').stopped = false ↔
        ∃ log, h.RunsUntil stop w log w') ∧
      (∀ {stop : Nat} {w w₁ w₂ : ω} {log₁ log₂ : List Dispatch}, h.RunsUntil stop w log₁ w₁ →
        h.RunsUntil stop w log₂ w₂ → log₁ = log₂ ∧ w₁ = w₂) ∧
      (∀ {a b : Nat}, a ≤ b → ∀ {w w' : ω} {log : List Dispatch}, h.RunsUntil b w log w' ↔
        ∃ log₁ w₁ log₂, h.RunsUntil a w log₁ w₁ ∧ h.RunsUntil b w₁ log₂ w' ∧ log = log₁ ++ log₂) ∧
      ∀ {w₀ w w' : ω} {j : Journal} {stop : Nat} {log : List Dispatch}, h.scheduler w₀ = .initial →
        h.Session w₀ j w → h.RunsUntil stop w log w' →
          ∀ d ∈ (h.scheduler w').dates, stop < d.time.fs :=
  ⟨runUntil_iff_runsUntil hl, fun h₁ h₂ => h₁.unique hl h₂, fun hab => hl.runsUntil_split hab,
    fun h₀ hsession hrun _ hd => hrun.lt_of_mem_dates hl hc h₀ hsession hd⟩

end Host

namespace Script.World

/-- More fuel does not change what a script does. -/
theorem run_mono (waker : Waker) (n : Nat) :
    (∀ {m stack w r}, run waker n stack w = some r → n ≤ m → run waker m stack w = some r) ∧
      ∀ {m wait stack w r}, await waker n wait stack w = some r → n ≤ m →
        await waker m wait stack w = some r := by
  induction n with
  | zero =>
      constructor
      · rintro m stack w r ⟨⟩
      · rintro m wait stack w r ⟨⟩
  | succ n ih =>
      obtain ⟨hrun, hawait⟩ := ih
      constructor
      · intro m stack w r h hnm
        obtain ⟨m, rfl⟩ := Nat.exists_eq_add_of_le' (Nat.le_trans (Nat.le_add_left 1 n) hnm)
        simp only [run] at h ⊢
        split at h
        · exact hrun h (Nat.le_of_succ_le_succ hnm)
        · exact h
        · exact hawait h (Nat.le_of_succ_le_succ hnm)
      · intro m wait stack w r h hnm
        obtain ⟨m, rfl⟩ := Nat.exists_eq_add_of_le' (Nat.le_trans (Nat.le_add_left 1 n) hnm)
        simp only [await] at h ⊢
        split at h
        · exact h
        · exact hrun h (Nat.le_of_succ_le_succ hnm)

theorem host_lawful : host.Lawful where
  scheduler_update _ _ := rfl
  update_update _ _ _ := rfl
  update_congr {f g w} hfg := by
    have hfg : f w.kernel.scheduler = g w.kernel.scheduler := hfg
    simp only [host, updateScheduler, hfg]
  update_self {f w} hf := by
    have hf : f w.kernel.scheduler = w.kernel.scheduler := hf
    simp only [host, updateScheduler, hf]
  poll_mono {n m task w r} hpoll hnm := by
    simp only [host, pollTask] at hpoll ⊢
    split at hpoll
    · exact (run_mono _ n).1 hpoll hnm
    · exact (run_mono _ n).2 hpoll hnm
  call_mono {n m body w r} hcall hnm := by
    simp only [host, runCallback] at hcall ⊢
    split at hcall
    · cases hcall
    · rename_i hrun
      rw [(run_mono _ n).1 hrun hnm]
      exact hcall
    · rename_i hrun
      rw [(run_mono _ n).1 hrun hnm]
      exact hcall

end Script.World

namespace Host

def twoSleeps : Script.World :=
  ((Script.World.ofParts [] 0 0).start [.program "t0" [.wait 3, .wait 4]]).1

/-- The sleeper is woken at 3 fs, before the interruption at 5 fs, and at 7 fs, after it. -/
theorem split_run_of_two_sleeps : ∃ w₁ w',
    Script.World.host.Session (.ofParts [] 0 0) [] twoSleeps ∧
      Script.World.host.RunsUntil 5 twoSleeps
        [.polled 0 ⟨0, 0⟩, .dispatched ⟨⟨3, 0⟩, 0⟩ ⟨3, 0⟩, .polled 0 ⟨3, 0⟩] w₁ ∧
      w₁.kernel.scheduler.now = ⟨5, 0⟩ ∧
      Script.World.host.RunsUntil 10 w₁ [.dispatched ⟨⟨7, 0⟩, 1⟩ ⟨7, 0⟩, .polled 0 ⟨7, 0⟩] w' ∧
      (∀ log w'', Script.World.host.RunsUntil 10 twoSleeps log w'' →
        w'' = w' ∧ log = [.polled 0 ⟨0, 0⟩, .dispatched ⟨⟨3, 0⟩, 0⟩ ⟨3, 0⟩, .polled 0 ⟨3, 0⟩,
          .dispatched ⟨⟨7, 0⟩, 1⟩ ⟨7, 0⟩, .polled 0 ⟨7, 0⟩]) ∧
      ∀ d ∈ (Script.World.host.scheduler w').dates, 10 < d.time.fs := by
  let host := Script.World.host
  have hstart : host.Session (.ofParts [] 0 0) [] (.ofParts [] 0 0) := .start
  have hspawn : (host.scheduler (.ofParts [] 0 0)).Alike (host.scheduler twoSleeps) :=
    ⟨rfl, rfl, rfl⟩
  have hsession : host.Session (.ofParts [] 0 0) [] twoSleeps :=
    hstart.outside (Scheduler.Call.other hspawn).calls
  have hpaths : ∃ v₁ v₂,
      host.Path 5 (host.update (fun s => { s with stopped := false }) twoSleeps) []
        [.polled 0 ⟨0, 0⟩, .dispatched ⟨⟨3, 0⟩, 0⟩ ⟨3, 0⟩, .polled 0 ⟨3, 0⟩] v₁ ∧
      host.Rests 5 v₁ ∧ (host.scheduler v₁).now = ⟨3, 0⟩ ∧
      host.Path 10 v₁ [] [.dispatched ⟨⟨7, 0⟩, 1⟩ ⟨7, 0⟩, .polled 0 ⟨7, 0⟩] v₂ ∧
      host.Rests 10 v₂ := by
    apply Exists.intro
    apply Exists.intro
    apply And.intro
    · apply Path.cons (@Move.poll _ _ _ host _ _ _ _ 9 _ _ rfl rfl rfl)
      apply Path.cons (.take rfl rfl rfl (by decide))
      apply Path.cons (.fire rfl)
      exact .single (@Move.poll _ _ _ host _ _ _ _ 9 _ _ rfl rfl rfl)
    apply And.intro
    · apply Rests.mk rfl rfl
      rintro e ⟨⟩
      decide
    apply And.intro rfl
    apply And.intro
    · apply Path.cons (.take rfl rfl rfl (by decide))
      apply Path.cons (.fire rfl)
      exact .single (@Move.poll _ _ _ host _ _ _ _ 9 _ _ rfl rfl rfl)
    · exact ⟨rfl, rfl, nofun⟩
  obtain ⟨v₁, v₂, hpath₁, hrests₁, hnow, hpath₂, hrests₂⟩ := hpaths
  let w₁ := host.update (Scheduler.jumpTo 5) v₁
  have hfirst : host.RunsUntil 5 twoSleeps _ w₁ := ⟨v₁, hpath₁, hrests₁, rfl⟩
  have hsecond : host.RunsUntil 10 w₁ _ _ :=
    (hrests₁.runsUntil_jump_iff Script.World.host_lawful (by decide)).mpr
      ⟨v₂, hpath₂, hrests₂, rfl⟩
  have hjump : (host.scheduler w₁).now = ⟨5, 0⟩ := by
    show ((host.scheduler v₁).jumpTo 5).now = ⟨5, 0⟩
    rw [Scheduler.jumpTo, if_pos (by rw [hnow]; decide)]
    rfl
  obtain ⟨-, hunique, hsplit, hpending⟩ :=
    split_run_unobservable Script.World.host_lawful Script.World.host_callsOnly
  have hwhole := (hsplit (by decide)).mpr ⟨_, w₁, _, hfirst, hsecond, rfl⟩
  refine ⟨w₁, _, hsession, hfirst, hjump, hsecond, fun log w'' hrun => ?_, ?_⟩
  · exact (hunique hrun hwhole).symm
  · exact hpending rfl hsession hwhole

end Host

end Clockwork
