import Clockwork.Proofs.Calls.Session
import Clockwork.Proofs.Combs.Settling

namespace Clockwork

/-- Every combinational process has written what it would write now. -/
def Simulation.AtFixpoint (s : Simulation) : Prop :=
  ∀ p f, s.tree.CombAt p f → s.UpToDate p

theorem Simulation.AtFixpoint.congr {s s' : Simulation} (h : s.AtFixpoint) (hs : s.Agrees s')
    (hc : s.tree.Combinational) (hlead : s.tree.PathsLead) : s'.AtFixpoint := by
  intro p f hf
  rw [hs.tree] at hf
  have hcurrent := Simulation.current_congr hs.signals
  exact (h p f hf).congr hc hlead hs.tree
    (fun g _ => readField_of_current hs.tree fun slot _ => hcurrent g slot)
    fun g slot _ _ => hcurrent g slot

namespace Machine

variable {outer : FieldRef → Prop} {m : Machine} {waker : Waker} {fuel : Nat} {p : ProcessRef}

theorem Converging.atFixpoint (h : Converging m) (hwork : m.work = []) : m.sim.AtFixpoint := by
  intro p f hf
  refine (h.resting p f hf ?_).resolve_left ?_
  · simp [Executes, hwork]
  · simp [WillRun, dueChanges, hwork]

theorem downstream_of_rest (hwork : m.work = []) (hs : m.sim.AtRest) : Downstream m := by
  refine ⟨by rw [hwork]; exact .nil, by simp [hwork], ?_⟩
  intro f slot v _ hv
  rw [Simulation.staged?, hs.unstaged] at hv
  cases hv

theorem Converging.of_rest (hwork : m.work = []) (ha : Addressed m) (hs : m.sim.AtRest)
    (hfix : m.sim.AtFixpoint) : Converging m := by
  refine ⟨ha, downstream_of_rest hwork hs, ?_, fun p f hf _ => .inr (hfix p f hf)⟩
  rintro p ⟨d, hp⟩
  rw [hwork] at hp
  cases hp

/-- All states of a run without a fault converge if the first one does. -/
theorem Converging.states (h : Converging m) (hl : Layered m)
    (hok : ∀ m' ∈ m.states waker fuel, m'.fault? = none)
    (ht : ∀ m' ∈ m.states waker fuel, Sheltered outer m') :
    ∀ m' ∈ m.states waker fuel, Converging m' := by
  induction fuel generalizing m with
  | zero => simp [Machine.states]
  | succ fuel ih =>
      rw [Machine.states] at hok ht ⊢
      intro m' hm'
      rcases List.mem_cons.mp hm' with rfl | hm'
      · exact h
      · cases hstep : m.step waker with
        | go m₁ =>
            simp only [hstep] at hok ht hm'
            cases fuel with
            | zero => cases hm'
            | succ fuel =>
                have hok₁ := hok m₁ (by simp [Machine.states])
                have h₁ := h.step hl (ht m (by simp)) hstep hok₁
                exact ih h₁ (hl.step hstep).1 (fun x hx => hok x (by simp [hx]))
                  (fun x hx => ht x (by simp [hx])) m' hm'
        | _ =>
            rw [hstep] at hm'
            cases hm'

theorem Converging.run {s₀ s : Simulation} {o : Outcome} (h : Converging m) (htidy : m.Tidy s₀)
    (hrun : m.run waker fuel = some (s, o)) (ho : ∀ e, o ≠ .over (.failed e))
    (ht : ∀ m' ∈ m.states waker fuel, Sheltered outer m') : s.AtFixpoint := by
  obtain ⟨m', hlast, hwork, hsim⟩ := Recorded.last_of_run htidy hrun
  have hm' := h.states htidy.toLayered (states_no_fault hrun ho) ht m' (List.mem_of_getLast? hlast)
  have ht' := ht m' (List.mem_of_getLast? hlast)
  exact (hm'.atFixpoint hwork).congr hsim.agrees ht'.tree ht'.pathsLead

/-- The first combinational process of a list begins, and the others are to be run. -/
theorem runCombs_begun {l : List ProcessRef} (hnone : ∀ p, ¬ Executes m p)
    (hok : (m.runCombs l).fault? = none) :
    (∀ p, Executes (m.runCombs l) p → Underway p (m.runCombs l)) ∧
      ∀ p f, p ∈ l → m.sim.tree.CombAt p f →
        Executes (m.runCombs l) p ∨ WillRun (m.runCombs l) p := by
  cases l with
  | nil => exact ⟨fun p hp => absurd hp (hnone p), by simp⟩
  | cons q l =>
      let m₁ : Machine := { m with stack := .combs l :: m.stack }
      have hm₁ : m₁.work = .combs l :: m.work := List.filter_cons_of_pos rfl
      change (m₁.runComb q).fault? = none at hok
      change (∀ p, Executes (m₁.runComb q) p → Underway p (m₁.runComb q)) ∧ ∀ p f, p ∈ q :: l →
        m.sim.tree.CombAt p f → Executes (m₁.runComb q) p ∨ WillRun (m₁.runComb q) p
      have hlater : Frame.combs l ∈ (m₁.runComb q).work := by
        rcases (m₁.runComb_work q).1 with hwork | ⟨d, hwork⟩ <;> simp [hwork, hm₁]
      have hother : ∀ p, p ≠ q → ¬ Executes (m₁.runComb q) p := by
        rintro p hne ⟨d, hp⟩
        refine hnone p ⟨d, ?_⟩
        rcases (m₁.runComb_work q).1 with hwork | ⟨e, hwork⟩ <;> simpa [hwork, hm₁, hne] using hp
      have hfirst : (∀ f, ¬ m.sim.tree.CombAt q f) ∧ ¬ Executes (m₁.runComb q) q ∨
          Underway q (m₁.runComb q) := by
        rcases m₁.runComb_begun hok with ⟨hno, heq⟩ | ⟨f, hf, -, heq⟩
        · refine .inl ⟨hno, ?_⟩
          rw [heq]
          rintro ⟨d, hp⟩
          change _ ∈ m₁.work at hp
          exact hnone q ⟨d, by simpa [hm₁] using hp⟩
        · rw [heq]
          exact .inr (.begun { m₁.sim with combDepth := m₁.sim.combDepth + 1 } hf _ _ _)
      constructor
      · intro p hp
        by_cases hpq : p = q
        · subst hpq
          exact hfirst.resolve_left fun h => h.2 hp
        · exact absurd hp (hother p hpq)
      · intro p f hp hf
        rcases List.mem_cons.mp hp with rfl | hp
        · exact .inl (hfirst.resolve_left fun h => h.1 f hf).executes
        · exact .inr (.inl ⟨l, hlater, hp⟩)

end Machine

namespace Simulation

open Machine

variable {s : Simulation} {outer : FieldRef → Prop} {m : Machine}

/-- What a command begins with is on the way to a fixpoint, if the simulation is at one. -/
theorem Begins.converging (hm : s.Begins outer m) (hl : s.machine.Layered)
    (ht : Sheltered outer s.machine) (h : Converging s.machine) (hok : m.fault? = none) :
    Converging m := by
  have hfollows : Follows outer s.machine m := .begins rfl hm
  have hw := hfollows.workStep hl hok
  have htree := hw.design.1
  have hnone : ∀ p, ¬ Executes s.machine p := by
    rintro p ⟨d, hp⟩
    cases hp
  have hresting : ∀ p f, s.machine.sim.tree.CombAt p f → WillRun m p ∨ m.sim.UpToDate p :=
    fun p f hf => hw.resting h ht hf (hnone p) (by simp [work, machine])
  -- Nothing was under way before, so at most what the command begins with runs a process.
  refine ⟨hw.addressed h.toAddressed,
    hw.downstream h.toAddressed ht hl h.toDownstream (h.ownWrites ht), ?_, ?_⟩
  · cases hm with
    | write f v hf => exact fun p hp => absurd hp.of_write (hnone p)
    | call owner function args =>
        intro p hp
        rw [Executes, callNow_work] at hp
        exact absurd hp (hnone p)
    | event event =>
        intro p hp
        rw [Executes, setEvent_work] at hp
        exact absurd hp (hnone p)
    | combs => 
        refine (runCombs_begun ?_ hok).1
        rintro p ⟨d, hp⟩
        simp [work, Frame.isWork] at hp
  · rw [htree]
    exact fun p f hf _ => hresting p f hf

theorem converging_combs (hl : s.machine.Layered) (ht : Sheltered outer s.machine)
    (ha : Addressed s.machine) (hd : Downstream s.machine)
    (hok : ({ ({ s with driveDepth := s.driveDepth + 1 } : Simulation).machine with
        stack := [.driven] }.runCombs s.wiring.order).fault? = none) :
    Converging ({ ({ s with driveDepth := s.driveDepth + 1 } : Simulation).machine with
        stack := [.driven] }.runCombs s.wiring.order) := by
  have hfollows : Follows outer s.machine _ := .begins rfl .combs
  have hw := hfollows.workStep hl hok
  have htree := hw.design.1
  have hown : OwnWrites s.machine := fun _ _ _ _ _ hwrite => by cases hwrite
  have hbegun := runCombs_begun (m := { ({ s with driveDepth := s.driveDepth + 1 } :
    Simulation).machine with stack := [.driven] }) (l := s.wiring.order) ?_ hok
  · refine ⟨hw.addressed ha, hw.downstream ha ht hl hd hown, hbegun.1, ?_⟩
    rw [htree]
    intro p f hf hp
    obtain ⟨log, hwiring⟩ := ht.wiring
    exact .inl ((hbegun.2 p f ((Wiring.mem_order_iff hwiring).mpr ⟨f, hf⟩) hf).resolve_left hp)
  · rintro p ⟨d, hp⟩
    simp [work, Frame.isWork] at hp

end Simulation

theorem Reachable.pathsLead {s : Simulation} (h : Reachable s) (hc : s.tree.Combinational)
    (hlead : s.tree.WritesLead) : s.tree.PathsLead := by
  obtain ⟨log, hwiring⟩ := h.designed.wiring
  exact Wiring.pathsLead hwiring hc hlead

namespace Recorded

/-- Simulations that rest at a fixpoint, as far as there was no fault so far and all states left
combinational processes to themselves. -/
structure Converges (s₀ : Simulation) (fault : Option SimError) (r : Recorded) : Prop
    extends Rests s₀ r where
  fixpoint : fault = none → (∀ m ∈ r.states, m.Spares) → r.sim.AtFixpoint

section Invariant

variable {s₀ : Simulation} {outer : FieldRef → Prop} (hs : Reachable s₀)
  (hc : s₀.tree.Combinational) (hlead : s₀.tree.WritesLead)
  (houter : ∀ g, outer g → ¬ s₀.tree.CombWritten g)

include hs hc hlead houter

theorem sheltered {m : Machine} (htidy : m.Tidy s₀) (hspares : m.Spares) :
    Machine.Sheltered outer m := by
  refine ⟨hspares, ?_, ?_, ?_, ?_⟩
  · rw [htidy.design.tree]
    exact hc
  · rw [htidy.design.tree]
    exact hs.pathsLead hc hlead
  · rw [htidy.design.tree, htidy.design.wiring]
    exact hs.designed.wiring
  · rw [htidy.design.tree]
    exact houter

omit hc hlead houter in
theorem Rests.addressed {r : Recorded} (hr : Rests s₀ r) {m : Machine} (hsim : m.sim = r.sim)
    (hwork : m.work = []) : Machine.Addressed m := by
  have hdesigned := hs.designed
  refine ⟨?_, ?_, by simp [hwork]⟩
  · rw [hsim]
    refine hr.rest.coherent ?_ ?_
    · rw [hr.design.tree]
      exact hdesigned.tree
    · rw [hr.design.tree, hr.design.size]
      exact hdesigned.size
  · rw [hsim, hr.design.tree]
    exact hdesigned.bound

theorem Converges.ends {r r' : Recorded} {fault e : Option SimError} {states : List Machine}
    {m : Machine} {waker : Waker} {fuel : Nat} {o : Machine.Outcome} (hr' : Rests s₀ r')
    (hstates : r'.states = r.states ++ states) (hsub : ∀ m' ∈ m.states waker fuel, m' ∈ states)
    (hrun : m.run waker fuel = some (r'.sim, o)) (ho : e = none → ∀ e, o ≠ .over (.failed e))
    (htidy : m.Tidy s₀) (hm : fault = none → m.fault? = none → (∀ m ∈ r'.states, m.Spares) →
      Machine.Converging m) : Converges s₀ (fault.or e) r' := by
  refine ⟨hr', fun hnone hspares => ?_⟩
  obtain ⟨hfault, he⟩ := Option.or_eq_none_iff.mp hnone
  have hmem : ∀ m' ∈ m.states waker fuel, m' ∈ r'.states := fun m' hm' => by
    rw [hstates]
    exact List.mem_append_right _ (hsub m' hm')
  have hok := Machine.states_no_fault hrun (ho he) m (List.mem_of_head? (Machine.states_head hrun))
  exact (hm hfault hok hspares).run htidy hrun (ho he) fun m' hm' =>
    sheltered hs hc hlead houter (hr'.tidy m' (hmem m' hm')) (hspares m' (hmem m' hm'))

theorem converges_invariant : Invariant outer (Converges s₀) where
  tasks hr := hr.tasks
  fails {fault r} e hr := by
    refine ⟨hr.toRests, fun hnone => ?_⟩
    cases fault <;> cases hnone
  change {fault r} k started traced hr hk := by
    refine ⟨(rests_invariant outer s₀).change (e := fault) k started traced hr.toRests hk, ?_⟩
    intro hnone hspares
    refine (hr.fixpoint hnone hspares).congr ⟨rfl, rfl, rfl, rfl, rfl, rfl⟩ ?_ ?_
    all_goals rw [hr.design.tree]
    · exact hc
    · exact hs.pathsLead hc hlead
  run {fault r m fuel r' result} hr hm hrun := by
    have hrests := (rests_invariant outer s₀).run (e := fault) hr.toRests hm hrun
    have hmachine := hr.rest.machine hr.tasks hr.design
    obtain ⟨⟨s, result'⟩, hend, heq⟩ := Option.map_eq_some_iff.mp hrun
    cases heq
    obtain ⟨o, hend, hfault⟩ := Simulation.runMachine_ends hend
    refine Converges.ends hs hc hlead houter hrests rfl
      (fun m' hm' => List.mem_cons_of_mem _ hm') hend ?_ (hr.rest.begins hr.tasks hr.design hm) ?_
    · rintro hnone e rfl
      rw [(hfault e).mp rfl] at hnone
      cases hnone
    · intro hnone hok hspares
      have hshelter := sheltered hs hc hlead houter hmachine (hspares _ (by simp))
      have hfix := hr.fixpoint hnone fun m' hm' => hspares m' (List.mem_append_left _ hm')
      have hbegin : Machine.Converging r.sim.machine :=
        .of_rest rfl (hr.addressed hs rfl rfl) hr.rest hfix
      exact hm.converging hmachine.toLayered hshelter hbegin hok
  poll {fault r t fuel r' turn} hr ht hrun := by
    obtain ⟨hrests, hturn⟩ := (rests_invariant outer s₀).poll (e := fault) hr.toRests ht hrun
    refine ⟨?_, hturn⟩
    obtain ⟨⟨s, turn'⟩, hpoll, heq⟩ := Option.map_eq_some_iff.mp hrun
    cases heq
    obtain ⟨o, hend, -, hfault⟩ := Simulation.pollTask_ends hpoll
    refine Converges.ends hs hc hlead houter hrests rfl (fun m' hm' => hm') hend ?_
      (hr.rest.task hr.tasks hr.design ht) ?_
    · rintro hnone e rfl
      rw [(hfault e).mp rfl] at hnone
      cases hnone
    · intro hnone hok hspares
      have hfix := hr.fixpoint hnone fun m' hm' => hspares m' (List.mem_append_left _ hm')
      have hwork : (t.machine r.sim).work = [] := by
        rw [Machine.work, List.filter_eq_nil_iff]
        intro f hf
        simp [ht.bodies f hf]
      exact .of_rest hwork (hr.addressed hs rfl hwork) hr.rest hfix

end Invariant

end Recorded

/-- A command leaves the fields that combinational processes write to these processes. -/
def Command.Spares (c : Command) (fuel : Nat) (s : Simulation) : Prop :=
  (∀ g ∈ c.field? s, ¬ s.tree.CombWritten g) ∧ ∀ m ∈ c.states fuel s, m.Spares

/-- A simulation after its start and some further commands, none of which came to a fault or
interfered with what combinational processes write. -/
inductive Quiescent : Simulation → Prop
  | start {s s' : Simulation} {fuel : Nat} (hs : Reachable s) (hnew : s.started = false)
      (hc : s.tree.Combinational) (hlead : s.tree.WritesLead)
      (hrun : Command.start.run fuel s = some (s', none))
      (hspares : Command.start.Spares fuel s) : Quiescent s'
  | command {s s' : Simulation} {c : Command} {fuel : Nat} (h : Quiescent s)
      (hrun : c.run fuel s = some (s', none)) (hspares : c.Spares fuel s) : Quiescent s'

theorem Recorded.started_converges {s s' : Simulation} {fuel : Nat} (hs : Reachable s)
    (hnew : s.started = false) (hc : s.tree.Combinational) (hlead : s.tree.WritesLead)
    (hrun : Command.start.run fuel s = some (s', none)) :
    Converges s none ⟨s', Command.start.states fuel s⟩ := by
  let outer : FieldRef → Prop := fun _ => False
  have houter : ∀ g, outer g → ¬ s.tree.CombWritten g := fun _ h => h.elim
  have hrec := Command.recorded hrun
  generalize Command.start.states fuel s = states at hrec
  obtain ⟨⟨r', result⟩, hstart, heq⟩ := Option.map_eq_some_iff.mp hrec
  have hresult : r' = ⟨s', states⟩ ∧ faultIn result = none := by
    cases result <;> cases heq
    exact ⟨rfl, rfl⟩
  obtain ⟨rfl, hok⟩ := hresult
  simp only [Recorded.start, hnew, Bool.false_eq_true, ↓reduceIte] at hstart
  generalize (if s.tracing = .memory then Simulation.announced s.tree else []) = traced at hstart
  let s₁ : Simulation := { s with started := true, traced := traced }
  let r₁ : Recorded := ⟨s₁, []⟩
  have hrests₁ : Rests s r₁ := (rests_invariant outer s).change (e := none) s.kernel true traced
    (.of_settled hs.settled) hs.settled.tasks
  split at hstart
  · cases hstart
  · cases hstart
    cases hok
  · rename_i r₂ v hcombs
    change r₁.evalComb fuel = some (r₂, .ok v) at hcombs
    have hr₂ : Converges s (Option.or none none) r₂ := by
      have hrests₂ : Rests s r₂ :=
        (rests_invariant outer s).run (e := none) hrests₁ .combs hcombs
      obtain ⟨⟨s₂, result₂⟩, hend, heq⟩ := Option.map_eq_some_iff.mp hcombs
      cases heq
      obtain ⟨o, hend, hfault⟩ := Simulation.runMachine_ends hend
      have hmachine := hrests₁.rest.machine hrests₁.tasks hrests₁.design
      have hbegins : s₁.Begins outer _ := .combs
      refine Converges.ends hs hc hlead houter hrests₂ rfl
        (fun m' hm' => List.mem_cons_of_mem _ hm') hend ?_
        (hrests₁.rest.begins hrests₁.tasks hrests₁.design hbegins) ?_
      · rintro - e rfl
        cases (hfault e).mp rfl
      · intro _ hok hspares
        exact Simulation.converging_combs hmachine.toLayered
          (sheltered hs hc hlead houter hmachine (hspares _ (by simp)))
          (hrests₁.addressed hs rfl rfl)
          (Machine.downstream_of_rest (m := r₁.sim.machine) rfl hrests₁.rest) hok
    have hover := (converges_invariant hs hc hlead houter).runProcesses hr₂ hstart
    rw [hok] at hover
    exact hover

namespace Quiescent

theorem reachable {s : Simulation} (h : Quiescent s) : Reachable s := by
  induction h with
  | start hs _ _ _ hrun _ => exact hs.command hrun
  | command _ hrun _ ih => exact ih.command hrun

theorem combinational {s : Simulation} (h : Quiescent s) : s.tree.Combinational := by
  induction h with
  | start hs _ hc _ hrun _ =>
      rw [(hs.settled.command hrun).2.1.tree]
      exact hc
  | command h hrun _ ih =>
      rw [(h.reachable.settled.command hrun).2.1.tree]
      exact ih

theorem writesLead {s : Simulation} (h : Quiescent s) : s.tree.WritesLead := by
  induction h with
  | start hs _ _ hlead hrun _ =>
      rw [(hs.settled.command hrun).2.1.tree]
      exact hlead
  | command h hrun _ ih =>
      rw [(h.reachable.settled.command hrun).2.1.tree]
      exact ih

theorem atFixpoint {s : Simulation} (h : Quiescent s) : s.AtFixpoint := by
  induction h with
  | @start s s' fuel hs hnew hc hlead hrun hspares =>
      exact (Recorded.started_converges hs hnew hc hlead hrun).fixpoint rfl hspares.2
  | @command s s' c fuel h hrun hspares ih =>
      have hs := h.reachable
      have hbegun : Recorded.Converges s none ⟨s, []⟩ :=
        ⟨.of_settled hs.settled, fun _ _ => ih⟩
      have hinvariant : Recorded.Invariant (fun g => c.field? s = some g) (Recorded.Converges s) :=
        Recorded.converges_invariant hs h.combinational h.writesLead hspares.1
      have hover := hinvariant.command hbegun (fun _ hg => hg) (Command.recorded hrun)
      exact hover.fixpoint rfl hspares.2

end Quiescent

end Clockwork
