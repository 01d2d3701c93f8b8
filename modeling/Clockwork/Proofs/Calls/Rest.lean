import Clockwork.Proofs.Calls.Record
import Clockwork.Proofs.Elaboration.Instances
import Clockwork.Proofs.Machine.Underway
/-!
Invariants of simulations between commands. What every run of a machine keeps, and what a change of
the scheduler keeps, is kept by every command. So nothing of what a command sets going is left when
it is over, whether it came to a fault or not.
-/

namespace Clockwork

/-- The machines that commands begin runs with, if they write the fields `outer` at most. -/
inductive Simulation.Begins (s : Simulation) (outer : FieldRef → Prop) : Machine → Prop
  | write (f : FieldRef) (v : Value) (hf : outer f) :
      s.Begins outer (s.machine.write f v .immediate)
  | combs : s.Begins outer
      ({ ({ s with driveDepth := s.driveDepth + 1 } : Simulation).machine with
        stack := [.driven] }.runCombs s.wiring.order)
  | call (owner : Nat) (function : String) (args : List Value) :
      s.Begins outer (s.machine.callNow owner function args)
  | event (event : Nat) : s.Begins outer (s.machine.setEvent event)

def Command.field? (s : Simulation) : Command → Option FieldRef
  | .setInput path _ | .clockEdge path => (s.tree.resolveField path).toOption
  | _ => none

namespace Recorded

/-- A property of recorded simulations, and of the entries that were taken out of the agenda, that
each piece of a command keeps. It may depend on the first fault so far. -/
structure Conducts (outer : FieldRef → Prop)
    (P : Option SimError → Recorded → List (Entry Empty) → Prop) : Prop where
  guides : host.Guides P
  fails : ∀ {e r} (error : SimError), P e r [] → P (e.or (some error)) r []
  announce : ∀ {e r} (traced : List TracedSignal), P e r [] →
    P e { r with sim := { r.sim with started := true, traced := traced } } []
  spawn : ∀ {e r a stack}, P e r [] → (⟨none, a, stack⟩ : Task).Sound →
    Machine.innermostBody stack = none → P e { r with sim := (r.sim.spawn a stack).1 } []
  run : ∀ {e r m fuel r' result}, P e r [] → r.sim.Begins outer m →
    r.runMachine fuel m = some (r', result) → P (e.or (faultIn result)) r' []
  cancel : ∀ {e r} (id : Nat), P e r [] → P e (host.cancel r id) []
  stop : ∀ {e r}, P e r [] → P e (host.update Scheduler.stop r) []
  clear : ∀ {e r} (event : Nat), P e r [] → P e { r with sim := r.sim.clearEvent event } []

namespace Conducts

variable {outer : FieldRef → Prop} {P : Option SimError → Recorded → List (Entry Empty) → Prop}
  (h : Conducts outer P) {fault : Option SimError}

include h

theorem evalComb {r r' : Recorded} {fuel : Nat} {result : Except SimError Value}
    (hr : P fault r []) (hrun : r.evalComb fuel = some (r', result)) :
    P (fault.or (faultIn result)) r' [] :=
  h.run hr .combs hrun

theorem driveField {r r' : Recorded} {fuel : Nat} {f : FieldRef} {v : Value}
    {result : Except SimError Unit} (hf : outer f) (hr : P fault r [])
    (hrun : r.driveField fuel f v = some (r', result)) :
    P (fault.or (faultIn result)) r' [] := by
  obtain ⟨⟨r₁, result₁⟩, hrun₁, heq⟩ := Option.map_eq_some_iff.mp hrun
  cases heq
  have hr₁ := h.run hr (.write f v hf) hrun₁
  cases result₁ <;> exact hr₁

theorem driveLevels {r r' : Recorded} {fuel : Nat} {f : FieldRef} {levels : List Int}
    {result : Except SimError Unit} (hf : outer f) (hr : P fault r [])
    (hrun : driveLevels fuel f levels r = some (r', result)) :
    P (fault.or (faultIn result)) r' [] := by
  induction levels generalizing r with
  | nil =>
      cases hrun
      rwa [faultIn, Option.or_none]
  | cons level rest ih =>
      simp only [Recorded.driveLevels] at hrun
      split at hrun
      · rename_i r₁ hdrive
        have hr₁ := h.driveField hf hr hdrive
        rw [faultIn, Option.or_none] at hr₁
        exact ih hr₁ hrun
      · exact h.driveField hf hr hrun

theorem spawnProcesses {r : Recorded} (hr : P fault r []) (id : Nat) :
    P fault { r with sim := r.sim.spawnProcesses id } [] := by
  have fold : ∀ (l : List Function) (s : Simulation), P fault { r with sim := s } [] →
      P fault { r with sim := l.foldl (fun s f =>
        (s.spawn (.begin id f.name .immediate) [.block f.body]).1) s } [] := by
    intro l
    induction l with
    | nil => exact fun s hs => hs
    | cons f l ih =>
        intro s hs
        refine ih _ (h.spawn hs ?_ rfl)
        exact ⟨⟨rfl, trivial⟩, by simp [Frame.isWork], rfl⟩
  exact fold _ r.sim hr

theorem runProcesses {r r' : Recorded} {fuel : Nat} {result : Except SimError Unit}
    (hr : P fault r [])
    (hrun : (host.runReady fuel
      { r with sim := (List.range r.sim.tree.size).foldl Simulation.spawnProcesses r.sim }).map
        Recorded.ofFault = some (r', result)) : P (fault.or (faultIn result)) r' [] := by
  have fold : ∀ (l : List Nat) (s : Simulation), P fault { r with sim := s } [] →
      P fault { r with sim := l.foldl Simulation.spawnProcesses s } [] := by
    intro l
    induction l with
    | nil => exact fun s hs => hs
    | cons id l ih => exact fun s hs => ih _ (h.spawnProcesses hs id)
  obtain ⟨⟨r₂, e⟩, hready, heq⟩ := Option.map_eq_some_iff.mp hrun
  have hr₂ := h.guides.runReady (fold _ r.sim hr) hready
  cases e <;> cases heq <;> exact hr₂

theorem start {r r' : Recorded} {fuel : Nat} {result : Except SimError Unit} (hr : P fault r [])
    (hrun : r.start fuel = some (r', result)) : P (fault.or (faultIn result)) r' [] := by
  simp only [Recorded.start] at hrun
  split at hrun
  · cases hrun
    rwa [faultIn, Option.or_none]
  · have hbegun := h.announce
      (if r.sim.tracing = .memory then Simulation.announced r.sim.tree else []) hr
    split at hrun
    · cases hrun
    · rename_i r₁ e hcomb
      cases hrun
      exact h.evalComb hbegun hcomb
    · rename_i r₁ v hcomb
      have hr₁ := h.evalComb hbegun hcomb
      rw [faultIn, Option.or_none] at hr₁
      exact h.runProcesses hr₁ hrun

theorem driveClock {r : Recorded} (hr : P fault r []) (path : String) (period : Nat) :
    P fault { r with sim := (r.sim.driveClock path period).1 } [] := by
  simp only [Simulation.driveClock]
  split
  · exact hr
  · split
    · exact hr
    · refine h.spawn hr ?_ rfl
      exact ⟨⟨⟨rfl, rfl⟩, trivial⟩, by simp [Frame.isWork], rfl⟩

/-- Every command keeps the property, whether it comes to a fault or not. -/
theorem command {r r' : Recorded} {fuel : Nat} {c : Command} {e : Option SimError}
    (hr : P none r []) (hc : ∀ f, c.field? r.sim = some f → outer f)
    (hrun : r.command fuel c = some (r', e)) : P e r' [] := by
  have of_fault : ∀ {α : Type} {o : Option (Recorded × Except SimError α)},
      o.map Command.faultOf = some (r', e) →
        ∃ result, o = some (r', result) ∧ e = faultIn result := by
    rintro α (_ | ⟨r₁, e' | v⟩) ho <;> cases ho
    · exact ⟨_, rfl, rfl⟩
    · exact ⟨_, rfl, rfl⟩
  cases c with
  | start =>
      obtain ⟨result, hstart, rfl⟩ := of_fault hrun
      exact h.start hr hstart
  | setInput path v =>
      simp only [Recorded.command] at hrun
      split at hrun
      · cases hrun
        exact h.fails _ hr
      · rename_i f hpath
        obtain ⟨result, hdrive, rfl⟩ := of_fault hrun
        exact h.driveField (hc f (by simp [Command.field?, hpath, Except.toOption])) hr hdrive
  | clockEdge path =>
      simp only [Recorded.command] at hrun
      split at hrun
      · cases hrun
        exact h.fails _ hr
      · rename_i f hpath
        obtain ⟨result, hdrive, rfl⟩ := of_fault hrun
        exact h.driveLevels (hc f (by simp [Command.field?, hpath, Except.toOption])) hr hdrive
  | evalComb =>
      obtain ⟨result, hcomb, rfl⟩ := of_fault hrun
      exact h.evalComb hr hcomb
  | call path function args =>
      simp only [Recorded.command] at hrun
      split at hrun
      · cases hrun
        exact h.fails _ hr
      · obtain ⟨result, hcall, rfl⟩ := of_fault hrun
        exact h.run hr (.call _ _ _) hcall
  | advance =>
      obtain ⟨result, hadvance, rfl⟩ := of_fault hrun
      exact h.guides.advance hr hadvance
  | runUntil time => exact h.guides.runUntil hr hrun
  | driveClock path period =>
      have hclock := h.driveClock hr path period
      simp only [Recorded.command] at hrun
      rcases hresult : r.sim.driveClock path period with ⟨s, e' | id⟩
      all_goals
        rw [hresult] at hrun hclock
        cases hrun
      · exact h.fails e' hclock
      · exact hclock
  | cancel task =>
      cases hrun
      exact h.cancel task hr
  | stop =>
      cases hrun
      exact h.stop hr
  | setEvent event =>
      obtain ⟨result, hevent, rfl⟩ := of_fault hrun
      exact h.run hr (.event event) hevent
  | clearEvent event =>
      cases hrun
      exact h.clear event hr

end Conducts

/-- A property of recorded simulations, whose tasks are sound, that every run keeps. It may depend
on the first fault so far. -/
structure Invariant (outer : FieldRef → Prop) (P : Option SimError → Recorded → Prop) : Prop where
  tasks : ∀ {e r}, P e r → r.sim.SoundTasks
  fails : ∀ {e r} (error : SimError), P e r → P (e.or (some error)) r
  change : ∀ {e r} (k : Kernel Empty EventHook Task) (started : Bool)
    (traced : List TracedSignal), P e r → (∀ id t, k.tasks.get? id = some t → t.Sound) →
      P e { r with sim := { r.sim with kernel := k, started := started, traced := traced } }
  run : ∀ {e r m fuel r' result}, P e r → r.sim.Begins outer m →
    r.runMachine fuel m = some (r', result) → P (e.or (faultIn result)) r'
  poll : ∀ {e r t fuel r' turn}, P e r → t.Sound → r.pollTask fuel t = some (r', turn) →
    P (e.or turn.fault) r' ∧ ∀ t', turn = .waits t' → t'.Sound

namespace Invariant

variable {outer : FieldRef → Prop} {P : Option SimError → Recorded → Prop} (h : Invariant outer P)
  {fault : Option SimError}

include h

theorem setKernel {r : Recorded} (hr : P fault r) (k : Kernel Empty EventHook Task)
    (hk : ∀ id t, k.tasks.get? id = some t → t.Sound) :
    P fault { r with sim := r.sim.setKernel k } := h.change k r.sim.started r.sim.traced hr hk

theorem spawn {r : Recorded} (hr : P fault r) (a : Activation) (stack : List Frame)
    (ht : (⟨none, a, stack⟩ : Task).Sound) : P fault { r with sim := (r.sim.spawn a stack).1 } := by
  refine h.setKernel hr _ ?_
  intro id t hid
  change (r.sim.kernel.tasks.insert r.sim.kernel.scheduler.nextTask ⟨none, a, stack⟩).get? id =
    some t at hid
  by_cases heq : id = r.sim.kernel.scheduler.nextTask
  · subst heq
    rw [Table.get?_insert_self] at hid
    cases hid
    exact ht
  · rw [Table.get?_insert_of_ne _ heq] at hid
    exact h.tasks hr id t hid

theorem keeps : host.Keeps P Task.Sound where
  tasks hr ht := h.tasks hr _ _ ht
  drop f hr hf := h.setKernel hr _ fun id t ht => h.tasks hr id t (hf id t ht)
  insert {_ r} id {task} hr ht := by
    refine h.setKernel hr _ ?_
    intro id' t hid
    change (r.sim.kernel.tasks.insert id task).get? id' = some t at hid
    by_cases heq : id' = id
    · subst heq
      rw [Table.get?_insert_self] at hid
      cases hid
      exact ht
    · rw [Table.get?_insert_of_ne _ heq] at hid
      exact h.tasks hr id' t hid
  poll hr ht hpoll := h.poll hr ht hpoll
  call {_ _ _ body _ _} _ _ := nomatch body
  abandon {fault r t} hr ht := by
    change P fault { r with sim := Simulation.abandonTask t r.sim }
    cases hw : t.wait with
    | none =>
        simp only [Simulation.abandonTask, hw]
        exact hr
    | some w =>
        simp only [Simulation.abandonTask, hw]
        refine h.setKernel hr _ ?_
        rw [r.sim.kernel.tasks_abandon w]
        exact h.tasks hr

theorem conducts : Conducts outer fun fault r _ => P fault r where
  guides := h.keeps.guides
  fails e hr := h.fails e hr
  announce traced hr := h.change _ true traced hr (h.tasks hr)
  spawn hr ht _ := h.spawn hr _ _ ht
  run hr hm hrun := h.run hr hm hrun
  cancel id hr := h.keeps.cancel hr id
  stop hr := h.keeps.update hr _ rfl
  clear {_ r} event hr := by
    refine h.setKernel hr _ ?_
    rw [r.sim.kernel.tasks_clearFlag event]
    exact h.tasks hr

theorem runProcesses {r r' : Recorded} {fuel : Nat} {result : Except SimError Unit}
    (hr : P fault r)
    (hrun : (host.runReady fuel
      { r with sim := (List.range r.sim.tree.size).foldl Simulation.spawnProcesses r.sim }).map
        Recorded.ofFault = some (r', result)) : P (fault.or (faultIn result)) r' :=
  h.conducts.runProcesses hr hrun

theorem command {r r' : Recorded} {fuel : Nat} {c : Command} {e : Option SimError}
    (hr : P none r) (hc : ∀ f, c.field? r.sim = some f → outer f)
    (hrun : r.command fuel c = some (r', e)) : P e r' := h.conducts.command hr hc hrun

end Invariant

end Recorded

/-- Nothing is under way, pending or staged. -/
structure Simulation.AtRest (s : Simulation) : Prop where
  driveDepth : s.driveDepth = 0
  combDepth : s.combDepth = 0
  inRound : s.inRound = false
  pending : s.pending = []
  touched : s.touched = []
  unstaged : ∀ id, (s.signalsOf id).staged = .empty

namespace SignalState

theorem hasStaged_eq_false_iff (s : SignalState) : s.hasStaged = false ↔ s.staged = .empty := by
  rcases s with ⟨current, ⟨entries⟩⟩
  simp [hasStaged, Table.isEmpty, Table.empty]

end SignalState

namespace Simulation

variable {s : Simulation}

theorem touched_eq_nil (h : s.hasStaged = false) : s.touched = [] := by
  simpa [hasStaged] using h

theorem AtRest.hasStaged (h : s.AtRest) : s.hasStaged = false :=
  s.hasStaged_eq_false_iff.mpr fun id =>
    (SignalState.hasStaged_eq_false_iff _).mpr (h.unstaged id)

theorem unstaged_of_hasStaged (h : s.hasStaged = false) (id : Nat) :
    (s.signalsOf id).staged = .empty :=
  (SignalState.hasStaged_eq_false_iff _).mp (s.hasStaged_eq_false_iff.mp h id)

theorem AtRest.congr {s' : Simulation} (h : s.AtRest) (hd : s'.driveDepth = s.driveDepth)
    (hc : s'.combDepth = s.combDepth) (hr : s'.inRound = s.inRound)
    (hp : s'.pending = s.pending) (hs : s'.signals = s.signals) : s'.AtRest := by
  have hof : ∀ id, s'.signalsOf id = s.signalsOf id := fun id => by rw [signalsOf, hs, signalsOf]
  refine ⟨hd.trans h.driveDepth, hc.trans h.combDepth, hr.trans h.inRound, hp.trans h.pending, ?_,
    fun id => by rw [hof, h.unstaged]⟩
  rw [Simulation.touched, hs]
  exact h.touched

end Simulation

namespace Machine

section Rest

variable {s₀ : Simulation} {m : Machine}

/-- Where nothing is worked off, nothing is under way. -/
theorem Tidy.atRest (h : Tidy s₀ m) (hw : ∀ f ∈ m.stack, f.isWork = false) : m.sim.AtRest := by
  have hcounted : Counted m.sim [] := by
    rw [← Counted.append_iff hw, List.append_nil]
    exact h.counted
  have hround : m.sim.inRound = false := hcounted.inRound
  have hdepth : m.sim.driveDepth = 0 := hcounted.driveDepth
  have hstaged : m.sim.hasStaged = false := by
    cases hst : m.sim.hasStaged with
    | false => rfl
    | true =>
        have hr := h.staged hst
        rw [hround] at hr
        cases hr
  refine ⟨hdepth, hcounted.combDepth, hround, ?_, Simulation.touched_eq_nil hstaged,
    Simulation.unstaged_of_hasStaged hstaged⟩
  rcases h.pending with hp | hd | hr
  · exact hp
  · omega
  · rw [hround] at hr
    cases hr

theorem tidy_of_atRest (hs : m.sim.AtRest) (ht : m.sim.SoundTasks) (hd : s₀.SameDesign m.sim)
    (hstack : LayeredStack m.stack) (hw : ∀ f ∈ m.stack, f.isWork = false)
    (hmode : m.activation.mode = modeAt m.stack) : Tidy s₀ m := by
  have hcounted : Counted m.sim m.stack := by
    rw [← List.append_nil m.stack, Counted.append_iff hw]
    exact ⟨hs.driveDepth, hs.combDepth, hs.inRound⟩
  have hbody : onBody m.stack = true := by
    cases hm : m.stack with
    | nil => rfl
    | cons f rest =>
        have hf := hw f (by simp [hm])
        simp [onBody, hf]
  refine ⟨Placed.layered ⟨hstack, hcounted, hmode⟩ hbody, hd, ?_, .inl hs.pending, ?_, ?_, ht⟩
  · rw [hs.combDepth]
    exact Nat.zero_le _
  · intro hst
    rw [hs.hasStaged] at hst
    cases hst
  · intro v below _ hstack
    exact absurd hstack (head_of_onBody hbody below)

end Rest

end Machine

namespace Simulation

variable {s₀ s : Simulation}

theorem AtRest.machine (hs : s.AtRest) (ht : s.SoundTasks) (hd : s₀.SameDesign s) :
    s.machine.Tidy s₀ :=
  Machine.tidy_of_atRest hs ht hd trivial (by simp [Simulation.machine]) rfl

theorem AtRest.begins {m : Machine} (hs : s.AtRest) (ht : s.SoundTasks) (hd : s₀.SameDesign s)
    {outer : FieldRef → Prop} (hm : s.Begins outer m) : m.Tidy s₀ := by
  have hrest := hs.machine ht hd
  have hbody : s.machine.Bodily [] := ⟨hrest.placed (by simp [Simulation.machine]), rfl, rfl⟩
  cases hm with
  | write f v hf => exact Machine.write_tidy hrest hbody.placed rfl f v
  | combs =>
      let m₁ : Machine := { ({ s with driveDepth := s.driveDepth + 1 } : Simulation).machine with
        stack := [.driven] }
      have hm₁ : m₁.Tidy s₀ := by
        refine ⟨⟨⟨rfl, trivial⟩, ⟨?_, hs.combDepth, hs.inRound⟩, ?_, .inl rfl⟩,
          ⟨hd.tree, hd.wiring, hd.maxCombDepth, hd.size⟩,
          hrest.bound, .inl hs.pending, hrest.staged, ?_, ht⟩
        · exact congrArg (· + 1) hs.driveDepth
        · exact fun _ => ⟨_, rfl, rfl⟩
        · intro v below _ hstack
          cases hstack
      have hplaced : m₁.Placed := hm₁.placed (by simp [m₁])
      exact Machine.runCombs_tidy hm₁ rfl (.inl (Nat.succ_pos _)) _
        (Machine.runCombs_layered hplaced rfl rfl _)
  | call owner function args =>
      refine hrest.still (Machine.callNow_layered hbody.placed rfl owner function args) ?_ ?_
      · rw [Machine.callNow_sim]
        exact .refl _
      · exact (Machine.callNow_calm owner function args).head rfl
  | event event =>
      have hmove : Machine.BodyMove (Machine.modeAt []) s.machine.write?
          { s.machine with stack := [] } (s.machine.setEvent event) :=
        Machine.setEvent_body (m := s.machine) rfl event
      obtain ⟨hl, hm⟩ := hbody.move hmove
      exact hrest.move hl hm

theorem AtRest.task {t : Task} (hs : s.AtRest) (ht : s.SoundTasks) (hd : s₀.SameDesign s)
    (hsound : t.Sound) : (t.machine s).Tidy s₀ :=
  Machine.tidy_of_atRest hs ht hd hsound.stack hsound.bodies hsound.mode

end Simulation

namespace Machine

theorem states_keep {waker : Waker} {P : Machine → Prop}
    (hstep : ∀ {m m'}, P m → m.step waker = .go m' → P m') (fuel : Nat) {m : Machine} (hm : P m) :
    ∀ m' ∈ m.states waker fuel, P m' := by
  induction fuel generalizing m with
  | zero => simp [states]
  | succ fuel ih =>
      intro m' hmem
      rw [states, List.mem_cons] at hmem
      rcases hmem with rfl | hmem
      · exact hm
      · split at hmem
        · rename_i m₁ hgo
          exact ih (hstep hm hgo) m' hmem
        · cases hmem

theorem run_ends {waker : Waker} {fuel : Nat} {m : Machine} {s : Simulation} {o : Outcome}
    (hrun : m.run waker fuel = some (s, o)) :
    ∃ m', (m.states waker fuel).getLast? = some m' ∧
      ((∃ c, o = .over c ∧ m'.step waker = .over c s) ∨
        ∃ t, o = .parked t ∧ m'.step waker = .parked t s) := by
  induction fuel generalizing m with
  | zero => cases hrun
  | succ fuel ih =>
      rw [run] at hrun
      rw [states]
      cases hstep : m.step waker with
      | go m₁ =>
          rw [hstep] at hrun
          obtain ⟨m', hlast, hend⟩ := ih hrun
          refine ⟨m', ?_, hend⟩
          rw [List.getLast?_cons, hlast]
          rfl
      | «over» c s' =>
          rw [hstep] at hrun
          cases hrun
          exact ⟨m, rfl, .inl ⟨c, rfl, hstep⟩⟩
      | parked t s' =>
          rw [hstep] at hrun
          cases hrun
          exact ⟨m, rfl, .inr ⟨t, rfl, hstep⟩⟩

theorem step_over {waker : Waker} {m : Machine} {c : Completion} {s : Simulation}
    (h : m.step waker = .over c s) : m.stack = [] ∧ m.control = .done c ∧ s = m.sim := by
  cases hc : m.control with
  | await w =>
      simp only [step, hc, Machine.await] at h
      repeat' split at h
      all_goals cases h
  | done c' =>
      cases hs : m.stack with
      | nil =>
          simp only [step, hc, hs] at h
          cases h
          exact ⟨rfl, rfl, rfl⟩
      | cons f rest =>
          rw [step_done hc hs] at h
          cases h
  | _ =>
      simp only [step, hc] at h
      cases h

/-- A task is parked outside of all bodies that must not wait, with the frames that it has. -/
theorem step_parked {waker : Waker} {m : Machine} {t : Task} {s : Simulation}
    (h : m.step waker = .parked t s) :
    innermostBody m.stack = none ∧ (∀ c, m.control ≠ .done c) ∧ t.stack = m.stack ∧
      t.activation = m.activation ∧ ∃ k, k.tasks = m.sim.kernel.tasks ∧ s = m.sim.setKernel k := by
  cases hc : m.control with
  | await w =>
      have htasks := m.sim.kernel.tasks_poll waker w
      simp only [step, hc, Machine.await] at h
      cases hin : innermostBody m.stack with
      | some r =>
          simp only [hin] at h
          split at h
          all_goals cases h
      | none =>
          simp only [hin] at h
          rcases hpoll : m.sim.kernel.poll waker w with ⟨k, v | w'⟩
          · rw [hpoll] at h
            cases h
          · rw [hpoll] at h htasks
            cases h
            exact ⟨rfl, by simp, rfl, rfl, k, htasks, rfl⟩
  | done c' =>
      cases hs : m.stack with
      | nil =>
          simp only [step, hc, hs] at h
          cases h
      | cons f rest =>
          rw [step_done hc hs] at h
          cases h
  | _ =>
      simp only [step, hc] at h
      cases h

theorem Layered.parked {m : Machine} {waker : Waker} {t : Task} {s : Simulation} (h : m.Layered)
    (hstep : m.step waker = .parked t s) : ∀ f ∈ m.stack, f.isWork = false := by
  obtain ⟨hin, hc, -⟩ := step_parked hstep
  have hstack := h.stack
  have hbody := (h.looking hc).onBody
  rw [← List.append_nil m.stack] at hstack hbody
  exact hstack.body hbody (no_boundary_of_innermostBody hin)

theorem Tidy.run {s₀ : Simulation} {m : Machine} {waker : Waker} {fuel : Nat} {s : Simulation}
    {o : Outcome} (h : m.Tidy s₀) (hrun : m.run waker fuel = some (s, o)) :
    s.AtRest ∧ s.SoundTasks ∧ s₀.SameDesign s ∧ ∀ t, o = .parked t → t.Sound := by
  obtain ⟨m', hlast, hend⟩ := run_ends hrun
  have hm := states_keep Tidy.step fuel h m' (List.mem_of_getLast? hlast)
  rcases hend with ⟨c, rfl, hover⟩ | ⟨t, rfl, hparked⟩
  · obtain ⟨hstack, -, rfl⟩ := step_over hover
    exact ⟨hm.atRest (by simp [hstack]), hm.tasks, hm.design, by simp⟩
  · obtain ⟨-, hc, hstack, hactivation, k, htasks, rfl⟩ := step_parked hparked
    have hbodily := hm.toLayered.looking hc
    have hwork := hm.toLayered.parked hparked
    have hrest := hm.atRest hwork
    refine ⟨hrest.congr rfl rfl rfl rfl rfl, ?_, hm.design.trans ⟨rfl, rfl, rfl, rfl⟩, ?_⟩
    · intro id t' ht
      change k.tasks.get? id = some t' at ht
      rw [htasks] at ht
      exact hm.tasks id t' ht
    · intro t' ht
      cases ht
      refine ⟨?_, ?_, ?_⟩
      · rw [hstack]
        exact hm.stack
      · rw [hstack]
        exact hwork
      · rw [hstack, hactivation]
        exact hbodily.placed.mode

end Machine

namespace Recorded

/-- Simulations at rest whose runs so far were tidy. -/
structure Rests (s₀ : Simulation) (r : Recorded) : Prop where
  rest : r.sim.AtRest
  tasks : r.sim.SoundTasks
  design : s₀.SameDesign r.sim
  tidy : ∀ m ∈ r.states, m.Tidy s₀

/-- All commands leave nothing under way. -/
theorem rests_invariant (outer : FieldRef → Prop) (s₀ : Simulation) :
    Invariant outer fun _ => Rests s₀ where
  tasks hr := hr.tasks
  fails _ hr := hr
  change k started traced hr hk :=
    ⟨hr.rest.congr rfl rfl rfl rfl rfl, hk, hr.design.trans ⟨rfl, rfl, rfl, rfl⟩, hr.tidy⟩
  run {_ r m fuel r' result} hr hm hrun := by
    have hbegun := hr.rest.begins hr.tasks hr.design hm
    obtain ⟨⟨s, result'⟩, hmachine, heq⟩ := Option.map_eq_some_iff.mp hrun
    cases heq
    obtain ⟨o, hend, -⟩ := Simulation.runMachine_ends hmachine
    obtain ⟨hrest, htasks, hdesign, -⟩ := hbegun.run hend
    refine ⟨hrest, htasks, hdesign, ?_⟩
    intro m' hm'
    rcases List.mem_append.mp hm' with hm' | hm'
    · exact hr.tidy m' hm'
    · rcases List.mem_cons.mp hm' with rfl | hm'
      · exact hr.rest.machine hr.tasks hr.design
      · exact Machine.states_keep Machine.Tidy.step fuel hbegun m' hm'
  poll {_ r t fuel r' turn} hr ht hrun := by
    have hbegun := hr.rest.task hr.tasks hr.design ht
    obtain ⟨⟨s, turn'⟩, hpoll, heq⟩ := Option.map_eq_some_iff.mp hrun
    cases heq
    obtain ⟨o, hend, hparked, -⟩ := Simulation.pollTask_ends hpoll
    obtain ⟨hrest, htasks, hdesign, hsound⟩ := hbegun.run hend
    refine ⟨⟨hrest, htasks, hdesign, ?_⟩, ?_⟩
    · intro m hm
      rcases List.mem_append.mp hm with hm | hm
      · exact hr.tidy m hm
      · exact Machine.states_keep Machine.Tidy.step fuel hbegun m hm
    · intro t' ht'
      exact hsound t' ((hparked t').mpr ht')

end Recorded

end Clockwork
