import Clockwork.Proofs.Combs.Computed
import Clockwork.Proofs.Round.Batch
/-!
Combinational processes that run once more. A process all of whose writes give fields the values
that they have already runs as if its writes were noted only, and leaves nothing behind but its
cover points. At a fixpoint this holds of every process that gives no field two values in one run.
-/

namespace Clockwork

namespace Machine

variable (waker : Waker) {m : Machine}

theorem write_held {g : FieldRef} {v : Value} (h : m.sim.Holds g v) (hd : 0 < m.sim.driveDepth) :
    Reaches waker (m.write g v .immediate) m.finish := by
  obtain ⟨slot, ⟨hslot, hsignal⟩, hsame⟩ := h
  let m₁ : Machine := { m with
    sim := { m.sim with driveDepth := m.sim.driveDepth + 1 }
    stack := .driven :: m.stack }
  have hwrite : m.write g v .immediate = m₁.finish := by
    simp only [write, hslot, hsignal, driveAndSettle]
    exact drive_same (m := m₁) hslot hsame
  rw [hwrite]
  refine .next ?_
  rw [step_done (m := m₁.finish) rfl rfl]
  exact congrArg Next.go (endDrive_inner (.value .none) hd)

end Machine

open Machine

namespace Simulation

variable {s s' : Simulation} {p : ProcessRef} {log : List (FieldRef × Value)} (waker : Waker)

/-- All that a combinational process writes on the values of a simulation is there already. -/
def Steady (s : Simulation) (p : ProcessRef) : Prop :=
  ∃ log, s.Yields p log ∧ ∀ x ∈ log, s.Holds x.1 x.2

theorem Steady.congr (h : s.Steady p) (hc : s.tree.Combinational) (hlead : s.tree.PathsLead)
    (htree : s'.tree = s.tree) (hsignals : s'.signals = s.signals) : s'.Steady p := by
  have hcurrent := current_congr hsignals
  obtain ⟨log, hyields, hheld⟩ := h
  refine ⟨log, ?_, fun x hx => (hheld x hx).congr htree fun slot _ => hcurrent x.1 slot⟩
  exact hyields.congr hc hlead htree fun g _ =>
    readField_of_current htree fun slot _ => hcurrent g slot

/-- A process that finds all its writes there comes to where its run without them comes. -/
theorem replay {x : Machine} (h : DryRun s p log x) (hc : s.tree.Combinational)
    (hlead : s.tree.PathsLead) {f : Function} (hf : s.tree.CombAt p f)
    (hheld : ∀ y ∈ log, s.Holds y.1 y.2) (htree : s'.tree = s.tree)
    (hsignals : s'.signals = s.signals) (hd : 0 < s'.driveDepth) (base : List Frame) :
    ∃ covers, Reaches waker ((f.begun p s').onto base)
      ((x.setSim { s' with covers := covers }).onto base) := by
  have hcurrent := current_congr hsignals
  induction h with
  | begin hf' =>
      obtain rfl := hf.unique hf'
      refine ⟨s'.covers, ?_⟩
      rw [Function.begun_setSim]
      exact .here
  | @move log m m' h hstorage hw hstep hok ih =>
      obtain ⟨covers, hreaches⟩ := ih hheld
      let s₁ : Simulation := { s' with covers := covers }
      have htree₁ : s₁.tree = s.tree := htree
      have hread : ∀ g, s.tree.Reads p g → s₁.readField g = s.readField g :=
        fun g _ => readField_of_current htree₁ fun slot _ => hcurrent g slot
      obtain ⟨covers', hstep'⟩ :=
        h.step_setSim hc hlead hstorage hw hstep hok htree₁ hread waker
      have hawait := ((h.plain hc hlead hf).bodies).2
      have hnext := step_onto (m := m.setSim s₁) base (fun w hw => absurd hw (hawait w)) hstep'
      exact ⟨covers', hreaches.step trivial hnext⟩
  | @write log m g v f' rest h hw hs ih =>
      obtain ⟨covers, hreaches⟩ := ih fun y hy => hheld y (List.mem_append_left _ hy)
      let s₁ : Simulation := { s' with covers := covers }
      obtain ⟨-, f'', rest', hs', hstep⟩ := h.writes hc hlead hw
      rw [hs] at hs'
      cases hs'
      have hawait := ((h.plain hc hlead hf).bodies).2
      have hnext := step_onto (m := m.setSim s₁) base (fun w hw => absurd hw (hawait w))
        (hstep s₁ waker)
      have hhas : s₁.Holds g v := (hheld (g, v) (by simp)).congr htree fun slot _ => hcurrent g slot
      -- The field has the value already, so nothing follows from the write.
      let z : Machine := ({ m with stack := rest }.setSim s₁).onto base
      have hover : Reaches waker (z.write g v .immediate) z.finish := write_held waker hhas hd
      rw [write_onto] at hover
      exact ⟨covers, (hreaches.step trivial hnext).trans hover⟩

theorem reaches_over {m : Machine} {c : Completion} {s : Simulation} {name : String}
    {caller : Activation} {d : Nat} {rest : List Frame} (hs : m.stack = [])
    (hc : m.control = .done c) (hok : m.fault? = none) :
    Reaches waker ((m.setSim s).onto (.boundary name caller :: .combOver p d :: rest))
      (⟨.done (.value .none), caller, rest, { s with combDepth := d - 1 }⟩ : Machine) := by
  obtain ⟨control, activation, stack, sim⟩ := m
  cases hs
  cases hc
  have hbody : ∃ v, Machine.step waker (Machine.onto ⟨.done c, activation, [], s⟩
      (.boundary name caller :: .combOver p d :: rest)) =
        .go ⟨.done (.value v), caller, .combOver p d :: rest, s⟩ := by
    cases c with
    | failed e => cases hok
    | value v => exact ⟨v, rfl⟩
    | _ => exact ⟨.none, rfl⟩
  obtain ⟨v, hbody⟩ := hbody
  exact (Reaches.next hbody).step trivial rfl

theorem runComb_steady {m : Machine} (h : ∀ f, m.sim.tree.CombAt p f → m.sim.Steady p)
    (hc : m.sim.tree.Combinational) (hlead : m.sim.tree.PathsLead) (hd : 0 < m.sim.driveDepth)
    (hdeep : ∀ f, m.sim.tree.CombAt p f → m.sim.combDepth < m.sim.maxCombDepth) :
    ∃ covers, Reaches waker (m.runComb p)
      (m.setSim { m.sim with covers := covers }).finish := by
  by_cases hcomb : ∃ f, m.sim.tree.CombAt p f
  · obtain ⟨f, hf⟩ := hcomb
    obtain ⟨log, ⟨x, c, hrun, hstack, hcontrol⟩, hheld⟩ := h f hf
    let s₁ : Simulation := { m.sim with combDepth := m.sim.combDepth + 1 }
    have htree : s₁.tree = m.sim.tree := rfl
    obtain ⟨covers, hreaches⟩ := replay waker hrun hc hlead hf hheld htree rfl hd
      (.boundary f.name m.activation :: .combOver p (m.sim.combDepth + 1) :: m.stack)
    rw [m.runComb_of_combAt hf (hdeep f hf)]
    exact ⟨covers, hreaches.trans (reaches_over waker hstack hcontrol hrun.no_fault)⟩
  · rw [m.runComb_of_none (not_exists.mp hcomb)]
    exact ⟨m.sim.covers, .here⟩

theorem runCombs_steady {m : Machine} {l : List ProcessRef}
    (h : ∀ p ∈ l, ∀ f, m.sim.tree.CombAt p f → m.sim.Steady p)
    (hc : m.sim.tree.Combinational) (hlead : m.sim.tree.PathsLead) (hd : 0 < m.sim.driveDepth)
    (hdeep : ∀ p f, m.sim.tree.CombAt p f → m.sim.combDepth < m.sim.maxCombDepth) :
    ∃ covers, Reaches waker (m.runCombs l)
      (m.setSim { m.sim with covers := covers }).finish := by
  induction l generalizing m with
  | nil => exact ⟨m.sim.covers, .here⟩
  | cons p l ih =>
      let m₁ : Machine := { m with stack := .combs l :: m.stack }
      obtain ⟨covers, hfirst⟩ :=
        runComb_steady waker (m := m₁) (h p (by simp)) hc hlead hd (hdeep p)
      let m₂ : Machine := (m.setSim { m.sim with covers := covers }).finish
      obtain ⟨covers', hrest⟩ := ih (m := m₂)
        (fun q hq f hf => (h q (by simp [hq]) f hf).congr hc hlead rfl rfl) hc hlead hd hdeep
      have hnext : ((m₁.setSim { m₁.sim with covers := covers }).finish).step waker =
        .go (m₂.runCombs l) := rfl
      exact ⟨covers', (hfirst.step trivial hnext).trans hrest⟩

/-- Runs combinational processes once more, one after the other. -/
def rerun (fuel : Nat) (s : Simulation) (l : List ProcessRef) :
    Option (Simulation × Except SimError Value) :=
  let m := { s with driveDepth := s.driveDepth + 1 }.machine
  runMachine fuel ({ m with stack := [.driven] }.runCombs l)

theorem evalComb_eq_rerun (fuel : Nat) (s : Simulation) :
    s.evalComb fuel = s.rerun fuel s.wiring.order := rfl

theorem combDepth_lt_of_evalComb {fuel : Nat} {v : Value} (h : s.evalComb fuel = some (s', .ok v))
    (hcomb : ∀ p ∈ s.wiring.order, ∃ f, s.tree.CombAt p f) (hne : s.wiring.order ≠ []) :
    s.combDepth < s.maxCombDepth := by
  obtain ⟨o, hend, hfault⟩ := runMachine_ends h
  have hok := states_no_fault hend (fun e ho => by cases (hfault e).mp ho) _
    (List.mem_of_head? (states_head hend))
  cases hl : s.wiring.order with
  | nil => exact absurd hl hne
  | cons p l =>
      rw [hl] at hok hcomb
      obtain ⟨f, hf⟩ := hcomb p (by simp)
      rcases runComb_begun _ hok with ⟨hnone, -⟩ | ⟨-, -, hdeep, -⟩
      · exact absurd hf (hnone f)
      · exact hdeep

/-- With nothing pending and nothing staged the outermost write ends with itself. -/
theorem reaches_settled (hs : s.AtRest) (covers : Table String Nat) (a : Activation) :
    Reaches waker
      (⟨.done (.value .none), a, [.driven],
        { s with driveDepth := s.driveDepth + 1, covers := covers }⟩ : Machine)
      ⟨.done (.value .none), a, [], { s with covers := covers }⟩ := by
  let m : Machine :=
    ⟨.done (.value .none), a, [], { s with driveDepth := s.driveDepth + 1, covers := covers }⟩
  have hround : m.undriven.sim.inRound = false := hs.inRound
  let z : Machine := { m.undriven with
    sim := { m.undriven.sim with inRound := true }, stack := [.settled] }
  have hidle : (z.sim.pending.isEmpty && !z.sim.hasStaged) = true := by
    have hstaged : z.sim.hasStaged = false := hs.hasStaged
    have hpending : z.sim.pending = [] := hs.pending
    simp [hstaged, hpending]
  have hdrive : m.endDrive (.value .none) = z.finish := by
    rw [endDrive_settle (by simp [m, undriven, setSim, hs.driveDepth]) (by simp),
      settle_outside hround]
    exact round_over (m := z) hidle
  have hdriven : Machine.step waker { m with stack := [.driven] } = .go z.finish := by
    rw [step_done (m := { m with stack := [.driven] }) rfl rfl]
    exact congrArg Next.go hdrive
  refine (Reaches.next hdriven).step trivial ?_
  have hsim : { z.sim with inRound := false } = { s with covers := covers } := by
    rw [← hs.inRound]
    rfl
  rw [step_done (m := z.finish) rfl rfl, ← hsim]
  rfl

/-- Processes that find all their writes there run once more without a change. -/
theorem rerun_steady (hs : s.AtRest) (hc : s.tree.Combinational) (hlead : s.tree.PathsLead)
    (hdeep : ∀ p f, s.tree.CombAt p f → 0 < s.maxCombDepth) {l : List ProcessRef}
    (h : ∀ p ∈ l, ∀ f, s.tree.CombAt p f → s.Steady p) :
    ∃ covers n, ∀ fuel, n ≤ fuel →
      s.rerun fuel l = some ({ s with covers := covers }, .ok .none) := by
  let s₁ : Simulation := { s with driveDepth := s.driveDepth + 1 }
  let m : Machine := { s₁.machine with stack := [.driven] }
  obtain ⟨covers, hcombs⟩ := runCombs_steady .nobody (m := m) (l := l)
    (fun p hp f hf => (h p hp f hf).congr hc hlead rfl rfl) hc hlead (Nat.succ_pos _)
    (fun p f hf => (hs.combDepth ▸ hdeep p f hf : s.combDepth < s.maxCombDepth))
  have hover := hcombs.trans (reaches_settled .nobody hs covers s₁.machine.activation)
  obtain ⟨n, hn⟩ := Leads.run hover
  refine ⟨covers, n + 1, fun fuel hfuel => ?_⟩
  obtain ⟨k, rfl⟩ := Nat.exists_eq_add_of_le hfuel
  have hrun : (m.runCombs l).run .nobody (n + 1 + k) =
      some ({ s with covers := covers }, .over (.value .none)) := by
    rw [show n + 1 + k = (k + 1) + n by omega, hn]
    rfl
  change runMachine (n + 1 + k) (m.runCombs l) = _
  rw [runMachine, hrun]

end Simulation

namespace Quiescent

variable {s : Simulation} (h : Quiescent s)

include h

/-- At the start every process was run, so processes may be under way. -/
theorem maxCombDepth_pos {p : ProcessRef} {f : Function} (hf : s.tree.CombAt p f) :
    0 < s.maxCombDepth := by
  induction h with
  | command h hrun _ ih =>
      have hdesign := (h.reachable.settled.command hrun).2.1
      rw [hdesign.tree] at hf
      rw [hdesign.maxCombDepth]
      exact ih hf
  | @start s s' fuel hs hnew hc _ hrun _ =>
      have hdesign := (hs.settled.command hrun).2.1
      rw [hdesign.tree] at hf
      rw [hdesign.maxCombDepth]
      obtain ⟨log, hwiring⟩ := hs.designed.wiring
      have hmem := (Wiring.mem_order_iff hwiring).mpr ⟨f, hf⟩
      obtain ⟨⟨s₂, result⟩, hstart, heq⟩ := Option.map_eq_some_iff.mp hrun
      simp only [Simulation.start, hnew, Bool.false_eq_true, ↓reduceIte] at hstart
      split at hstart
      · cases hstart
      · cases hstart
        cases heq
      · rename_i s₁ v hcombs
        have hdeep := Simulation.combDepth_lt_of_evalComb hcombs
          (fun q hq => (Wiring.mem_order_iff hwiring).mp hq) (List.ne_nil_of_mem hmem)
        exact Nat.zero_lt_of_lt hdeep

end Quiescent

/-- Between commands, combinational processes have nothing left to do. As long as no command came to
a fault, and nobody but the processes themselves wrote their fields, every such process comes to its
end on the present values with what these fields have already. Processes that give no field a value
in between run once more without a change of anything but their cover points. -/
theorem combs_at_fixpoint {s : Simulation} (h : Quiescent s) :
    (∀ p f, s.tree.CombAt p f → ∃ log, s.Yields p log ∧ s.Keeps log) ∧
      ∀ l : List ProcessRef,
        (∀ p ∈ l, ∀ log, s.Yields p log → ∀ x ∈ log, FinalWrite log x.1 x.2 ∨ s.Holds x.1 x.2) →
        ∃ covers n, ∀ fuel, n ≤ fuel →
          s.rerun fuel l = some ({ s with covers := covers }, .ok .none) := by
  have hfix := h.atFixpoint
  refine ⟨hfix, fun l hl => ?_⟩
  have hsteady : ∀ p ∈ l, ∀ f, s.tree.CombAt p f → s.Steady p := by
    intro p hp f hf
    obtain ⟨log, hyields, hkeeps⟩ := hfix p f hf
    exact ⟨log, hyields, fun x hx => (hl p hp log hyields x hx).elim (hkeeps x.1 x.2) id⟩
  exact Simulation.rerun_steady h.reachable.settled.rest h.combinational
    (h.reachable.pathsLead h.combinational h.writesLead) (fun _ _ => h.maxCombDepth_pos) hsteady

/-- A counter from which two processes compute one after the other, the second one declared first,
and a leaf that follows the result of the first one. -/
def relayDesign : TypeTable :=
  ⟨[⟨"Leaf", .component { Component.ofName "Leaf" with
      body := { Body.ofName "Leaf" with
        fields := [.ofType "i" (.int 4 false), .ofType "o" (.int 8 false)] }
      combs := [{ Function.ofName "p" with
        body := [.set (.ownField 1) (.binary (.ownField 0) .add (.int 1))]
        process := some ⟨.comb, none, none, []⟩ }] }⟩,
    ⟨"Top", .component { Component.ofName "Top" with
      body := { Body.ofName "Top" with
        fields := [.ofType "clk" (.int 1 false), .ofType "a" (.int 8 false),
          .ofType "b" (.int 8 false), .ofType "c" (.int 8 false), .ofType "leaf" (.ref "Leaf")] }
      binds := [⟨.childField 4 0, .ownField 2⟩]
      syncs := [{ Function.ofName "count" with
        body := [.set (.ownField 1) (.binary (.ownField 1) .add (.int 1))]
        process := some ⟨.sync, some (.ownField 0), none, []⟩ }]
      combs := [{ Function.ofName "second" with
          body := [.set (.ownField 3) (.binary (.ownField 2) .add (.ownField 2))]
          process := some ⟨.comb, none, none, []⟩ },
        { Function.ofName "first" with
          body := [.set (.ownField 2) (.binary (.ownField 1) .add (.int 14))]
          process := some ⟨.comb, none, none, []⟩ }] }⟩], by decide⟩

/-- The leaf comes after the root, and the fields come in order. -/
def relayRank (f : FieldRef) : Nat := 5 * f.owner + f.index

/-- After an edge all three processes run once more without a change. -/
theorem combs_at_fixpoint_after_edge : ∃ s covers n, Quiescent s ∧ s.number? "c" = some 44 ∧
    s.wiring.order.length = 3 ∧ ∀ fuel, n ≤ fuel →
      s.rerun fuel s.wiring.order = some ({ s with covers := covers }, .ok .none) := by
  have hchecked : ((relayDesign.quiescent "Top" relayRank 200
      [.setInput "a" (.int 7), .clockEdge "clk"]).map fun s =>
        decide (s.number? "c" = some 44 ∧ s.wiring.order.length = 3 ∧
          ∀ x ∈ s.tree.combs, s.writesOnce 200 x = true)) = some true := by
    decide +kernel
  obtain ⟨s, hs, hok⟩ := Option.map_eq_some_iff.mp hchecked
  obtain ⟨hnumber, horder, honce⟩ := of_decide_eq_true hok
  have hq := TypeTable.quiescent_eq_some hs
  obtain ⟨log, hwiring⟩ := hq.reachable.designed.wiring
  obtain ⟨covers, n, hrerun⟩ := (combs_at_fixpoint hq).2 s.wiring.order fun p hp log hlog x hx => by
    obtain ⟨f, hf⟩ := (Wiring.mem_order_iff hwiring).mp hp
    exact .inl (hlog.final hf (honce _ (Tree.mem_combs.mpr hf)) x hx)
  exact ⟨s, covers, n, hq, hnumber, horder, hrerun⟩

/-- A process that runs once more leaves a field with another number. -/
def Simulation.Unsettled (s : Simulation) (p : ProcessRef) (field : String) : Prop :=
  ∃ s' v, s.rerun 200 [p] = some (s', .ok v) ∧ s.number? field ≠ s'.number? field

instance (s : Simulation) (p : ProcessRef) (field : String) : Decidable (s.Unsettled p field) :=
  decidable_of_iff
      (∃ r ∈ s.rerun 200 [p], r.2.isOk = true ∧ s.number? field ≠ r.1.number? field) <| by
    constructor
    · rintro ⟨⟨s', result⟩, hrun, hok, hne⟩
      cases result with
      | ok v => exact ⟨s', v, hrun, hne⟩
      | error e => cases hok
    · rintro ⟨s', v, hrun, hne⟩
      exact ⟨(s', .ok v), hrun, rfl, hne⟩

def Simulation.session (fuel : Nat) : List Command → Simulation → Option (List Bool × Simulation)
  | [], s => some ([], s)
  | c :: rest, s => (c.run fuel s).bind fun r =>
    (session fuel rest r.1).map fun q => (r.2.isNone :: q.1, q.2)

/-- Some commands, of which certain ones come to no fault, leave a process of a design that runs
once more and changes a field. -/
def TypeTable.Unsettled (types : TypeTable) (commands : List Command) (fine : List Bool)
    (p : ProcessRef) (field : String) : Prop :=
  ∃ s, (types.simulation "Top").bind (Simulation.session 200 commands) = some (fine, s) ∧
    s.tree.Combinational ∧ s.Unsettled p field

theorem TypeTable.unsettled_of {types : TypeTable} {commands : List Command} {fine : List Bool}
    {p : ProcessRef} {field : String} (rank : FieldRef → Nat)
    (h : ((types.simulation "Top").bind (Simulation.session 200 commands)).map (fun r =>
      decide (r.1 = fine ∧ r.2.tree.Ranked rank ∧ r.2.Unsettled p field)) = some true) :
    types.Unsettled commands fine p field := by
  obtain ⟨⟨fine', s⟩, hs, hok⟩ := Option.map_eq_some_iff.mp h
  obtain ⟨rfl, hranked, hunsettled⟩ := of_decide_eq_true hok
  exact ⟨s, hs, hranked.combinational, hunsettled⟩

/-- A process that gives `o` two values, and one that keeps in mind that `o` was 0. -/
def latchDesign : TypeTable :=
  ⟨[⟨"Top", .component { Component.ofName "Top" with
      body := { Body.ofName "Top" with
        fields := [{ Field.ofType "x" (.int 8 false) with initial := some (.int 5) },
          .ofType "o" (.int 8 false), .ofType "flag" (.int 1 false)] }
      combs := [{ Function.ofName "twice" with
          body := [.set (.ownField 1) (.int 0), .set (.ownField 1) (.ownField 0)]
          process := some ⟨.comb, none, none, []⟩ },
        { Function.ofName "latch" with
          body := [.branchOnly (.compare (.ownField 1) [.eq] [.int 0])
            [.set (.ownField 2) (.int 1)]]
          process := some ⟨.comb, none, none, []⟩ }] }⟩], by decide⟩

/-- A process that looks up an item of a memory, which a clocked one replaces. -/
def lookupDesign : TypeTable :=
  ⟨[⟨"Top", .component { Component.ofName "Top" with
      body := { Body.ofName "Top" with
        fields := [.ofType "clk" (.int 1 false), .ofType "mem" (.memory (.int 8 false) 4),
          .ofType "out" (.int 8 false), .ofType "sel" (.int 2 false)] }
      syncs := [{ Function.ofName "fill" with
        body := [.set (.subscript (.ownField 1) (.int 0)) (.int 7)]
        process := some ⟨.sync, some (.ownField 0), none, []⟩ }]
      combs := [{ Function.ofName "lookup" with
        body := [.set (.ownField 2) (.subscript (.ownField 1) (.ownField 3))]
        process := some ⟨.comb, none, none, []⟩ }] }⟩], by decide⟩

/-- A process that fails as long as `x` and `y` differ, and one after it that copies `x`. -/
def faultyDesign : TypeTable :=
  ⟨[⟨"Top", .component { Component.ofName "Top" with
      body := { Body.ofName "Top" with
        fields := [.ofType "x" (.int 8 false), .ofType "o" (.int 8 false),
          .ofType "y" (.int 8 false)] }
      combs := [{ Function.ofName "check" with
          body := [.assertion .assert (.compare (.ownField 0) [.eq] [.ownField 2]) none]
          process := some ⟨.comb, none, none, []⟩ },
        { Function.ofName "copy" with
          body := [.set (.ownField 1) (.ownField 0)]
          process := some ⟨.comb, none, none, []⟩ }] }⟩], by decide⟩

/-- A process that writes a field of the leaf that `aim` holds, which is another one after every
edge. -/
def aimDesign : TypeTable :=
  ⟨[⟨"Leaf", .component { Component.ofName "Leaf" with
      body := { Body.ofName "Leaf" with fields := [.ofType "y" (.int 8 false)] } }⟩,
    ⟨"Top", .component { Component.ofName "Top" with
      body := { Body.ofName "Top" with
        fields := [.ofType "clk" (.int 1 false), .ofType "a" (.ref "Leaf"),
          .ofType "b" (.ref "Leaf"), .ofType "aim" (.int 8 false), .ofType "on" (.int 1 false)] }
      syncs := [{ Function.ofName "turn" with
        body := [.branch (.ownField 4) [.set (.ownField 3) (.ownField 2)]
            [.set (.ownField 3) (.ownField 1)],
          .set (.ownField 4) (.int 1)]
        process := some ⟨.sync, some (.ownField 0), none, []⟩ }]
      combs := [{ Function.ofName "give" with
        body := [.branchOnly (.ownField 4) [.set (.childField 3 0) (.int 7)]]
        process := some ⟨.comb, none, none, []⟩ }] }⟩], by decide⟩

/-- The conditions cannot be left out. A value that a process gives a field in between is seen by
another one when the process runs again, an item of a storage object changes unnoticed, a fault
keeps later processes from their run, and a path may lead elsewhere than before. -/
theorem combs_unsettled :
    (∃ s, Quiescent s ∧ s.Unsettled ⟨0, 0⟩ "flag") ∧
    lookupDesign.Unsettled [.start, .clockEdge "clk"] [true, true] ⟨0, 0⟩ "out" ∧
    faultyDesign.Unsettled [.start, .setInput "x" (.int 1), .setInput "y" (.int 1)]
      [true, false, true] ⟨0, 1⟩ "o" ∧
    aimDesign.Unsettled [.start, .clockEdge "clk", .clockEdge "clk"] [true, true, true] ⟨0, 0⟩
      "b.y" := by
  refine ⟨?_, ?_, ?_, ?_⟩
  · have hchecked : ((latchDesign.quiescent "Top" FieldRef.index 200 []).map fun s =>
        decide (s.Unsettled ⟨0, 0⟩ "flag")) = some true := by
      decide +kernel
    obtain ⟨s, hs, hunsettled⟩ := Option.map_eq_some_iff.mp hchecked
    exact ⟨s, TypeTable.quiescent_eq_some hs, of_decide_eq_true hunsettled⟩
  · exact TypeTable.unsettled_of (fun f => if f.index = 2 then 4 else f.index) (by decide +kernel)
  · exact TypeTable.unsettled_of FieldRef.index (by decide +kernel)
  · exact TypeTable.unsettled_of FieldRef.index (by decide +kernel)

end Clockwork
