import Clockwork.Proofs.Calls.Bindings
import Clockwork.Proofs.Machine.Replay
/-!
The record of changes in all states of commands without a fault. It leads from the values that the
signals start with to those that they have, unless a signal gets another value before its change
by a commit is worked off.
-/

namespace Clockwork

open Machine

variable {outer : FieldRef → Prop} {s s' : Simulation} {states : List Machine} {f : FieldRef}
  {slot : FieldSlot}

theorem Simulation.changes_ofElaborated {e : Elaborated} {options : SimOptions}
    (h : ofElaborated e options = .ok s) : s.tracing = options.tracing ∧ s.changes = #[] := by
  obtain ⟨⟨wiring, log⟩, hwiring, h⟩ := bind_eq_ok h
  obtain ⟨k, hk, h⟩ := bind_eq_ok h
  cases h
  exact ⟨rfl, rfl⟩

/-- No other signal has the name that the changes of a signal are on record under. -/
def Simulation.OwnName (s : Simulation) (f : FieldRef) : Prop :=
  ∀ g slot, s.tree.SignalAt g slot → s.signalName g = s.signalName f → g = f

theorem Simulation.signalName_congr (h : s'.tree = s.tree) (f : FieldRef) :
    s'.signalName f = s.signalName f := by
  simp only [signalName, fieldName, h]

theorem Simulation.history_eq (s : Simulation) (name : String) :
    s.history name = (s.changesOf name).map fun c => (c.old, c.new) := by
  simp only [history, recorded, changesOf, List.filter_map, List.map_map]
  rfl

theorem Recorded.Runs.onRecord (h : Runs outer s none ⟨s', states⟩) (hs : Reachable s)
    (htracing : s.tracing = .memory) (hf : s.tree.SignalAt f slot) (hname : s.OwnName f)
    (hq : ∀ m ∈ states, m.Undisturbed) {v₀ : Value}
    (hinit : Replays v₀ (s.history (s.signalName f)) (s.current f slot)) {k : Nat} {m : Machine}
    (hm : states[k]? = some m) : m.OnRecord v₀ f slot := by
  have key : m.sim.tracing = .memory ∧ m.DueOnce ∧ m.OnRecord v₀ f slot := by
    refine h.induct (P := fun _ m => m.sim.tracing = .memory ∧ m.DueOnce ∧
      m.OnRecord v₀ f slot) ?_ ?_ hm
    · intro m hwork hsim
      have hagrees := hsim.agrees
      have hnone : m.dueChanges = [] := by
        rw [dueChanges, hwork]
        rfl
      refine ⟨hagrees.tracing.trans htracing, ⟨by simp [hnone], by simp [hnone]⟩, _, ?_,
        .inl ⟨by simp [hnone], rfl⟩⟩
      rw [Simulation.signalName_congr hagrees.tree, Simulation.history_congr hagrees.recorded,
        Simulation.current_congr hagrees.signals]
      exact hinit
    · rintro k m m' hm - htidy hstep ⟨htr, honce, hrec⟩
      have ha := h.addressed hs hm
      have hstep' := hstep.recordStep ha htr
      obtain ⟨ht, -, htr'⟩ := hstep.design
      have htree := htidy.design.tree
      refine ⟨htr'.trans htr, hstep'.dueOnce ht ha honce,
        hstep'.onRecord ht ha honce (hq m (List.mem_of_getElem? hm)) (htree ▸ hf) ?_ hrec⟩
      intro g slot' hg heq
      rw [htree] at hg
      rw [Simulation.signalName_congr htree, Simulation.signalName_congr htree] at heq
      exact hname g slot' hg heq
  exact key.2.2

/-- The changes on record of a signal lead from the value that it starts with to the one that it
has, after commands without a fault and in all states between them, if no other signal has its
name and no signal gets another value before its change by a commit is worked off. -/
theorem recorded_changes_replay {types : TypeTable} {objects : Objects} {top : String}
    {values : Table String Value} {settings : ElabSettings} {e : Elaborated} {log : List LogRecord}
    {options : SimOptions} (he : elaborate types objects top values settings = (.ok e, log))
    (hs : Simulation.ofElaborated e options = .ok s) (htracing : options.tracing = .memory)
    (h : Session s states s') (hq : ∀ m ∈ states, m.Undisturbed) (hf : s.tree.SignalAt f slot)
    (hname : s.OwnName f) :
    Replays (s.current f slot)
        ((s'.changesOf (s.signalName f)).map fun c => (c.old, c.new)) (s'.current f slot) ∧
      ∀ m ∈ states, m.OnRecord (s.current f slot) f slot := by
  have hreach : Reachable s := .initial he hs
  have hruns := h.runs hreach
  obtain ⟨htr, hchanges⟩ := Simulation.changes_ofElaborated hs
  have hinit : Replays (s.current f slot) (s.history (s.signalName f)) (s.current f slot) := by
    rw [Simulation.history_eq, Simulation.changesOf, hchanges]
    rfl
  have hrecord : ∀ m ∈ states, m.OnRecord (s.current f slot) f slot := by
    intro m hm
    obtain ⟨k, hk⟩ := List.getElem?_of_mem hm
    exact hruns.onRecord hreach (htr.trans htracing) hf hname hq hinit hk
  refine ⟨?_, hrecord⟩
  rw [← Simulation.history_eq]
  cases hlast : states.getLast? with
  | none =>
      have hagrees := (hruns.empty (List.getLast?_eq_none_iff.mp hlast)).agrees
      rw [Simulation.history_congr hagrees.recorded, Simulation.current_congr hagrees.signals]
      exact hinit
  | some m =>
      obtain ⟨hwork, hsim⟩ := hruns.last m hlast
      have hm := List.mem_of_getLast? hlast
      obtain ⟨v, hv, ⟨-, hcurrent⟩ | hmem⟩ := hrecord m hm
      · rw [Simulation.history_congr hsim.agrees.recorded,
          Simulation.current_congr hsim.agrees.signals,
          hcurrent, ← Simulation.signalName_congr (hruns.tidy m hm).design.tree]
        exact hv
      · rw [dueChanges, hwork] at hmem
        cases hmem

theorem Simulation.ownName_of_forall
    (h : ∀ id < s.tree.size, ∀ i < (s.tree.inst id).fields.size,
      s.signalName ⟨id, i⟩ = s.signalName f → (⟨id, i⟩ : FieldRef) = f) : s.OwnName f := by
  intro g slot hg heq
  obtain ⟨hlt, -⟩ := Array.getElem?_eq_some_iff.mp (Tree.slot_eq_ok.mp hg.1)
  exact h g.owner (Tree.slot_lt_size hg.1) g.index hlt heq

theorem Replays.linked {v w : Value} {l : List (Value × Value)} (h : Replays v l w) :
    Linked (fun c c' => c'.1 = c.2) l := by
  induction l generalizing v with
  | nil => exact .nil
  | cons c l ih =>
      obtain ⟨-, hrest⟩ := h
      refine (ih hrest).cons fun c' hc' => ?_
      cases l with
      | nil => cases hc'
      | cons c₁ l =>
          cases hc'
          exact hrest.1

def SimOptions.recording : SimOptions := { SimOptions.standard with tracing := .memory }

def addingDesign : TypeTable :=
  ⟨[⟨"Top", .component { Component.ofName "Top" with
      body := { Body.ofName "Top" with
        fields := [.ofType "clk" (.int 1 false), .ofType "a" (.int 8 false),
          .ofType "b" (.int 8 false), .ofType "c" (.int 8 false)] }
      syncs := [{ Function.ofName "p" with
        body := [.assign [.ownField 1] (.binary (.ownField 1) .add (.int 1)),
          .assign [.ownField 2] (.int 5)]
        process := some ⟨.sync, some (.ownField 0), none, []⟩ }]
      combs := [{ Function.ofName "q" with
        body := [.assign [.ownField 3] (.binary (.ownField 1) .add (.ownField 2))]
        process := some ⟨.comb, none, none, []⟩ }] }⟩], by decide⟩

def Tree.signal? (t : Tree) (f : FieldRef) : Option FieldSlot :=
  (t.slot f.owner f.index).toOption.filter fun slot => slot.storage.isSignal

theorem Tree.signalAt_of_signal? {t : Tree} (h : t.signal? f = some slot) : t.SignalAt f slot := by
  obtain ⟨hslot, hsignal⟩ := Option.filter_eq_some_iff.mp h
  cases ht : t.slot f.owner f.index with
  | error e =>
      rw [ht] at hslot
      cases hslot
  | ok slot' =>
      rw [ht] at hslot
      cases hslot
      exact ⟨ht, Storage.isSignal_iff.mp hsignal⟩

/-- Two edges, the first of which commits both registers. -/
theorem recorded_changes_replay_adding : ∃ e log s s' states slot,
    elaborate addingDesign .empty "Top" .empty .standard = (.ok e, log) ∧
      Simulation.ofElaborated e .recording = .ok s ∧ Session s states s' ∧
      (∀ m ∈ states, m.Undisturbed) ∧ s.tree.SignalAt ⟨0, 3⟩ slot ∧ s.OwnName ⟨0, 3⟩ ∧
      (s'.changesOf (s.signalName ⟨0, 3⟩)).length = 2 ∧
      Replays (s.current ⟨0, 3⟩ slot)
        ((s'.changesOf (s.signalName ⟨0, 3⟩)).map fun c => (c.old, c.new))
        (s'.current ⟨0, 3⟩ slot) := by
  let edge : Command := .clockEdge "clk"
  have hrun : ((addingDesign.simulationWith "Top" .recording).bind fun s =>
      (Command.start.run 200 s).bind fun r => (edge.run 200 r.1).bind fun r₁ =>
        (edge.run 200 r₁.1).map fun r₂ => decide ((r.2 = none ∧ r₁.2 = none ∧ r₂.2 = none) ∧
          (∀ m ∈ Command.start.states 200 s ++ edge.states 200 r.1 ++ edge.states 200 r₁.1,
            m.Undisturbed) ∧
          (∀ id < s.tree.size, ∀ i < (s.tree.inst id).fields.size,
            s.signalName ⟨id, i⟩ = s.signalName ⟨0, 3⟩ → (⟨id, i⟩ : FieldRef) = ⟨0, 3⟩) ∧
          (s.tree.signal? ⟨0, 3⟩).isSome ∧
          (r₂.1.changesOf (s.signalName ⟨0, 3⟩)).length = 2)) = some true := by
    decide +kernel
  obtain ⟨s, hs, hrun⟩ := Option.bind_eq_some_iff.mp hrun
  obtain ⟨⟨s₁, fault₁⟩, h₁, hrun⟩ := Option.bind_eq_some_iff.mp hrun
  obtain ⟨⟨s₂, fault₂⟩, h₂, hrun⟩ := Option.bind_eq_some_iff.mp hrun
  obtain ⟨⟨s₃, fault₃⟩, h₃, hrun⟩ := Option.map_eq_some_iff.mp hrun
  obtain ⟨⟨rfl, rfl, rfl⟩, hq, hname, hsignal, hlength⟩ := of_decide_eq_true hrun
  obtain ⟨slot, hslot⟩ := Option.isSome_iff_exists.mp hsignal
  obtain ⟨e, log, he, hsim⟩ := TypeTable.exists_elaborated hs
  have hsession := Session.start.command h₁ |>.command h₂ |>.command h₃
  rw [List.nil_append] at hsession
  have hf := Tree.signalAt_of_signal? hslot
  have hown := Simulation.ownName_of_forall hname
  exact ⟨e, log, s, s₃, _, slot, he, hsim, hsession, hq, hf, hown, hlength,
    (recorded_changes_replay he hsim rfl hsession hq hf hown).1⟩

/-- An edge that commits both registers: `b` is changed again before its own change is worked off,
and the changes on record of `b` are no chain. -/
theorem overtaken_change_on_record : ∃ e log s s' states slot,
    elaborate overtakenDesign .empty "Top" .empty .standard = (.ok e, log) ∧
      Simulation.ofElaborated e .recording = .ok s ∧ Session s states s' ∧
      s.tree.SignalAt ⟨0, 2⟩ slot ∧ s.OwnName ⟨0, 2⟩ ∧
      ¬ Replays (s.current ⟨0, 2⟩ slot)
        ((s'.changesOf (s.signalName ⟨0, 2⟩)).map fun c => (c.old, c.new))
        (s'.current ⟨0, 2⟩ slot) := by
  let edge : Command := .clockEdge "clk"
  have hrun : ((overtakenDesign.simulationWith "Top" .recording).bind fun s =>
      (Command.start.run 200 s).bind fun r => (edge.run 200 r.1).map fun r₁ =>
        decide ((r.2 = none ∧ r₁.2 = none) ∧
          (∀ id < s.tree.size, ∀ i < (s.tree.inst id).fields.size,
            s.signalName ⟨id, i⟩ = s.signalName ⟨0, 2⟩ → (⟨id, i⟩ : FieldRef) = ⟨0, 2⟩) ∧
          (s.tree.signal? ⟨0, 2⟩).isSome ∧
          (r₁.1.changesOf (s.signalName ⟨0, 2⟩)).map (fun c =>
            (c.old.asInt.toOption, c.new.asInt.toOption)) =
              [(some 0, some 6), (some 5, some 7), (some 6, some 5)])) = some true := by
    decide +kernel
  obtain ⟨s, hs, hrun⟩ := Option.bind_eq_some_iff.mp hrun
  obtain ⟨⟨s₁, fault₁⟩, h₁, hrun⟩ := Option.bind_eq_some_iff.mp hrun
  obtain ⟨⟨s₂, fault₂⟩, h₂, hrun⟩ := Option.map_eq_some_iff.mp hrun
  obtain ⟨⟨rfl, rfl⟩, hname, hsignal, hchanges⟩ := of_decide_eq_true hrun
  obtain ⟨slot, hslot⟩ := Option.isSome_iff_exists.mp hsignal
  obtain ⟨e, log, he, hsim⟩ := TypeTable.exists_elaborated hs
  have hsession := Session.start.command h₁ |>.command h₂
  rw [List.nil_append] at hsession
  refine ⟨e, log, s, s₂, _, slot, he, hsim, hsession, Tree.signalAt_of_signal? hslot,
    Simulation.ownName_of_forall hname, fun hreplay => ?_⟩
  -- the first change has left 6, the second one begins with 5
  obtain ⟨c, cs, hcs, hc, hrest⟩ := List.map_eq_cons_iff.mp hchanges
  obtain ⟨c', cs', rfl, hc', -⟩ := List.map_eq_cons_iff.mp hrest
  rw [hcs] at hreplay
  have hlink : c'.old = c.new := hreplay.linked 0 (c.old, c.new) (c'.old, c'.new) rfl rfl
  simp only [Prod.mk.injEq] at hc hc'
  rw [hlink, hc.2] at hc'
  exact absurd hc'.1 (by decide)

end Clockwork
