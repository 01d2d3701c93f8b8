import Clockwork.Proofs.Calls.Session
import Clockwork.Proofs.Machine.Bindings
/-!
Targets and their drivers after commands. A command that comes to no fault leaves no target behind
its driver, unless a driver is written while its change by a commit is still to be worked off.
-/

namespace Clockwork

/-- How fields depend on each other in some states of a simulation: a target on its driver, and what
a combinational process writes on what it is run for. -/
inductive DependsIn (s : Simulation) (states : List Machine) : FieldRef → FieldRef → Prop
  | binding {d t : FieldRef} (h : t ∈ s.tree.targets d) : DependsIn s states d t
  | comb {m : Machine} {p : ProcessRef} {depth : Nat} {rest : List Frame} {f g : FieldRef}
      {v : Value} (hm : m ∈ states) (hwork : m.work = .combOver p depth :: rest)
      (hw : m.write? = some (f, v)) (hp : p ∈ s.watchers g) : DependsIn s states g f

/-- A command keeps to the bindings: every target has one driver, nothing but the binding writes it,
and no field depends on itself. -/
structure Command.KeepsTo (c : Command) (fuel : Nat) (s : Simulation) : Prop where
  single : ∀ d d' t, t ∈ s.tree.targets d → t ∈ s.tree.targets d' → d = d'
  given : ∀ f ∈ c.field? s, ∀ d, f ∉ s.tree.targets d
  written : ∀ m ∈ c.states fuel s, ∀ w ∈ m.write?, ∀ d, w.1 ∉ s.tree.targets d
  acyclic : ∀ f, ¬ Relation.TransGen (DependsIn s (c.states fuel s)) f f

/-- No driver is written whose change by a commit is still to be worked off. -/
def Command.Undisturbed (c : Command) (fuel : Nat) (s : Simulation) : Prop :=
  ∀ m ∈ c.states fuel s, ∀ w ∈ m.write?, s.tree.targets w.1 ≠ [] →
    ∀ change ∈ m.dueChanges, change.1 ≠ w.1

/-- All targets have the values of their drivers. -/
def Simulation.AllTrack (s : Simulation) : Prop := ∀ d, ∀ t ∈ s.tree.targets d, s.Tracks d t

theorem Simulation.watchers_congr {s s' : Simulation} (h : s'.wiring = s.wiring) (f : FieldRef) :
    s'.watchers f = s.watchers f := by
  rw [watchers, h, watchers]

theorem Command.KeepsTo.tied {c : Command} {fuel : Nat} {s : Simulation} (h : c.KeepsTo fuel s)
    (hdue : c.Undisturbed fuel s) {m : Machine} (hm : m ∈ c.states fuel s)
    (hdesign : s.SameDesign m.sim) :
    m.Tied (DependsIn s (c.states fuel s)) fun f => c.field? s = some f where
  acyclic := h.acyclic
  binds := by
    rw [hdesign.tree]
    exact fun _ _ ht => .binding ht
  single := by
    rw [hdesign.tree]
    exact h.single
  watched p depth rest f v g hwork hw hp := by
    rw [Simulation.watchers_congr hdesign.wiring] at hp
    exact .comb hm hwork hw hp
  written := by
    rw [hdesign.tree]
    exact fun f v => h.written m hm (f, v)
  outer := by
    rw [hdesign.tree]
    exact h.given
  due := by
    rw [hdesign.tree]
    exact fun f v => hdue m hm (f, v)

theorem Recorded.Runs.tracks {outer : FieldRef → Prop} {s : Simulation} {r : Recorded}
    {dep : FieldRef → FieldRef → Prop} (h : Runs outer s none r) (hs : Reachable s)
    (ht : ∀ m ∈ r.states, m.Tied dep outer) (hb : s.AllTrack) : r.sim.AllTrack := by
  have same : ∀ {s₁ s₂ : Simulation}, s₁.SameButTasks s₂ → s₁.AllTrack → s₂.AllTrack := by
    intro s₁ s₂ hsim htracks d t htd
    have hagrees := hsim.agrees
    rw [hagrees.tree] at htd
    exact (htracks d t htd).congr hagrees.tree
      (fun slot _ => Simulation.current_congr hagrees.signals d slot)
      (fun slot _ => Simulation.current_congr hagrees.signals t slot)
  have first :
      ∀ m : Machine, m.work = [] → s.SameButTasks m.sim → m.Addressed → m.Tracking dep := by
    intro m hwork hsim ha
    refine ⟨ha, ?_, ?_, ?_, ?_, fun d t ht => .inl (same hsim hb d t ht)⟩
    · simp [hwork]
    · rw [hwork]
      exact .nil
    · simp [Machine.dueChanges, hwork]
    · intro f slot v _ hv
      rw [Simulation.staged?, Simulation.signalsOf, hsim.agrees.signals] at hv
      change (s.signalsOf f.owner).staged.get? slot.key = some v at hv
      rw [hs.settled.rest.unstaged] at hv
      cases hv
  cases hstates : r.states.getLast? with
  | none => exact same (h.empty (List.getLast?_eq_none_iff.mp hstates)) hb
  | some m =>
      have hm := List.mem_of_getLast? hstates
      obtain ⟨k, hk⟩ := List.getElem?_of_mem hm
      obtain ⟨hwork, hsim⟩ := h.last m hstates
      have htracking : m.Tracking dep := by
        refine h.induct (P := fun k m => r.states[k]? = some m → m.Tracking dep) ?_ ?_ hk hk
        · exact fun m hwork hsim hm => first m hwork hsim (h.addressed hs hm)
        · intro k m m' hm _ htidy hstep ih _
          exact hstep.tracking (ht m (List.mem_of_getElem? hm)) htidy.toLayered (ih hm)
      refine same hsim ?_
      intro d t htd
      rcases htracking.kept d t htd with hold | ⟨fs, w, hmem, -⟩ | ⟨change, hchange, -⟩
      · exact hold
      · rw [hwork] at hmem
        cases hmem
      · rw [Machine.dueChanges, hwork] at hchange
        cases hchange

/-- A command that keeps to the bindings and disturbs no commit leaves all targets with the values
of their drivers, as far as they fit, if they had them before. -/
theorem targets_track_drivers {s s' : Simulation} {c : Command} {fuel : Nat} (hs : Reachable s)
    (hrun : c.run fuel s = some (s', none)) (hc : c.KeepsTo fuel s) (hdue : c.Undisturbed fuel s)
    (hb : s.AllTrack) : s'.AllTrack := by
  have hruns : Recorded.Runs (fun f => c.field? s = some f) s none ⟨s', c.states fuel s⟩ :=
    .command hs.settled (fun _ h => h) hrun
  exact hruns.tracks hs (fun m hm => hc.tied hdue hm (hruns.tidy m hm).design) hb

theorem Table.mem_of_getD {κ α : Type} [LT κ] [DecidableLT κ] [DecidableEq κ]
    {t : Table κ (List α)} {k : κ} {a : α} (h : a ∈ (t.get? k).getD []) :
    ∃ l, (k, l) ∈ t.entries ∧ a ∈ l := by
  cases hfound : t.entries.find? fun e => decide (e.1 = k) with
  | none => simp [Table.get?, hfound] at h
  | some e =>
      obtain ⟨k', l⟩ := e
      obtain rfl : k' = k := by simpa using List.find?_some hfound
      refine ⟨l, List.mem_of_find?_eq_some hfound, ?_⟩
      simpa [Table.get?, hfound] using h

theorem FieldRef.lt_of_transGen {r : FieldRef → FieldRef → Prop} {rank : FieldRef → Nat}
    (h : ∀ d f, r d f → rank d < rank f) {d f : FieldRef} (hdf : Relation.TransGen r d f) :
    rank d < rank f := by
  induction hdf with
  | single hstep => exact h _ _ hstep
  | tail _ hstep ih => exact Nat.lt_trans ih (h _ _ hstep)

def Tree.allTargets (t : Tree) : List FieldRef := t.bindings.entries.flatMap (·.2)

def Frame.comb? : Frame → Option ProcessRef
  | .combOver p _ => some p
  | _ => none

def Command.Ranked (rank : FieldRef → Nat) (c : Command) (fuel : Nat) (s : Simulation) : Prop :=
  (∀ e ∈ s.tree.bindings.entries, ∀ e' ∈ s.tree.bindings.entries, ∀ t ∈ e.2,
    t ∈ e'.2 → e.1 = e'.1) ∧
  (∀ f ∈ c.field? s, f ∉ s.tree.allTargets) ∧
  (∀ m ∈ c.states fuel s, ∀ w ∈ m.write?, w.1 ∉ s.tree.allTargets) ∧
  (∀ e ∈ s.tree.bindings.entries, ∀ t ∈ e.2, rank e.1 < rank t) ∧
  ∀ m ∈ c.states fuel s, ∀ w ∈ m.write?, ∀ p ∈ m.work.head?.bind Frame.comb?,
    ∀ e ∈ s.wiring.watchers.entries, p ∈ e.2 → rank e.1 < rank w.1

instance (rank : FieldRef → Nat) (c : Command) (fuel : Nat) (s : Simulation) :
    Decidable (c.Ranked rank fuel s) :=
  inferInstanceAs (Decidable (_ ∧ _ ∧ _ ∧ _ ∧ _))

instance (c : Command) (fuel : Nat) (s : Simulation) : Decidable (c.Undisturbed fuel s) :=
  inferInstanceAs (Decidable (∀ m ∈ c.states fuel s, _))

theorem Tree.mem_allTargets {t : Tree} {d f : FieldRef} (h : f ∈ t.targets d) :
    f ∈ t.allTargets := by
  obtain ⟨l, hl, hf⟩ := Table.mem_of_getD h
  exact List.mem_flatMap.mpr ⟨_, hl, hf⟩

theorem Command.Ranked.keepsTo {rank : FieldRef → Nat} {c : Command} {fuel : Nat} {s : Simulation}
    (h : c.Ranked rank fuel s) : c.KeepsTo fuel s := by
  obtain ⟨hsingle, hgiven, hwritten, hbindings, hcombs⟩ := h
  have hdep : ∀ d f, DependsIn s (c.states fuel s) d f → rank d < rank f := by
    rintro d f (ht | ⟨hm, hwork, hw, hp⟩)
    · obtain ⟨l, hl, hmem⟩ := Table.mem_of_getD ht
      exact hbindings _ hl f hmem
    · obtain ⟨l, hl, hmem⟩ := Table.mem_of_getD hp
      exact hcombs _ hm _ hw _ (by rw [hwork]; rfl) _ hl hmem
  refine ⟨?_, ?_, ?_, ?_⟩
  · intro d d' t ht ht'
    obtain ⟨l, hl, hmem⟩ := Table.mem_of_getD ht
    obtain ⟨l', hl', hmem'⟩ := Table.mem_of_getD ht'
    exact hsingle _ hl _ hl' t hmem hmem'
  · exact fun f hf d hd => hgiven f hf (Tree.mem_allTargets hd)
  · exact fun m hm w hw d hd => hwritten m hm w hw (Tree.mem_allTargets hd)
  · exact fun f hf => Nat.lt_irrefl _ (FieldRef.lt_of_transGen hdep hf)

def Simulation.tracks? (s : Simulation) (d t : FieldRef) : Bool :=
  match s.tree.slot d.owner d.index, s.tree.slot t.owner t.index with
  | .ok a, .ok b => a.storage.isSignal && b.storage.isSignal &&
      (s.current t b).same ((s.current d a).fit b.width b.signed)
  | _, _ => false

theorem Storage.isSignal_iff {x : Storage} : x.isSignal = true ↔ x = .signal := by
  cases x <;> simp [isSignal]

theorem Simulation.tracks?_iff {s : Simulation} {d t : FieldRef} :
    s.tracks? d t = true ↔ s.Tracks d t := by
  constructor
  · intro h
    simp only [tracks?] at h
    split at h
    · rename_i a b ha hb
      simp only [Bool.and_eq_true, Storage.isSignal_iff] at h
      exact ⟨a, b, ⟨ha, h.1.1⟩, ⟨hb, h.1.2⟩, h.2⟩
    · cases h
  · rintro ⟨a, b, ⟨ha, hsa⟩, ⟨hb, hsb⟩, hsame⟩
    simp [tracks?, ha, hb, hsa, hsb, Storage.isSignal, hsame]

instance (s : Simulation) (d t : FieldRef) : Decidable (s.Tracks d t) :=
  decidable_of_iff _ Simulation.tracks?_iff

theorem Simulation.allTrack_of_entries {s : Simulation}
    (h : ∀ e ∈ s.tree.bindings.entries, ∀ t ∈ e.2, s.Tracks e.1 t) : s.AllTrack := by
  intro d t ht
  obtain ⟨l, hl, hmem⟩ := Table.mem_of_getD ht
  exact h _ hl t hmem

/-- Two registers, of which the first makes a process write the second, which `i` of a leaf follows
as far as four bits go. -/
def overtakenDesign : TypeTable :=
  ⟨[⟨"Leaf", .component { Component.ofName "Leaf" with
      body := { Body.ofName "Leaf" with fields := [.ofType "i" (.int 4 false)] } }⟩,
    ⟨"Top", .component {
      body := { Body.ofName "Top" with
        fields := [.ofType "clk" (.int 1 false), .ofType "a" (.int 8 false),
          .ofType "b" (.int 8 false), .ofType "leaf" (.ref "Leaf")] }
      binds := [⟨.childField 3 0, .ownField 2⟩]
      syncs := [{ Function.ofName "p" with
        body := [.assign [.ownField 1] (.int 1), .assign [.ownField 2] (.int 5)]
        process := some ⟨.sync, some (.ownField 0), none, []⟩ }]
      combs := [{ Function.ofName "q" with
        body := [.assign [.ownField 2] (.binary (.ownField 1) .add (.int 6))]
        process := some ⟨.comb, none, none, []⟩ }]
      processes := [] }⟩], by decide⟩

def overtakenRank (f : FieldRef) : Nat := 3 * f.owner + f.index

/-- An input that changes `b`, and the leaf with it. -/
theorem targets_track_drivers_at_input : ∃ s s', Reachable s ∧
    (Command.setInput "a" (.int 12)).run 200 s = some (s', none) ∧
      (Command.setInput "a" (.int 12)).KeepsTo 200 s ∧
        (Command.setInput "a" (.int 12)).Undisturbed 200 s ∧ s.AllTrack ∧ s'.AllTrack := by
  have hchecked : ((overtakenDesign.after "Top" 200 [.start]).bind fun s =>
      ((Command.setInput "a" (.int 12)).run 200 s).map fun r => r.2.isNone &&
        decide ((Command.setInput "a" (.int 12)).Ranked overtakenRank 200 s ∧
          (Command.setInput "a" (.int 12)).Undisturbed 200 s ∧
            ∀ e ∈ s.tree.bindings.entries, ∀ t ∈ e.2, s.Tracks e.1 t)) = some true := by
    decide +kernel
  obtain ⟨s, hs, hinput⟩ := Option.bind_eq_some_iff.mp hchecked
  obtain ⟨⟨s', fault⟩, hrun, hok⟩ := Option.map_eq_some_iff.mp hinput
  obtain ⟨hnone, hprops⟩ := Bool.and_eq_true_iff.mp hok
  obtain rfl := Option.isNone_iff_eq_none.mp hnone
  obtain ⟨hranked, hdue, htracks⟩ := of_decide_eq_true hprops
  have hreach := TypeTable.reachable_after hs
  have hb := Simulation.allTrack_of_entries htracks
  exact ⟨s, s', hreach, hrun, hranked.keepsTo, hdue, hb,
    targets_track_drivers hreach hrun hranked.keepsTo hdue hb⟩

/-- An edge that commits both registers: `b` is changed again before its own change is worked off,
and the leaf is left with what the commit made of `b`. -/
theorem overtaken_target_left_behind : ∃ s s', Reachable s ∧
    (Command.clockEdge "clk").run 200 s = some (s', none) ∧
      (Command.clockEdge "clk").KeepsTo 200 s ∧ s.AllTrack ∧ ¬ s'.AllTrack := by
  have hchecked : ((overtakenDesign.after "Top" 200 [.start]).bind fun s =>
      ((Command.clockEdge "clk").run 200 s).map fun r => r.2.isNone &&
        decide ((Command.clockEdge "clk").Ranked overtakenRank 200 s ∧
          (∀ e ∈ s.tree.bindings.entries, ∀ t ∈ e.2, s.Tracks e.1 t) ∧
            ⟨1, 0⟩ ∈ r.1.tree.targets ⟨0, 2⟩ ∧ ¬ r.1.Tracks ⟨0, 2⟩ ⟨1, 0⟩)) = some true := by
    decide +kernel
  obtain ⟨s, hs, hedge⟩ := Option.bind_eq_some_iff.mp hchecked
  obtain ⟨⟨s', fault⟩, hrun, hok⟩ := Option.map_eq_some_iff.mp hedge
  obtain ⟨hnone, hprops⟩ := Bool.and_eq_true_iff.mp hok
  obtain rfl := Option.isNone_iff_eq_none.mp hnone
  obtain ⟨hranked, htracks, htarget, hbehind⟩ := of_decide_eq_true hprops
  exact ⟨s, s', TypeTable.reachable_after hs, hrun, hranked.keepsTo,
    Simulation.allTrack_of_entries htracks, fun hb => hbehind (hb _ _ htarget)⟩

end Clockwork
