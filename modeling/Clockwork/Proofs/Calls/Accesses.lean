import Clockwork.Proofs.Calls.Replay
import Clockwork.Proofs.Combs.AtWork
import Clockwork.Proofs.Combs.Beginning
import Clockwork.Proofs.Combs.Wiring
/-!
What combinational processes read and write in all states of commands, with faults or without. If
fields are referred to at the ends of paths only, the accesses of a body cover all of it.
-/

namespace Clockwork

open Machine

variable {outer : FieldRef → Prop} {s s' : Simulation} {states : List Machine} {p : ProcessRef}
  {f : Function}

namespace Machine

/-- The combinational process whose body goes on above some frames, unless the body waits for the
end of a function or for a write to be worked off. -/
def bodyAbove? : List Frame → Option ProcessRef
  | .boundary _ _ :: .combOver p _ :: _ => some p
  | f :: rest => if f.holdsBody then none else bodyAbove? rest
  | [] => none

/-- The combinational process whose body goes on by itself. -/
def body? (m : Machine) : Option ProcessRef := bodyAbove? m.stack

theorem eq_of_bodyAbove {l : List Frame} (h : bodyAbove? l = some p) :
    ∃ own name caller d rest, l = own ++ .boundary name caller :: .combOver p d :: rest ∧
      ∀ g ∈ own, g.holdsBody = false := by
  induction l with
  | nil => cases h
  | cons g l ih =>
      unfold bodyAbove? at h
      split at h
      · rename_i name caller q d rest heq
        cases heq
        cases h
        exact ⟨[], name, caller, d, rest, rfl, by simp⟩
      · rename_i heq
        cases heq
        split at h
        · cases h
        · rename_i hg
          obtain ⟨own, name, caller, d, rest, rfl, hown⟩ := ih h
          refine ⟨g :: own, name, caller, d, rest, rfl, ?_⟩
          rintro g' (_ | ⟨_, hg'⟩)
          · simpa using hg
          · exact hown g' hg'
      · rename_i heq
        cases heq

/-- Wherever the body of a combinational process is under way, it is within its accesses. -/
def Confined (t : Tree) (p : ProcessRef) (f : Function) (m : Machine) : Prop :=
  m.fault? = none → ∀ name caller d rest,
    .boundary name caller :: .combOver p d :: rest <:+ m.stack →
      Inside t (Stmt.accessesAll f.body) p.owner (.boundary name caller :: .combOver p d :: rest) m

namespace Confined

variable {t : Tree} {m m' : Machine}

theorem of_not_executes (h : ¬ Executes m p) : m.Confined t p f := by
  intro _ name caller d rest hsuffix
  exact absurd ⟨d, List.mem_filter.mpr ⟨hsuffix.subset (by simp), rfl⟩⟩ h

theorem step {waker : Waker} (h : m.Confined t p f) (hl : m.Layered) (ht : m.sim.tree = t)
    (hf : t.CombAt p f) (hpath : Stmt.byPathAll f.body = true)
    (hlead : ∀ a ∈ Stmt.accessesAll f.body, ∃ g, t.follow p.owner a.path = .ok g)
    (hstep : m.step waker = .go m') : m'.Confined t p f := by
  intro hok name caller d rest hsuffix
  rcases hl.body_begins hstep hok hsuffix with hbefore | ⟨f', s, hf', rfl⟩
  · have hinside := h (fault?_of_step hstep hok) name caller d rest hbefore
    exact hinside.step hl ht hlead hstep hok hsuffix
  · rw [ht] at hf'
    obtain rfl := hf.unique hf'
    exact .begun s hpath

/-- What a command begins with runs the body of one combinational process at most, from its start.
-/
theorem begins (hm : s.Begins outer m) (hf : s.tree.CombAt p f)
    (hpath : Stmt.byPathAll f.body = true) : m.Confined s.tree p f := by
  have hnone : ¬ Executes s.machine p := by
    rintro ⟨d, hp⟩
    cases hp
  cases hm with
  | write g v hg => exact .of_not_executes fun h => hnone h.of_write
  | call owner function args =>
      refine .of_not_executes fun h => hnone ?_
      rwa [Executes, callNow_work] at h
  | event event =>
      refine .of_not_executes fun h => hnone ?_
      rwa [Executes, setEvent_work] at h
  | combs =>
      intro hok name caller d rest hsuffix
      let m₁ : Machine := { ({ s with driveDepth := s.driveDepth + 1 } : Simulation).machine with
        stack := [.driven] }
      change (m₁.runCombs s.wiring.order).fault? = none at hok
      change _ <:+ (m₁.runCombs s.wiring.order).stack at hsuffix
      change Inside s.tree _ _ _ (m₁.runCombs s.wiring.order)
      rcases body_of_runCombs hok hsuffix with hbelow | ⟨f', s', hf', heq⟩
      · exact absurd (hbelow.subset List.mem_cons_self) (by simp [m₁])
      · obtain rfl := hf.unique hf'
        rw [heq]
        exact .begun s' hpath

end Confined

end Machine

theorem Commands.confined (h : Commands s states s') (hs : Reachable s) (hf : s.tree.CombAt p f)
    (hpath : Stmt.byPathAll f.body = true)
    (hlead : ∀ a ∈ Stmt.accessesAll f.body, ∃ g, s.tree.follow p.owner a.path = .ok g) :
    ∀ m ∈ states, m.Confined s.tree p f := by
  obtain ⟨fault, hruns⟩ := h.runs hs
  have idle : ∀ m : Machine, m.work = [] → m.Confined s.tree p f := by
    intro m hm
    refine .of_not_executes ?_
    rintro ⟨d, hp⟩
    rw [hm] at hp
    cases hp
  intro m hm
  obtain ⟨k, hk⟩ := List.getElem?_of_mem hm
  refine hruns.follow (P := fun _ m => m.Confined s.tree p f) (fun m hm _ => idle m hm) ?_ hk
  intro k m m' _ _ htidy hfollows hconfined
  have ht : m.sim.tree = s.tree := htidy.design.tree
  cases hfollows with
  | step hstep => exact hconfined.step htidy.toLayered ht hf hpath hlead hstep
  | later hm hm' => exact idle m' hm'
  | begins hm hb =>
      subst hm
      rw [← ht] at hf ⊢
      exact .begins hb hf hpath

/-- The accesses of a body cover what a combinational process does by itself, if it refers to
fields at the ends of paths only, which lead somewhere, and takes no field of an instance by its
name: it reads no signals but those that the accesses name, and writes no fields but those that
they name as written. If the process lists nothing that it depends on, it is run on changes of
every signal that it reads and does not write. All this holds of commands with faults as well. -/
theorem body_within_accesses {types : TypeTable} {objects : Objects} {top : String}
    {values : Table String Value} {settings : ElabSettings} {e : Elaborated} {log : List LogRecord}
    {options : SimOptions} (he : elaborate types objects top values settings = (.ok e, log))
    (hs : Simulation.ofElaborated e options = .ok s) (h : Commands s states s')
    (hf : s.tree.CombAt p f) (hpath : Stmt.byPathAll f.body = true)
    (hlead : ∀ a ∈ Stmt.accessesAll f.body, ∃ g, s.tree.follow p.owner a.path = .ok g) {m : Machine}
    (hm : m ∈ states) (hbody : m.body? = some p) (hname : m.takesName = false) :
    (∀ below g slot, m.Reads below g → s.tree.SignalAt g slot →
      s.tree.Reads p g ∨ s.tree.Writes p g) ∧
    (∀ g v, m.write? = some (g, v) → s.tree.Writes p g) ∧
    ((∀ info, f.process = some info → info.sensitivity = []) →
      ∀ below g slot, m.Reads below g → s.tree.SignalAt g slot →
        s.tree.Writes p g ∨ p ∈ s.watchers g) := by
  have hreach : Reachable s := .initial he hs
  obtain ⟨own, name, caller, d, rest, hstack, hown⟩ := eq_of_bodyAbove hbody
  have hplace : m.fault? = none →
      Place s.tree (Stmt.accessesAll f.body) p.owner m.control own := by
    intro hok
    have hconfined :=
      h.confined hreach hf hpath hlead m hm hok name caller d rest ⟨own, hstack.symm⟩
    exact hconfined.at_work hstack hown
  have hreads : ∀ {below g slot}, m.Reads below g → s.tree.SignalAt g slot →
      ∃ a ∈ Stmt.accessesAll f.body, s.tree.follow p.owner a.path = .ok g := by
    intro below g slot hg hslot
    have hok : m.fault? = none := by cases hg <;> simp [fault?, *]
    exact (hplace hok).reads hstack ⟨_, _, _, rfl⟩ hlead hname hg hslot
  refine ⟨?_, ?_, ?_⟩
  · intro below g slot hg hslot
    obtain ⟨a, ha, hfollow⟩ := hreads hg hslot
    cases a with
    | read path => exact .inl ⟨f, path, hf, AccessSet.mem_reads.mpr ha, hfollow⟩
    | write path => exact .inr ⟨f, path, hf, AccessSet.mem_writes.mpr ha, hfollow⟩
  · intro g v hg
    have hok : m.fault? = none := by
      obtain ⟨w, -, -, hc, -⟩ := m.eq_of_write hg
      simp [fault?, hc]
    obtain ⟨path, hmem, hfollow⟩ := (hplace hok).writes hstack ⟨_, _, _, rfl⟩ hlead hname hg
    exact ⟨f, path, hf, AccessSet.mem_writes.mpr hmem, hfollow⟩
  · intro hlist below g slot hg hslot
    obtain ⟨a, ha, hfollow⟩ := hreads hg hslot
    by_cases hw : a.path ∈ (AccessSet.ofBody f.body).writes
    · exact .inl ⟨f, a.path, hf, hw, hfollow⟩
    · right
      obtain ⟨log, hwiring⟩ := hreach.designed.wiring
      refine (Wiring.mem_watchers_derived hwiring hf hlist).mpr ⟨a.path, ?_, hw, hfollow⟩
      cases a with
      | read path => exact AccessSet.mem_reads.mpr ha
      | write path => exact absurd (AccessSet.mem_writes.mpr ha) hw

def Machine.reads? (m : Machine) : Option FieldRef :=
  match m.control, m.stack with
  | .done (.value (.obj (.component id))), .fieldOf index :: _ => some ⟨id, index⟩
  | .done (.value (.obj (.component id))), .memberOf name :: _ =>
    ((m.sim.tree.inst id).fieldIndex? name).map (⟨id, ·⟩)
  | _, _ => none

theorem Machine.reads_of_reads? {m : Machine} {g : FieldRef} (h : m.reads? = some g) :
    ∃ below, m.Reads below g := by
  unfold reads? at h
  split at h
  · rename_i id index below hc hs
    cases h
    exact ⟨below, .position id index hc hs⟩
  · rename_i id name below hc hs
    obtain ⟨index, hindex, rfl⟩ := Option.map_eq_some_iff.mp h
    exact ⟨below, .name id index name hc hs hindex⟩
  · cases h

def pickingDesign : TypeTable :=
  ⟨[⟨"Leaf", .component { Component.ofName "Leaf" with
      body := { Body.ofName "Leaf" with fields := [.ofType "y" (.int 8 false)] } }⟩,
    ⟨"Top", .component { Component.ofName "Top" with
      body := { Body.ofName "Top" with
        fields := [.ofType "x" (.int 8 false), .ofType "o" (.int 8 false),
          .ofType "leaf" (.ref "Leaf")] }
      combs := [{ Function.ofName "q" with
        body := [.branch (.ownField 0) [.assign [.ownField 1] (.path [2, 0])]
          [.assign [.ownField 1] (.ownField 0)]]
        process := some ⟨.comb, none, none, []⟩ }] }⟩], by decide⟩

/-- After a change of `x` the process reads a field of the child. -/
theorem body_within_accesses_of_child : ∃ e log s s' states f m below slot,
    elaborate pickingDesign .empty "Top" .empty .standard = (.ok e, log) ∧
      Simulation.ofElaborated e .standard = .ok s ∧ Commands s states s' ∧
      s.tree.CombAt ⟨0, 0⟩ f ∧ Stmt.byPathAll f.body = true ∧
      (∀ a ∈ Stmt.accessesAll f.body, ∃ g, s.tree.follow 0 a.path = .ok g) ∧
      (∀ info, f.process = some info → info.sensitivity = []) ∧
      m ∈ states ∧ m.body? = some ⟨0, 0⟩ ∧ m.takesName = false ∧ m.Reads below ⟨1, 0⟩ ∧
      s.tree.SignalAt ⟨1, 0⟩ slot ∧
      (s.tree.Reads ⟨0, 0⟩ ⟨1, 0⟩ ∨ s.tree.Writes ⟨0, 0⟩ ⟨1, 0⟩) ∧
      (s.tree.Writes ⟨0, 0⟩ ⟨1, 0⟩ ∨ ⟨0, 0⟩ ∈ s.watchers ⟨1, 0⟩) := by
  let input : Command := .setInput "x" (.int 5)
  have hrun : ((pickingDesign.simulationWith "Top" .standard).bind fun s =>
      ((s.tree.inst 0).combs[0]?).bind fun (f : Function) =>
        (Command.start.run 200 s).bind fun r =>
        (input.run 200 r.1).map fun r₁ => decide (Stmt.byPathAll f.body = true ∧
          (∀ a ∈ Stmt.accessesAll f.body, (s.tree.follow 0 a.path).isOk = true) ∧
          (∀ info ∈ f.process, info.sensitivity.isEmpty = true) ∧
          (∃ m ∈ Command.start.states 200 s ++ input.states 200 r.1,
            m.body? = some ⟨0, 0⟩ ∧ m.takesName = false ∧ m.reads? = some ⟨1, 0⟩) ∧
          (s.tree.signal? ⟨1, 0⟩).isSome)) = some true := by
    decide +kernel
  obtain ⟨s, hs, hrun⟩ := Option.bind_eq_some_iff.mp hrun
  obtain ⟨f, hf, hrun⟩ := Option.bind_eq_some_iff.mp hrun
  obtain ⟨⟨s₁, fault₁⟩, h₁, hrun⟩ := Option.bind_eq_some_iff.mp hrun
  obtain ⟨⟨s₂, fault₂⟩, h₂, hrun⟩ := Option.map_eq_some_iff.mp hrun
  obtain ⟨hpath, hlead, hlist, ⟨m, hm, hbody, hname, hreads⟩, hsignal⟩ := of_decide_eq_true hrun
  obtain ⟨slot, hslot⟩ := Option.isSome_iff_exists.mp hsignal
  obtain ⟨below, hreads⟩ := reads_of_reads? hreads
  obtain ⟨e, log, he, hsim⟩ := TypeTable.exists_elaborated hs
  have hcommands := Commands.start.command h₁ |>.command h₂
  have hf' : s.tree.CombAt ⟨0, 0⟩ f := hf
  have hleads : ∀ a ∈ Stmt.accessesAll f.body, ∃ g, s.tree.follow 0 a.path = .ok g :=
    fun a ha => isOk_iff.mp (hlead a ha)
  have hderived : ∀ info, f.process = some info → info.sensitivity = [] := fun info h =>
    List.isEmpty_iff.mp (hlist info h)
  have hg := Tree.signalAt_of_signal? hslot
  have hall := body_within_accesses he hsim hcommands hf' hpath hleads hm hbody hname
  exact ⟨e, log, s, s₂, _, f, m, below, slot, he, hsim, hcommands, hf', hpath, hleads, hderived, hm,
    hbody, hname, hreads, hg, hall.1 _ _ _ hreads hg, hall.2.2 hderived _ _ _ hreads hg⟩

def namingDesign : TypeTable :=
  ⟨[⟨"Top", .component { Component.ofName "Top" with
      body := { Body.ofName "Top" with
        fields := [.ofType "x" (.int 8 false), .ofType "o" (.int 8 false)] }
      combs := [{ Function.ofName "q" with
        body := [.assign [.ownField 1] (.member .self "x")]
        process := some ⟨.comb, none, none, []⟩ }] }⟩], by decide⟩

/-- The process reads `x` by name. None of its accesses names `x`, so a change of `x` does not run
it, and `o` keeps what it had before. -/
theorem field_by_name_unnoticed : ∃ e log s s' states f m below slot,
    elaborate namingDesign .empty "Top" .empty .standard = (.ok e, log) ∧
      Simulation.ofElaborated e .standard = .ok s ∧ Session s states s' ∧
      s.tree.CombAt ⟨0, 0⟩ f ∧ (∀ info, f.process = some info → info.sensitivity = []) ∧
      m ∈ states ∧ m.body? = some ⟨0, 0⟩ ∧ m.Reads below ⟨0, 0⟩ ∧ s.tree.SignalAt ⟨0, 0⟩ slot ∧
      ¬ s.tree.Reads ⟨0, 0⟩ ⟨0, 0⟩ ∧ ¬ s.tree.Writes ⟨0, 0⟩ ⟨0, 0⟩ ∧
      ⟨0, 0⟩ ∉ s.watchers ⟨0, 0⟩ ∧ s'.number? "x" = some 5 ∧ s'.number? "o" = some 0 := by
  let input : Command := .setInput "x" (.int 5)
  have hrun : ((namingDesign.simulationWith "Top" .standard).bind fun s =>
      ((s.tree.inst 0).combs[0]?).bind fun (f : Function) =>
        (Command.start.run 200 s).bind fun r =>
        (input.run 200 r.1).map fun r₁ => decide ((r.2 = none ∧ r₁.2 = none) ∧
          (∀ info ∈ f.process, info.sensitivity.isEmpty = true) ∧
          (∃ m ∈ Command.start.states 200 s ++ input.states 200 r.1,
            m.body? = some ⟨0, 0⟩ ∧ m.reads? = some ⟨0, 0⟩) ∧
          (s.tree.signal? ⟨0, 0⟩).isSome ∧
          (∀ path ∈ (AccessSet.ofBody f.body).reads,
            (s.tree.follow 0 path).toOption ≠ some ⟨0, 0⟩) ∧
          (∀ path ∈ (AccessSet.ofBody f.body).writes,
            (s.tree.follow 0 path).toOption ≠ some ⟨0, 0⟩) ∧
          ⟨0, 0⟩ ∉ s.watchers ⟨0, 0⟩ ∧ r₁.1.number? "x" = some 5 ∧ r₁.1.number? "o" = some 0)) =
        some true := by
    decide +kernel
  obtain ⟨s, hs, hrun⟩ := Option.bind_eq_some_iff.mp hrun
  obtain ⟨f, hf, hrun⟩ := Option.bind_eq_some_iff.mp hrun
  obtain ⟨⟨s₁, fault₁⟩, h₁, hrun⟩ := Option.bind_eq_some_iff.mp hrun
  obtain ⟨⟨s₂, fault₂⟩, h₂, hrun⟩ := Option.map_eq_some_iff.mp hrun
  obtain ⟨⟨rfl, rfl⟩, hlist, ⟨m, hm, hbody, hreads⟩, hsignal, hreadless, hwriteless, hwatch,
    hx, ho⟩ := of_decide_eq_true hrun
  obtain ⟨slot, hslot⟩ := Option.isSome_iff_exists.mp hsignal
  obtain ⟨below, hreads⟩ := reads_of_reads? hreads
  obtain ⟨e, log, he, hsim⟩ := TypeTable.exists_elaborated hs
  have hsession := Session.start.command h₁ |>.command h₂
  have hf' : s.tree.CombAt ⟨0, 0⟩ f := hf
  refine ⟨e, log, s, s₂, _, f, m, below, slot, he, hsim, hsession, hf', ?_, hm, hbody, hreads,
    Tree.signalAt_of_signal? hslot, ?_, ?_, hwatch, hx, ho⟩
  · exact fun info h => List.isEmpty_iff.mp (hlist info h)
  · rintro ⟨f₁, path, hf₁, hpath, hfollow⟩
    obtain rfl := hf'.unique hf₁
    exact hreadless path hpath (by rw [hfollow]; rfl)
  · rintro ⟨f₁, path, hf₁, hpath, hfollow⟩
    obtain rfl := hf'.unique hf₁
    exact hwriteless path hpath (by rw [hfollow]; rfl)

end Clockwork
