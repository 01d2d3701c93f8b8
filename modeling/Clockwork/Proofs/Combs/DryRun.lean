import Clockwork.Proofs.Combs.PlainStep
import Clockwork.Proofs.Machine.Work

namespace Clockwork

namespace Tree

/-- A field follows another one, or a combinational process that reads the one writes the other. -/
def Flows (t : Tree) (g h : FieldRef) : Prop :=
  h ∈ t.targets g ∨ ∃ p, t.Reads p g ∧ t.Writes p h

/-- Combinational processes that depend on what they read, of which no two write one field, and
whose dependencies lead in no circle. -/
structure Combinational (t : Tree) : Prop where
  derived : ∀ p f, t.CombAt p f → ∀ info, f.process = some info → info.sensitivity = []
  plain : ∀ p f, t.CombAt p f → Stmt.plainAll f.body = true
  apart : ∀ p g, t.Reads p g → ¬ t.Writes p g
  single : ∀ p q g, t.Writes p g → t.Writes q g → p = q
  unbound : ∀ p g, t.Writes p g → ∀ d, g ∉ t.targets d
  acyclic : ∀ g, ¬ Relation.TransGen t.Flows g g

/-- Every path that a combinational process assigns to leads to a field. -/
def WritesLead (t : Tree) : Prop :=
  ∀ p f, t.CombAt p f → ∀ path ∈ (AccessSet.ofBody f.body).writes,
    ∃ g, t.follow p.owner path = .ok g

def PathsLead (t : Tree) : Prop :=
  ∀ p f, t.CombAt p f → ∀ a ∈ Stmt.accessesAll f.body, ∃ g, t.follow p.owner a.path = .ok g

/-- A field that some combinational process writes. -/
def CombWritten (t : Tree) (g : FieldRef) : Prop := ∃ p, t.Writes p g

end Tree

namespace Wiring

/-- What a combinational process depends on was looked up when the tree was wired. -/
theorem pathsLead {t : Tree} {w : Wiring} {log : List LogRecord} (h : ofTree t = .ok (w, log))
    (hc : t.Combinational) (hlead : t.WritesLead) : t.PathsLead := by
  intro p f hf a ha
  by_cases hwrite : a.path ∈ (AccessSet.ofBody f.body).writes
  · exact hlead p f hf a.path hwrite
  · have hread : a.path ∈ (AccessSet.ofBody f.body).reads := by
      cases a with
      | read path => exact AccessSet.mem_reads.mpr ha
      | write path => exact absurd (AccessSet.mem_writes.mpr ha) hwrite
    obtain ⟨combs, hcombs, hall, -⟩ := exists_combs_of_ofTree h
    obtain ⟨fields, f', hf', hs⟩ := hall p f hf
    obtain rfl := hf.unique hf'
    rw [sensitivity_derived t p.owner (hc.derived p f hf)] at hs
    cases hfound : (derivedSensitivity f.body).mapM (fieldOf t p.owner) with
    | error e =>
        rw [hfound] at hs
        cases hs
    | ok found =>
        have hmem : Expr.path a.path ∈ derivedSensitivity f.body := by
          refine List.mem_map_of_mem ?_
          rw [AccessSet.sensitivity, List.mem_filter]
          exact ⟨hread, by simpa using hwrite⟩
        obtain ⟨g, hg⟩ := exists_of_mapM_ok hfound hmem
        exact ⟨g, (fieldOf_path t p.owner a.path).mp hg⟩

end Wiring

namespace Machine

theorem setSim_setSim (m : Machine) (s s' : Simulation) :
    (m.setSim s).setSim s' = m.setSim s' := rfl

theorem Plain.setSim {t : Tree} {A : List Access} {id : Nat} {m : Machine} (h : m.Plain t A id)
    (s : Simulation) : (m.setSim s).Plain t A id := ⟨h.spot, h.owner, h.mode⟩

theorem goes_of_step {waker : Waker} {m m' : Machine} (h : m.step waker = .go m') :
    m.stack ≠ [] ∨ ∀ c, m.control ≠ .done c := by
  by_cases hs : m.stack = []
  · refine .inr fun c hc => ?_
    simp only [step, hc, hs] at h
    cases h
  · exact .inl hs

end Machine

theorem Machine.eq_of_write {m : Machine} {x : FieldRef × Value} (h : m.write? = some x) :
    ∃ v f rest, m.control = .done (.value v) ∧ m.stack = f :: rest ∧ f.write? m.sim v = some x := by
  unfold Machine.write? at h
  split at h
  · rename_i v f rest hcontrol hstack
    exact ⟨v, f, rest, hcontrol, hstack, h⟩
  · cases h

theorem Machine.goes_of_write {m : Machine} {x : FieldRef × Value} (h : m.write? = some x) :
    m.stack ≠ [] ∨ ∀ c, m.control ≠ .done c := by
  obtain ⟨-, f, rest, -, hstack, -⟩ := Machine.eq_of_write h
  exact .inl (by simp [hstack])

theorem Machine.touchesStorage_of_write {m : Machine} {x : FieldRef × Value}
    (h : m.write? = some x) : m.touchesStorage = false := by
  obtain ⟨v, f, rest, hcontrol, hstack, hwrite⟩ := Machine.eq_of_write h
  simp only [Machine.touchesStorage, hcontrol, hstack]
  cases f <;> first | rfl | cases hwrite

/-- A combinational process that begins, without the frames below its body. -/
def Function.begun (f : Function) (p : ProcessRef) (s : Simulation) : Machine :=
  (⟨.done (.value .none), .begin p.owner f.name .immediate, [], s⟩ : Machine).block f.body

theorem Function.begun_setSim (f : Function) (p : ProcessRef) (s s' : Simulation) :
    (f.begun p s).setSim s' = f.begun p s' := by
  rw [Function.begun, Function.begun]
  cases f.body <;> rfl

/-- A combinational process has come to a state in a run on the values of a simulation, without the
writes that are noted, and without a look at storage. -/
inductive DryRun (s : Simulation) (p : ProcessRef) : List (FieldRef × Value) → Machine → Prop
  | begin {f : Function} (hf : s.tree.CombAt p f) : DryRun s p [] (f.begun p s)
  | move {log : List (FieldRef × Value)} {m m' : Machine} (h : DryRun s p log m)
      (hstorage : m.touchesStorage = false) (hw : m.write? = none)
      (hstep : m.step .nobody = .go m') (hok : m'.fault? = none) :
      DryRun s p log (m'.setSim s)
  | write {log : List (FieldRef × Value)} {m : Machine} {g : FieldRef} {v : Value} {f : Frame}
      {rest : List Frame} (h : DryRun s p log m) (hw : m.write? = some (g, v))
      (hs : m.stack = f :: rest) : DryRun s p (log ++ [(g, v)]) { m with stack := rest }.finish

/-- The last of some writes of a field. -/
def FinalWrite (log : List (FieldRef × Value)) (g : FieldRef) (v : Value) : Prop :=
  ∃ l₁ l₂, log = l₁ ++ (g, v) :: l₂ ∧ ∀ x ∈ l₂, x.1 ≠ g

theorem finalWrite_snoc {log : List (FieldRef × Value)} {f g : FieldRef} {w v : Value} :
    FinalWrite (log ++ [(f, w)]) g v ↔ (g = f ∧ v = w) ∨ (g ≠ f ∧ FinalWrite log g v) := by
  constructor
  · rintro ⟨l₁, l₂, hlog, hlast⟩
    rcases l₂.eq_nil_or_concat with rfl | ⟨l₂, x, rfl⟩
    · obtain ⟨-, heq⟩ := List.append_inj' hlog rfl
      cases heq
      exact .inl ⟨rfl, rfl⟩
    · rw [List.concat_eq_append, ← List.cons_append, ← List.append_assoc] at hlog
      obtain ⟨rfl, heq⟩ := List.append_inj' hlog rfl
      cases heq
      have hne := hlast (f, w) (by simp)
      exact .inr ⟨fun heq => hne heq.symm, l₁, l₂, rfl, fun x hx => hlast x (by simp [hx])⟩
  · rintro (⟨rfl, rfl⟩ | ⟨hne, l₁, l₂, rfl, hlast⟩)
    · exact ⟨log, [], rfl, by simp⟩
    · refine ⟨l₁, l₂ ++ [(f, w)], by simp, ?_⟩
      intro x hx
      rcases List.mem_append.mp hx with hx | hx
      · exact hlast x hx
      · rw [List.mem_singleton] at hx
        rw [hx]
        exact hne.symm

theorem FinalWrite.mem {log : List (FieldRef × Value)} {g : FieldRef} {v : Value}
    (h : FinalWrite log g v) : (g, v) ∈ log := by
  obtain ⟨l₁, l₂, rfl, -⟩ := h
  simp

namespace Simulation

/-- A field has a value, as far as it fits. -/
def Holds (s : Simulation) (g : FieldRef) (v : Value) : Prop :=
  ∃ slot, s.tree.SignalAt g slot ∧
    (s.current g slot).same (v.fit slot.width slot.signed) = true

/-- On the values of a simulation a combinational process comes to its end, with some writes. -/
def Yields (s : Simulation) (p : ProcessRef) (log : List (FieldRef × Value)) : Prop :=
  ∃ m c, DryRun s p log m ∧ m.stack = [] ∧ m.control = .done c

/-- Every field that is written has the last value that it is given. -/
def Keeps (s : Simulation) (log : List (FieldRef × Value)) : Prop :=
  ∀ g v, FinalWrite log g v → s.Holds g v

/-- What a combinational process writes on the values of a simulation is there already. -/
def UpToDate (s : Simulation) (p : ProcessRef) : Prop := ∃ log, s.Yields p log ∧ s.Keeps log

theorem Holds.congr {s s' : Simulation} {g : FieldRef} {v : Value} (h : s.Holds g v)
    (htree : s'.tree = s.tree)
    (hcurrent : ∀ slot, s.tree.SignalAt g slot → s'.current g slot = s.current g slot) :
    s'.Holds g v := by
  obtain ⟨slot, hslot, hsame⟩ := h
  exact ⟨slot, by rwa [htree], by rwa [hcurrent slot hslot]⟩

end Simulation

namespace DryRun

variable {s s' : Simulation} {p : ProcessRef} {log : List (FieldRef × Value)} {m : Machine}

theorem sim (h : DryRun s p log m) : m.sim = s := by
  induction h with
  | begin => exact Machine.block_sim _ _
  | move => rfl
  | write _ _ _ ih => exact ih

theorem no_fault (h : DryRun s p log m) : m.fault? = none := by
  cases h with
  | @begin f hf =>
      rw [Function.begun]
      cases f.body <;> rfl
  | move _ _ _ _ hok => exact hok
  | write => rfl

theorem comb (h : DryRun s p log m) : ∃ f, s.tree.CombAt p f := by
  induction h with
  | begin hf => exact ⟨_, hf⟩
  | move _ _ _ _ _ ih => exact ih
  | write _ _ _ ih => exact ih

section Plain

variable (hc : s.tree.Combinational) (hlead : s.tree.PathsLead)

include hc hlead

/-- A process goes on as its body spells it out. -/
theorem plain (h : DryRun s p log m) {f : Function} (hf : s.tree.CombAt p f) :
    m.Plain s.tree (Stmt.accessesAll f.body) p.owner := by
  induction h with
  | @begin f' hf' =>
      obtain rfl := hf.unique hf'
      have hbody : Stmt.AllFit (Stmt.accessesAll f.body) f.body :=
        ⟨hc.plain p f hf, fun _ ha => ha⟩
      have hfit : Machine.Fitting (Stmt.accessesAll f.body) p.owner
          ⟨.done (.value .none), .begin p.owner f.name .immediate, [], s⟩ := ⟨nofun, rfl, rfl⟩
      exact hfit.block hbody
  | @move log m m' h hstorage hw hstep hok ih =>
      have hsim := h.sim
      rcases ih.step (hlead p f hf) hstorage (Machine.goes_of_step hstep) with
        ⟨-, op, hmove, hop⟩ | ⟨_, g, v, _, _, -, -, hsome, -⟩
      · have heq := hop s .nobody
        rw [← hsim, Machine.setSim, hstep] at heq
        cases heq
        cases hmove with
        | move m₁ h₁ hop₁ =>
            obtain ⟨covers, heq⟩ := hop₁ m.sim (by rw [hsim])
            rw [heq]
            exact h₁.setSim _
        | fail hfail =>
            obtain ⟨e, he⟩ := hfail m.sim
            exact absurd he (Machine.fault?_eq_none hok e)
        | read m₁ path g hpath hg h₁ hop₁ =>
            rw [hop₁]
            cases m.sim.readField g with
            | ok v => exact (h₁ (.value v)).setSim _
            | error e => exact (h₁ (.failed e)).setSim _
      · rw [hw] at hsome
        cases hsome
  | @write log m g v f' rest h hw hs ih =>
      have hsim := h.sim
      rcases ih.step (hlead p f hf) (Machine.touchesStorage_of_write hw)
          (.inl (by rw [hs]; simp)) with
        ⟨hnone, -⟩ | ⟨_, _, _, _, _, -, -, -, hstack, hfits, -⟩
      · rw [hw] at hnone
        cases hnone
      · rw [hs] at hstack
        cases hstack
        exact ⟨.done hfits, ih.owner, ih.mode⟩

/-- A step on other values of what the process reads is the same, but for cover points. -/
theorem step_setSim (h : DryRun s p log m) (hstorage : m.touchesStorage = false)
    (hw : m.write? = none) {m' : Machine} (hstep : m.step .nobody = .go m')
    (hok : m'.fault? = none) (htree : s'.tree = s.tree)
    (hread : ∀ g, s.tree.Reads p g → s'.readField g = s.readField g) (waker : Waker) :
    ∃ covers, (m.setSim s').step waker = .go (m'.setSim { s' with covers := covers }) := by
  have hsim := h.sim
  obtain ⟨f, hf⟩ := h.comb
  rcases (h.plain hc hlead hf).step (hlead p f hf) hstorage (Machine.goes_of_step hstep) with
    ⟨-, op, hmove, hop⟩ | ⟨_, _, _, _, _, -, -, hsome, -⟩
  · have heq := hop s .nobody
    rw [← hsim, Machine.setSim, hstep] at heq
    cases heq
    cases hmove with
    | move m₁ h₁ hop₁ =>
        obtain ⟨covers, heq⟩ := hop₁ m.sim (by rw [hsim])
        obtain ⟨covers', heq'⟩ := hop₁ s' htree
        exact ⟨covers', by rw [hop, heq', heq]; rfl⟩
    | fail hfail =>
        obtain ⟨e, he⟩ := hfail m.sim
        exact absurd he (Machine.fault?_eq_none hok e)
    | read m₁ path g hpath hg h₁ hop₁ =>
        have hvalue : s'.readField g = m.sim.readField g := by
          rw [hsim]
          exact hread g ⟨f, path, hf, AccessSet.mem_reads.mpr hpath, hg⟩
        refine ⟨s'.covers, ?_⟩
        rw [hop, hop₁, hop₁, hvalue]
        cases m.sim.readField g <;> rfl
  · rw [hw] at hsome
    cases hsome

theorem congr (h : DryRun s p log m) (htree : s'.tree = s.tree)
    (hread : ∀ g, s.tree.Reads p g → s'.readField g = s.readField g) :
    DryRun s' p log (m.setSim s') := by
  induction h with
  | @begin f hf =>
      rw [Function.begun_setSim]
      exact .begin (by rwa [htree])
  | @move log m m' h hstorage hw hstep hok ih =>
      obtain ⟨f, hf⟩ := h.comb
      have hw' : (m.setSim s').write? = none := by
        rw [(h.plain hc hlead hf).write?_setSim, hw]
      obtain ⟨covers, hstep'⟩ :=
        h.step_setSim hc hlead hstorage hw hstep hok htree hread .nobody
      have hmoved := ih.move hstorage hw' hstep' hok
      exact hmoved
  | @write log m g v f' rest h hw hs ih =>
      obtain ⟨f, hf⟩ := h.comb
      have hw' : (m.setSim s').write? = some (g, v) := by
        rw [(h.plain hc hlead hf).write?_setSim, hw]
      exact ih.write hw' hs

theorem writes (h : DryRun s p log m) {g : FieldRef} {v : Value} (hw : m.write? = some (g, v)) :
    s.tree.Writes p g ∧ ∃ f rest, m.stack = f :: rest ∧
      ∀ s₁ waker, (m.setSim s₁).step waker =
        .go (({ m with stack := rest }.setSim s₁).write g v .immediate) := by
  obtain ⟨f, hf⟩ := h.comb
  rcases (h.plain hc hlead hf).step (hlead p f hf) (Machine.touchesStorage_of_write hw)
    (Machine.goes_of_write hw) with
    ⟨hnone, -⟩ | ⟨path, g', v', f', rest, hpath, hg, hw', hs, -, hstep⟩
  · rw [hw] at hnone
    cases hnone
  · rw [hw] at hw'
    cases hw'
    exact ⟨⟨f, path, hf, AccessSet.mem_writes.mpr hpath, hg⟩, f', rest, hs, hstep⟩

theorem mem_writes (h : DryRun s p log m) : ∀ x ∈ log, s.tree.Writes p x.1 := by
  induction h with
  | begin => simp
  | move _ _ _ _ _ ih => exact ih
  | write h hw _ ih =>
      intro x hx
      rcases List.mem_append.mp hx with hx | hx
      · exact ih x hx
      · rw [List.mem_singleton] at hx
        rw [hx]
        exact (h.writes hc hlead hw).1

theorem step_nobody (h : DryRun s p log m) (hstorage : m.touchesStorage = false)
    {waker : Waker} {m' : Machine} (hstep : m.step waker = .go m') : m.step .nobody = .go m' := by
  obtain ⟨f, hf⟩ := h.comb
  have hm : m.setSim m.sim = m := rfl
  rcases (h.plain hc hlead hf).step (hlead p f hf) hstorage (Machine.goes_of_step hstep) with
    ⟨-, op, -, hop⟩ | ⟨_, _, _, _, _, -, -, -, -, -, hop⟩
  · rw [← hm, hop] at hstep ⊢
    exact hstep
  · rw [← hm, hop] at hstep ⊢
    exact hstep

end Plain

end DryRun

namespace Simulation

variable {s s' : Simulation} {p : ProcessRef} {log : List (FieldRef × Value)}

theorem Yields.congr (h : s.Yields p log) (hc : s.tree.Combinational) (hlead : s.tree.PathsLead)
    (htree : s'.tree = s.tree) (hread : ∀ g, s.tree.Reads p g → s'.readField g = s.readField g) :
    s'.Yields p log := by
  obtain ⟨m, c, hrun, hstack, hcontrol⟩ := h
  exact ⟨m.setSim s', c, hrun.congr hc hlead htree hread, hstack, hcontrol⟩

theorem Yields.writes (h : s.Yields p log) (hc : s.tree.Combinational) (hlead : s.tree.PathsLead) :
    ∀ x ∈ log, s.tree.Writes p x.1 := by
  obtain ⟨m, c, hrun, -, -⟩ := h
  exact hrun.mem_writes hc hlead

theorem UpToDate.congr (h : s.UpToDate p) (hc : s.tree.Combinational) (hlead : s.tree.PathsLead)
    (htree : s'.tree = s.tree) (hread : ∀ g, s.tree.Reads p g → s'.readField g = s.readField g)
    (hcurrent : ∀ g slot, s.tree.Writes p g → s.tree.SignalAt g slot →
      s'.current g slot = s.current g slot) : s'.UpToDate p := by
  obtain ⟨log, hyields, hkeeps⟩ := h
  refine ⟨log, hyields.congr hc hlead htree hread, fun g v hlast => ?_⟩
  exact (hkeeps g v hlast).congr htree fun slot =>
    hcurrent g slot (hyields.writes hc hlead _ hlast.mem)

end Simulation

end Clockwork
