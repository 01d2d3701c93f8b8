import Clockwork.Proofs.Calls.Bindings
import Clockwork.Proofs.Combs.Fixpoint

namespace Clockwork

namespace Tree

variable {t : Tree} {p : ProcessRef} {g : FieldRef}

def combs (t : Tree) : List (ProcessRef × Function) :=
  (List.range t.size).flatMap fun id => Wiring.placed id (t.inst id).combs

theorem mem_combs {f : Function} : (p, f) ∈ t.combs ↔ t.CombAt p f := by
  rw [combs, List.mem_flatMap]
  constructor
  · rintro ⟨id, -, hp⟩
    obtain ⟨rfl, hf⟩ := Wiring.mem_placed.mp hp
    exact hf
  · exact fun hf => ⟨p.owner, List.mem_range.mpr hf.owner_lt, Wiring.mem_placed.mpr ⟨rfl, hf⟩⟩

def ends (t : Tree) (p : ProcessRef) (paths : List FieldPath) : List FieldRef :=
  paths.filterMap fun path => (t.follow p.owner path).toOption

theorem mem_ends {paths : List FieldPath} :
    g ∈ t.ends p paths ↔ ∃ path ∈ paths, t.follow p.owner path = .ok g := by
  rw [ends, List.mem_filterMap]
  refine exists_congr fun path => and_congr_right fun _ => ?_
  cases t.follow p.owner path <;> simp [Except.toOption]

def readsOf (t : Tree) (x : ProcessRef × Function) : List FieldRef :=
  t.ends x.1 (AccessSet.ofBody x.2.body).reads

def writesOf (t : Tree) (x : ProcessRef × Function) : List FieldRef :=
  t.ends x.1 (AccessSet.ofBody x.2.body).writes

theorem reads_iff : t.Reads p g ↔ ∃ f, (p, f) ∈ t.combs ∧ g ∈ t.readsOf (p, f) := by
  simp only [Reads, readsOf, mem_ends, mem_combs]
  constructor
  · rintro ⟨f, path, hf, hpath, hg⟩
    exact ⟨f, hf, path, hpath, hg⟩
  · rintro ⟨f, hf, path, hpath, hg⟩
    exact ⟨f, path, hf, hpath, hg⟩

theorem writes_iff : t.Writes p g ↔ ∃ f, (p, f) ∈ t.combs ∧ g ∈ t.writesOf (p, f) := by
  simp only [Writes, writesOf, mem_ends, mem_combs]
  constructor
  · rintro ⟨f, path, hf, hpath, hg⟩
    exact ⟨f, hf, path, hpath, hg⟩
  · rintro ⟨f, hf, path, hpath, hg⟩
    exact ⟨f, path, hf, hpath, hg⟩

instance (t : Tree) (g : FieldRef) : Decidable (t.CombWritten g) :=
  decidable_of_iff (∃ x ∈ t.combs, g ∈ t.writesOf x) <| by
    simp only [CombWritten, writes_iff, Prod.exists]

/-- What combinational processes write, and what follows other fields, has a greater rank than what
it depends on. -/
def Ranked (rank : FieldRef → Nat) (t : Tree) : Prop :=
  (∀ x ∈ t.combs, (∀ info ∈ x.2.process, info.sensitivity.isEmpty = true) ∧
    Stmt.plainAll x.2.body = true ∧ ∀ g ∈ t.readsOf x, ∀ h ∈ t.writesOf x, rank g < rank h) ∧
  (∀ x ∈ t.combs, ∀ y ∈ t.combs, ∀ g ∈ t.writesOf x, g ∈ t.writesOf y → x.1 = y.1) ∧
  (∀ x ∈ t.combs, ∀ g ∈ t.writesOf x, g ∉ t.allTargets) ∧
  ∀ e ∈ t.bindings.entries, ∀ f ∈ e.2, rank e.1 < rank f

instance (rank : FieldRef → Nat) (t : Tree) : Decidable (t.Ranked rank) :=
  inferInstanceAs (Decidable (_ ∧ _ ∧ _ ∧ _))

theorem Ranked.combinational {rank : FieldRef → Nat} (h : t.Ranked rank) : t.Combinational := by
  obtain ⟨hcombs, hsingle, hunbound, hbindings⟩ := h
  have hrises : ∀ p g g', t.Reads p g → t.Writes p g' → rank g < rank g' := by
    intro p g g' hr hw
    obtain ⟨f, hf, hg⟩ := reads_iff.mp hr
    obtain ⟨f', hf', hg'⟩ := writes_iff.mp hw
    obtain rfl := (mem_combs.mp hf).unique (mem_combs.mp hf')
    exact (hcombs _ hf).2.2 g hg g' hg'
  have hflows : ∀ g g', t.Flows g g' → rank g < rank g' := by
    rintro g g' (ht | ⟨p, hr, hw⟩)
    · obtain ⟨l, hl, hmem⟩ := Table.mem_of_getD ht
      exact hbindings _ hl g' hmem
    · exact hrises p g g' hr hw
  refine ⟨?_, ?_, ?_, ?_, ?_, fun g hg => Nat.lt_irrefl _ (FieldRef.lt_of_transGen hflows hg)⟩
  · intro p f hf info hinfo
    exact List.isEmpty_iff.mp ((hcombs _ (mem_combs.mpr hf)).1 info hinfo)
  · exact fun p f hf => (hcombs _ (mem_combs.mpr hf)).2.1
  · exact fun p g hr hw => Nat.lt_irrefl _ (hrises p g g hr hw)
  · intro p q g hp hq
    obtain ⟨f, hf, hg⟩ := writes_iff.mp hp
    obtain ⟨f', hf', hg'⟩ := writes_iff.mp hq
    exact hsingle _ hf _ hf' g hg hg'
  · intro p g hp d hd
    obtain ⟨f, hf, hg⟩ := writes_iff.mp hp
    exact hunbound _ hf g hg (mem_allTargets hd)

instance (t : Tree) : Decidable t.WritesLead :=
  decidable_of_iff (∀ x ∈ t.combs, ∀ path ∈ (AccessSet.ofBody x.2.body).writes,
      (t.follow x.1.owner path).isOk = true) <| by
    simp only [isOk_iff, WritesLead, Prod.forall, mem_combs]

end Tree

namespace Machine

def inComb (m : Machine) : Bool := ((m.work.head?).bind Frame.comb?).isSome

theorem inComb_iff {m : Machine} :
    m.inComb = true ↔ ∃ p d rest, m.work = .combOver p d :: rest := by
  rw [inComb]
  constructor
  · intro h
    cases hwork : m.work with
    | nil => simp [hwork] at h
    | cons f rest =>
        rw [hwork] at h
        cases f <;> first | exact ⟨_, _, _, rfl⟩ | cases h
  · rintro ⟨p, d, rest, hwork⟩
    rw [hwork]
    rfl

instance (m : Machine) : Decidable m.Spares :=
  decidable_of_iff ((∀ x ∈ m.write?, m.sim.tree.CombWritten x.1 → m.inComb = true) ∧
      (m.inComb = true → m.touchesStorage = false)) <| by
    constructor
    · rintro ⟨hwrites, hstorage⟩
      exact ⟨fun g v hw hg => inComb_iff.mp (hwrites (g, v) hw hg),
        fun p d rest hwork => hstorage (inComb_iff.mpr ⟨p, d, rest, hwork⟩)⟩
    · rintro ⟨hwrites, hstorage⟩
      refine ⟨fun x hw hg => inComb_iff.mpr (hwrites x.1 x.2 hw hg), fun hcomb => ?_⟩
      obtain ⟨p, d, rest, hwork⟩ := inComb_iff.mp hcomb
      exact hstorage p d rest hwork

/-- What a combinational process writes from some state on, if its run on the values of a
simulation comes to an end. -/
def dryLog (s : Simulation) : (fuel : Nat) → Machine → Option (List (FieldRef × Value))
  | 0, _ => none
  | fuel + 1, m =>
    match m.write? with
    | some x => (dryLog s fuel { m with stack := m.stack.tail }.finish).map (x :: ·)
    | none =>
      match m.step .nobody with
      | .go m' => dryLog s fuel (m'.setSim s)
      | _ => some []

theorem dryLog_eq {s : Simulation} {p : ProcessRef} {log all : List (FieldRef × Value)}
    {m : Machine} (h : DryRun s p log m) {f : Function} (hf : s.tree.CombAt p f) {fuel : Nat}
    (hall : (f.begun p s).dryLog s fuel = some all) :
    ∃ fuel' rest, m.dryLog s fuel' = some rest ∧ all = log ++ rest := by
  induction h with
  | begin hf' =>
      obtain rfl := hf.unique hf'
      exact ⟨fuel, all, hall, rfl⟩
  | @move log m m' _ _ hw hstep _ ih =>
      obtain ⟨fuel', rest, hrest, heq⟩ := ih
      cases fuel' with
      | zero => cases hrest
      | succ fuel' =>
          simp only [dryLog, hw, hstep] at hrest
          exact ⟨fuel', rest, hrest, heq⟩
  | @write log m g v f' below _ hw hs ih =>
      obtain ⟨fuel', rest, hrest, heq⟩ := ih
      cases fuel' with
      | zero => cases hrest
      | succ fuel' =>
          simp only [dryLog, hw, hs, List.tail_cons] at hrest
          obtain ⟨rest', hrest', rfl⟩ := Option.map_eq_some_iff.mp hrest
          exact ⟨fuel', rest', hrest', by rw [heq, List.append_assoc]; rfl⟩

end Machine

theorem finalWrite_of_nodup {log : List (FieldRef × Value)} (h : (log.map (·.1)).Nodup)
    {x : FieldRef × Value} (hx : x ∈ log) : FinalWrite log x.1 x.2 := by
  obtain ⟨l₁, l₂, rfl⟩ := List.append_of_mem hx
  rw [List.map_append, List.map_cons] at h
  have hlast := (List.nodup_cons.mp (List.nodup_append.mp h).2.1).1
  exact ⟨l₁, l₂, rfl, fun y hy heq => hlast (heq ▸ List.mem_map_of_mem hy)⟩

namespace Simulation

/-- Whether a run of a combinational process comes to its end and writes no field twice. -/
def writesOnce (fuel : Nat) (s : Simulation) (x : ProcessRef × Function) : Bool :=
  ((x.2.begun x.1 s).dryLog s fuel).any fun log => decide (log.map (·.1)).Nodup

theorem Yields.final {s : Simulation} {p : ProcessRef} {log : List (FieldRef × Value)}
    (h : s.Yields p log) {f : Function} (hf : s.tree.CombAt p f) {fuel : Nat}
    (honce : s.writesOnce fuel (p, f) = true) : ∀ x ∈ log, FinalWrite log x.1 x.2 := by
  obtain ⟨m, c, hrun, hstack, hcontrol⟩ := h
  obtain ⟨all, hall, hnodup⟩ := (Option.any_eq_true ..).mp honce
  obtain ⟨fuel', rest, hrest, rfl⟩ := Machine.dryLog_eq hrun hf hall
  have hend : rest = [] := by
    cases fuel' with
    | zero => cases hrest
    | succ fuel' =>
        have hw : m.write? = none := by simp [Machine.write?, hstack]
        simp only [Machine.dryLog, hw, Machine.step, hcontrol, hstack] at hrest
        exact (Option.some.inj hrest).symm
  rw [hend, List.append_nil] at hnodup
  exact fun x hx => finalWrite_of_nodup (of_decide_eq_true hnodup) hx

/-- The simulation after a command that comes to no fault, and leaves to combinational processes
what is theirs. -/
def sparing (fuel : Nat) (s : Simulation) (c : Command) : Option Simulation :=
  (c.run fuel s).bind fun r =>
    if r.2.isNone ∧ (∀ g ∈ c.field? s, ¬ s.tree.CombWritten g) ∧ ∀ m ∈ c.states fuel s, m.Spares
    then some r.1 else none

theorem sparing_eq_some {fuel : Nat} {s s' : Simulation} {c : Command}
    (h : s.sparing fuel c = some s') : c.run fuel s = some (s', none) ∧ c.Spares fuel s := by
  obtain ⟨⟨s₁, fault⟩, hrun, hif⟩ := Option.bind_eq_some_iff.mp h
  obtain ⟨⟨hnone, hspares⟩, heq⟩ := Option.ite_none_right_eq_some.mp hif
  obtain rfl := Option.isNone_iff_eq_none.mp hnone
  cases heq
  exact ⟨hrun, hspares⟩

end Simulation

/-- The simulation of a component after its start and some commands, all of which come to no fault
and leave to combinational processes what is theirs. -/
def TypeTable.quiescent (types : TypeTable) (top : String) (rank : FieldRef → Nat) (fuel : Nat)
    (commands : List Command) : Option Simulation :=
  (types.simulation top).bind fun s =>
    if s.started = false ∧ s.tree.Ranked rank ∧ s.tree.WritesLead then
      (Command.start :: commands).foldlM (Simulation.sparing fuel) s
    else none

theorem TypeTable.quiescent_eq_some {types : TypeTable} {top : String} {rank : FieldRef → Nat}
    {fuel : Nat} {commands : List Command} {s : Simulation}
    (h : types.quiescent top rank fuel commands = some s) : Quiescent s := by
  have hfurther : ∀ {s₁ : Simulation}, Quiescent s₁ →
      commands.foldlM (Simulation.sparing fuel) s₁ = some s → Quiescent s := by
    clear h
    induction commands with
    | nil =>
        rintro s₁ h₁ ⟨⟩
        exact h₁
    | cons c commands ih =>
        intro s₁ h₁ hrun
        rw [List.foldlM_cons] at hrun
        obtain ⟨s₂, hs₂, hrun⟩ := Option.bind_eq_some_iff.mp hrun
        obtain ⟨hc, hspares⟩ := Simulation.sparing_eq_some hs₂
        exact ih (h₁.command hc hspares) hrun
  obtain ⟨s₀, hs₀, hif⟩ := Option.bind_eq_some_iff.mp h
  obtain ⟨⟨hnew, hranked, hlead⟩, hrun⟩ := Option.ite_none_right_eq_some.mp hif
  rw [List.foldlM_cons] at hrun
  obtain ⟨s₁, hs₁, hrun⟩ := Option.bind_eq_some_iff.mp hrun
  obtain ⟨hstart, hspares⟩ := Simulation.sparing_eq_some hs₁
  have hafter : types.after top fuel [] = some s₀ := by
    rw [after, hs₀]
    rfl
  have hreach := reachable_after hafter
  exact hfurther (.start hreach hnew hranked.combinational hlead hstart hspares) hrun

end Clockwork
