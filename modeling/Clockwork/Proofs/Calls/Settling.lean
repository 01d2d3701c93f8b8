import Clockwork.Proofs.Calls.Bindings
import Clockwork.Proofs.Calls.Rounds
import Clockwork.Proofs.Combs.DryRun
import Clockwork.Proofs.Machine.Straight
import Mathlib.Computability.Primrec.List
import Mathlib.Computability.TuringMachine.StackTuringMachine
import Mathlib.Data.Fintype.Card
import Mathlib.Data.List.Permutation
import Mathlib.Data.Set.Finite.Basic
/-!
The end of a write. Processes that run straight on, without a circle of bindings, come to an end
whatever they change: combinational processes nest up to a limit only, and below each of them a
change goes on along the bindings. So a write comes to its end, unless its rounds lead to further
ones for ever.
-/

namespace Clockwork

namespace Tree

/-- Whether the combinational and the clocked processes of all instances hold no loop, and call
nothing but builtin functions. -/
def straight (t : Tree) : Bool :=
  t.instances.all fun i => (i.combs ++ i.syncs).all fun f => Stmt.straightAll f.body

/-- No field takes its own value, directly or through others. -/
def Acyclic (t : Tree) : Prop := ∀ f, ¬ Relation.TransGen (fun f g => g ∈ t.targets f) f f

variable {t : Tree}

theorem straight_inst (h : t.straight = true) (id : Nat) {f : Function}
    (hf : f ∈ (t.inst id).combs ++ (t.inst id).syncs) : Stmt.straightAll f.body = true := by
  rw [inst] at hf
  cases hi : t.instances[id]? with
  | none =>
      rw [hi] at hf
      cases hf
  | some i =>
      rw [hi] at hf
      obtain ⟨hlt, rfl⟩ := Array.getElem?_eq_some_iff.mp hi
      have hall := Array.all_eq_true.mp h id hlt
      exact List.all_eq_true.mp hall f hf

theorem acyclic_of_rank (rank : FieldRef → Nat)
    (h : ∀ x ∈ t.bindings.entries, ∀ g ∈ x.2, rank x.1 < rank g) : t.Acyclic := by
  have hrises : ∀ f g, g ∈ t.targets f → rank f < rank g := by
    intro f g hg
    obtain ⟨l, hl, hmem⟩ := Table.mem_of_getD hg
    exact h _ hl g hmem
  exact fun f hf => Nat.lt_irrefl _ (FieldRef.lt_of_transGen hrises hf)

/-- Finitely many fields are followed by others, so without circles every way along the bindings
comes to an end. -/
theorem Acyclic.acc (h : t.Acyclic) (f : FieldRef) : Acc (fun g f => g ∈ t.targets f) f := by
  let Key := {f : FieldRef // f ∈ t.bindings.entries.map Prod.fst}
  have hmem : ∀ {f g}, g ∈ t.targets f → f ∈ t.bindings.entries.map Prod.fst := by
    intro f g hg
    obtain ⟨l, hl, -⟩ := Table.mem_of_getD hg
    exact List.mem_map.mpr ⟨_, hl, rfl⟩
  let Below (g f : Key) : Prop := Relation.TransGen (fun f g => g ∈ t.targets f) f.1 g.1
  have : IsTrans Key Below := ⟨fun _ _ _ hab hbc => hbc.trans hab⟩
  have : Std.Irrefl Below := ⟨fun f => h f.1⟩
  have hfinite : Finite Key := (List.finite_toSet _).to_subtype
  have hwf : WellFounded Below := Finite.wellFounded_of_trans_of_irrefl Below
  have hkey : ∀ f : Key, Acc (fun g f => g ∈ t.targets f) f.1 := by
    intro f
    induction hwf.apply f with
    | intro f _ ih =>
        refine ⟨_, fun g hg => ⟨_, fun g' hg' => ?_⟩⟩
        exact (ih ⟨g, hmem hg'⟩ (.single hg)).inv hg'
  exact ⟨_, fun g hg => (hkey ⟨f, hmem hg⟩).inv hg⟩

end Tree

namespace Simulation

/-- The design of a simulation runs straight on and has no circle of bindings, and a write or a
round is under way. -/
structure Confined (s : Simulation) : Prop where
  straight : s.tree.straight = true
  acyclic : s.tree.Acyclic
  inner : 0 < s.driveDepth ∨ s.inRound = true

def driving (s : Simulation) : Simulation := { s with driveDepth := s.driveDepth + 1 }

theorem SameDepth.driving {s s' : Simulation} (h : s.SameDepth s') :
    s.driving.SameDepth s'.driving :=
  ⟨⟨h.tree, h.wiring, h.maxCombDepth, h.size⟩, h.combDepth, congrArg Nat.succ h.driveDepth,
    h.inRound⟩

theorem sameDepth_discardPending (s : Simulation) : s.SameDepth s.discardPending :=
  ⟨⟨rfl, rfl, rfl, Simulation.size_discardPending _⟩, rfl, rfl, rfl⟩

theorem Confined.congr {s s' : Simulation} (h : s.Confined) (hs : s.SameDepth s') : s'.Confined :=
  ⟨hs.tree ▸ h.straight, hs.tree ▸ h.acyclic, hs.driveDepth ▸ hs.inRound ▸ h.inner⟩

end Simulation

namespace Machine

variable {waker : Waker} {m m₀ : Machine} {s : Simulation}

/-- Combinational processes come to something at the depth of a simulation. -/
def CombsEnd (waker : Waker) (s : Simulation) : Prop :=
  ∀ m, s.SameDepth m.sim → ∀ p, Ends waker m (m.runComb p)

def DriveEnds (waker : Waker) (s : Simulation) (f : FieldRef) : Prop :=
  ∀ m, s.SameDepth m.sim → ∀ v, Ends waker m (m.drive f v)

theorem CombsEnd.congr {s' : Simulation} (h : CombsEnd waker s) (hs : s.SameDepth s') :
    CombsEnd waker s' := fun m hm => h m (hs.trans hm)

theorem DriveEnds.congr {s' : Simulation} {f : FieldRef} (h : DriveEnds waker s f)
    (hs : s.SameDepth s') : DriveEnds waker s' f := fun m hm => h m (hs.trans hm)

theorem runCombs_ends (hc : CombsEnd waker m.sim) (l : List ProcessRef) :
    Ends waker m (m.runCombs l) := by
  induction l generalizing m with
  | nil => exact .complete _ (.refl m)
  | cons p l ih =>
      have hfirst := hc { m with stack := .combs l :: m.stack } (.refl _) p
      refine hfirst.resume rfl ⟨rfl, .refl _⟩ (fun _ _ => rfl) fun m' _ hback => ?_
      exact (ih (hc.congr hback.sim)).back hback

theorem propagate_ends {l : List FieldRef} (hl : ∀ f ∈ l, DriveEnds waker m.sim f) (v w : Value) :
    Ends waker m (m.resume (.propagate l v) w) := by
  induction l generalizing m w with
  | nil => exact .complete _ (.refl m)
  | cons f l ih =>
      have hfirst := hl f (by simp) { m with stack := .propagate l v :: m.stack } (.refl _) v
      refine hfirst.resume rfl ⟨rfl, .refl _⟩ (fun _ _ => rfl) fun m' w' hback => ?_
      exact (ih (fun g hg => (hl g (by simp [hg])).congr hback.sim) w').back hback

/-- The fields that follow a change and the processes that depend on it come to an end, above what
is to be done afterwards. -/
theorem announce_ends {f : FieldRef} (ht : ∀ g ∈ m.sim.tree.targets f, DriveEnds waker m.sim g)
    (hc : CombsEnd waker m.sim) (name : String) (old new : Value) (l : List ProcessRef)
    (after : List Frame) :
    Ends waker { m with stack := after ++ m.stack }
      (m.announce f name old new (.combs l :: after)) := by
  have hsim := (m.sim.sameWork_announce f name old new).sameDepth
  let m₁ : Machine := { m with
    sim := (m.sim.trace f name old new).noteEdge f old new
    stack := .combs l :: (after ++ m.stack)
    control := .done (.value .none) }
  have htree : m₁.sim.tree = m.sim.tree := hsim.tree
  have hfirst : Ends waker m₁ (m.announce f name old new (.combs l :: after)) := by
    have hstep : (m.announce f name old new (.combs l :: after)).step waker =
        .go (m₁.resume (.propagate (m₁.sim.tree.targets f) new) .none) := rfl
    refine .next hstep (propagate_ends (fun g hg => ?_) new .none)
    rw [htree] at hg
    exact (ht g hg).congr hsim
  refine hfirst.resume rfl ⟨rfl, hsim⟩ (fun _ _ => rfl) fun m' _ hback => ?_
  exact (runCombs_ends (hc.congr hback.sim) l).back hback

/-- A change goes on along the bindings, which come to an end. -/
theorem drive_ends (ha : s.tree.Acyclic) (hc : CombsEnd waker s) (f : FieldRef) :
    DriveEnds waker s f := by
  induction ha.acc f with
  | intro f _ ih =>
      intro m hs v
      cases hslot : m.sim.tree.slot f.owner f.index with
      | error e =>
          rw [drive_error hslot]
          exact .complete _ (.refl m)
      | ok slot =>
          cases hv : ((m.sim.signalsOf f.owner).read slot.key).same
              (v.fit slot.width slot.signed) with
          | true =>
              rw [drive_same hslot hv]
              exact .complete _ (.refl m)
          | false =>
              rw [drive_changed hslot hv]
              have hset := (m.sim.sameWork_withValue f slot
                (v.fit slot.width slot.signed)).sameDepth
              have hs' := hs.trans hset
              refine (announce_ends (m := m.setSim _) (fun g hg => ?_) (hc.congr hs') _ _ _ _
                []).back ⟨⟨rfl, hset⟩, rfl⟩
              have hg' : g ∈ s.tree.targets f := hs'.tree ▸ hg
              exact (ih g hg').congr hs'

/-- A write within another one, or within a round, is over when all that follows from it is. -/
theorem endDrive_ends (hin : 0 < m₀.sim.driveDepth ∨ m₀.sim.inRound = true)
    (hmode : m.activation.mode = m₀.activation.mode) (hstack : m.stack = m₀.stack)
    (hs : m₀.sim.driving.SameDepth m.sim) (c : Completion) : Ends waker m₀ (m.endDrive c) := by
  have hdepth : m.undriven.sim.driveDepth = m₀.sim.driveDepth := by
    change m.sim.driveDepth - 1 = _
    rw [hs.driveDepth]
    rfl
  have hback : m₀.Back m.undriven :=
    ⟨⟨hmode, ⟨⟨hs.tree, hs.wiring, hs.maxCombDepth, hs.size⟩, hs.combDepth, hdepth, hs.inRound⟩⟩,
      hstack⟩
  by_cases hd : 0 < m.undriven.sim.driveDepth
  · rw [endDrive_inner c hd]
    exact .complete _ hback
  · have hround : m.undriven.sim.inRound = true :=
      hback.sim.inRound.trans (hin.resolve_left (hdepth ▸ hd))
    cases c with
    | failed e =>
        rw [endDrive_failed_inRound e hd hround]
        exact .complete _ hback
    | _ =>
        rw [endDrive_settle hd (by simp), settle_inRound hround]
        exact .complete _ hback

theorem write_immediate_ends (hin : 0 < m.sim.driveDepth ∨ m.sim.inRound = true)
    {f : FieldRef} (hd : DriveEnds waker m.sim.driving f) (v : Value) :
    Ends waker m (m.write f v .immediate) := by
  rcases write_cases m f v .immediate with ⟨e, heq⟩ | ⟨slot, -, -, -, heq⟩
  · rw [heq]
    exact .complete _ (.refl m)
  · rw [heq rfl]
    let m₁ : Machine := { m with sim := m.sim.driving, stack := .driven :: m.stack }
    refine (hd m₁ (.refl _) v).accept rfl fun m' c hkin hstack => ?_
    have hend : Ends waker m (m'.endDrive c) := endDrive_ends hin hkin.mode hstack hkin.sim c
    cases c <;> exact hend

theorem Ends.leave {m₁ : Machine} {name : String} (h : Ends waker m₁ m)
    (hstack : m₁.stack = .boundary name m₀.activation :: m₀.stack)
    (hs : m₀.sim.SameDepth m₁.sim) : Ends waker m₀ m := by
  refine h.accept hstack fun m' c hkin hm' => ?_
  have hback : m₀.Back { m' with activation := m₀.activation } := ⟨⟨rfl, hs.trans hkin.sim⟩, hm'⟩
  cases c <;> exact .complete _ hback

theorem writes_immediate (hs : m.sim.Confined) (hmode : m.activation.mode = .immediate)
    (hc : CombsEnd waker m.sim.driving) : WriteEnds waker m := by
  intro m' hkin f v
  have hs' := hs.congr hkin.sim
  rw [hkin.mode, hmode]
  exact write_immediate_ends hs'.inner
    (drive_ends (s := m'.sim.driving) hs'.acyclic (hc.congr hkin.sim.driving) f) v

/-- What a combinational process writes lies one level deeper, and there are finitely many levels.
-/
theorem combs_end {r : Nat} (hs : s.Confined) (hr : s.maxCombDepth ≤ s.combDepth + r) :
    CombsEnd waker s := by
  induction r generalizing s with
  | zero =>
      intro m hm p
      have hdeep : m.sim.maxCombDepth < m.sim.combDepth + 1 := by
        rw [hm.maxCombDepth, hm.combDepth]
        omega
      simp only [runComb, hdeep, ↓reduceIte]
      split <;> exact .complete _ (.refl m)
  | succ r ih =>
      intro m hm p
      simp only [runComb]
      split
      · exact .complete _ (.refl m)
      rename_i f hf
      split
      · exact .complete _ (.refl m)
      have hs' := hs.congr hm
      let m₁ : Machine := { m with
        sim := { m.sim with combDepth := m.sim.combDepth + 1 }
        stack := .combOver p (m.sim.combDepth + 1) :: m.stack }
      let m₂ : Machine := { m₁ with
        stack := .boundary f.name m₁.activation :: m₁.stack
        activation := .begin p.owner f.name .immediate }
      have hconfined : m₂.sim.Confined := ⟨hs'.straight, hs'.acyclic, hs'.inner⟩
      have hwrites : WriteEnds waker m₂ := by
        refine writes_immediate hconfined rfl ?_
        refine ih ⟨hs'.straight, hs'.acyclic, .inl (Nat.succ_pos _)⟩ ?_
        change m.sim.maxCombDepth ≤ m.sim.combDepth + 1 + r
        rw [hm.maxCombDepth, hm.combDepth]
        omega
      have hbody : Stmt.straightAll f.body = true := by
        refine Tree.straight_inst hs'.straight p.owner ?_
        exact List.mem_append_left _ (List.mem_of_getElem? hf)
      have hblock : Ends waker m₁ (m₁.runBody p.owner f) :=
        (block_ends (execEach_ends f.body hbody) m₂ hwrites).leave rfl (.refl _)
      refine hblock.accept rfl fun m' c hkin hstack => ?_
      have hback : m.Back
          { m' with sim := { m'.sim with combDepth := m.sim.combDepth + 1 - 1 } } :=
        ⟨⟨hkin.mode, ⟨⟨hkin.sim.tree, hkin.sim.wiring, hkin.sim.maxCombDepth, hkin.sim.size⟩,
          rfl, hkin.sim.driveDepth, hkin.sim.inRound⟩⟩, hstack⟩
      cases c <;> exact .complete _ hback

theorem confined_combs (hs : s.Confined) : CombsEnd waker s := combs_end hs (Nat.le_add_left _ _)

theorem confined_drives (hs : s.Confined) (f : FieldRef) : DriveEnds waker s f :=
  drive_ends hs.acyclic (confined_combs hs) f

theorem pause_ends (h : m₀.Back m) (p : ProcessRef) (next : Nat) (cycles : Int) :
    Ends waker m₀ (m.pause p next cycles) :=
  .complete _ (h.setSim ⟨⟨rfl, rfl, rfl, rfl⟩, rfl, rfl, rfl⟩)

theorem syncBody_ends (p : ProcessRef) (l : List Stmt) (hl : Stmt.straightAll l = true)
    (hmode : m.activation.mode = .staged) (next : Nat) : Ends waker m (m.syncBody p next l) := by
  induction l generalizing m next with
  | nil => exact .complete _ (.refl m)
  | cons s rest ih =>
      obtain ⟨hs, hrest⟩ := Bool.and_eq_true_iff.mp hl
      simp only [syncBody]
      split
      · exact pause_ends (.refl m) p _ 1
      · rename_i e args hargs
        have he : EvalEnds waker e := eval_ends e (Stmt.straight_cyclesArgs hs hargs e (by simp))
        refine he.push (fun _ _ => rfl) fun m' v hback => ?_
        exact .withResult _ hback fun n => pause_ends hback p _ n
      · let m₁ : Machine := m.push (.syncStep p (next + 1) rest) (.exec s)
        have hexec : Ends waker m₁ m₁ :=
          .next rfl (exec_ends s hs m₁ (writes_staged (m := m₁) hmode))
        refine hexec.accept rfl fun m' c hkin hstack => ?_
        have hback : m.Back m' := ⟨⟨hkin.mode, hkin.sim⟩, hstack⟩
        cases c with
        | value v => exact (ih hrest (hkin.mode.trans hmode) (next + 1)).back hback
        | _ => exact .complete _ hback

theorem resumeSync_ends {s' : Simulation} (hs : m.sim.SameDepth s') (p : ProcessRef) {f : Function}
    (hf : Stmt.straightAll f.body = true) (next : Nat) (locals : Table String Value) :
    Ends waker m ((m.setSim s').resumeSync p f next locals) :=
  (syncBody_ends p _ (Stmt.straightAll_drop hf next) rfl next).leave rfl hs

theorem runSync_ends (hs : m.sim.tree.straight = true) (p : ProcessRef) :
    Ends waker m (m.runSync p) := by
  have hpaused : ∀ t, m.sim.SameDepth { m.sim with paused := t } :=
    fun _ => ⟨⟨rfl, rfl, rfl, rfl⟩, rfl, rfl, rfl⟩
  simp only [runSync]
  split
  · exact .complete _ (.refl m)
  rename_i f hf
  have hbody : Stmt.straightAll f.body = true := by
    refine Tree.straight_inst hs p.owner ?_
    exact List.mem_append_right _ (List.mem_of_getElem? hf)
  refine .withResult _ (.refl m) fun reset => ?_
  split
  · exact resumeSync_ends (hpaused _) p hbody 0 .empty
  · split
    · exact .complete _ ((Back.refl m).setSim (hpaused _))
    · exact resumeSync_ends (hpaused _) p hbody _ _

theorem runSyncs_ends (hs : m.sim.tree.straight = true) (l : List ProcessRef) :
    Ends waker m (m.runSyncs l) := by
  induction l generalizing m with
  | nil => exact .complete _ (.refl m)
  | cons p l ih =>
      let m₁ : Machine := { m with stack := .syncs l :: m.stack }
      have hfirst : Ends waker m₁ (m₁.runSync p) := runSync_ends (m := m₁) hs p
      refine hfirst.resume rfl ⟨rfl, .refl _⟩ (fun _ _ => rfl) fun m' _ hback => ?_
      exact (ih (hback.sim.tree ▸ hs)).back hback

theorem workOff_ends (hs : m.sim.Confined) (l : List (FieldRef × Value × Value)) :
    Ends waker m (m.workOff l) := by
  induction l generalizing m with
  | nil => exact .complete _ (.refl m)
  | cons x l ih =>
      obtain ⟨f, old, new⟩ := x
      have hfirst : Ends waker { m with stack := .changes l :: m.stack }
          (m.workOff ((f, old, new) :: l)) :=
        announce_ends (fun g _ => confined_drives hs g) (confined_combs hs) _ old new _
          [.changes l]
      refine hfirst.resume rfl ⟨rfl, .refl _⟩ (fun _ _ => rfl) fun m' _ hback => ?_
      exact (ih (hs.congr hback.sim)).back hback

theorem commit_ends (hs : m.sim.Confined) : Ends waker m m.commit := by
  obtain ⟨signals, heq⟩ := m.sim.applyStaged_eq
  have hdepth : m.sim.SameDepth m.sim.applyStaged.1 :=
    ⟨⟨by rw [heq], by rw [heq], by rw [heq], m.sim.size_applyStaged⟩, by rw [heq], by rw [heq],
      by rw [heq]⟩
  exact (workOff_ends (m := m.setSim m.sim.applyStaged.1) (hs.congr hdepth) _).back
    ⟨⟨rfl, hdepth⟩, rfl⟩

theorem round_ends (hs : m.sim.Confined)
    (h : (m.sim.pending.isEmpty && !m.sim.hasStaged) = false) :
    Ends waker { m with stack := .round :: m.stack } m.round := by
  rw [round_begin h]
  let m₁ : Machine := { m with
    sim := { m.sim with pending := [] }
    stack := .commit :: .round :: m.stack }
  have hfirst : Ends waker m₁ (m₁.runSyncs m.sim.pending) :=
    runSyncs_ends (m := m₁) hs.straight _
  refine hfirst.resume rfl ⟨rfl, ⟨⟨rfl, rfl, rfl, rfl⟩, rfl, rfl, rfl⟩⟩ (fun _ _ => rfl)
    fun m' _ hback => ?_
  exact (commit_ends (hs.congr hback.sim)).back hback

/-- The number of rounds that begin within some steps. -/
def rounds (waker : Waker) (fuel : Nat) (m : Machine) : Nat :=
  (m.states waker fuel).countP fun m => decide (m.beat = .round)

/-- Round after round begins, without an end. -/
def KeepsBeginning (waker : Waker) (m : Machine) : Prop := ∀ n, ∃ fuel, n ≤ m.rounds waker fuel

theorem beat_round {v : Value} {rest : List Frame} (hc : m.control = .done (.value v))
    (hs : m.stack = .round :: rest)
    (h : (m.sim.pending.isEmpty && !m.sim.hasStaged) = false) : m.beat = .round := by
  simp only [beat, hc, hs, hasRound, h, Bool.not_false, ↓reduceIte]

theorem rounds_step {m' : Machine} (h : m.step waker = .go m') (fuel : Nat) :
    m.rounds waker (fuel + 1) = m'.rounds waker fuel + if m.beat = .round then 1 else 0 := by
  simp only [rounds, states, h, List.countP_cons, decide_eq_true_eq]

theorem rounds_reaches {m' : Machine} (h : Reaches waker m m') (fuel : Nat) :
    ∃ fuel', m'.rounds waker fuel ≤ m.rounds waker fuel' := by
  induction h generalizing fuel with
  | here => exact ⟨fuel, Nat.le_refl _⟩
  | step _ _ hstep ih =>
      obtain ⟨fuel', hle⟩ := ih (fuel + 1)
      rw [rounds_step hstep] at hle
      exact ⟨fuel', by omega⟩

/-- A run comes back to the frames of a machine, or a number of rounds begin. -/
def EndsOrBegins (waker : Waker) (n : Nat) (m₀ m : Machine) : Prop :=
  Ends waker m₀ m ∨ ∃ fuel, n ≤ m.rounds waker fuel

theorem EndsOrBegins.reaches {n : Nat} {m' : Machine} (h : EndsOrBegins waker n m₀ m')
    (hreach : Reaches waker m m') : EndsOrBegins waker n m₀ m := by
  rcases h with ⟨c, m₁, hback, h⟩ | ⟨fuel, hle⟩
  · exact .inl ⟨c, m₁, hback, hreach.trans h⟩
  · obtain ⟨fuel', hle'⟩ := rounds_reaches hreach fuel
    exact .inr ⟨fuel', hle.trans hle'⟩

theorem settled_ends (hmode : m.activation.mode = m₀.activation.mode)
    (hstack : m.stack = .settled :: m₀.stack)
    (hs : m₀.sim.SameDepth { m.sim with inRound := false }) (c : Completion) :
    Ends waker m₀ (m.complete c) := by
  have hback : ∀ c, m₀.Back ({ m.complete c with stack := m₀.stack }.setSim
      { m.sim with inRound := false }) := fun _ => ⟨⟨hmode, hs⟩, rfl⟩
  refine .next (step_done (m := m.complete c) rfl hstack) ?_
  cases c with
  | failed e =>
      exact .complete (.failed e)
        ((hback (.failed e)).setSim (Simulation.sameDepth_discardPending _))
  | _ => exact .complete _ (hback _)

/-- The rounds after a write come to an end, or one begins after the other. -/
theorem rounds_settle (n : Nat) (hs : m.sim.Confined)
    (hmode : m.activation.mode = m₀.activation.mode) (hstack : m.stack = .settled :: m₀.stack)
    (hdepth : m₀.sim.SameDepth { m.sim with inRound := false }) :
    EndsOrBegins waker n m₀ m.round := by
  induction n generalizing m with
  | zero => exact .inr ⟨0, Nat.zero_le _⟩
  | succ n ih =>
      cases hidle : m.sim.pending.isEmpty && !m.sim.hasStaged with
      | true =>
          rw [round_over hidle]
          exact .inl (settled_ends hmode hstack hdepth _)
      | false =>
          have hround : Ends waker { m with stack := .round :: m.stack } m.round :=
            round_ends hs hidle
          obtain ⟨c, m', hback, hreach⟩ := hround
          refine EndsOrBegins.reaches ?_ hreach
          -- The round is over, and the next one may begin.
          let m₁ : Machine := { m'.complete c with stack := m.stack }
          have hnext : (m'.complete c).step waker = .go (m₁.accept .round c) :=
            step_done rfl hback.stack
          have hmode₁ : m₁.activation.mode = m₀.activation.mode := hback.mode.trans hmode
          have hdepth₁ : m₀.sim.SameDepth { m₁.sim with inRound := false } :=
            hdepth.trans ⟨⟨hback.sim.tree, hback.sim.wiring, hback.sim.maxCombDepth,
              hback.sim.size⟩, hback.sim.combDepth, hback.sim.driveDepth, rfl⟩
          cases c with
          | value v =>
              rcases ih (m := m₁) (hs.congr hback.sim) hmode₁ hstack hdepth₁ with hend | ⟨fuel, hle⟩
              · exact .inl (hend.next hnext)
              · cases hidle₁ : m₁.sim.pending.isEmpty && !m₁.sim.hasStaged with
                | true =>
                    refine .inl (.next hnext ?_)
                    change Ends waker m₀ m₁.round
                    rw [round_over hidle₁]
                    exact settled_ends hmode₁ hstack hdepth₁ _
                | false =>
                    refine .inr ⟨fuel + 1, ?_⟩
                    have hbeat : (m'.complete (.value v)).beat = .round :=
                      beat_round rfl hback.stack hidle₁
                    rw [rounds_step hnext, if_pos hbeat]
                    exact Nat.succ_le_succ hle
          | _ => exact .inl (.next hnext (settled_ends hmode₁ hstack hdepth₁ _))

/-- A write comes to its end, with a fault or without one, or one round after the other begins. -/
def Settles (waker : Waker) (m : Machine) (f : FieldRef) (v : Value) : Prop :=
  Ends waker m (m.write f v .immediate) ∨ KeepsBeginning waker (m.write f v .immediate)

/-- A write outside of all others and of all rounds comes to its end, or its rounds do not. -/
theorem write_settles (hs : m.sim.tree.straight = true) (ha : m.sim.tree.Acyclic)
    (hd : m.sim.driveDepth = 0) (hr : m.sim.inRound = false) (f : FieldRef) (v : Value) :
    Settles waker m f v := by
  suffices h : ∀ n, EndsOrBegins waker n m (m.write f v .immediate) from
    or_iff_not_imp_left.mpr fun hnot n => (h n).resolve_left hnot
  intro n
  rcases write_cases m f v .immediate with ⟨e, heq⟩ | ⟨slot, -, -, -, heq⟩
  · rw [heq]
    exact .inl (.complete _ (.refl m))
  · rw [heq rfl]
    let m₁ : Machine := { m with sim := m.sim.driving, stack := .driven :: m.stack }
    have hconfined : m.sim.driving.Confined := ⟨hs, ha, .inl (Nat.succ_pos _)⟩
    have hdrive : Ends waker m₁ (m₁.drive f v) := confined_drives hconfined f m₁ (.refl _) v
    obtain ⟨c, m', hback, hreach⟩ := hdrive
    refine EndsOrBegins.reaches ?_ hreach
    -- All that follows from the write has its value, and the rounds are next.
    let m₂ : Machine := { m'.complete c with stack := m.stack }
    have hnext : (m'.complete c).step waker = .go (m₂.endDrive c) := by
      rw [step_done (m := m'.complete c) rfl hback.stack]
      cases c <;> rfl
    have hdepth : m.sim.SameDepth m₂.undriven.sim := by
      refine ⟨⟨hback.sim.tree, hback.sim.wiring, hback.sim.maxCombDepth, hback.sim.size⟩,
        hback.sim.combDepth, ?_, hback.sim.inRound⟩
      change m'.sim.driveDepth - 1 = _
      rw [hback.sim.driveDepth]
      rfl
    have houter : ¬ 0 < m₂.undriven.sim.driveDepth := by
      rw [hdepth.driveDepth, hd]
      exact Nat.lt_irrefl 0
    have hround : m₂.undriven.sim.inRound = false := hdepth.inRound.trans hr
    refine EndsOrBegins.reaches ?_ (.next hnext)
    by_cases hc : ∃ e, c = .failed e
    · obtain ⟨e, rfl⟩ := hc
      rw [endDrive_failed_outside e houter hround]
      have hback₂ : m.Back m₂.undriven := ⟨⟨hback.mode, hdepth⟩, rfl⟩
      exact .inl (.complete _ (hback₂.setSim (Simulation.sameDepth_discardPending _)))
    · rw [endDrive_settle houter fun e he => hc ⟨e, he⟩, settle_outside hround]
      refine rounds_settle n ⟨hdepth.tree ▸ hs, hdepth.tree ▸ ha, .inr rfl⟩ hback.mode rfl ?_
      exact ⟨⟨hdepth.tree, hdepth.wiring, hdepth.maxCombDepth, hdepth.size⟩, hdepth.combDepth,
        hdepth.driveDepth, hr.symm⟩

theorem step_of_write {f : FieldRef} {v : Value} (h : m.write? = some (f, v))
    (hmode : m.activation.mode = .immediate) :
    ∃ m₁ : Machine, m₁.sim = m.sim ∧ m.step waker = .go (m₁.write f v .immediate) := by
  obtain ⟨i, g, rest, hcontrol, hstack, hwrite⟩ := eq_of_write h
  rw [step_done hcontrol hstack]
  have hfield : ∀ {id}, i.asComponent.toOption = some id → i.asComponent = .ok id := by
    intro id hid
    cases hi : i.asComponent <;> rw [hi] at hid <;> cases hid
    rfl
  cases g
  case storeField index w =>
    obtain ⟨id, hid, heq⟩ := Option.map_eq_some_iff.mp hwrite
    cases heq
    refine ⟨{ m with stack := rest }, rfl, ?_⟩
    simp only [accept, resume, storeField, hfield hid, hmode]
  case storeMember name w =>
    obtain ⟨id, hid, hmember⟩ := Option.bind_eq_some_iff.mp hwrite
    obtain ⟨index, hindex, heq⟩ := Option.bind_eq_some_iff.mp hmember
    cases heq
    refine ⟨{ m with stack := rest }, rfl, ?_⟩
    simp only [accept, resume, storeMember, hfield hid, hindex, hmode]
  case clockEdge g low high level =>
    cases hwrite
    exact ⟨{ m with stack := .clock f low high (!level) :: rest }, rfl, rfl⟩
  all_goals cases hwrite

theorem runMachine_of_reaches {c : Completion} {m' : Machine} (hstack : m'.stack = [])
    (h : Reaches .nobody m (m'.complete c)) :
    ∃ n r, ∀ fuel, n ≤ fuel → Simulation.runMachine fuel m = some (m'.sim, r) := by
  obtain ⟨n, hn⟩ := h.run
  have hrun : ∀ fuel, n + 1 ≤ fuel → m.run .nobody fuel = some (m'.sim, .over c) := by
    intro fuel hle
    obtain ⟨k, rfl⟩ := Nat.exists_eq_add_of_le hle
    rw [show n + 1 + k = k + 1 + n by omega, hn]
    simp only [run, step, complete, hstack]
  cases c with
  | failed e =>
      exact ⟨n + 1, .error e, fun fuel hle => by rw [Simulation.runMachine, hrun fuel hle]⟩
  | value v => exact ⟨n + 1, .ok v, fun fuel hle => by rw [Simulation.runMachine, hrun fuel hle]⟩
  | _ => exact ⟨n + 1, .ok .none, fun fuel hle => by rw [Simulation.runMachine, hrun fuel hle]⟩

/-- The machine after some steps, if it goes on for so long. -/
def ahead (waker : Waker) : (n : Nat) → Machine → Option Machine
  | 0, m => some m
  | n + 1, m =>
    match m.step waker with
    | .go m' => ahead waker n m'
    | _ => none

theorem run_none_of_ahead {n fuel : Nat} {m' : Machine} (h : m.ahead waker n = some m')
    (hrest : ∀ fuel', fuel' + n ≤ fuel → m'.run waker fuel' = none) : m.run waker fuel = none := by
  induction n generalizing m fuel with
  | zero =>
      cases h
      exact hrest fuel (Nat.le_refl _)
  | succ n ih =>
      cases fuel with
      | zero => rfl
      | succ fuel =>
          simp only [ahead] at h
          simp only [run]
          cases hstep : m.step waker with
          | go m₁ =>
              rw [hstep] at h
              exact ih h fun fuel' hle => hrest fuel' (Nat.succ_le_succ hle)
          | «over» c s =>
              rw [hstep] at h
              cases h
          | parked t s =>
              rw [hstep] at h
              cases h

theorem run_none_of_cycle {ι : Type} (M : ι → Machine) (next : ι → ι) {n : Nat}
    (h : ∀ i, (M i).ahead waker (n + 1) = some (M (next i))) (fuel : Nat) (i : ι) :
    (M i).run waker fuel = none := by
  induction fuel using Nat.strong_induction_on generalizing i with
  | _ fuel ih =>
      refine run_none_of_ahead (h i) fun fuel' hle => ih fuel' ?_ (next i)
      omega

end Machine

/-- Settling ends as far as its rounds do. The processes hold no loops and call nothing but
builtin functions, and no signal follows itself: then a write of an input, or of a level of a
clock, returns, and so does what a task writes, unless clocked processes start each other for
ever. Each round of its own comes to an end. -/
theorem settling_ends_unless_rounds_go_on {s : Simulation} (h : Reachable s)
    (hs : s.tree.straight = true) (ha : s.tree.Acyclic) :
    (∀ f v, (∃ n r, ∀ fuel, n ≤ fuel → s.driveField fuel f v = some r) ∨
      (s.machine.write f v .immediate).KeepsBeginning .nobody) ∧
      ∀ waker (m : Machine) f v, m.sim.tree = s.tree → m.sim.driveDepth = 0 →
      m.sim.inRound = false →
        m.write? = some (f, v) → m.activation.mode = .immediate →
        ∃ m₁ : Machine, m.step waker = .go (m₁.write f v .immediate) ∧ m₁.Settles waker f v := by
  constructor
  · intro f v
    have hrest := h.settled.rest
    have hsettles : s.machine.Settles .nobody f v :=
      s.machine.write_settles hs ha hrest.driveDepth hrest.inRound f v
    rcases hsettles with ⟨c, m', hback, hreach⟩ | hgoes
    · obtain ⟨n, r, hrun⟩ := Machine.runMachine_of_reaches hback.stack hreach
      refine .inl ⟨n, Simulation.dropResult (m'.sim, r), fun fuel hle => ?_⟩
      rw [Simulation.driveField, hrun fuel hle]
      rfl
    · exact .inr hgoes
  · intro waker m f v htree hd hr hw hmode
    obtain ⟨m₁, hsim, hstep⟩ : ∃ m₁ : Machine, m₁.sim = m.sim ∧
        m.step waker = .go (m₁.write f v .immediate) := Machine.step_of_write hw hmode
    refine ⟨m₁, hstep, ?_⟩
    rw [← hsim] at htree hd hr
    exact m₁.write_settles (htree ▸ hs) (htree ▸ ha) hd hr f v

/-- A signal that a process copies, another signal that follows the copy, and a process that takes
the latter at each rising edge of the signal. -/
def handoverDesign : TypeTable :=
  ⟨[⟨"Top", .component { Component.ofName "Top" with
      body := { Body.ofName "Top" with
        fields := [.ofType "a" (.int 1 false), .ofType "b" (.int 1 false),
          .ofType "c" (.int 1 false), .ofType "d" (.int 1 false)] }
      binds := [⟨.ownField 2, .ownField 1⟩]
      combs := [{ Function.ofName "p" with
          body := [.set (.ownField 1) (.ownField 0)]
          process := some ⟨.comb, none, none, [.ownField 0]⟩ }]
      syncs := [{ Function.ofName "q" with
          body := [.set (.ownField 3) (.ownField 2)]
          process := some ⟨.sync, some (.ownField 0), none, []⟩ }] }⟩], by decide⟩

theorem settling_ends_unless_rounds_go_on_at_handover : ∃ s, Reachable s ∧ s.tree.straight = true ∧
    s.tree.Acyclic ∧ (s.tree.resolveField "a").toOption = some ⟨0, 0⟩ ∧
    ((∃ n r, ∀ fuel, n ≤ fuel → s.driveField fuel ⟨0, 0⟩ (.int 1) = some r) ∨
      (s.machine.write ⟨0, 0⟩ (.int 1) .immediate).KeepsBeginning .nobody) := by
  have hcheck : ((handoverDesign.after "Top" 200 [.start]).map fun s =>
      decide (s.tree.straight = true ∧
        (∀ x ∈ s.tree.bindings.entries, ∀ g ∈ x.2, x.1.index < g.index) ∧
        (s.tree.resolveField "a").toOption = some ⟨0, 0⟩)) = some true := by
    decide +kernel
  obtain ⟨s, hs, hprops⟩ := Option.map_eq_some_iff.mp hcheck
  obtain ⟨hstraight, hranked, hpath⟩ := of_decide_eq_true hprops
  have hreach : Reachable s := TypeTable.reachable_after hs
  have hacyclic : s.tree.Acyclic := Tree.acyclic_of_rank FieldRef.index hranked
  exact ⟨s, hreach, hstraight, hacyclic, hpath,
    (settling_ends_unless_rounds_go_on hreach hstraight hacyclic).1 ⟨0, 0⟩ (.int 1)⟩

theorem Simulation.setInput_none {s : Simulation} {path : String} {f : FieldRef} {v : Value}
    (hpath : (s.tree.resolveField path).toOption = some f) {n : Nat} {m : Machine}
    (hahead : (s.machine.write f v .immediate).ahead .nobody n = some m)
    (hm : ∀ fuel, m.run .nobody fuel = none) (fuel : Nat) : s.setInput fuel path v = none := by
  have hrun : (s.machine.write f v .immediate).run .nobody fuel = none :=
    Machine.run_none_of_ahead hahead fun fuel' _ => hm fuel'
  cases hresolve : s.tree.resolveField path with
  | error e =>
      rw [hresolve] at hpath
      cases hpath
  | ok g =>
      rw [hresolve] at hpath
      cases hpath
      simp only [setInput, hresolve, driveField, runMachine, hrun]
      rfl

/-- The machine after some steps of a write of one to a field of a component that has just been
started. -/
def TypeTable.writing (types : TypeTable) (f : FieldRef) (n : Nat) : Option Machine :=
  (types.after "Top" 200 [.start]).bind fun s =>
    (s.machine.write f (.int 1) .immediate).ahead .nobody n

def seesawDesign : TypeTable :=
  ⟨[⟨"Top", .component { Component.ofName "Top" with
      body := { Body.ofName "Top" with
        fields := [.ofType "a" (.int 1 false), .ofType "b" (.int 1 false)] }
      syncs := [{ Function.ofName "p" with
          body := [.set (.ownField 0) (.int 0), .set (.ownField 1) (.int 1)]
          process := some ⟨.sync, some (.ownField 0), none, []⟩ },
        { Function.ofName "q" with
          body := [.set (.ownField 1) (.int 0), .set (.ownField 0) (.int 1)]
          process := some ⟨.sync, some (.ownField 1), none, []⟩ }] }⟩], by decide⟩

theorem seesaw_cycle : (seesawDesign.writing ⟨0, 0⟩ 28).bind (Machine.ahead .nobody 52) =
    seesawDesign.writing ⟨0, 0⟩ 28 := by
  cbv

theorem seesaw_goes_on : ∃ s, Reachable s ∧ s.tree.straight = true ∧ s.tree.Acyclic ∧
    ∀ fuel, s.setInput fuel "a" (.int 1) = none := by
  have hcheck : ((seesawDesign.after "Top" 200 [.start]).map fun s =>
      decide (s.tree.straight = true ∧
        (∀ x ∈ s.tree.bindings.entries, ∀ g ∈ x.2, x.1.index < g.index) ∧
        (s.tree.resolveField "a").toOption = some ⟨0, 0⟩ ∧
        ((s.machine.write ⟨0, 0⟩ (.int 1) .immediate).ahead .nobody 28).isSome = true)) =
          some true := by
    decide +kernel
  obtain ⟨s, hs, hprops⟩ := Option.map_eq_some_iff.mp hcheck
  obtain ⟨hstraight, hranked, hpath, hahead⟩ := of_decide_eq_true hprops
  obtain ⟨m, hm⟩ := Option.isSome_iff_exists.mp hahead
  have hcycle := seesaw_cycle
  simp only [TypeTable.writing, hs, Option.bind_some, hm] at hcycle
  refine ⟨s, TypeTable.reachable_after hs, hstraight,
    Tree.acyclic_of_rank FieldRef.index hranked, ?_⟩
  exact Simulation.setInput_none hpath hm fun fuel =>
    Machine.run_none_of_cycle (fun _ : Unit => m) id (fun _ => hcycle) fuel ()

/-- Two fields that follow each other. A process sets the first one to zero as often as a third
field changes that follows it too. -/
def circleDesign : TypeTable :=
  ⟨[⟨"Top", .component { Component.ofName "Top" with
      body := { Body.ofName "Top" with
        fields := [.ofType "x" (.int 1 false), .ofType "n" (.int 1 false),
          .ofType "m" (.int 1 false)] }
      binds := [⟨.ownField 0, .ownField 1⟩, ⟨.ownField 2, .ownField 1⟩,
        ⟨.ownField 1, .ownField 2⟩]
      combs := [{ Function.ofName "p" with
          body := [.set (.ownField 1) (.int 0)]
          process := some ⟨.comb, none, none, [.ownField 0]⟩ }] }⟩], by decide⟩

/-- The machine with which the second field is given a new value, above some frames. -/
def Machine.circling (m : Machine) (base : List Frame) : Machine :=
  { m with stack := .propagate [⟨0, 2⟩] (.int 1) :: .combs [] :: base }

theorem circle_cycle (base : List Frame) :
    ((circleDesign.writing ⟨0, 1⟩ 33).bind fun m => (m.circling base).ahead .nobody 38) =
      (circleDesign.writing ⟨0, 1⟩ 33).map fun m => m.circling
        (.propagate [] (.int 1) :: .combs [] :: .propagate [] (.int 1) :: .combs [] :: base) := by
  cbv

theorem circle_entered : (circleDesign.writing ⟨0, 1⟩ 33).map (Machine.circling · [.driven]) =
    circleDesign.writing ⟨0, 1⟩ 33 := by
  cbv

theorem circle_goes_on : ∃ s, Reachable s ∧ s.tree.straight = true ∧
    (∀ i ∈ s.tree.instances, i.syncs = []) ∧ ∀ fuel, s.setInput fuel "n" (.int 1) = none := by
  have hcheck : ((circleDesign.after "Top" 200 [.start]).map fun s =>
      decide (s.tree.straight = true ∧ (∀ i ∈ s.tree.instances, i.syncs.isEmpty = true) ∧
        (s.tree.resolveField "n").toOption = some ⟨0, 1⟩ ∧
        ((s.machine.write ⟨0, 1⟩ (.int 1) .immediate).ahead .nobody 33).isSome = true)) =
          some true := by
    decide +kernel
  obtain ⟨s, hs, hprops⟩ := Option.map_eq_some_iff.mp hcheck
  obtain ⟨hstraight, hsyncs, hpath, hahead⟩ := of_decide_eq_true hprops
  obtain ⟨m, hm⟩ := Option.isSome_iff_exists.mp hahead
  have hcycle := circle_cycle
  have henter := circle_entered
  simp only [TypeTable.writing, hs, Option.bind_some, hm, Option.map_some, Option.some.injEq]
    at hcycle henter
  refine ⟨s, TypeTable.reachable_after hs, hstraight,
    fun i hi => List.isEmpty_iff.mp (hsyncs i hi), ?_⟩
  refine Simulation.setInput_none hpath hm fun fuel => ?_
  rw [← henter]
  exact Machine.run_none_of_cycle m.circling _ hcycle fuel [.driven]

/-- A write comes to no end where clocked processes start each other for ever, and none where
signals follow each other in a circle, though no clocked process is there. -/
theorem seesaw_and_circle_never_settle :
    (∃ s, Reachable s ∧ s.tree.straight = true ∧ s.tree.Acyclic ∧
      ∀ fuel, s.setInput fuel "a" (.int 1) = none) ∧
    ∃ s, Reachable s ∧ s.tree.straight = true ∧ (∀ i ∈ s.tree.instances, i.syncs = []) ∧
      ∀ fuel, s.setInput fuel "n" (.int 1) = none :=
  ⟨seesaw_goes_on, circle_goes_on⟩

end Clockwork
