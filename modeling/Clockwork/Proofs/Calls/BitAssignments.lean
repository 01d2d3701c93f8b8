import Clockwork.Proofs.Calls.AnyOrder
import Clockwork.Proofs.Calls.Replay
import Clockwork.Proofs.Machine.Pauses
import Clockwork.Proofs.Machine.Structural
import Clockwork.Proofs.Number.Fit
/-!
Assignments to bits of a register by clocked processes. An assignment reads the register, replaces
the bit and stages the whole register. What it reads is the value from before the round, whatever
was staged since, so of several assignments to one register only the last one is left at the
commit.
-/

namespace Clockwork

namespace Machine

variable {waker : Waker} {m₀ m m' : Machine} {f : FieldRef} {slot : FieldSlot}
    {l : List (Nat × Value)}
  {i : Nat} {v : Value} {n : Int}

theorem Leads.onto {P : Machine → Prop} (hP : ∀ m, P m → ∀ w, m.control ≠ .await w)
    (h : Leads waker P m m') (base : List Frame) :
    Leads waker (Above base) (m.onto base) (m'.onto base) := by
  induction h with
  | here => exact .here
  | @step m₁ m₂ _ hm₁ hstep ih =>
      refine ih.step ⟨m₁.stack, rfl, ?_⟩
        (step_onto base (fun w hw => absurd hw (hP m₁ hm₁ w)) hstep)
      by_cases hnil : m₁.stack = []
      · refine .inr fun c hc => ?_
        have hover : m₁.control = .done c := hc
        simp only [Machine.step, hover, hnil] at hstep
        cases hstep
      · exact .inl hnil

/-- The bit of a register that a body assigns to next, and the value that the bit is to get. The
register is a field of an instance, and both the instance and the place of the bit are given by
expressions that have a value before anything runs. -/
def assignsBit? (m : Machine) (f : FieldRef) : Option (Nat × Value) :=
  match m.control with
  | .store (.subscript (.field base index) place) v =>
    match m.sim.tree.structural m.activation.owner base,
        m.sim.tree.structural m.activation.owner place with
    | .ok (.obj (.component id)), .ok (.int i) =>
      if ⟨id, index⟩ = f ∧ 0 ≤ i ∧ m.activation.mode = .staged ∧
          base.calls .mapAt = false ∧ place.calls .mapAt = false then
        some (i.toNat, v)
      else none
    | _, _ => none
  | _ => none

theorem assignsBit?_eq_some (h : m.assignsBit? f = some (i, v)) :
    ∃ base place, m.control = .store (.subscript (.field base f.index) place) v ∧
      m.activation.mode = .staged ∧
      m.sim.tree.structural m.activation.owner base = .ok (.obj (.component f.owner)) ∧
      m.sim.tree.structural m.activation.owner place = .ok (.int i) ∧
      base.calls .mapAt = false ∧ place.calls .mapAt = false := by
  unfold assignsBit? at h
  split at h
  · rename_i base index place w hc
    split at h
    · rename_i id k hbase hplace
      split at h
      · rename_i hf
        obtain ⟨rfl, hk, hmode, hbaseAt, hplaceAt⟩ := hf
        cases h
        rw [Int.toNat_of_nonneg hk]
        exact ⟨base, place, hc, hmode, hbase, hplace, hbaseAt, hplaceAt⟩
      · cases h
    · cases h
  · cases h

theorem fault?_of_assignsBit? (h : m.assignsBit? f = some (i, v)) : m.fault? = none := by
  obtain ⟨_, _, hc, -⟩ := assignsBit?_eq_some h
  simp only [fault?, hc]

def afterBit (m : Machine) (f : FieldRef) (slot : FieldSlot) (n : Int) (i : Nat) (v : Value) :
    Machine :=
  { m with
    control := .done (.value .none)
    sim := m.sim.stage f slot (.int (Word.setBit n i v.truthy)) }

/-- An assignment to a bit stages the current value of the register with that bit replaced. -/
theorem assignsBit?_leads (h : m.assignsBit? f = some (i, v)) (hslot : m.sim.tree.SignalAt f slot)
    (hn : m.sim.current f slot = .int n) (hi : i < 128) :
    Leads waker (Above m.stack) m (m.afterBit f slot n i v) := by
  obtain ⟨base, place, hc, hmode, hbase, hplace, hbaseAt, hplaceAt⟩ := assignsBit?_eq_some h
  obtain ⟨c, a, below, s⟩ := m
  cases hc
  let register : Expr := .field base f.index
  have hread : ∀ fs, Leads waker (Still a s) ⟨.eval register, a, fs, s⟩
      ⟨.done (.value (.int n)), a, fs, s⟩ := by
    intro fs
    apply Leads.looked
    apply Leads.resumed (structural_leads base hbase hbaseAt)
    simp only [resume, withResult, Value.asComponent, Simulation.readField_of_signal hslot, hn]
    exact .here
  let w : Int := Word.setBit n i v.truthy
  have hitem : (⟨.done (.value (.int i)), a, [], s⟩ : Machine).resume
      (.storeItem register (.int n) v) (.int i) = ⟨.store register (.int w), a, [], s⟩ := by
    have hplace64 : (Value.int i).asNat64 = .ok i := by
      have hword : i ≤ Bounded.max64 := hi.le.trans (by decide)
      simp [Value.asNat64, Value.asInt, Bounded.toNat64?, hword]
    simp only [resume, storeItem, withResult, hplace64, hi, ↓reduceIte]
    rfl
  have hstored : Leads waker (Still a s) ⟨.store (.subscript register place) v, a, [], s⟩
      ⟨.done (.value (.obj (.component f.owner))), a, [.storeField f.index (.int w)], s⟩ := by
    refine Leads.trans (.step .here ⟨rfl, rfl, nofun⟩ rfl) ?_
    apply Leads.resumed (hread _)
    apply Leads.resumed (structural_leads place hplace hplaceAt)
    rw [hitem]
    refine Leads.trans (.step .here ⟨rfl, rfl, nofun⟩ rfl) ?_
    exact structural_leads base hbase hbaseAt
  have hall := hstored.onto (fun _ hm => hm.runs) below
  refine Leads.step hall ⟨[.storeField f.index (.int w)], rfl, .inl (by simp)⟩ ?_
  have hwrite : (⟨.done (.value (.obj (.component f.owner))), a, below, s⟩ : Machine).write f
      (.int w) a.mode = (⟨.done (.value .none), a, below, s.stage f slot (.int w)⟩ : Machine) := by
    rw [show a.mode = .staged from hmode]
    simp only [write, hslot.1, hslot.2]
    rfl
  exact congrArg Next.go hwrite

end Machine

namespace Simulation

/-- A field has the same value in both simulations, and the same value is staged for it. -/
structure SameAt (f : FieldRef) (slot : FieldSlot) (s s' : Simulation) : Prop where
  tree : s'.tree = s.tree
  current : s'.current f slot = s.current f slot
  staged : s'.staged? f slot = s.staged? f slot

variable {f : FieldRef} {slot : FieldSlot} {s s₁ s' : Simulation}

theorem SameAt.agrees (h : s.SameAt f slot s₁) (hs : s₁.Agrees s') : s.SameAt f slot s' :=
  ⟨hs.tree.trans h.tree, (current_congr hs.signals f slot).trans h.current,
    (staged?_congr hs.signals f slot).trans h.staged⟩

theorem SameAt.changed (h : s.SameAt f slot s₁) (g : FieldRef) (old new : Value) :
    s.SameAt f slot (s₁.changed g old new) :=
  ⟨(s₁.tree_changed g old new).trans h.tree,
    (current_congr (s₁.signals_changed g old new) f slot).trans h.current,
    (staged?_congr (s₁.signals_changed g old new) f slot).trans h.staged⟩

theorem SameAt.refl (s : Simulation) : s.SameAt f slot s := ⟨rfl, rfl, rfl⟩

end Simulation

namespace Machine

variable {waker : Waker} {m₀ m m' : Machine} {f : FieldRef} {slot : FieldSlot}
    {l : List (Nat × Value)}
  {i : Nat} {v : Value} {n : Int}

theorem RoundState.exists_syncs (h : RoundState waker m₀ m) (hs : m.stack ≠ m₀.roundBase) :
    ∃ rest, .syncs rest ∈ m.stack := by
  cases h.shape with
  | finished | failed => exact absurd rfl hs
  | ready _ _ _ _ rest | failing _ _ _ _ _ rest | leaving _ _ _ _ _ _ _ rest
  | body _ _ _ _ _ _ _ _ _ rest | callback _ _ _ _ _ _ _ _ _ _ _ _ rest =>
      exact ⟨rest, by simp⟩

/-- A step of a round that gives a field no value concerns neither its current nor its staged
value. -/
theorem RoundState.sameAt (h : RoundState waker m₀ m) (hl : Layered m) (hs : m.sim.Coherent)
    (hbase : m.stack ≠ m₀.roundBase) (hslot : m.sim.tree.SignalAt f slot) (hf : ¬ m.Gives f)
    (hstep : m.step waker = .go m') (hok : m'.fault? = none) : m.sim.SameAt f slot m'.sim := by
  obtain ⟨rest, hmem⟩ := h.exists_syncs hbase
  have hsyncs : .syncs rest ∈ m.work := List.mem_filter.mpr ⟨hmem, rfl⟩
  have hwork : WorkStep (fun _ => False) m m.beat m' := hl.workStep hstep (fault?_eq_none hok)
  generalize m.beat = b at hwork
  cases hwork with
  | still _ hsim | same _ _ _ _ hsim | spent _ _ _ hsim | comb _ _ hsim | all _ _ hsim
  | settle _ _ hsim | sync _ _ hsim => exact (Simulation.SameAt.refl _).agrees hsim
  | round _ _ hsim =>
      have hbegun : m.sim.SameAt f slot { m.sim with pending := [] } := ⟨rfl, rfl, rfl⟩
      exact hbegun.agrees hsim
  | change _ _ hsim => exact ((Simulation.SameAt.refl _).changed _ _ _).agrees hsim
  | @stage _ g slot' w hslot' hw _ _ hsim =>
      have hne : f ≠ g := by
        rintro rfl
        exact hf (.inl ⟨w, hw⟩)
      have hstaged : m.sim.SameAt f slot (m.sim.stage g slot' w) :=
        ⟨rfl, Simulation.Coherent.current_stage _ _ _ _ _ _,
          (hs.staged?_stage hslot' hslot w).trans (if_neg hne)⟩
      exact hstaged.agrees hsim
  | @changed _ g slot' w _ hd hslot' _ _ hsim =>
      have hne : f ≠ g := by
        rintro rfl
        exact hf hd.gives
      have hdriven : m.sim.SameAt f slot
          (m.sim.withValue g slot' (w.fit slot'.width slot'.signed)) :=
        ⟨rfl, (hs.current_withValue hslot' hslot.1 _).trans (if_neg hne),
          Simulation.staged?_withValue _ _ _ _ _ _⟩
      exact (hdriven.changed _ _ _).agrees hsim
  | unchanged hm | commit hm =>
      -- The commit comes after all processes of the batch.
      rw [hm] at hsyncs
      simp at hsyncs

/-- A state that a round comes to before its commit, with the bits of a register that were
assigned to until then. The register is given no other value. -/
inductive BitAssignments (waker : Waker) (m₀ : Machine) (f : FieldRef) :
    List (Nat × Value) → Machine → Prop
  | start : BitAssignments waker m₀ f [] m₀.beginRound
  | step {l : List (Nat × Value)} {m m' : Machine} (h : BitAssignments waker m₀ f l m)
      (hs : m.stack ≠ m₀.roundBase) (hf : ¬ m.Gives f) (hstep : m.step waker = .go m') :
      BitAssignments waker m₀ f l m'
  | bit {l : List (Nat × Value)} {i : Nat} {v : Value} {m m' : Machine}
      (h : BitAssignments waker m₀ f l m) (hbit : m.assignsBit? f = some (i, v))
      (hrun : Leads waker (Above m.stack) m m') (hend : ¬ Above m.stack m') :
      BitAssignments waker m₀ f (l ++ [(i, v)]) m'

/-- What is left of assignments to bits of a register: the register still has its value from before
the round, and no more than the last assignment is staged. -/
structure LeftByBits (m₀ : Machine) (f : FieldRef) (slot : FieldSlot) (n : Int)
    (l : List (Nat × Value)) (m : Machine) : Prop where
  tree : m.sim.tree = m₀.sim.tree
  current : m.sim.current f slot = .int n
  staged : ∀ i v, l.getLast? = some (i, v) →
    m.sim.staged? f slot =
      some (.int (Word.fit (Word.setBit n i v.truthy) slot.width slot.signed))

theorem LeftByBits.sameAt (h : LeftByBits m₀ f slot n l m) (hs : m.sim.SameAt f slot m'.sim) :
    LeftByBits m₀ f slot n l m' :=
  ⟨hs.tree.trans h.tree, hs.current.trans h.current,
    fun i v hlast => hs.staged.trans (h.staged i v hlast)⟩

theorem LeftByBits.bit (h : LeftByBits m₀ f slot n l m) (hs : m.sim.Coherent)
    (hslot : m₀.sim.tree.SignalAt f slot) (i : Nat) (v : Value) :
    LeftByBits m₀ f slot n (l ++ [(i, v)]) (m.afterBit f slot n i v) := by
  refine ⟨h.tree, ?_, ?_⟩
  · exact (Simulation.Coherent.current_stage _ _ _ _ _ _).trans h.current
  · intro j w hlast
    rw [List.getLast?_append] at hlast
    cases hlast
    rw [← h.tree] at hslot
    exact (hs.staged?_stage hslot hslot _).trans (if_pos rfl)

theorem RoundState.control_of_base (h : RoundState waker m₀ m) (hs : m.stack = m₀.roundBase) :
    (∃ v, m.control = .done (.value v)) ∨ ∃ e, m.control = .done (.failed e) := by
  have hlength := congrArg List.length hs
  cases h.shape with
  | finished v => exact .inl ⟨v, rfl⟩
  | failed e => exact .inr ⟨e, rfl⟩
  | _ =>
      simp only [List.length_append, List.length_cons] at hlength
      omega

theorem RoundState.afterBit (h : RoundState waker m₀ m) (hbit : m.assignsBit? f = some (i, v))
    (hrun : Leads waker (Above m.stack) m m') : RoundState waker m₀ m' := by
  have hbase : m.stack ≠ m₀.roundBase := by
    intro hs
    obtain ⟨_, _, hc, -⟩ := assignsBit?_eq_some hbit
    rcases h.control_of_base hs with ⟨v, hv⟩ | ⟨e, he⟩
    · rw [hc] at hv
      cases hv
    · rw [hc] at he
      cases he
  have hlong : m₀.roundBase.length < m.stack.length :=
    Nat.lt_of_not_le fun hlen => hbase (h.stack_of_length hlen)
  refine hrun.roundState ?_ h
  rintro m₁ ⟨y, hy, -⟩ hs
  have hlength := congrArg List.length (hy.symm.trans hs)
  simp only [List.length_append] at hlength
  omega

theorem BitAssignments.left (h : BitAssignments waker m₀ f l m) (hl : Layered m₀.beginRound)
    (hs : m₀.sim.Orderly) (hslot : m₀.sim.tree.SignalAt f slot)
    (hn : m₀.sim.current f slot = .int n) (hbits : ∀ p ∈ l, p.1 < 128) (hok : m.fault? = none) :
    RoundState waker m₀ m ∧ LeftByBits m₀ f slot n l m := by
  induction h with
  | start => exact ⟨.start, rfl, hn, nofun⟩
  | @step l m m' h hbase hf hstep ih =>
      obtain ⟨hround, hleft⟩ := ih hbits (fault?_of_step hstep hok)
      have hslot' : m.sim.tree.SignalAt f slot := by rwa [hleft.tree]
      exact ⟨hround.step hbase hstep, hleft.sameAt
        (hround.sameAt (hround.layered hl)
          (hround.orderly hs).toCoherent hbase hslot' hf hstep hok)⟩
  | @bit l i v m m' h hbit hrun hend ih =>
      obtain ⟨hbits, hi⟩ := List.forall_mem_append.mp hbits
      obtain ⟨hround, hleft⟩ := ih hbits (fault?_of_assignsBit? hbit)
      have hslot' : m.sim.tree.SignalAt f slot := by rwa [hleft.tree]
      have hafter : Leads waker (Above m.stack) m (m.afterBit f slot n i v) :=
        assignsBit?_leads hbit hslot' hleft.current (hi (i, v) (by simp))
      obtain rfl := hrun.unique hafter hend (not_above_self rfl rfl)
      exact ⟨hround.afterBit hbit hrun, hleft.bit (hround.orderly hs).toCoherent hslot i v⟩

theorem workOff_readField (m : Machine) (l : List (FieldRef × Value × Value)) (f : FieldRef) :
    (m.workOff l).sim.readField f = m.sim.readField f := by
  rcases l with _ | ⟨⟨g, old, new⟩, l⟩
  · rfl
  · obtain ⟨p, c, log, heq⟩ := m.sim.announce_eq g
      (((m.sim.tree.inst g.owner).fields[g.index]?.map FieldSlot.name).getD "") old new
    simp only [workOff, announce, pushAll, finish, give, complete, setSim, heq]
    rfl

/-- The commit of a round gives a register whose bits were assigned to what the last assignment
staged. -/
theorem LeftByBits.commit (h : LeftByBits m₀ f slot n (l ++ [(i, v)]) m) (hs : m.sim.Coherent)
    (hslot : m₀.sim.tree.SignalAt f slot) {u : Value} {rest : List Frame}
    (hc : m.control = .done (.value u)) (hm : m.stack = .commit :: rest) :
    ∃ m₁, m.step waker = .go m₁ ∧ m₁.sim.readField f =
      .ok (.int (Word.fit (Word.setBit n i v.truthy) slot.width slot.signed)) := by
  refine ⟨_, step_done hc hm, ?_⟩
  let w : Int := Word.fit (Word.setBit n i v.truthy) slot.width slot.signed
  have hstaged : m.sim.staged? f slot = some (.int w) := h.staged i v (by simp)
  have hcurrent : m.sim.applyStaged.1.current f slot = .int w := by
    rw [hs.current_applyStaged, hstaged, h.current]
    dsimp only
    split
    · rename_i hsame
      have hnw : n = w := by simpa [Value.same] using hsame
      rw [hnw]
    · rfl
  have htree : m.sim.applyStaged.1.tree = m₀.sim.tree := by
    obtain ⟨signals, heq⟩ := m.sim.applyStaged_eq
    rw [heq]
    exact h.tree
  have hread : m.sim.applyStaged.1.readField f = .ok (.int w) := by
    rw [Simulation.readField_of_signal (by rwa [htree]), hcurrent]
  exact (workOff_readField { m with stack := rest, sim := m.sim.applyStaged.1 } _ f).trans hread

/-- If of some bits the last one alone took its value, all show what was assigned to them exactly
if the others were assigned what they had been before. -/
theorem bits_shown_iff {before after : Nat → Int}
    (hafter : ∀ p ∈ l ++ [(i, v)],
      after p.1 = if p.1 = i then Value.ofTruth v.truthy else before p.1)
    (hdistinct : ((l ++ [(i, v)]).map Prod.fst).Nodup) :
    (∀ p ∈ l ++ [(i, v)], after p.1 = Value.ofTruth p.2.truthy) ↔
      ∀ p ∈ l, before p.1 = Value.ofTruth p.2.truthy := by
  have hlast : after i = Value.ofTruth v.truthy := (hafter (i, v) (by simp)).trans (if_pos rfl)
  have hearlier : ∀ p ∈ l, after p.1 = before p.1 := by
    intro p hp
    have hne : p.1 ≠ i := by
      rintro rfl
      rw [List.map_append, List.nodup_append] at hdistinct
      exact hdistinct.2.2 _ (List.mem_map_of_mem hp) _ (by simp) rfl
    rw [hafter p (by simp [hp]), if_neg hne]
  rw [List.forall_mem_append, List.forall_mem_singleton]
  constructor
  · rintro ⟨hall, -⟩ p hp
    rw [← hearlier p hp]
    exact hall p hp
  · intro hall
    refine ⟨fun p hp => ?_, hlast⟩
    rw [hearlier p hp]
    exact hall p hp

/-- What a commit makes of a register that a round gave values by assignments to bits of it only.
The bit of the last assignment has the value that was assigned to it, and all other bits are as
before the round. So the register shows every assignment exactly if all but the last one assigned
what the bit was before. -/
theorem staged_bits_kept_iff {s : Simulation} {c : Command} {fuel : Nat} {m₁ : Machine}
    (hs : Reachable s) (hm : m ∈ c.states fuel s) (hopen : m.opening? = some m₀)
    (hslot : m₀.sim.tree.SignalAt f slot) (hwidth : slot.width ≤ 126)
    (hn : m₀.sim.readField f = .ok (.int n))
    (hl : BitAssignments waker m₀ f (l ++ [(i, v)]) m₁)
    (hbits : ∀ p ∈ l ++ [(i, v)], p.1 < slot.width)
    (hdistinct : ((l ++ [(i, v)]).map Prod.fst).Nodup) (hend : m₁.stack = m₀.roundBase)
    (hok : m₁.fault? = none) :
    ∃ m₂ w, m₁.step waker = .go m₂ ∧ m₂.sim.readField f = .ok (.int w) ∧
      (∀ j < slot.width,
        Word.bit w j = if j = i then Value.ofTruth v.truthy else Word.bit n j) ∧
      ((∀ p ∈ l ++ [(i, v)], Word.bit w p.1 = Value.ofTruth p.2.truthy) ↔
        ∀ p ∈ l, Word.bit n p.1 = Value.ofTruth p.2.truthy) := by
  obtain ⟨hlayered, horderly⟩ := hs.states_layered hm
  have hlayered₀ : Layered m₀.beginRound := hlayered.opening hopen m₀.sim.pending
  have horderly₀ := Machine.Orderly.opening horderly hopen
  have hcurrent : m₀.sim.current f slot = .int n := by
    rw [Simulation.readField_of_signal hslot] at hn
    exact Except.ok.inj hn
  have hwords : ∀ p ∈ l ++ [(i, v)], p.1 < 128 :=
    fun p hp => (hbits p hp).trans_le (hwidth.trans (by decide))
  obtain ⟨hround, hleft⟩ := hl.left hlayered₀ horderly₀ hslot hcurrent hwords hok
  obtain ⟨u, hc⟩ : ∃ u, m₁.control = .done (.value u) := by
    rcases hround.control_of_base hend with hvalue | ⟨e, he⟩
    · exact hvalue
    · exact absurd he (fault?_eq_none hok e)
  obtain ⟨m₂, hstep, hread⟩ :=
    hleft.commit (hround.orderly horderly₀).toCoherent hslot hc hend
  have hkept : ∀ j < slot.width,
      Word.bit (Word.fit (Word.setBit n i v.truthy) slot.width slot.signed) j =
        if j = i then Value.ofTruth v.truthy else Word.bit n j := by
    intro j hj
    rw [Word.bit_fit _ hj (by omega), Word.bit_setBit _ (hwords (i, v) (by simp)) (by omega)]
  exact ⟨m₂, _, hstep, hread, hkept, bits_shown_iff (fun p hp => hkept p.1 (hbits p hp)) hdistinct⟩

instance (m : Machine) (f : FieldRef) : Decidable (m.Gives f) :=
  let follows : Bool := match m.work with
    | .propagate (g :: _) _ :: _ => g == f
    | _ => false
  decidable_of_iff (m.write?.any (fun w => w.1 == f) = true ∨ follows = true) <| by
    constructor
    · rintro (hw | hp)
      · obtain ⟨⟨g, v⟩, hwrite, hg⟩ := (Option.any_eq_true _ _).mp hw
        obtain rfl : g = f := by simpa using hg
        exact .inl ⟨v, hwrite⟩
      · unfold follows at hp
        split at hp
        · rename_i g gs v rest hwork
          obtain rfl : g = f := by simpa using hp
          exact .inr ⟨gs, v, rest, hwork⟩
        · cases hp
    · rintro (⟨v, hw⟩ | ⟨gs, v, rest, hwork⟩)
      · exact .inl (by simp [hw])
      · exact .inr (by simp [follows, hwork])

/-- The bits of a register that holds a number and that a round assigns to within some steps, and
the state that it comes to, if the register is given no other value. -/
def bitsAfter (waker : Waker) (m₀ : Machine) (f : FieldRef) (slot : FieldSlot) (n : Int) :
    Nat → List (Nat × Value) → Machine → Option (List (Nat × Value) × Machine)
  | 0, l, m => some (l, m)
  | k + 1, l, m =>
    if m.stack.length ≤ m₀.roundBase.length then some (l, m)
    else
      match m.assignsBit? f with
      | some (i, v) =>
        if i < 128 then bitsAfter waker m₀ f slot n k (l ++ [(i, v)]) (m.afterBit f slot n i v)
        else none
      | none =>
        if m.Gives f then none
        else
          match m.step waker with
          | .go m' => bitsAfter waker m₀ f slot n k l m'
          | _ => none

theorem BitAssignments.after (hl : Layered m₀.beginRound) (hs : m₀.sim.Orderly)
    (hslot : m₀.sim.tree.SignalAt f slot) (hn : m₀.sim.current f slot = .int n)
    (h : BitAssignments waker m₀ f l m) (hbits : ∀ p ∈ l, p.1 < 128) (k : Nat)
    {r : List (Nat × Value) × Machine} (hk : bitsAfter waker m₀ f slot n k l m = some r) :
    BitAssignments waker m₀ f r.1 r.2 ∧ ∀ p ∈ r.1, p.1 < 128 := by
  induction k generalizing l m with
  | zero =>
      cases hk
      exact ⟨h, hbits⟩
  | succ k ih =>
      simp only [bitsAfter] at hk
      split at hk
      · cases hk
        exact ⟨h, hbits⟩
      · rename_i hlong
        split at hk
        · rename_i i v hbit
          split at hk
          · rename_i hi
            obtain ⟨-, hleft⟩ := h.left hl hs hslot hn hbits (fault?_of_assignsBit? hbit)
            have hslot' : m.sim.tree.SignalAt f slot := by rwa [hleft.tree]
            have hbits' : ∀ p ∈ l ++ [(i, v)], p.1 < 128 :=
              List.forall_mem_append.mpr ⟨hbits, by simpa using hi⟩
            exact ih (.bit h hbit (assignsBit?_leads hbit hslot' hleft.current hi)
              (not_above_self rfl rfl)) hbits' hk
          · cases hk
        · split at hk
          · cases hk
          · rename_i hgives
            split at hk
            · rename_i m' hstep
              exact ih (.step h (fun heq => hlong (by simp [heq])) hgives hstep) hbits hk
            · cases hk

/-- Whether a round comes to its commit without a fault, and gives a register that holds a number no
value but by assignments to certain bits. -/
def assignsBits (waker : Waker) (m₀ : Machine) (f : FieldRef) (n : Int) (bits : List (Nat × Bool))
    (k : Nat) : Bool :=
  (m₀.sim.tree.signal? f).any fun slot =>
    (decide (slot.width ≤ 126) && bits.all fun p => decide (p.1 < slot.width)) &&
      match m₀.sim.current f slot with
      | .int held =>
        held == n && (bitsAfter waker m₀ f slot n k [] m₀.beginRound).any fun (l, m) =>
          l.map (fun p => (p.1, p.2.truthy)) == bits &&
            (decide (m.stack.length ≤ m₀.roundBase.length) && m.fault?.isNone)
      | _ => false

theorem assignsBits_sound {bits : List (Nat × Bool)} {k : Nat}
    (h : m₀.assignsBits waker f n bits k = true) (hl : Layered m₀.beginRound)
    (hs : m₀.sim.Orderly) :
    ∃ slot l m₁, m₀.sim.tree.SignalAt f slot ∧ slot.width ≤ 126 ∧
      (∀ p ∈ bits, p.1 < slot.width) ∧ m₀.sim.readField f = .ok (.int n) ∧
        BitAssignments waker m₀ f l m₁ ∧ l.map (fun p => (p.1, p.2.truthy)) = bits ∧
          m₁.stack = m₀.roundBase ∧ m₁.fault? = none := by
  obtain ⟨slot, hsignal, h⟩ := (Option.any_eq_true _ _).mp h
  have hslot := Tree.signalAt_of_signal? hsignal
  obtain ⟨hsmall, h⟩ := Bool.and_eq_true_iff.mp h
  obtain ⟨hwidth, hwithin⟩ := Bool.and_eq_true_iff.mp hsmall
  have hwithin : ∀ p ∈ bits, p.1 < slot.width :=
    fun p hp => of_decide_eq_true (List.all_eq_true.mp hwithin p hp)
  split at h
  case h_2 => cases h
  rename_i held hn
  obtain ⟨hheld, h⟩ := Bool.and_eq_true_iff.mp h
  obtain rfl := eq_of_beq hheld
  obtain ⟨⟨l, m₁⟩, hafter, h⟩ := (Option.any_eq_true _ _).mp h
  obtain ⟨hbits, h⟩ := Bool.and_eq_true_iff.mp h
  obtain ⟨hshort, hok⟩ := Bool.and_eq_true_iff.mp h
  have hread : m₀.sim.readField f = .ok (.int held) := by
    rw [Simulation.readField_of_signal hslot, hn]
  obtain ⟨hassigned, hwords⟩ := BitAssignments.start.after hl hs hslot hn (by simp) k hafter
  have hok := Option.isNone_iff_eq_none.mp hok
  obtain ⟨hround, -⟩ := hassigned.left hl hs hslot hn hwords hok
  exact ⟨slot, l, m₁, hslot, of_decide_eq_true hwidth, hwithin, hread, hassigned, eq_of_beq hbits,
    hround.stack_of_length (of_decide_eq_true hshort), hok⟩

end Machine

def twoBitsDesign : TypeTable :=
  ⟨[⟨"Top", .component {
      body := { Body.ofName "Top" with
        fields := [.ofType "clk" (.int 1 false), .ofType "r" (.int 8 false)] }
      binds := []
      syncs := [
        { Function.ofName "p" with
          body := [.assign [.subscript (.ownField 1) (.int 0)] (.int 1),
            .assign [.subscript (.ownField 1) (.int 1)] (.int 1)]
          process := some ⟨.sync, some (.ownField 0), none, []⟩ }]
      combs := []
      processes := [] }⟩], by decide⟩

/-- Both bits are assigned to, yet only the second one is set after the edge. -/
theorem earlier_bit_lost :
    (((twoBitsDesign.started "Top" 200).bind fun s => s.pulsed "clk" 200).bind fun s =>
      s.number? "r") = some 2 := by
  decide +kernel

/-- Of the round of that process the second assignment is left. -/
theorem staged_bits_kept_iff_at_edge : ∃ s m m₀ l m₁ m₂ w, Reachable s ∧
    m ∈ (Command.clockEdge "clk").states 200 s ∧ m.opening? = some m₀ ∧
      m₀.sim.readField ⟨0, 1⟩ = .ok (.int 0) ∧ Machine.BitAssignments .nobody m₀ ⟨0, 1⟩ l m₁ ∧
        l.map (fun p => (p.1, p.2.truthy)) = [(0, true), (1, true)] ∧
          m₁.step .nobody = .go m₂ ∧ m₂.sim.readField ⟨0, 1⟩ = .ok (.int w) ∧
            Word.bit w 0 = 0 ∧ Word.bit w 1 = 1 := by
  have hchecked : ((twoBitsDesign.after "Top" 200 [.start]).map fun s =>
      ((Command.clockEdge "clk").states 200 s).any fun m => m.opening?.any fun m₀ =>
        m₀.assignsBits .nobody ⟨0, 1⟩ 0 [(0, true), (1, true)] 40) = some true := by
    decide +kernel
  obtain ⟨s, hs, hany⟩ := Option.map_eq_some_iff.mp hchecked
  obtain ⟨m, hm, hopening⟩ := List.any_eq_true.mp hany
  obtain ⟨m₀, hm₀, hassigns⟩ := (Option.any_eq_true _ _).mp hopening
  have hreach := TypeTable.reachable_after hs
  obtain ⟨hlayered, horderly⟩ := hreach.states_layered hm
  obtain ⟨slot, l, m₁, hslot, hwidth, hwithin, hn, hl, hbits, hend, hok⟩ :=
    Machine.assignsBits_sound hassigns (hlayered.opening hm₀ m₀.sim.pending)
      (Machine.Orderly.opening horderly hm₀)
  obtain ⟨⟨i₀, v₀⟩, l', rfl, h₀, hbits'⟩ := List.map_eq_cons_iff.mp hbits
  obtain ⟨⟨i₁, v₁⟩, l'', rfl, h₁, hnil⟩ := List.map_eq_cons_iff.mp hbits'
  obtain rfl := List.map_eq_nil_iff.mp hnil
  simp only [Prod.mk.injEq] at h₀ h₁
  obtain ⟨rfl, htrue₀⟩ := h₀
  obtain ⟨rfl, htrue₁⟩ := h₁
  have hone : 1 < slot.width := hwithin (1, true) (by simp)
  have hplaces : ∀ p ∈ [(0, v₀)] ++ [(1, v₁)], p.1 < slot.width := by
    simp only [List.cons_append, List.nil_append, List.forall_mem_cons]
    exact ⟨by omega, hone, nofun⟩
  have htwo : Machine.BitAssignments .nobody m₀ ⟨0, 1⟩ ([(0, v₀)] ++ [(1, v₁)]) m₁ := hl
  obtain ⟨m₂, w, hstep, hread, hkept, -⟩ := Machine.staged_bits_kept_iff hreach hm hm₀ hslot hwidth
    hn htwo hplaces (by simp) hend hok
  have hzero : Word.bit w 0 = 0 := by
    rw [hkept 0 (by omega)]
    rfl
  have hset : Word.bit w 1 = 1 := by
    rw [hkept 1 hone, htrue₁]
    rfl
  exact ⟨s, m, m₀, _, m₁, m₂, w, hreach, hm, hm₀, hn, hl, hbits, hstep, hread, hzero, hset⟩

end Clockwork
