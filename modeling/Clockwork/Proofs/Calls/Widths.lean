import Clockwork.Proofs.Calls.Reachable
import Clockwork.Proofs.Elaboration.Arguments
/-!
Signals hold what fits their widths, from the elaboration of a design on and in all states that
commands lead through. What every change of the signals keeps, all commands keep. A number that is
written to a signal and fits it is read from it; the fields of an enumeration are wide enough for
all of its values that are not negative.
-/

namespace Clockwork

/-- A property of simulations that depends on the signals only, and that all their changes keep. -/
def Simulation.Lasting (P : Simulation → Prop) : Prop :=
  ∀ {s s'}, s.Updates s' → s.Coherent → P s → P s'

section Lasting

variable {P : Simulation → Prop}

theorem Simulation.Lasting.kept (hP : Lasting P) : Kept fun s => s.Orderly ∧ P s :=
  fun ha h => ⟨ha.orderly h.1, hP ha.updates h.1.toCoherent h.2⟩

theorem Reachable.lasts_in_order {s : Simulation} (hP : Simulation.Lasting P) (h : Reachable s)
    (hs : P s) {c : Command} {fuel : Nat} {m : Machine} (hm : m ∈ c.states fuel s) :
    m.sim.Orderly ∧ P m.sim := by
  cases hrun : c.run fuel s with
  | none =>
      have hmap := Recorded.map_command fuel ⟨s, []⟩ c
      rw [hrun, Option.map_eq_none_iff] at hmap
      rw [Command.states, hmap] at hm
      cases hm
  | some r => exact (h.settled.keeps hP.kept ⟨h.orderly, hs⟩ hrun).all m hm

theorem Reachable.lasts {s : Simulation} (hP : Simulation.Lasting P) (h : Reachable s) (hs : P s)
    (c : Command) (fuel : Nat) :
    (∀ m ∈ c.states fuel s, P m.sim) ∧ ∀ s' fault, c.run fuel s = some (s', fault) → P s' := by
  refine ⟨fun m hm => (h.lasts_in_order hP hs hm).2, ?_⟩
  rintro s' fault hrun
  exact (h.settled.keeps hP.kept ⟨h.orderly, hs⟩ hrun).now.2

end Lasting

/-- All values that signals of some width from 1 to 126 start with fit it. -/
def Tree.FitsWidths (t : Tree) : Prop :=
  ∀ f slot, t.SignalAt f slot → 1 ≤ slot.width → slot.width ≤ 126 →
    (t.initial f slot).Fits slot.width slot.signed

/-- All current and staged values of signals of some width from 1 to 126 fit it. -/
def Simulation.FitsWidths (s : Simulation) : Prop :=
  ∀ f slot, s.tree.SignalAt f slot → 1 ≤ slot.width → slot.width ≤ 126 →
    (s.current f slot).Fits slot.width slot.signed ∧
      ∀ v, s.staged? f slot = some v → v.Fits slot.width slot.signed

theorem Simulation.Filled.fitsWidths {s : Simulation} (h : s.Filled) : s.FitsWidths := by
  intro f slot hf hlow hhigh
  have hbits : slot.width < 128 := by omega
  exact ⟨Value.fits_of_fit_eq hlow hbits (h.current f slot hf),
    fun v hv => Value.fits_of_fit_eq hlow hbits (h.staged f slot v hf hv)⟩

section Elaborated

variable {types : TypeTable} {objects : Objects} {top : String} {values : Table String Value}
  {settings : ElabSettings} {e : Elaborated} {log : List LogRecord}

theorem elaborate_fit_initial (h : elaborate types objects top values settings = (.ok e, log))
    {f : FieldRef} {slot : FieldSlot} (hf : e.tree.SignalAt f slot) :
    (e.tree.initial f slot).fit slot.width slot.signed = e.tree.initial f slot :=
  ((elaborate_grows h).filled Tree.filled_empty).fit_initial
    ((elaborate_run h).sound Tree.sound_empty) hf

end Elaborated

theorem Reachable.filled {s : Simulation} (h : Reachable s) : s.Filled := by
  induction h with
  | @initial _ _ _ _ _ _ e _ s he hs =>
      have hfresh := Simulation.fresh_ofElaborated hs
      have hof : ∀ id, s.signalsOf id = (e.tree.signalsOf id).discard := fun id => by
        rw [Simulation.signalsOf, hfresh.signals, SignalStore.get_start, Tree.signalsOf]
      refine ⟨fun f slot hf => ?_, fun f slot v _ hv => ?_⟩
      · rw [hfresh.tree] at hf
        rw [Simulation.current, hof]
        exact elaborate_fit_initial he hf
      · rw [Simulation.staged?, hof] at hv
        cases hv
  | @command _ _ c fuel _ h hrun ih =>
      exact (h.lasts Simulation.Updates.filled ih c fuel).2 _ _ hrun

/-- The values of signals fit their widths: those that signals of an elaborated design start with,
and all current and staged ones of its simulation, between commands and in all states of their
runs. -/
theorem signals_fit_widths :
    (∀ {types objects top values settings e log},
      elaborate types objects top values settings = (.ok e, log) → e.tree.FitsWidths) ∧
    ∀ {s}, Reachable s →
      s.FitsWidths ∧ ∀ (c : Command) (fuel : Nat), ∀ m ∈ c.states fuel s, m.sim.FitsWidths := by
  refine ⟨?_, ?_⟩
  · intro types objects top values settings e log h f slot hf hlow hhigh
    have hbits : slot.width < 128 := by omega
    exact Value.fits_of_fit_eq hlow hbits (elaborate_fit_initial h hf)
  · intro s h
    refine ⟨h.filled.fitsWidths, fun c fuel m hm => ?_⟩
    exact ((h.lasts Simulation.Updates.filled h.filled c fuel).1 m hm).fitsWidths

/-- Two registers of four bits, with and without a sign, that start with numbers which do not fit;
the first one is given another such number at every edge. -/
def narrowDesign : TypeTable :=
  ⟨[⟨"Top", .component { Component.ofName "Top" with
      body := { Body.ofName "Top" with
        fields := [.ofType "clk" (.int 1 false),
          { Field.ofType "a" (.int 4 false) with initial := some (.int 20) },
          { Field.ofType "b" (.int 4 true) with initial := some (.int 9) }] }
      syncs := [{ Function.ofName "p" with
        body := [.assign [.ownField 1] (.int 103)]
        process := some ⟨.sync, some (.ownField 0), none, []⟩ }] }⟩], by decide⟩

theorem signals_fit_widths_narrow : ∃ e log s,
    elaborate narrowDesign .empty "Top" .empty .standard = (.ok e, log) ∧ e.tree.FitsWidths ∧
      Reachable s ∧ s.FitsWidths ∧ s.number? "a" = some 7 ∧ s.number? "b" = some (-7) := by
  have hbuilt :
      (elaborate narrowDesign .empty "Top" .empty .standard).1.toOption.isSome = true := by
    decide +kernel
  have hrun : (narrowDesign.after "Top" 200 [.start, .clockEdge "clk"]).map (fun s =>
      (s.number? "a", s.number? "b")) = some (some 7, some (-7)) := by
    decide +kernel
  obtain ⟨s, hs, hvalues⟩ := Option.map_eq_some_iff.mp hrun
  obtain ⟨ha, hb⟩ := Prod.mk.inj hvalues
  have hreach := TypeTable.reachable_after hs
  cases hr : elaborate narrowDesign .empty "Top" .empty .standard with
  | mk r log =>
      rw [hr] at hbuilt
      cases r with
      | error errors => cases hbuilt
      | ok e =>
          exact ⟨e, log, s, rfl, signals_fit_widths.1 hr, hreach,
            (signals_fit_widths.2 hreach).1, ha,
            hb⟩

theorem Value.eq_of_same_int {v : Value} {bits : Nat} {signed : Bool} {n : Int}
    (hv : v.fit bits signed = v) (h : v.same (.int n) = true) : v = .int n := by
  cases v with
  | int k => rw [beq_iff_eq.mp h]
  | bool b => cases hv
  | _ => cases h

theorem Simulation.readField_eq_ok {s : Simulation} {f : FieldRef} {slot : FieldSlot} {v : Value}
    (hf : s.tree.SignalAt f slot) (hv : s.current f slot = v) : s.readField f = .ok v := by
  rw [readField_of_signal hf, hv]

namespace Machine

variable {m : Machine} {f : FieldRef} {slot : FieldSlot}

theorem readField_drive (hs : m.sim.Coherent) (hfilled : m.sim.Filled)
    (hf : m.sim.tree.SignalAt f slot) (n : Int) :
    (m.drive f (.int n)).sim.readField f = .ok (.int (Word.fit n slot.width slot.signed)) := by
  cases hsame : ((m.sim.signalsOf f.owner).read slot.key).same
      ((Value.int n).fit slot.width slot.signed) with
  | true =>
      rw [drive_same hf.1 hsame]
      exact Simulation.readField_eq_ok (s := m.sim) hf
        (Value.eq_of_same_int (hfilled.current f slot hf) hsame)
  | false =>
      rw [drive_changed hf.1 hsame]
      obtain ⟨p, c, l, heq⟩ := (m.sim.withValue f slot ((Value.int n).fit slot.width slot.signed))
        |>.announce_eq f slot.name ((m.sim.signalsOf f.owner).read slot.key)
          ((Value.int n).fit slot.width slot.signed)
      change Simulation.readField (((m.sim.withValue f slot _).trace f _ _ _).noteEdge f _ _) f = _
      have hafter := hs.current_withValue hf.1 hf.1 ((Value.int n).fit slot.width slot.signed)
      rw [if_pos rfl] at hafter
      rw [heq]
      exact Simulation.readField_eq_ok hf hafter

theorem readField_write (hs : m.sim.Coherent) (hfilled : m.sim.Filled)
    (hf : m.sim.tree.SignalAt f slot) (n : Int) : (m.write f (.int n) .immediate).sim.readField f =
      .ok (.int (Word.fit n slot.width slot.signed)) := by
  have hdriven : m.write f (.int n) .immediate = m.driveAndSettle f (.int n) := by
    simp only [write, hf.1, hf.2]
  rw [hdriven]
  exact readField_drive (m := { m with
    sim := { m.sim with driveDepth := m.sim.driveDepth + 1 }
    stack := .driven :: m.stack }) (hs.congr rfl rfl) ⟨hfilled.current, hfilled.staged⟩ hf n

/-- A signal that a value is staged for holds what fits it of the number after the commit. -/
theorem readField_commit (hs : m.sim.Coherent) (hfilled : m.sim.Filled)
    (hf : m.sim.tree.SignalAt f slot) (n : Int) :
    (m.write f (.int n) .staged).sim.applyStaged.1.readField f =
      .ok (.int (Word.fit n slot.width slot.signed)) := by
  have hstaged : (m.write f (.int n) .staged).sim = m.sim.stage f slot (.int n) := by
    simp only [write, hf.1, hf.2]
    rfl
  obtain ⟨signals, heq⟩ := (m.sim.stage f slot (.int n)).applyStaged_eq
  have hsignal : (m.sim.stage f slot (.int n)).applyStaged.1.tree.SignalAt f slot := by
    rw [heq]
    exact hf
  rw [hstaged]
  refine Simulation.readField_eq_ok hsignal ?_
  rw [(hs.stage hf _).current_applyStaged, hs.staged?_stage hf hf, if_pos rfl,
    Simulation.Coherent.current_stage]
  dsimp only
  split
  · rename_i hsame
    exact Value.eq_of_same_int (hfilled.current f slot hf) hsame
  · rfl

end Machine

theorem Simulation.Updates.tree {s s' : Simulation} (h : s.Updates s') : s'.tree = s.tree := by
  cases h with
  | same ht _ | staged _ _ ht _ | driven _ _ ht _ | committed ht _ | dropped ht _ => exact ht

theorem Reachable.machine {s : Simulation} (h : Reachable s) {m : Machine}
    (hm : m.sim = s ∨ ∃ c fuel, m ∈ Command.states c fuel s) :
    m.sim.Coherent ∧ m.sim.Filled ∧ m.sim.tree = s.tree := by
  rcases hm with rfl | ⟨c, fuel, hm⟩
  · exact ⟨h.coherent, h.filled, rfl⟩
  · have hlasting : Simulation.Lasting fun s' => s'.Filled ∧ s'.tree = s.tree :=
      fun hupdates hs hP => ⟨hupdates.filled hs hP.1, hupdates.tree.trans hP.2⟩
    obtain ⟨horder, hfilled, htree⟩ := h.lasts_in_order hlasting ⟨h.filled, rfl⟩ hm
    exact ⟨horder.toCoherent, hfilled, htree⟩

namespace Elaboration

variable {variants : List (String × Int)}

theorem enumBits_pos (variants : List (String × Int)) : 0 < enumBits variants := by
  unfold enumBits
  split
  · split
    · exact Nat.succ_pos _
    · exact Nat.one_pos
  · exact Nat.one_pos

theorem lt_two_pow_enumBits {x : String × Int} (hx : x ∈ variants) :
    x.2 < 2 ^ enumBits variants := by
  have hmem : x.2 ∈ variants.map (·.2) := List.mem_map_of_mem hx
  unfold enumBits
  split
  · rename_i largest hmax
    have hle : x.2 ≤ largest := (List.max?_eq_some_iff.mp hmax).2 _ hmem
    split
    · have hlog : largest.toNat < 2 ^ (Nat.log2 largest.toNat + 1) := Nat.lt_log2_self
      have hcast :
          (largest.toNat : Int) < 2 ^ (Nat.log2 largest.toNat + 1) := by exact_mod_cast hlog
      omega
    · omega
  · rename_i hnone
    rw [List.max?_eq_none_iff.mp hnone] at hmem
    cases hmem

theorem fits_enumBits_iff {x : String × Int} (hx : x ∈ variants) :
    Word.Fits (enumBits variants) false x.2 ↔ 0 ≤ x.2 := by
  simp only [Word.Fits, Bool.false_eq_true, ↓reduceIte, lt_two_pow_enumBits hx, and_true]

end Elaboration

section Variants

open Elaboration Elaboration.Request

variable {types : TypeTable} {objects : Objects} {top : String} {values : Table String Value}
  {settings : ElabSettings} {r : Elaborated} {log : List LogRecord} {x : Request} {c : Component}
  {line : List Component} {fields : List Field} {e₁ : Elaboration} {id index : Nat} {f : Field}
  {name : String} {variants : List (String × Int)}

/-- A field of an enumeration without a width of its own is a signal of the width of the
enumeration, without a sign. -/
theorem enumeration_built (hr : elaborate types objects top values settings = (.ok r, log))
    (hx : Relation.ReflTransGen (Makes values settings.maxDepth) (start types objects top) x)
    (hopens : x.Opens settings.maxDepth c line fields e₁ id) (hf : fields[index]? = some f)
    (hconst : f.isConst = false) (hwidth : f.width = none)
    (htype : types.resolve f.type = .ok (.enum name variants)) :
    ∃ slot, r.tree.SignalAt ⟨id, index⟩ slot ∧ slot.width = enumBits variants ∧
      slot.signed = false := by
  obtain ⟨e₂, e₃, e', history, hturn, htypes, hbuilt, hlater, htree⟩ := hopens.built hr hx hf hconst
  rw [← htypes] at htype
  simp only [buildField, htype, fieldWidth, hwidth] at hbuilt
  have hsignal : e₂.buildSignal id index f (x.arguments.lookup f.name) (enumBits variants) false =
    .ok e₃ := hbuilt
  obtain ⟨slot, hslot, hbits, hsigned, -⟩ :=
    buildSignal_starts hturn.ready.sound (hturn.lt_size hf) hsignal
  obtain ⟨hslot', -⟩ := hlater.steps.run.initial_kept hslot
  exact ⟨slot, htree ▸ hslot', hbits, hsigned⟩

/-- The values of an enumeration that are read back from its fields are those that are not
negative, whether they are written at once or staged for the next commit. -/
theorem variants_read_back_iff (hr : elaborate types objects top values settings = (.ok r, log))
    (hx : Relation.ReflTransGen (Makes values settings.maxDepth) (start types objects top) x)
    (hopens : x.Opens settings.maxDepth c line fields e₁ id) (hf : fields[index]? = some f)
    (hconst : f.isConst = false) (hwidth : f.width = none)
    (htype : types.resolve f.type = .ok (.enum name variants)) :
    ∃ slot, r.tree.SignalAt ⟨id, index⟩ slot ∧ 1 ≤ slot.width ∧ (slot.width ≤ 126 →
      ∀ s, Reachable s → s.tree = r.tree →
      ∀ m : Machine, (m.sim = s ∨ ∃ c fuel, m ∈ Command.states c fuel s) → ∀ v ∈ variants,
        ((m.write ⟨id, index⟩ (.int v.2) .immediate).sim.readField ⟨id, index⟩ = .ok (.int v.2) ↔
          0 ≤ v.2) ∧
        ((m.write ⟨id, index⟩ (.int v.2) .staged).sim.applyStaged.1.readField ⟨id, index⟩ =
          .ok (.int v.2) ↔ 0 ≤ v.2)) := by
  obtain ⟨slot, hslot, hbits, hsigned⟩ := enumeration_built hr hx hopens hf hconst hwidth htype
  have hpos : 0 < slot.width := hbits ▸ enumBits_pos variants
  refine ⟨slot, hslot, hpos, fun hnarrow s hs htree m hm v hv => ?_⟩
  obtain ⟨hcoherent, hfilled, hsame⟩ := hs.machine hm
  have hsignal : m.sim.tree.SignalAt ⟨id, index⟩ slot := by
    rw [hsame, htree]
    exact hslot
  have hfit : Word.fit v.2 slot.width slot.signed = v.2 ↔ 0 ≤ v.2 := by
    rw [Word.fit_eq_self_iff hpos (by omega), hbits, hsigned, fits_enumBits_iff hv]
  rw [Machine.readField_write hcoherent hfilled hsignal,
    Machine.readField_commit hcoherent hfilled hsignal]
  have hvalue :
      (Except.ok (Value.int (Word.fit v.2 slot.width slot.signed)) : Except SimError Value) =
      .ok (.int v.2) ↔ Word.fit v.2 slot.width slot.signed = v.2 :=
    ⟨fun h => Value.int.inj (Except.ok.inj h), fun h => by rw [h]⟩
  exact ⟨hvalue.trans hfit, hvalue.trans hfit⟩

end Variants

def variantTop : Component :=
  { Component.ofName "Top" with
    body := { Body.ofName "Top" with fields := [.ofType "e" (.ref "E")] } }

def variantDesign : TypeTable :=
  ⟨[⟨"E", .enum "E" [("NEG", -1), ("POS", 1)]⟩, ⟨"Top", .component variantTop⟩], by decide⟩

theorem variantDesign_resolve :
    variantDesign.resolve (.ref "E") = .ok (.enum "E" [("NEG", -1), ("POS", 1)]) :=
  TypeTable.resolve_of_registered rfl (by simp)

theorem variantTop_field : variantTop.body.fields[0]? = some (.ofType "e" (.ref "E")) := rfl

theorem variantDesign_opens : ∃ e₁,
    (Elaboration.Request.start variantDesign .empty "Top").Opens 64 variantTop [variantTop]
      variantTop.body.fields e₁ 0 :=
  ⟨_, Elaboration.Request.component_of_registered rfl rfl rfl, List.not_mem_nil, Nat.zero_le _, rfl,
    rfl, _, rfl, rfl⟩

theorem variantDesign_elaboration : ∃ r log s slot,
    elaborate variantDesign .empty "Top" .empty .standard = (.ok r, log) ∧
      Simulation.ofElaborated r .standard = .ok s ∧ r.tree.SignalAt ⟨0, 0⟩ slot ∧
      slot.width = 1 := by
  have hbuilt : (variantDesign.simulation "Top").isSome = true := by decide +kernel
  obtain ⟨s, hs⟩ := Option.isSome_iff_exists.mp hbuilt
  obtain ⟨r, log, hr, hsim⟩ := TypeTable.exists_elaborated hs
  obtain ⟨e₁, hopens⟩ := variantDesign_opens
  obtain ⟨slot, hslot, hbits, -⟩ :=
    enumeration_built hr .refl hopens variantTop_field rfl rfl variantDesign_resolve
  exact ⟨r, log, s, slot, hr, hsim, hslot, hbits.trans (by decide)⟩

theorem variants_read_back_iff_of_signs : ∃ r log s,
    elaborate variantDesign .empty "Top" .empty .standard = (.ok r, log) ∧
      Simulation.ofElaborated r .standard = .ok s ∧
      (s.machine.write ⟨0, 0⟩ (.int 1) .immediate).sim.readField ⟨0, 0⟩ = .ok (.int 1) ∧
      (s.machine.write ⟨0, 0⟩ (.int (-1)) .immediate).sim.readField ⟨0, 0⟩ ≠ .ok (.int (-1)) := by
  obtain ⟨r, log, s, slot, hr, hsim, hslot, hwidth⟩ := variantDesign_elaboration
  obtain ⟨e₁, hopens⟩ := variantDesign_opens
  obtain ⟨slot', hslot', -, hread⟩ :=
    variants_read_back_iff hr .refl hopens variantTop_field rfl rfl variantDesign_resolve
  obtain rfl := hslot.unique hslot'
  have hreads := hread (by omega) s (.initial hr hsim) (Simulation.fresh_ofElaborated hsim).tree
    s.machine (.inl rfl)
  refine ⟨r, log, s, hr, hsim, ?_, ?_⟩
  · exact (hreads ("POS", 1) (by decide)).1.mpr (by decide)
  · exact fun h => absurd ((hreads ("NEG", -1) (by decide)).1.mp h) (by decide)

/-- The value below zero that the field of one bit is given is read from it as the other one. -/
theorem negative_variant_lost : ∃ r log slot s s',
    elaborate variantDesign .empty "Top" .empty .standard = (.ok r, log) ∧
      r.tree.SignalAt ⟨0, 0⟩ slot ∧ slot.width = 1 ∧
      variantDesign.after "Top" 200 [.start] = some s ∧
      (Command.setInput "e" (.int (-1))).run 200 s = some (s', none) ∧ s'.number? "e" = some 1 := by
  obtain ⟨r, log, -, slot, hr, -, hslot, hwidth⟩ := variantDesign_elaboration
  have hrun : ((variantDesign.after "Top" 200 [.start]).bind fun s =>
      ((Command.setInput "e" (.int (-1))).run 200 s).map fun r =>
        (r.2.isNone, r.1.number? "e")) = some (true, some 1) := by
    decide +kernel
  obtain ⟨s, hs, hrun⟩ := Option.bind_eq_some_iff.mp hrun
  obtain ⟨⟨s', fault⟩, hset, hvalues⟩ := Option.map_eq_some_iff.mp hrun
  obtain ⟨hfault, hnumber⟩ := Prod.mk.inj hvalues
  obtain rfl : fault = none := Option.isNone_iff_eq_none.mp hfault
  exact ⟨r, log, slot, s, s', hr, hslot, hwidth, hs, hset, hnumber⟩

end Clockwork
