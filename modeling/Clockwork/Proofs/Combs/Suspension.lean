import Clockwork.Proofs.Combs.DryRun
import Clockwork.Proofs.Machine.Bindings

namespace Clockwork.Machine

/-- A write of a body is being worked off above the frames that are left of the body, and `a` is the
activation of the body. -/
inductive Suspended (a : Activation) (base : List Frame) (m : Machine) : Prop
  /-- A frame that works off changes is on top. -/
  | engine (low : List Frame) (hs : m.stack = low ++ Frame.driven :: base)
      (hlow : ∀ f ∈ low, f.isWork = true) (ha : m.activation = a)
      (hc : m.control = .done (.value .none) ∨ ∃ p d rest, low = .combOver p d :: rest)
  | body (top low : List Frame) (name : String)
      (hs : m.stack = top ++ .boundary name a :: (low ++ Frame.driven :: base))
      (hlow : ∀ f ∈ low, f.isWork = true)

theorem LayeredStack.above_driven {f : Frame} {rest : List Frame} (h : LayeredStack (f :: rest))
    (hf : f.isWork = true) (hrest : onBody rest = false) (hd : Frame.driven ∈ rest) :
    (∃ fs v, f = .propagate fs v) ∨ (∃ l, f = .combs l) ∨ ∃ p d, f = .combOver p d := by
  have hwork : Frame.driven ∈ rest.filter Frame.isWork := List.mem_filter.mpr ⟨hd, rfl⟩
  cases f with
  | propagate fs v => exact .inl ⟨fs, v, rfl⟩
  | combs l => exact .inr (.inl ⟨l, rfl⟩)
  | combOver p d => exact .inr (.inr ⟨p, d, rfl⟩)
  | driven =>
      have hbody : onBody rest = true := h.1
      rw [hrest] at hbody
      cases hbody
  | settled => exact absurd (h.1 .driven hd) (by simp [Frame.isWork])
  | round => simp [h.work_round] at hwork
  | syncs l => simp [h.work_syncs] at hwork
  | commit => simp [h.work_commit (.inl rfl)] at hwork
  | changes l => simp [h.work_commit (.inr ⟨l, rfl⟩)] at hwork
  | _ => cases hf

/-- A write within a combinational process is not the outermost one, or it is made in a round. -/
theorem Layered.endDrive_inside {m : Machine} {base : List Frame} (h : m.Layered)
    (hs : m.stack = .driven :: base) (hcomb : ∃ p d, Frame.combOver p d ∈ base) (v : Value) :
    ∃ s, ({ m with stack := base }.endDrive (.value v)) =
        ⟨.done (.value (if 1 < m.sim.driveDepth then v else .none)), m.activation, base, s⟩ := by
  let m₁ : Machine := { m with stack := base }
  by_cases hin : 0 < m₁.undriven.sim.driveDepth
  · have hdepth : 1 < m.sim.driveDepth := by
      change 0 < m.sim.driveDepth - 1 at hin
      omega
    rw [endDrive_inner (m := m₁) (.value v) hin, if_pos hdepth]
    exact ⟨_, rfl⟩
  · have hdepth : m.sim.driveDepth ≤ 1 := by
      change ¬ 0 < m.sim.driveDepth - 1 at hin
      omega
    have hround : m.sim.inRound = true := by
      apply Decidable.byContradiction
      intro hnot
      obtain ⟨hdriven, -, hsettled⟩ := h.counted
      have hstack := h.stack
      rw [hs] at hdriven hsettled hstack
      rw [List.countP_cons_of_pos rfl] at hdriven
      obtain ⟨p, d, hmem⟩ := hcomb
      have hnone := hstack.2.no_work (by omega)
        (by simpa [hnot, Frame.isSettled] using hsettled) _ hmem
      cases hnone
    rw [endDrive_settle (m := m₁) hin (by simp), settle_inRound (m := m₁.undriven) hround,
      if_neg (by omega)]
    exact ⟨_, rfl⟩

theorem runComb_of_combAt (m : Machine) {p : ProcessRef} {f : Function}
    (hf : m.sim.tree.CombAt p f) (hdeep : m.sim.combDepth < m.sim.maxCombDepth) :
    m.runComb p =
      (f.begun p { m.sim with combDepth := m.sim.combDepth + 1 }).onto
        (.boundary f.name m.activation :: .combOver p (m.sim.combDepth + 1) :: m.stack) := by
  have hf' : (m.sim.tree.inst p.owner).combs[p.index]? = some f := hf
  have hnot : ¬ m.sim.maxCombDepth < m.sim.combDepth + 1 := by omega
  simp only [runComb, hf', hnot, ↓reduceIte, runBody, Function.begun]
  rw [← block_onto]
  rfl

theorem runComb_of_none (m : Machine) {p : ProcessRef} (h : ∀ f, ¬ m.sim.tree.CombAt p f) :
    m.runComb p = m.finish := by
  cases hf : (m.sim.tree.inst p.owner).combs[p.index]? with
  | none => simp only [runComb, hf]
  | some f => exact absurd hf (h f)

theorem runComb_begun (m : Machine) {p : ProcessRef} (hok : (m.runComb p).fault? = none) :
    ((∀ f, ¬ m.sim.tree.CombAt p f) ∧ m.runComb p = m.finish) ∨
      ∃ f, m.sim.tree.CombAt p f ∧ m.sim.combDepth < m.sim.maxCombDepth ∧ m.runComb p =
        (f.begun p { m.sim with combDepth := m.sim.combDepth + 1 }).onto
          (.boundary f.name m.activation :: .combOver p (m.sim.combDepth + 1) :: m.stack) := by
  by_cases hcomb : ∃ f, m.sim.tree.CombAt p f
  · obtain ⟨f, hf⟩ := hcomb
    by_cases hdeep : m.sim.maxCombDepth < m.sim.combDepth + 1
    · have hf' : (m.sim.tree.inst p.owner).combs[p.index]? = some f := hf
      simp only [runComb, hf', hdeep, ↓reduceIte] at hok
      cases hok
    · exact .inr ⟨f, hf, by omega, m.runComb_of_combAt hf (by omega)⟩
  · have hnone : ∀ f, ¬ m.sim.tree.CombAt p f := not_exists.mp hcomb
    exact .inl ⟨hnone, m.runComb_of_none hnone⟩

/-- A combinational process that is due next is run, and the others stay due below it. -/
theorem Layered.turn {m m' : Machine} {waker : Waker} {p : ProcessRef} {l : List ProcessRef}
    {below : List Frame} (hl : Layered m) (hwork : m.work = .combs (p :: l) :: below)
    (hstep : m.step waker = .go m') (hok : m'.fault? = none) :
    ∃ low, m.stack = .combs (p :: l) :: low ∧
      m' = { m with stack := .combs l :: low }.runComb p := by
  cases hb : onBody m.stack with
  | true =>
      rcases hl.stack.work_onBody hb with hnone | ⟨q, d, rest, hq⟩ | ⟨ps, hps⟩
      · rw [work, hnone] at hwork
        cases hwork
      · rw [work, hq] at hwork
        cases hwork
      · rw [work, hps] at hwork
        cases hwork
  | false =>
      obtain ⟨c, hc, hplain⟩ := hl.control hb
      cases hs : m.stack with
      | nil =>
          rw [hs] at hb
          cases hb
      | cons g low =>
          have hg : g.isWork = true := by
            rw [hs] at hb
            simpa [onBody] using hb
          rw [work_cons hs hg] at hwork
          cases hwork
          rw [step_done hc hs] at hstep
          cases hstep
          cases c with
          | value v => exact ⟨low, rfl, rfl⟩
          | failed e => exact absurd (unwind_failsWith _ _ e).control (fault?_eq_none hok e)
          | _ => cases hplain

theorem holds_of_write {m : Machine} (hs : m.sim.Coherent) {f : FieldRef} {v : Value}
    (hok : (m.write f v .immediate).fault? = none) : (m.write f v .immediate).sim.Holds f v := by
  rcases m.write_cases f v .immediate with ⟨e, heq⟩ | ⟨slot, hslot, hsignal, -, heq⟩
  · rw [heq] at hok
    cases hok
  · rw [heq rfl, driveAndSettle]
    let m₁ : Machine := { m with
      sim := { m.sim with driveDepth := m.sim.driveDepth + 1 }
      stack := .driven :: m.stack }
    change (m₁.drive f v).sim.Holds f v
    cases hv : ((m₁.sim.signalsOf f.owner).read slot.key).same (v.fit slot.width slot.signed) with
    | true =>
        rw [drive_same (m := m₁) hslot hv]
        exact ⟨slot, ⟨hslot, hsignal⟩, hv⟩
    | false =>
        rw [drive_changed (m := m₁) hslot hv]
        let s₁ := m₁.sim.withValue f slot (v.fit slot.width slot.signed)
        change ((m₁.setSim s₁).announce f slot.name _ _ _).sim.Holds f v
        have hagrees := announce_agrees (m := m₁.setSim s₁) (s₁.fieldName_of_slot hslot).symm
          ((m₁.sim.signalsOf f.owner).read slot.key) (v.fit slot.width slot.signed)
          [.combs (m₁.sim.watchers f)]
        refine ⟨slot, ?_, ?_⟩
        · rw [hagrees.tree, Simulation.tree_changed]
          exact ⟨hslot, hsignal⟩
        · rw [Simulation.current_congr (hagrees.signals.trans (Simulation.signals_changed _ _ _ _))]
          have hcoherent : m₁.sim.Coherent := hs.congr rfl rfl
          change (s₁.current f slot).same _ = true
          rw [hcoherent.current_withValue hslot hslot, if_pos rfl]
          exact Value.same_refl _

namespace Suspended

variable {a : Activation} {base : List Frame} {m m' : Machine} {waker : Waker}

/-- A body that is over leaves its end to a combinational process. -/
theorem of_boundary {low : List Frame} {name : String} (hl : LayeredStack
    (.boundary name a :: (low ++ Frame.driven :: base))) (hlow : ∀ f ∈ low, f.isWork = true) :
    ∃ p d rest, low = Frame.combOver p d :: rest := by
  obtain ⟨⟨-, hb | ⟨p, d, rest, heq⟩ | ⟨l, rest, heq⟩⟩, hrest⟩ := hl
  · cases low with
    | nil => cases hb
    | cons f low => simp [onBody, hlow f (by simp)] at hb
  · cases low with
    | nil => cases heq
    | cons f low =>
        cases heq
        exact ⟨p, d, low, rfl⟩
  · -- Below the body of a clocked process there is no write under way.
    rw [heq] at hrest
    have hwork := hrest.work_syncs
    cases low with
    | nil => cases heq
    | cons f low =>
        cases heq
        have hmem : Frame.driven ∈ (low ++ Frame.driven :: base).filter Frame.isWork := by
          simp [Frame.isWork]
        rw [List.append_eq] at hwork
        rw [hwork] at hmem
        simp at hmem

/-- A frame that works off changes takes its turn. -/
theorem resume {f : Frame} {low : List Frame} (hl : m.Layered)
    (hs : m.stack = f :: (low ++ Frame.driven :: base)) (hlow : ∀ g ∈ f :: low, g.isWork = true)
    (v : Value)
    (hok : ({ m with stack := low ++ Frame.driven :: base }.resume f v).fault? = none) :
    Suspended m.activation base ({ m with stack := low ++ Frame.driven :: base }.resume f v) := by
  have hlow' : ∀ g ∈ low, g.isWork = true := fun g hg => hlow g (List.mem_cons_of_mem _ hg)
  have hstack := hl.stack
  rw [hs] at hstack
  have hrest : onBody (low ++ Frame.driven :: base) = false := by
    cases low with
    | nil => rfl
    | cons g low => simp [onBody, hlow' g (by simp)]
  have hworks : ∀ fs : List Frame, (∀ g ∈ fs, g.isWork = true) →
      ∀ g ∈ fs ++ low, g.isWork = true := by
    intro fs hfs g hg
    rcases List.mem_append.mp hg with hg | hg
    · exact hfs g hg
    · exact hlow' g hg
  rcases hstack.above_driven (hlow f (by simp)) hrest (by simp) with
    ⟨fs, w, rfl⟩ | ⟨l, rfl⟩ | ⟨p, d, rfl⟩
  · cases fs with
    | nil => exact .engine low rfl hlow' rfl (.inl rfl)
    | cons g fs =>
        let m₁ : Machine := { m with stack := .propagate fs w :: (low ++ Frame.driven :: base) }
        change (m₁.drive g w).fault? = none at hok
        change Suspended m.activation base (m₁.drive g w)
        cases hslot : m₁.sim.tree.slot g.owner g.index with
        | error e =>
            rw [drive_error hslot] at hok
            cases hok
        | ok slot =>
            cases hv : ((m₁.sim.signalsOf g.owner).read slot.key).same
                (w.fit slot.width slot.signed) with
            | true =>
                rw [drive_same hslot hv]
                exact .engine (.propagate fs w :: low) rfl (hworks [_] (by simp [Frame.isWork])) rfl
                  (.inl rfl)
            | false =>
                rw [drive_changed hslot hv]
                exact .engine (.propagate _ _ :: .combs _ :: .propagate fs w :: low) rfl
                  (hworks [_, _, _] (by simp [Frame.isWork])) rfl (.inl rfl)
  · cases l with
    | nil => exact .engine low rfl hlow' rfl (.inl rfl)
    | cons p l =>
        let m₁ : Machine := { m with stack := .combs l :: (low ++ Frame.driven :: base) }
        change (m₁.runComb p).fault? = none at hok
        change Suspended m.activation base (m₁.runComb p)
        rcases m₁.runComb_begun hok with ⟨-, heq⟩ | ⟨f, -, -, heq⟩
        · rw [heq]
          exact .engine (.combs l :: low) rfl (hworks [_] (by simp [Frame.isWork])) rfl
            (.inl rfl)
        · rw [heq]
          exact .body _ (.combOver p _ :: .combs l :: low) f.name rfl
            (hworks [_, _] (by simp [Frame.isWork]))
  · exact .engine low rfl hlow' rfl (.inl rfl)

theorem of_write {f : FieldRef} {v : Value}
    (hok : (m.write f v .immediate).fault? = none) :
    Suspended m.activation m.stack (m.write f v .immediate) := by
  rcases m.write_cases f v .immediate with ⟨e, heq⟩ | ⟨slot, hslot, -, -, heq⟩
  · rw [heq] at hok
    cases hok
  · rw [heq rfl, driveAndSettle]
    let m₁ : Machine := { m with
      sim := { m.sim with driveDepth := m.sim.driveDepth + 1 }
      stack := .driven :: m.stack }
    change Suspended m.activation m.stack (m₁.drive f v)
    cases hv : ((m₁.sim.signalsOf f.owner).read slot.key).same (v.fit slot.width slot.signed) with
    | true =>
        rw [drive_same (m := m₁) hslot hv]
        exact .engine [] rfl (by simp) rfl (.inl rfl)
    | false =>
        rw [drive_changed (m := m₁) hslot hv]
        exact .engine [.propagate _ _, .combs _] rfl (by simp [Frame.isWork]) rfl (.inl rfl)

/-- What a write sets going stays above the frames that are left of the body that wrote, until it
is worked off. -/
theorem step (h : Suspended a base m) (hl : m.Layered) (hcomb : ∃ p d, Frame.combOver p d ∈ base)
    (hstep : m.step waker = .go m') (hok : m'.fault? = none) :
    Suspended a base m' ∨ ∃ s, m' = ⟨.done (.value .none), a, base, s⟩ := by
  cases h with
  | body top low name hs hlow =>
      have hstack := hl.stack
      rw [hs] at hstack
      rcases step_above_boundary hs hstep with ⟨top', htop⟩ | ⟨rfl, c, rfl⟩
      · exact .inl (.body top' low name htop hlow)
      · obtain ⟨p, d, rest, rfl⟩ := of_boundary hstack hlow
        exact .inl (.engine _ rfl hlow rfl (.inr ⟨p, d, rest, rfl⟩))
  | engine low hs hlow ha hc =>
      subst ha
      cases low with
      | nil =>
          -- All is worked off, so the write ends and the body goes on.
          have hnone : m.control = .done (.value .none) := by
            rcases hc with hc | ⟨p, d, rest, heq⟩
            · exact hc
            · cases heq
          rw [step_done hnone hs] at hstep
          cases hstep
          obtain ⟨s, heq⟩ := hl.endDrive_inside hs hcomb .none
          rw [ite_self] at heq
          exact .inr ⟨s, heq⟩
      | cons f low =>
          have hhead : onBody m.stack = false := by
            rw [hs]
            simp [onBody, hlow f (by simp)]
          obtain ⟨c, hdone, hplain⟩ := hl.control hhead
          rw [step_done hdone hs] at hstep
          cases hstep
          cases c with
          | value v => exact .inl (resume hl hs hlow v hok)
          | failed e =>
              exact absurd (unwind_failsWith _ f e).control (fault?_eq_none hok e)
          | _ => cases hplain

end Suspended

end Clockwork.Machine
