import Clockwork.Proofs.Machine.Edges
import Clockwork.Proofs.Round.Shape
/-!
Which steps concern the pause of a clocked process: those that run the process, and those at the
end of a statement of its body. All others leave the pause alone, and so does all that a process
sets going.
-/

namespace Clockwork

theorem Frame.calm.not_ofProcess {g : Frame} (h : g.calm) (p : ProcessRef) : ¬ g.ofProcess p := by
  cases g <;> first | exact fun hp => hp | exact h.elim

namespace Machine

/-- A move that leaves the pause of a process alone, and adds no frame of the process. -/
structure Bystands (p : ProcessRef) (m m' : Machine) : Prop where
  frames : ∀ g ∈ m'.stack, g.ofProcess p → g ∈ m.stack
  paused : m'.sim.paused.get? p = m.sim.paused.get? p

namespace Bystands

variable {p : ProcessRef} {m m' : Machine}

theorem here (c : Control) (a : Activation) {s : Simulation}
    (hs : s.paused.get? p = m.sim.paused.get? p) : Bystands p m ⟨c, a, m.stack, s⟩ :=
  ⟨fun _ hg _ => hg, hs⟩

theorem calm (h : CalmMove m m') : Bystands p m m' := by
  obtain ⟨⟨fs, hfs, hcalm⟩, hsim⟩ := h
  refine ⟨fun g hg hp => ?_, by rw [hsim.paused]⟩
  rw [hfs] at hg
  rcases List.mem_append.mp hg with hg | hg
  · exact absurd hp ((hcalm g hg).not_ofProcess p)
  · exact hg

theorem above {l : List Frame} {c : Control} {a : Activation} {s : Simulation}
    (h : Bystands p ⟨c, a, l ++ m.stack, s⟩ m') (hl : ∀ g ∈ l, ¬ g.ofProcess p)
    (hs : s.paused.get? p = m.sim.paused.get? p) : Bystands p m m' := by
  refine ⟨fun g hg hp => ?_, h.paused.trans hs⟩
  rcases List.mem_append.mp (h.frames g hg hp) with hmem | hmem
  · exact absurd hp (hl g hmem)
  · exact hmem

theorem push {g : Frame} (hg : ¬ g.ofProcess p) (c : Control) : Bystands p m (m.push g c) := by
  refine ⟨fun g' hg' hp => ?_, rfl⟩
  rcases List.mem_cons.mp hg' with rfl | hmem
  · exact absurd hp hg
  · exact hmem

end Bystands

section Moves

variable {p q : ProcessRef} {m : Machine}

theorem pause_bystands (hq : p ≠ q) (next : Nat) (cycles : Int) :
    Bystands p m (m.pause q next cycles) :=
  .here _ _ (Table.get?_insert_of_ne _ hq _)

theorem syncBody_bystands (hq : p ≠ q) (next : Nat) (body : List Stmt) :
    Bystands p m (m.syncBody q next body) := by
  cases body with
  | nil => exact .here _ _ rfl
  | cons s rest =>
      simp only [syncBody]
      split
      · exact pause_bystands hq _ _
      · exact .push (g := .syncPause q (next + 1)) hq.symm _
      · exact .push (g := .syncStep q (next + 1) rest) hq.symm _

theorem runSync_bystands (hq : p ≠ q) : Bystands p m (m.runSync q) := by
  have herase : (m.sim.paused.erase q).get? p = m.sim.paused.get? p := Table.get?_erase_of_ne _ hq
  have resume : ∀ f next locals, Bystands p m
      ((m.setSim { m.sim with paused := m.sim.paused.erase q }).resumeSync q f next locals) :=
    fun f next locals => .above (l := [.boundary f.name m.activation])
      (syncBody_bystands hq next (f.body.drop next)) (by simp [Frame.ofProcess]) herase
  simp only [runSync]
  split
  · exact .here _ _ rfl
  · rename_i f _
    cases isReset m.sim q with
    | error e => exact .here _ _ rfl
    | ok reset =>
        simp only [withResult]
        split
        · exact resume f 0 .empty
        · rename_i pause _
          split
          · exact .here _ _ ((Table.get?_insert_of_ne _ hq _).trans herase)
          · exact resume f pause.next pause.locals

theorem runSyncs_bystands {l : List ProcessRef} (hl : l.head? ≠ some p) :
    Bystands p m (m.runSyncs l) := by
  cases l with
  | nil => exact .here _ _ rfl
  | cons q l =>
      have hq : p ≠ q := fun heq => hl (by rw [heq]; rfl)
      exact .above (l := [.syncs l]) (runSync_bystands hq) (by simp [Frame.ofProcess]) rfl

theorem round_bystands (h : m.hasRound = true → m.sim.pending.head? ≠ some p) :
    Bystands p m m.round := by
  cases hround : m.sim.pending.isEmpty && !m.sim.hasStaged with
  | true =>
      rw [round_over hround]
      exact .here _ _ rfl
  | false =>
      rw [round_begin hround]
      exact .above (l := [.commit, .round]) (runSyncs_bystands (h (by rw [hasRound, hround]; rfl)))
        (by simp [Frame.ofProcess]) rfl

theorem workOff_bystands (l : List (FieldRef × Value × Value)) : Bystands p m (m.workOff l) := by
  rcases l with _ | ⟨⟨f, old, new⟩, l⟩
  · exact .here _ _ rfl
  · refine ⟨?_, (announce_calm (m := m) f _ old new (List.forall_mem_nil _)).sim.paused ▸ rfl⟩
    simp only [workOff, announce, pushAll, finish, give, complete, setSim, List.mem_append,
      List.mem_cons, List.not_mem_nil, or_false]
    rintro g ((rfl | rfl | rfl) | hg) hp
    · exact hp.elim
    · exact hp.elim
    · exact hp.elim
    · exact hg

theorem commit_bystands : Bystands p m m.commit := by
  obtain ⟨signals, heq⟩ := m.sim.applyStaged_eq
  refine .above (l := []) (workOff_bystands (m := m.setSim m.sim.applyStaged.1) _) (by simp) ?_
  rw [heq]

/-- What a frame makes of a completion. -/
theorem accept_bystands {f : Frame} {rest : List Frame} {c : Completion}
    (hc : m.control = .done c) (hs : m.stack = f :: rest) (hf : ¬ f.ofProcess p)
    (hplain : f.isWork = true → c.isPlain = true) (hm : m.activated? ≠ some p) :
    Bystands p m ({ m with stack := rest }.accept f c) := by
  have drop : ∀ {m'}, Bystands p { m with stack := rest } m' → Bystands p m m' := by
    refine fun h => ⟨fun g hg hp => ?_, h.paused⟩
    rw [hs]
    exact List.mem_cons_of_mem f (h.frames g hg hp)
  refine drop ?_
  let m₁ : Machine := { m with stack := rest }
  change Bystands p m₁ (m₁.accept f c)
  have pass : ∀ c', Bystands p m₁ (m₁.complete c') := fun c' => .here _ _ rfl
  cases f with
  | driven =>
      by_cases hr : m.sim.inRound = true
      · exact .calm (accept_calm (m := m₁) (f := .driven) (fun _ => hr) trivial c)
      · rw [Bool.not_eq_true] at hr
        have hend : Bystands p m₁ (m₁.endDrive c) := by
          by_cases hd : 0 < m₁.undriven.sim.driveDepth
          · rw [endDrive_inner c hd]
            exact .here _ _ rfl
          · cases c with
            | failed e =>
                rw [endDrive_failed_outside e hd hr]
                exact .here _ _ rfl
            | value v =>
                rw [endDrive_settle hd (by simp), settle_outside (m := m₁.undriven) hr]
                refine .above (l := [.settled]) (round_bystands ?_) (by simp [Frame.ofProcess]) rfl
                intro hround hhead
                have hdepth : m.sim.driveDepth ≤ 1 := by
                  change ¬ 0 < m.sim.driveDepth - 1 at hd
                  omega
                have hbeat : m.beat = .round := by
                  have hround' : m.hasRound = true := hround
                  simp [beat, hc, hs, hdepth, hr, hround']
                refine hm ?_
                simp only [activated?, hbeat]
                exact hhead
            | _ => cases hplain rfl
        cases c <;> exact hend
  | settled => cases c <;> exact .here _ _ rfl
  | round =>
      cases c with
      | value v =>
          refine round_bystands (m := m₁) fun hround hhead => hm ?_
          have hround' : m.hasRound = true := hround
          have hbeat : m.beat = .round := by simp [beat, hc, hs, hround']
          simp only [activated?, hbeat]
          exact hhead
      | _ => exact pass _
  | syncs l =>
      cases c with
      | value v =>
          refine runSyncs_bystands (m := m₁) fun hhead => hm ?_
          cases l with
          | nil => cases hhead
          | cons q l =>
              cases hhead
              have hbeat : m.beat = .sync p := by simp [beat, hc, hs]
              simp only [activated?, hbeat]
      | _ => exact pass _
  | syncStep q next body =>
      cases c with
      | value v => exact syncBody_bystands (m := m₁) (fun heq => hf heq.symm) next body
      | _ => exact pass _
  | syncPause q next =>
      cases c with
      | value v =>
          simp only [accept, resume]
          cases v.asInt with
          | error e => exact pass _
          | ok n => exact pause_bystands (m := m₁) (fun heq => hf heq.symm) next n
      | _ => exact pass _
  | commit =>
      cases c with
      | value v => exact commit_bystands
      | _ => exact pass _
  | changes l =>
      cases c with
      | value v => exact workOff_bystands l
      | _ => exact pass _
  | clock f low high level =>
      cases c with
      | value v =>
          refine .push (m := m₁) (fun hp => ?_) _
          exact hp
      | _ => exact pass _
  | clockEdge f low high level =>
      cases c with
      | value v =>
          exact .above (l := [.clock f low high (!level)]) (.calm (write_calm _ _ _))
            (by simp [Frame.ofProcess]) rfl
      | _ => exact pass _
  | _ =>
      refine .calm (accept_calm (m := m₁) (fun heq => by cases heq) ?_ c)
      trivial

/-- A step that neither runs the process nor ends a statement of its body leaves its pause alone. -/
theorem Layered.bystands {waker : Waker} {m' : Machine} (h : Layered m)
    (hstep : m.step waker = .go m') (hm : m.activated? ≠ some p)
    (hf : ∀ c g rest, m.control = .done c → m.stack = g :: rest → ¬ g.ofProcess p) :
    Bystands p m m' := by
  have look :
      ∀ {m₁}, BodyMove m.activation.mode none m m₁ → Bystands p m m₁ := fun h => .calm h.calm
  cases step_goes hstep with
  | eval e => exact look (eval_body rfl e)
  | exec s => exact look (exec_body rfl s)
  | store target v => exact look (store_body rfl target v)
  | matching pattern subject => exact look (matchPattern_body rfl pattern subject)
  | await w hc hwait =>
      rcases await_go hwait with ⟨k, v, -, rfl⟩ | ⟨k, process, rest, hin, -, rfl⟩
      · exact .here _ _ rfl
      · obtain ⟨z, hz⟩ := innermostBody_suffix hin
        refine ⟨fun g hg _ => ?_, rfl⟩
        rw [hz]
        exact List.mem_append_right z hg
  | done c f rest hc hs =>
      refine accept_bystands hc hs (hf c f rest hc hs) (fun hwork => ?_) hm
      obtain ⟨c', hc', hplain⟩ := h.control (by simp [hs, onBody, hwork])
      rw [hc] at hc'
      cases hc'
      exact hplain

end Moves

end Machine

def Frame.ofRound : Frame → Bool
  | .settled | .round | .syncs _ | .commit | .changes _ => true
  | _ => false

namespace Machine

/-- The machine is in a piece of a run that was begun above some frames: there are more frames, or
it has not come to anything yet. -/
def Above (base : List Frame) (m : Machine) : Prop :=
  ∃ y, m.stack = y ++ base ∧ (y ≠ [] ∨ ∀ c, m.control ≠ .done c)

theorem not_above_self {base : List Frame} {m : Machine} (hs : m.stack = base) {c : Completion}
    (hc : m.control = .done c) : ¬ Above base m := by
  rintro ⟨y, hy, hgo⟩
  have hnil : y = [] := by simpa [hs] using hy
  exact hgo.elim (fun hne => hne hnil) fun hnot => hnot c hc

theorem Above.weaken {base y : List Frame} {m : Machine} (h : Above (y ++ base) m) (hy : y ≠ []) :
    Above base m := by
  obtain ⟨z, hs, -⟩ := h
  exact ⟨z ++ y, by rw [hs, List.append_assoc], .inl (by simp [hy])⟩

theorem LayeredStack.above_syncs {y rest : List Frame} {l : List ProcessRef}
    (h : LayeredStack (y ++ .syncs l :: rest)) : ∀ f ∈ y, f.ofRound = false := by
  induction y with
  | nil => simp
  | cons f y ih =>
      obtain ⟨hlies, hrest⟩ := h
      have hy := ih hrest
      have hnext : ∀ x below, y ++ .syncs l :: rest = x :: below → x.ofRound = true →
          (∀ l', x ≠ .syncs l') → False := by
        intro x below heq hx hne
        cases y with
        | nil =>
            cases heq
            exact hne l rfl
        | cons g y =>
            cases heq
            rw [hy x (by simp)] at hx
            cases hx
      have hf : f.ofRound = false := by
        cases f with
        | settled =>
            have hwork := hlies (.syncs l) (by simp)
            cases hwork
        | round | syncs | commit | changes =>
            obtain ⟨below, heq⟩ := hlies
            exact (hnext _ below heq rfl (by simp)).elim
        | _ => rfl
      intro g hg
      rcases List.mem_cons.mp hg with rfl | hg
      · exact hf
      · exact hy g hg

theorem LayeredStack.above_ofProcess {p : ProcessRef} {y rest : List Frame} {g : Frame}
    {l : List ProcessRef} (h : LayeredStack (g :: (y ++ .syncs l :: rest))) (hg : g.ofProcess p) :
    ∃ name caller, y = [.boundary name caller] := by
  obtain ⟨hlies, hrest⟩ := h
  have hnone := hrest.above_syncs
  obtain ⟨name, caller, l', below, heq⟩ : ∃ name caller l' below,
      y ++ .syncs l :: rest = .boundary name caller :: .syncs l' :: below := by
    cases g <;> first | exact hlies | exact hg.elim
  rcases y with _ | ⟨f, _ | ⟨f', y⟩⟩
  · cases heq
  · cases heq
    exact ⟨name, caller, rfl⟩
  · cases heq
    have hround := hnone (.syncs l') (by simp)
    cases hround

theorem LayeredStack.inRound {l : List ProcessRef} {rest : List Frame}
    (h : LayeredStack (.syncs l :: rest)) : rest.any Frame.isSettled = true := by
  obtain ⟨⟨rest, rfl⟩, ⟨rest', rfl⟩, ⟨rest'', rfl⟩, -⟩ := h
  rfl

theorem Layered.waits_above {m : Machine} {y rest : List Frame}
    {l : List ProcessRef} (h : Layered m)
    (hs : m.stack = y ++ .syncs l :: rest) {w : Wait} (hc : m.control = .await w) :
    (innermostBody y).isSome := by
  have hbody : onBody m.stack = true := by
    rw [← Bool.not_eq_false]
    intro hfalse
    obtain ⟨c, hdone, -⟩ := h.control hfalse
    rw [hc] at hdone
    cases hdone
  cases hin : innermostBody y with
  | some r => rfl
  | none =>
      have hnone : innermostBody (y ++ [.syncs l]) = none := by
        rw [innermostBody_append_none hin]
        rfl
      have hstack : m.stack = (y ++ [.syncs l]) ++ rest := by simp [hs]
      have hplain := (hstack ▸ h.stack).body (hstack ▸ hbody)
        (no_boundary_of_innermostBody hnone) (.syncs l) (by simp)
      cases hplain

theorem Layered.step_aboveSyncs {waker : Waker} {m m' : Machine} {l : List ProcessRef}
    {rest : List Frame} (h : Layered m) (hm : Above (.syncs l :: rest) m)
    (hstep : m.step waker = .go m') :
    m.step .nobody = .go m' ∧ (Above (.syncs l :: rest) m' ∨ m'.stack = .syncs l :: rest) := by
  obtain ⟨y, hs, hgo⟩ := hm
  refine ⟨step_nobody hstep fun w hc => ?_, ?_⟩
  · obtain ⟨r, hr⟩ := Option.isSome_iff_exists.mp (h.waits_above hs hc)
    rw [hs, innermostBody_append, hr]
    rfl
  · obtain ⟨y', hs'⟩ := step_above_inside hs hgo (fun w hc => h.waits_above hs hc) hstep
    cases y' with
    | nil => exact .inr hs'
    | cons f y' => exact .inl ⟨_, hs', .inl (by simp)⟩

theorem LayeredStack.exists_syncs {p : ProcessRef} {stack : List Frame} {g : Frame}
    (h : LayeredStack stack) (hg : g ∈ stack) (hp : g.ofProcess p) :
    ∃ z l rest, stack = z ++ .syncs l :: rest ∧ g ∈ z := by
  obtain ⟨a, b, rfl⟩ := List.append_of_mem hg
  obtain ⟨hlies, -⟩ := h.append
  have hbelow : ∃ name caller l rest, b = .boundary name caller :: .syncs l :: rest := by
    cases g <;> first | exact hlies | exact hp.elim
  obtain ⟨name, caller, l, rest, rfl⟩ := hbelow
  exact ⟨a ++ [g, .boundary name caller], l, rest, by simp, by simp⟩

theorem Layered.no_process_of_work {p : ProcessRef} {m : Machine} (h : Layered m)
    (hw : m.work = []) : ∀ g ∈ m.stack, ¬ g.ofProcess p := by
  intro g hg hp
  obtain ⟨z, l, rest, hs, -⟩ := h.stack.exists_syncs hg hp
  rw [work, List.filter_eq_nil_iff] at hw
  exact hw (.syncs l) (by simp [hs]) rfl

theorem Layered.no_process_of_syncs {p : ProcessRef} {m : Machine} {l : List ProcessRef}
    {rest : List Frame} (h : Layered m) (hs : m.stack = .syncs l :: rest) :
    ∀ g ∈ m.stack, ¬ g.ofProcess p := by
  intro g hg hp
  have hstack := h.stack
  obtain ⟨z, l', rest', hs', hz⟩ := hstack.exists_syncs hg hp
  cases z with
  | nil => cases hz
  | cons f z =>
      rw [hs'] at hstack
      have hround := hstack.above_syncs f (by simp)
      rw [hs] at hs'
      cases hs'
      cases hround

/-- The machine is between two processes of a round, or before the first or after the last one. -/
def betweenProcesses (m : Machine) : Prop := ∃ l rest, m.stack = .syncs l :: rest

theorem Layered.not_between {m : Machine} {l : List ProcessRef} {rest : List Frame} (h : Layered m)
    (hm : Above (.syncs l :: rest) m) : ¬ m.betweenProcesses := by
  obtain ⟨y, hs, hgo⟩ := hm
  rintro ⟨l', rest', hs'⟩
  cases y with
  | nil =>
      obtain ⟨c, hc, -⟩ := h.control (by simp [hs, onBody, Frame.isWork])
      exact hgo.elim (fun hne => hne rfl) fun hnot => hnot c hc
  | cons f y =>
      have hstack := h.stack
      rw [hs] at hstack hs'
      have hround := hstack.above_syncs f (by simp)
      cases hs'
      cases hround

/-- No process is run while another one is run. -/
theorem Layered.not_activated {m : Machine} {l : List ProcessRef} {rest : List Frame}
    (h : Layered m) (hm : Above (.syncs l :: rest) m) : m.activated? = none := by
  obtain ⟨y, hs, hgo⟩ := hm
  have hstack := h.stack
  have hround := h.counted.inRound
  rw [hs] at hstack hround
  have hnone := hstack.above_syncs
  have htrue : m.sim.inRound = true := by
    rw [hround, List.any_append, List.any_cons, hstack.append.inRound]
    simp
  have hbeat : m.beat = .other := by
    unfold beat
    split
    · rename_i hc hs'
      rw [hs] at hs'
      cases y with
      | nil => exact absurd hc (hgo.resolve_left (by simp) _)
      | cons f y =>
          cases hs'
          cases hnone _ List.mem_cons_self
    · rename_i hc hs'
      rw [hs] at hs'
      cases y with
      | nil => cases hs'
      | cons f y =>
          cases hs'
          cases hnone _ List.mem_cons_self
    · simp [htrue]
    · rfl
  simp [activated?, hbeat]

end Machine

end Clockwork
