import Clockwork.Proofs.Combs.Downstream
import Clockwork.Proofs.Combs.Suspension

namespace Clockwork.Machine

variable {outer : FieldRef → Prop} {m m' : Machine} {b : Beat} {waker : Waker} {p q : ProcessRef}
  {d e : Nat} {rest below : List Frame}

theorem exists_combOver_suffix {l : List Frame} {n : Nat} (hpos : 0 < n)
    (hn : n ≤ l.countP Frame.isCombOver) :
    ∃ p d rest, .combOver p d :: rest <:+ l ∧ rest.countP Frame.isCombOver + 1 = n := by
  induction l with
  | nil => exact absurd (Nat.lt_of_lt_of_le hpos hn) (Nat.not_lt_zero 0)
  | cons f l ih =>
      by_cases hle : n ≤ l.countP Frame.isCombOver
      · obtain ⟨p, d, rest, hsuffix, hcount⟩ := ih hle
        exact ⟨p, d, rest, hsuffix.trans (List.suffix_cons f l), hcount⟩
      · cases hf : f.isCombOver with
        | false =>
            rw [List.countP_cons_of_neg (by simp [hf])] at hn
            exact absurd hn hle
        | true =>
            rw [List.countP_cons_of_pos hf] at hn
            cases f with
            | combOver p d => exact ⟨p, d, l, List.suffix_refl _, by omega⟩
            | _ => cases hf

theorem combOver_suffix_unique {l : List Frame} (h : .combOver p d :: rest <:+ l)
    (h' : .combOver q e :: below <:+ l)
    (hcount : rest.countP Frame.isCombOver = below.countP Frame.isCombOver) :
    Frame.combOver p d :: rest = .combOver q e :: below := by
  -- The longer one of two different ones would have one end more.
  have shorter : ∀ {p q : ProcessRef} {d e : Nat} {rest below : List Frame},
      rest.countP Frame.isCombOver = below.countP Frame.isCombOver →
      .combOver p d :: rest <:+ .combOver q e :: below →
      Frame.combOver p d :: rest = .combOver q e :: below := by
    intro p q d e rest below hcount hsuffix
    rcases List.suffix_cons_iff.mp hsuffix with heq | hsuffix
    · exact heq
    · have hle := hsuffix.sublist.countP_le (p := Frame.isCombOver)
      rw [List.countP_cons_of_pos rfl] at hle
      omega
  rcases List.suffix_or_suffix_of_suffix h h' with hsuffix | hsuffix
  · exact shorter hcount hsuffix
  · exact (shorter hcount.symm hsuffix).symm

/-- Right above the end of a combinational process is the end of its body. -/
theorem LayeredStack.boundary_of_combOver {f : Frame}
    (h : LayeredStack (f :: .combOver p d :: rest)) : ∃ name caller, f = .boundary name caller := by
  obtain ⟨hlies, -⟩ := h
  cases f with
  | boundary name caller => exact ⟨name, caller, rfl⟩
  | settled =>
      have hwork := hlies (.combOver p d) (by simp)
      cases hwork
  | propagate => 
      obtain ⟨l, below, heq⟩ := hlies
      cases heq
  | combs =>
      obtain ⟨g, below, heq, hg⟩ := hlies
      cases heq
      cases hg
  | combOver =>
      obtain ⟨-, l, below, heq⟩ := hlies
      cases heq
  | round | syncs | commit | changes =>
      obtain ⟨below, heq⟩ := hlies
      cases heq
  | syncStep | syncPause =>
      obtain ⟨name, caller, l, below, heq⟩ := hlies
      cases heq
  | returning | calling | clock | clockEdge => 
      have hb := hlies.1
      cases hb
  | _ => cases hlies

/-- In one step a combinational process ends, or its body does, or its body stays where it is. -/
theorem Layered.step_combOver (hl : Layered m) (hstep : m.step waker = .go m')
    (h : .combOver p d :: rest <:+ m.stack) :
    m'.stack = rest ∨ ∃ name caller, .boundary name caller :: .combOver p d :: rest <:+ m.stack ∧
      (m'.stack = .combOver p d :: rest ∨
        .boundary name caller :: .combOver p d :: rest <:+ m'.stack) := by
  obtain ⟨y, hy⟩ := h
  rcases y.eq_nil_or_concat with rfl | ⟨y, f, rfl⟩
  · obtain ⟨c, hc, hplain⟩ := hl.control (by rw [← hy]; rfl)
    rw [step_done hc hy.symm] at hstep
    cases hstep
    left
    cases c <;> rfl
  · rw [List.concat_eq_append, List.append_assoc] at hy
    have hstack := hl.stack
    rw [← hy] at hstack
    obtain ⟨name, caller, rfl⟩ := hstack.append.boundary_of_combOver
    refine .inr ⟨name, caller, ⟨y, hy⟩, ?_⟩
    rcases step_above_boundary hy.symm hstep with ⟨y', hy'⟩ | ⟨-, c, rfl⟩
    · exact .inr ⟨y', hy'.symm⟩
    · exact .inl rfl

theorem countP_work (m : Machine) :
    m.work.countP Frame.isCombOver = m.stack.countP Frame.isCombOver := by
  rw [work, List.countP_filter]
  refine List.countP_congr fun f _ => ?_
  cases f <;> simp [Frame.isCombOver, Frame.isWork]

/-- A further combinational process is under way only after a turn. -/
theorem WorkStep.countP_combOver (h : WorkStep outer m b m') :
    m'.work.countP Frame.isCombOver ≤ m.work.countP Frame.isCombOver ∨
      (∃ p l rest, m.work = .combs (p :: l) :: rest) ∨ m.work = [] := by
  have base : ∀ {f : FieldRef} {v : Value} {l : List Frame}, Drives outer m f v l →
      l.countP Frame.isCombOver ≤ m.work.countP Frame.isCombOver := by
    rintro f v l (⟨-, -⟩ | hm)
    · exact Nat.le_of_eq (List.countP_cons_of_neg (by simp [Frame.isCombOver]))
    · refine Nat.le_of_eq ?_
      rw [hm, List.countP_cons_of_neg (by simp [Frame.isCombOver]),
        List.countP_cons_of_neg (by simp [Frame.isCombOver])]
  cases h with
  | still hwork | stage _ _ _ hwork => exact .inl (Nat.le_of_eq (by rw [hwork]))
  | same hd _ _ hwork => exact .inl (by rw [hwork]; exact base hd)
  | changed hd _ _ hwork =>
      left
      rw [hwork, List.countP_cons_of_neg (by simp [Frame.isCombOver]),
        List.countP_cons_of_neg (by simp [Frame.isCombOver])]
      exact base hd
  | @spent _ g rest hm _ hwork =>
      left
      rw [hwork, hm]
      exact (List.sublist_cons_self g rest).countP_le
  | comb hm => exact .inr (.inl ⟨_, _, _, hm⟩)
  | all hm => exact .inr (.inr hm)
  | settle _ hwork | sync _ hwork | unchanged _ _ hwork | commit _ _ hwork | change _ hwork =>
      left
      rw [hwork]
      exact Nat.zero_le _
  | round _ hwork =>
      left
      rw [hwork]
      cases m.sim.pending <;> exact Nat.zero_le _

theorem suffix_of_begun {f : Function} {s : Simulation} {base l : List Frame} {name : String}
    {caller : Activation} (h : .boundary name caller :: l <:+ ((f.begun p s).onto base).stack) :
    .boundary name caller :: l <:+ base := by
  rw [Function.begun] at h
  cases hbody : f.body with
  | nil =>
      rw [hbody] at h
      exact h
  | cons x body =>
      rw [hbody] at h
      rcases List.suffix_cons_iff.mp h with heq | h
      · cases heq
      · exact h

theorem body_of_runComb {name : String} {caller : Activation} (hok : (m.runComb q).fault? = none)
    (h : .boundary name caller :: .combOver p d :: rest <:+ (m.runComb q).stack) :
    .boundary name caller :: .combOver p d :: rest <:+ m.stack ∨
      ∃ f s, m.sim.tree.CombAt p f ∧
        m.runComb q = (f.begun p s).onto (.boundary name caller :: .combOver p d :: rest) := by
  rcases m.runComb_begun hok with ⟨-, heq⟩ | ⟨f, hf, -, heq⟩
  · rw [heq] at h
    exact .inl h
  · rw [heq] at h ⊢
    rcases List.suffix_cons_iff.mp (suffix_of_begun h) with heq | h
    · cases heq
      exact .inr ⟨f, _, hf, rfl⟩
    · rcases List.suffix_cons_iff.mp h with heq | h
      · cases heq
      · exact .inl h

theorem body_of_runCombs {name : String} {caller : Activation} {l : List ProcessRef}
    (hok : (m.runCombs l).fault? = none)
    (h : .boundary name caller :: .combOver p d :: rest <:+ (m.runCombs l).stack) :
    .boundary name caller :: .combOver p d :: rest <:+ m.stack ∨
      ∃ f s, m.sim.tree.CombAt p f ∧
        m.runCombs l = (f.begun p s).onto (.boundary name caller :: .combOver p d :: rest) := by
  cases l with
  | nil => exact .inl h
  | cons q l =>
      let m₁ : Machine := { m with stack := .combs l :: m.stack }
      rcases body_of_runComb (m := m₁) hok h with hbelow | hbegun
      · rcases List.suffix_cons_iff.mp hbelow with heq | hbelow
        · cases heq
        · exact .inl hbelow
      · exact .inr hbegun

theorem Layered.turn_begins {name : String} {caller : Activation} {l : List ProcessRef}
    (hl : Layered m) (hwork : m.work = .combs (q :: l) :: below) (hstep : m.step waker = .go m')
    (hok : m'.fault? = none) (h : .boundary name caller :: .combOver p d :: rest <:+ m'.stack) :
    .boundary name caller :: .combOver p d :: rest <:+ m.stack ∨
      ∃ f s, m.sim.tree.CombAt p f ∧
        m' = (f.begun p s).onto (.boundary name caller :: .combOver p d :: rest) := by
  obtain ⟨low, hs, rfl⟩ := hl.turn hwork hstep hok
  let m₁ : Machine := { m with stack := low }
  refine (body_of_runCombs (m := m₁) (l := q :: l) hok h).imp_left fun hbelow => ?_
  rw [hs]
  exact hbelow.trans (List.suffix_cons _ _)

/-- A body that is new on the stack has just begun. -/
theorem Layered.body_begins {name : String} {caller : Activation} (hl : Layered m)
    (hstep : m.step waker = .go m') (hok : m'.fault? = none)
    (h : .boundary name caller :: .combOver p d :: rest <:+ m'.stack) :
    .boundary name caller :: .combOver p d :: rest <:+ m.stack ∨
      ∃ f s, m.sim.tree.CombAt p f ∧
        m' = (f.begun p s).onto (.boundary name caller :: .combOver p d :: rest) := by
  have hend : .combOver p d :: rest <:+ m'.stack := (List.suffix_cons _ _).trans h
  have hcount' := hend.sublist.countP_le (p := Frame.isCombOver)
  rw [List.countP_cons_of_pos rfl] at hcount'
  by_cases hle : rest.countP Frame.isCombOver + 1 ≤ m.stack.countP Frame.isCombOver
  · left
    obtain ⟨q, e, below, hsuffix, hcount⟩ := exists_combOver_suffix (Nat.succ_pos _) hle
    rcases hl.step_combOver hstep hsuffix with hover | ⟨name', caller', hbody, hover | hstays⟩
    · rw [hover] at hcount'
      omega
    · -- Only the end of the process would be left, but the end of a body is above it.
      rw [hover] at h hend
      have heq := combOver_suffix_unique hend (List.suffix_refl _) (by omega)
      rw [← heq] at h
      exact absurd h.length_le (Nat.not_succ_le_self _)
    · have heq := combOver_suffix_unique hend ((List.suffix_cons _ _).trans hstays) (by omega)
      rw [← heq] at hbody hstays
      have hsame := (List.suffix_of_suffix_length_le h hstays (by simp)).eq_of_length rfl
      rw [hsame]
      exact hbody
  · have hw : WorkStep (fun _ => False) m m.beat m' := hl.workStep hstep (fault?_eq_none hok)
    rcases hw.countP_combOver with hcount | ⟨q, l, below, hwork⟩ | hnone
    · rw [countP_work, countP_work] at hcount
      omega
    · exact hl.turn_begins hwork hstep hok h
    · have hexec : Executes m' p :=
        ⟨d, List.mem_filter.mpr ⟨hend.subset (by simp), rfl⟩⟩
      rcases hl.executes_of_step hstep hok hexec with ⟨d', hmem⟩ | ⟨l, below, hwork⟩
      · rw [hnone] at hmem
        cases hmem
      · rw [hnone] at hwork
        cases hwork

end Clockwork.Machine
