import Clockwork.Proofs.Concurrency.Schedule.Invariant
import Clockwork.Proofs.Concurrency.Scripts
/-!
The clock of a scheduler. Time goes on with every entry that is taken out, unless the entry was due
before it was made. That happens at the last femtosecond only: beyond its first delta step, a
positive delay leads back to this first delta step (`Instant.target_before_iff`). The invariant
`Journal.Clocked` says that such entries are the only pending ones that lie before now, from which
follows when a step moves the clock back (`goes_back_iff_takes_late`).
-/

namespace Clockwork

open scoped List

namespace Instant

variable {t : Instant} {delay : Nat}

/-- The instant that a delay leads to; both of its parts stop at their largest number. -/
def target (t : Instant) (delay : Nat) : Instant :=
  if delay = 0 then t.nextDelta else t.after delay

theorem not_before_of_before {a b : Instant} (h : a.before b) : ¬ b.before a := by
  rw [before_iff] at *
  omega

theorem not_before_trans {a b c : Instant} (hab : ¬ a.before b) (hbc : ¬ b.before c) :
    ¬ a.before c := by
  rw [before_iff] at *
  omega

theorem target_before_iff (hfs : t.fs ≤ Bounded.max64) (hdelta : t.delta ≤ Bounded.max32) :
    (t.target delay).before t ↔ 0 < delay ∧ t.fs = Bounded.max64 ∧ 0 < t.delta := by
  rw [before_iff, target]
  split
  · simp only [nextDelta]
    omega
  · simp only [after, ofFs, Bounded.add64]
    omega

def lastFs : Instant := .ofFs Bounded.max64

theorem target_eq_lastFs (hdelta : t.delta ≤ Bounded.max32) (h : (t.target delay).before t) :
    t.target delay = lastFs := by
  rw [before_iff, target] at h
  rw [target]
  split at h <;> rename_i hdelay
  · simp only [nextDelta] at h
    omega
  · rw [if_neg hdelay, lastFs]
    simp only [after, ofFs, Bounded.add64, eq_iff, and_true] at h ⊢
    omega

theorem target_delta_le : (t.target delay).delta ≤ Bounded.max32 := by
  rw [target]
  split
  · exact Nat.min_le_right _ _
  · exact Nat.zero_le _

end Instant

theorem Scheduler.exists_mem_due {κ τ : Type} {s s' : Scheduler κ τ} {due : List (Entry κ)}
    (h : s.takeDue = some (s', due)) : ∃ e, e ∈ due := by
  unfold takeDue at h
  cases hagenda : s.agenda with
  | nil =>
      rw [hagenda] at h
      cases h
  | cons e rest =>
      rw [hagenda] at h
      simp only [List.span_eq_takeWhile_dropWhile, Option.some.injEq, Prod.mk.injEq] at h
      obtain ⟨-, rfl⟩ := h
      refine ⟨e, ?_⟩
      rw [List.takeWhile_cons_of_pos (by simp)]
      exact List.mem_cons_self

theorem Scheduler.Calls.now_eq {κ τ : Type} {s s' : Scheduler κ τ} {j : Journal}
    (h : Scheduler.Calls s j s') : s'.now = s.now := by
  induction h with
  | nil => rfl
  | cons hcall _ ih =>
      rw [ih]
      cases hcall with
      | schedule => rfl
      | abandonSleep entry => cases entry <;> rfl
      | other halike => exact halike.now

def Incident.Bounded : Incident → Prop
  | made date start delay => date.time = start.target delay ∧ start.delta ≤ Bounded.max32
  | _ => True

namespace Journal

variable {j more : Journal} {d : Date}

/-- An entry was due before the instant at which it was made. -/
def Late (j : Journal) (d : Date) : Prop :=
  ∃ start delay, .made d start delay ∈ j ∧ d.time.before start

theorem Late.mono (h : Late j d) (hsub : j ⊆ more) : Late more d := by
  obtain ⟨start, delay, hmade, hbefore⟩ := h
  exact ⟨start, delay, hsub hmade, hbefore⟩

/-- What a journal says of the clock: the entries that lie before now are those that are late. -/
structure Clocked (j : Journal) (b : Book) : Prop where
  bounded : ∀ o ∈ j, o.Bounded
  below : ∀ d ∈ made j, d.seq < b.nextSeq
  made : ∀ d ∈ b.pending, d ∈ made j
  ascending : Date.Ascending b.pending
  delta : b.now.delta ≤ Bounded.max32
  deltas : ∀ d ∈ b.pending, d.time.delta ≤ Bounded.max32
  late : ∀ d ∈ b.pending, Late j d ↔ d.time.before b.now

theorem clocked_initial {κ τ : Type} :
    Clocked [] ((Scheduler.initial : Scheduler κ τ).book []) := by
  refine ⟨?_, ?_, ?_, .nil, ?_, ?_, ?_⟩
  · rintro o ⟨⟩
  · rintro d ⟨⟩
  · rintro d ⟨⟩
  · show 0 ≤ Bounded.max32
    exact Nat.zero_le _
  · rintro d ⟨⟩
  · rintro d ⟨⟩

namespace Clocked

variable {now : Instant} {nextSeq : Nat} {batch pending : List Date}

theorem time_of_late {b : Book} (h : Clocked j b) (hd : Late j d) : d.time = .lastFs := by
  obtain ⟨start, delay, hmade, hbefore⟩ := hd
  obtain ⟨htime, hdelta⟩ := h.bounded _ hmade
  rw [htime] at hbefore ⊢
  exact Instant.target_eq_lastFs hdelta hbefore

theorem late_append (hmore : ∀ date start delay, .made date start delay ∉ more) :
    Late (j ++ more) d ↔ Late j d := by
  constructor
  · rintro ⟨start, delay, hmade, hbefore⟩
    have hmem := (List.mem_append.mp hmade).resolve_right (hmore d start delay)
    exact ⟨start, delay, hmem, hbefore⟩
  · exact fun hlate => hlate.mono (List.subset_append_left j more)

theorem schedule (h : Clocked j ⟨now, nextSeq, batch, pending⟩) {delay : Nat} {date : Date}
    {pending' : List Date} (htime : date.time = now.target delay) (hseq : date.seq = nextSeq)
    (hperm : pending' ~ date :: pending) (hpending : Date.Ascending pending') :
    Clocked (j ++ [.made date now delay]) ⟨now, nextSeq + 1, batch, pending'⟩ := by
  have hmade : Journal.made (j ++ [.made date now delay]) = Journal.made j ++ [date] := made_append
  have hmem : ∀ {x}, x ∈ pending' → x = date ∨ x ∈ pending := fun hx =>
    List.mem_cons.mp (hperm.subset hx)
  constructor
  case bounded =>
    exact List.forall_mem_append.mpr ⟨h.bounded, List.forall_mem_singleton.mpr ⟨htime, h.delta⟩⟩
  case below =>
    rw [hmade]
    refine List.forall_mem_append.mpr ⟨fun d hd => Nat.lt_succ_of_lt (h.below d hd), ?_⟩
    exact List.forall_mem_singleton.mpr (hseq ▸ Nat.lt_succ_self date.seq)
  case made =>
    rw [hmade]
    intro x hx
    rcases hmem hx with rfl | hold
    · exact List.mem_append_right _ (List.mem_singleton_self x)
    · exact List.mem_append_left _ (h.made x hold)
  case ascending => exact hpending
  case delta => exact h.delta
  case deltas =>
    intro x hx
    rcases hmem hx with rfl | hold
    · rw [htime]
      exact Instant.target_delta_le
    · exact h.deltas x hold
  case late =>
    intro x hx
    rcases hmem hx with rfl | hold
    · constructor
      · rintro ⟨start, delay', hin, hbefore⟩
        rcases List.mem_append.mp hin with hin | hin
        -- The number of the entry is new, so that it was not made before.
        · have hseq' : x.seq < nextSeq := h.below x (mem_made.mpr ⟨start, delay', hin⟩)
          omega
        · cases List.mem_singleton.mp hin
          exact hbefore
      · intro hbefore
        exact ⟨now, delay, List.mem_append_right j (List.mem_singleton_self _), hbefore⟩
    · rw [← h.late x hold]
      constructor
      · rintro ⟨start, delay', hin, hbefore⟩
        rcases List.mem_append.mp hin with hin | hin
        · exact ⟨start, delay', hin, hbefore⟩
        · have hx' : x.seq < nextSeq := h.below x (h.made x hold)
          cases List.mem_singleton.mp hin
          omega
      · exact fun hlate => hlate.mono (List.subset_append_left _ _)

/-- Some entries are no longer pending. -/
theorem remove (h : Clocked j ⟨now, nextSeq, batch, pending⟩) {pending' : List Date}
    (hsub : pending'.Sublist pending) (batch' : List Date)
    (hmore : ∀ o ∈ more, o.made? = none) :
    Clocked (j ++ more) ⟨now, nextSeq, batch', pending'⟩ := by
  have hnone : Journal.made more = [] := List.filterMap_eq_nil_iff.mpr hmore
  have hmade : Journal.made (j ++ more) = Journal.made j := by
    rw [made_append, hnone, List.append_nil]
  have hnot : ∀ date start delay, .made date start delay ∉ more := by
    intro date start delay hin
    cases hmore _ hin
  constructor
  case bounded =>
    refine List.forall_mem_append.mpr ⟨h.bounded, fun o ho => ?_⟩
    cases o with
    | made date start delay => exact absurd ho (hnot date start delay)
    | cancelled => trivial
    | dispatched => trivial
  case below =>
    rw [hmade]
    exact h.below
  case made =>
    rw [hmade]
    exact fun d hd => h.made d (hsub.subset hd)
  case ascending => exact h.ascending.sublist hsub
  case delta => exact h.delta
  case deltas => exact fun d hd => h.deltas d (hsub.subset hd)
  case late =>
    intro d hd
    rw [late_append hnot]
    exact h.late d (hsub.subset hd)

theorem move (h : Clocked j ⟨now, nextSeq, batch, pending⟩) {t : Instant} {rest : List Date}
    (hsub : rest.Sublist pending) (batch' : List Date) (hdelta : t.delta ≤ Bounded.max32)
    (hrest : ∀ d ∈ rest, t.before d.time)
    (hnone : ∀ d ∈ rest, ¬ Late j d) : Clocked j ⟨t, nextSeq, batch', rest⟩ where
  bounded := h.bounded
  below := h.below
  made d hd := h.made d (hsub.subset hd)
  ascending := h.ascending.sublist hsub
  delta := hdelta
  deltas d hd := h.deltas d (hsub.subset hd)
  late d hd := by
    have hafter : ¬ d.time.before t := by
      have hbefore := hrest d hd
      rw [Instant.before_iff] at *
      omega
    exact iff_of_false (hnone d hd) hafter

variable {κ τ : Type} {s s' : Scheduler κ τ} {taken : List (Entry κ)}

theorem call (h : Clocked j (s.book taken)) (hcall : Scheduler.Call s more s') :
    Clocked (j ++ more) (s'.book taken) := by
  cases hcall with
  | schedule delay due =>
      have hperm := Scheduler.insertEntry_perm ⟨s.target delay, s.nextSeq, due⟩ s.agenda
      apply h.schedule rfl rfl (hperm.map Entry.date)
      apply Scheduler.ascending_insertEntry h.ascending
      exact fun f hf => h.below f.date (h.made f.date (Scheduler.mem_dates hf))
  | abandonSleep entry =>
      have hdates : (s.abandonSleep entry).dates.Sublist s.dates := by
        rw [Scheduler.dates_abandonSleep]
        exact List.filter_sublist
      have hnone : ∀ o ∈ (s.sleepDates entry).map Incident.cancelled, o.made? = none :=
        List.forall_mem_map.mpr fun _ _ => rfl
      have hremove := h.remove hdates (taken.map Entry.date) hnone
      cases entry <;> exact hremove
  | other halike =>
      rw [List.append_nil, halike.book_eq]
      exact h

theorem calls (h : Clocked j (s.book taken)) (hcalls : Scheduler.Calls s more s') :
    Clocked (j ++ more) (s'.book taken) := by
  induction hcalls generalizing j with
  | nil =>
      rw [List.append_nil]
      exact h
  | cons hcall _ ih =>
      rw [← List.append_assoc]
      exact ih (h.call hcall)

/-- The entries of the first instant are taken out: no late one is left behind, since all late
entries are of one instant and before now. -/
theorem take {due : List (Entry κ)} (h : Clocked j (s.book []))
    (hdue : s.takeDue = some (s', due)) : Clocked j (s'.book due) := by
  obtain ⟨⟨e, he, hnow⟩, hagenda, hpresent, hseq, hlater⟩ := Scheduler.takeDue_spec hdue
  have hascending : Date.Ascending s.dates := h.ascending
  have hdates : s.dates = due.map Entry.date ++ s'.dates :=
    (congrArg (List.map Entry.date) hagenda).trans List.map_append
  have hsub : s'.dates.Sublist s.dates := by
    rw [hdates]
    exact List.sublist_append_right _ _
  have hrest : ∀ d ∈ s'.dates, s'.now.before d.time := by
    intro d hd
    obtain ⟨f, hf, rfl⟩ := List.mem_map.mp hd
    exact hlater hascending f hf
  have hmoved : Clocked j ⟨s'.now, s.nextSeq, due.map Entry.date, s'.dates⟩ := by
    apply h.move hsub _ _ hrest
    · intro d hd hlate
      have hafter : s'.now.before d.time := hrest d hd
      have htime : d.time = .lastFs := h.time_of_late hlate
      have hnow_late : e.time.before s.now := by
        have hd_before : d.time.before s.now := (h.late d (hsub.subset hd)).mp hlate
        rw [hnow] at hafter
        exact Instant.before_trans hafter hd_before
      -- The entry taken out is late as well, so that both are due at the same instant.
      have he_late : Late j e.date := (h.late e.date (Scheduler.mem_dates he)).mpr hnow_late
      have he_time : e.time = .lastFs := h.time_of_late he_late
      rw [htime, hnow, he_time] at hafter
      exact Instant.before_irrefl _ hafter
    · rw [hnow]
      exact h.deltas e.date (Scheduler.mem_dates he)
  rw [Scheduler.book, hseq]
  exact hmoved

variable {ω : Type} {host : Host ω κ τ} {w w' : ω} {batch₁ batch₂ : List (Entry κ)}

theorem step (hc : host.CallsOnly) (h : Clocked j ((host.scheduler w).book batch₁))
    (hstep : host.Step w batch₁ more w' batch₂) :
    Clocked (j ++ more) ((host.scheduler w').book batch₂) := by
  cases hstep with
  | settle f hf =>
      rw [List.append_nil, hc.scheduler_update, hf.book_eq]
      exact h
  | poll fuel _ hj => exact h.calls hj
  | abandon task hj => exact h.calls hj
  | take hdue =>
      rw [List.append_nil, hc.scheduler_update, hdue, Option.map_some, Option.getD_some]
      exact h.take hdue
  | fire hdue =>
      rw [hc.scheduler_update, (Scheduler.alike_fire _ _ _).book_eq]
      exact h.remove (List.Sublist.refl _) _ (List.forall_mem_singleton.mpr rfl)
  | call fuel hdue hcall hj =>
      rename_i e body j₁ fault
      have hdispatched : Clocked (j ++ [.dispatched e.date (host.scheduler w).now])
          ((host.scheduler w).book batch₂) :=
        h.remove (List.Sublist.refl _) _ (List.forall_mem_singleton.mpr rfl)
      rw [List.append_cons]
      exact hdispatched.calls hj
  | jump stop hlate =>
      rw [List.append_nil, hc.scheduler_update]
      split
      · rename_i hstop
        have hafter : ∀ d ∈ (host.scheduler w).dates, stop < d.time.fs := fun d hd =>
          Scheduler.lt_of_mem_dates h.ascending hlate hd
        apply h.move (List.Sublist.refl _) _ (Nat.zero_le _)
        · exact fun d hd => Instant.before_iff.mpr (.inl (hafter d hd))
        · intro d hd hlate'
          have hbefore := Instant.fs_le_of_not_before
            (Instant.not_before_of_before ((h.late d hd).mp hlate'))
          have hd' := hafter d hd
          simp only [Scheduler.book] at hbefore
          omega
      · exact h
  | clear =>
      rw [hc.scheduler_update]
      exact h.remove (List.nil_sublist _) _ (List.forall_mem_map.mpr fun _ _ => rfl)

theorem course (hc : host.CallsOnly) (h : Clocked j ((host.scheduler w).book batch₁))
    (hcourse : host.Course w batch₁ more w' batch₂) :
    Clocked (j ++ more) ((host.scheduler w').book batch₂) := by
  induction hcourse generalizing j with
  | nil =>
      rw [List.append_nil]
      exact h
  | cons hstep _ ih =>
      rw [← List.append_assoc]
      exact ih (h.step hc hstep)

theorem session {w₀ : ω} (hc : host.CallsOnly) (h₀ : host.scheduler w₀ = .initial)
    (hsession : host.Session w₀ j w) : Clocked j ((host.scheduler w).book []) := by
  induction hsession with
  | start =>
      rw [h₀]
      exact clocked_initial
  | outside _ hcalls ih => exact ih.calls hcalls
  | command _ _ hcourse ih => exact ih.course hc hcourse

/-- A step moves the clock back if and only if it takes out a late entry. -/
theorem goes_back_iff_takes_late (hc : host.CallsOnly)
    (h : Clocked j ((host.scheduler w).book batch₁))
    (hstep : host.Step w batch₁ more w' batch₂) :
    (host.scheduler w').now.before (host.scheduler w).now ↔
      ∃ e ∈ batch₂, e ∉ batch₁ ∧ Late j e.date := by
  have hstays : ∀ {w' : ω}, (host.scheduler w').now = (host.scheduler w).now →
      batch₂ ⊆ batch₁ → ((host.scheduler w').now.before (host.scheduler w).now ↔
        ∃ e ∈ batch₂, e ∉ batch₁ ∧ Late j e.date) := by
    intro w' hnow hsub
    apply iff_of_false
    · rw [hnow]
      exact Instant.before_irrefl _
    · rintro ⟨e, he, hnew, -⟩
      exact hnew (hsub he)
  cases hstep with
  | settle f hf =>
      apply hstays _ (List.Subset.refl _)
      rw [hc.scheduler_update]
      exact hf.now
  | poll fuel _ hj => exact hstays hj.now_eq (List.Subset.refl _)
  | abandon task hj => exact hstays hj.now_eq (List.Subset.refl _)
  | fire hdue =>
      apply hstays _ (List.subset_cons_self _ _)
      rw [hc.scheduler_update]
      exact (Scheduler.alike_fire _ _ _).now
  | call fuel hdue hcall hj => exact hstays hj.now_eq (List.subset_cons_self _ _)
  | clear =>
      apply hstays _ (List.Subset.refl _)
      rw [hc.scheduler_update]
  | take hdue =>
      obtain ⟨⟨e, he, hnow⟩, hagenda, hpresent, -⟩ := Scheduler.takeDue_spec hdue
      rw [hc.scheduler_update, hdue, Option.map_some, Option.getD_some]
      have hlate : ∀ f ∈ (host.scheduler w).agenda, Late j f.date ↔
          f.time.before (host.scheduler w).now := fun f hf =>
        h.late f.date (Scheduler.mem_dates hf)
      constructor
      · intro hback
        rw [hnow] at hback
        obtain ⟨first, hfirst⟩ := Scheduler.exists_mem_due hdue
        have hmem : first ∈ (host.scheduler w).agenda := by
          rw [hagenda]
          exact List.mem_append_left _ hfirst
        have htime : first.time = e.time := (hpresent first hfirst).trans hnow
        exact ⟨first, hfirst, List.not_mem_nil, (hlate first hmem).mpr (htime ▸ hback)⟩
      · rintro ⟨f, hf, -, hlate'⟩
        have hmem : f ∈ (host.scheduler w).agenda := by
          rw [hagenda]
          exact List.mem_append_left _ hf
        rw [← hpresent f hf]
        exact (hlate f hmem).mp hlate'
  | jump stop hlate =>
      apply iff_of_false
      · rw [hc.scheduler_update]
        split
        · rename_i hstop
          apply Instant.not_before_of_before
          exact Instant.before_iff.mpr (.inl hstop)
        · exact Instant.before_irrefl _
      · rintro ⟨e, he, -⟩
        exact List.not_mem_nil he

theorem course_goes_on (hc : host.CallsOnly) (h : Clocked j ((host.scheduler w).book batch₁))
    (hcourse : host.Course w batch₁ more w' batch₂) (hnone : ∀ d, ¬ Late (j ++ more) d) :
    ¬ (host.scheduler w').now.before (host.scheduler w).now := by
  induction hcourse generalizing j with
  | nil => exact Instant.before_irrefl _
  | @cons w w₁ w' batch₁ batch₂ batch' j₁ j₂ hstep _ ih =>
      have hfirst : ¬ (host.scheduler w₁).now.before (host.scheduler w).now := by
        rw [h.goes_back_iff_takes_late hc hstep]
        rintro ⟨e, -, -, hlate⟩
        exact hnone e.date (hlate.mono (List.subset_append_left _ _))
      rw [← List.append_assoc] at hnone
      have hrest := ih (h.step hc hstep) hnone
      exact Instant.not_before_trans hrest hfirst

end Clocked

end Journal

namespace Host

variable {ω κ τ : Type} {h : Host ω κ τ} {w₀ : ω}

/-- Take any host whose tasks and callbacks use the scheduler by calls only, and any session with it
that begins with a new scheduler. Calls do not move the clock, and whatever a command does is a
course of small steps. Without late entries the clock never goes back in a course; a step moves it
back if and only if it takes out a late entry. Within the range of the clock, an entry is late if
and only if it was made with a positive delay in the last femtosecond, beyond its first delta
step. -/
theorem time_goes_back_iff (hc : h.CallsOnly) (h₀ : h.scheduler w₀ = .initial) :
    (∀ {s s' : Scheduler κ τ} {j : Journal}, Scheduler.Calls s j s' → s'.now = s.now) ∧
      (∀ {w w' : ω}, h.Command w w' → ∃ more, h.Course w [] more w' []) ∧
        ∀ {j more : Journal} {w w₁ : ω} {batch : List (Entry κ)}, h.Session w₀ j w →
          h.Course w [] more w₁ batch →
            ((∀ d, ¬ (j ++ more).Late d) → ¬ (h.scheduler w₁).now.before (h.scheduler w).now) ∧
            (∀ {next : Journal} {w₂ : ω} {batch' : List (Entry κ)}, h.Step w₁ batch next w₂ batch' →
              ((h.scheduler w₂).now.before (h.scheduler w₁).now ↔
                ∃ e ∈ batch', e ∉ batch ∧ (j ++ more).Late e.date)) ∧
            ∀ {date : Date} {start : Instant} {delay : Nat},
              .made date start delay ∈ j ++ more → start.fs ≤ Bounded.max64 →
                (date.time.before start ↔
                  0 < delay ∧ start.fs = Bounded.max64 ∧ 0 < start.delta) := by
  refine ⟨fun hcalls => hcalls.now_eq, fun hcommand => hcommand.reaches hc, ?_⟩
  intro j more w w₁ batch hsession hcourse
  have hbefore : j.Clocked ((h.scheduler w).book []) := .session hc h₀ hsession
  have hafter : (j ++ more).Clocked ((h.scheduler w₁).book batch) := hbefore.course hc hcourse
  refine ⟨hbefore.course_goes_on hc hcourse, hafter.goes_back_iff_takes_late hc, ?_⟩
  intro date start delay hmade hfs
  obtain ⟨htime, hdelta⟩ := hafter.bounded _ hmade
  rw [htime]
  exact Instant.target_before_iff hfs hdelta

/-- A callback is due in the last femtosecond. It asks for another one at the next delta step,
which asks for a third one after one more femtosecond. Then the clock is advanced `n` times. -/
def lastCallbacks : (n : Nat) → Script.World
  | 0 => (Script.World.ofParts [] 0 0).updateScheduler fun s =>
      s.after Bounded.max64 ⟨"main.after", [.after 0 [.after 1 []]]⟩
  | n + 1 => ((Script.World.host.advance 9 (lastCallbacks n)).map (·.1)).getD (lastCallbacks n)

theorem advance_lastCallbacks {n : Nat}
    (hn : (Script.World.host.advance 9 (lastCallbacks n)).isSome = true) :
    Script.World.host.Command (lastCallbacks n) (lastCallbacks (n + 1)) := by
  obtain ⟨⟨w, r⟩, hrun⟩ := Option.isSome_iff_exists.mp hn
  have hw : lastCallbacks (n + 1) = w := by
    rw [lastCallbacks, hrun]
    rfl
  rw [hw]
  exact .advance hrun

theorem session_lastCallbacks :
    ∃ j, Script.World.host.Session (.ofParts [] 0 0) j (lastCallbacks 2) := by
  let host := Script.World.host
  have hstart : host.Session (.ofParts [] 0 0) [] (.ofParts [] 0 0) := .start
  have hmade : host.Session (.ofParts [] 0 0) _ (lastCallbacks 0) :=
    hstart.outside (Scheduler.Call.schedule _ Bounded.max64 _).calls
  have hfirst : host.Command (lastCallbacks 0) (lastCallbacks 1) :=
    advance_lastCallbacks (by decide +kernel)
  have hsecond : host.Command (lastCallbacks 1) (lastCallbacks 2) :=
    advance_lastCallbacks (by decide +kernel)
  obtain ⟨_, hcourse₁⟩ := hfirst.reaches Script.World.host_callsOnly
  obtain ⟨_, hcourse₂⟩ := hsecond.reaches Script.World.host_callsOnly
  exact ⟨_, (hmade.command hfirst hcourse₁).command hsecond hcourse₂⟩

/-- The third callback is due one delta step before the second one, and the clock goes back to
it. -/
theorem time_goes_back_in_last_femtosecond :
    ∃ j, Script.World.host.Session (.ofParts [] 0 0) j (lastCallbacks 2) ∧
      Script.World.host.Command (lastCallbacks 2) (lastCallbacks 3) ∧
      (lastCallbacks 2).kernel.scheduler.now = ⟨Bounded.max64, 1⟩ ∧
      (lastCallbacks 3).kernel.scheduler.now = ⟨Bounded.max64, 0⟩ := by
  obtain ⟨j, hj⟩ := session_lastCallbacks
  refine ⟨j, hj, advance_lastCallbacks (by decide +kernel), ?_, ?_⟩
  · decide +kernel
  · decide +kernel

/-- The entry of the third callback is late. -/
theorem late_entry_taken_out : ∃ j w' batch,
    Script.World.host.Session (.ofParts [] 0 0) j (lastCallbacks 2) ∧
      Script.World.host.Step (lastCallbacks 2) [] [] w' batch ∧
      (Script.World.host.scheduler w').now.before
        (Script.World.host.scheduler (lastCallbacks 2)).now ∧
      ∃ e ∈ batch, j.Late e.date := by
  obtain ⟨j, hj⟩ := session_lastCallbacks
  have hsome : (Script.World.host.scheduler (lastCallbacks 2)).takeDue.isSome = true := by
    decide +kernel
  obtain ⟨⟨s, due⟩, hdue⟩ := Option.isSome_iff_exists.mp hsome
  have hstep := Host.Step.take hdue
  have hback : (Script.World.host.scheduler (Script.World.host.update
      (fun s => (s.takeDue.map (·.1)).getD s) (lastCallbacks 2))).now.before
        (Script.World.host.scheduler (lastCallbacks 2)).now := by
    decide +kernel
  have hinitial : Script.World.host.scheduler (.ofParts [] 0 0) = .initial := rfl
  obtain ⟨-, -, hspec⟩ := time_goes_back_iff Script.World.host_callsOnly hinitial
  obtain ⟨e, he, -, hlate⟩ := ((hspec hj (.nil _ [])).2.1 hstep).mp hback
  rw [List.append_nil] at hlate
  exact ⟨j, _, due, hj, hstep, hback, e, he, hlate⟩

end Host

end Clockwork
