import Clockwork.Proofs.Concurrency.Schedule.Course
import Mathlib.Data.List.Perm.Basic
/-!
The invariant of dispatch. Of a scheduler in a course only the clock, the number of the next entry
and the dates of its entries matter (`Book`). `Journal.Regular` relates them to the journal: what
was dispatched is not after now, what was taken out of the agenda is due now, and all that is
pending is after now. It is kept when an entry is made, taken back, taken out or dispatched.
-/

namespace Clockwork

open scoped List

structure Book where
  now : Instant
  nextSeq : Nat
  /-- The entries that were taken out of the agenda and have not been dispatched. -/
  batch : List Date
  pending : List Date

def Scheduler.book {κ τ : Type} (s : Scheduler κ τ) (batch : List (Entry κ)) : Book :=
  ⟨s.now, s.nextSeq, batch.map Entry.date, s.dates⟩

theorem Scheduler.Alike.book_eq {κ τ : Type} {s s' : Scheduler κ τ} (h : s.Alike s')
    (batch : List (Entry κ)) : s'.book batch = s.book batch := by
  simp only [Scheduler.book, h.now, h.nextSeq, h.dates]

theorem Scheduler.dates_abandonSleep {κ τ : Type} (s : Scheduler κ τ) (entry : Option Nat) :
    (s.abandonSleep entry).dates = s.dates.filter fun d => !decide (some d.seq = entry) := by
  cases entry with
  | none => simp [abandonSleep]
  | some seq =>
      simp only [abandonSleep, dates, List.filter_map, Option.some.injEq]
      refine congrArg (List.map Entry.date) (List.filter_congr fun e _ => ?_)
      by_cases hseq : e.seq = seq <;> simp [Entry.date, hseq]

/-- An entry is made for the instant that its delay leads to, and dispatched at its time. -/
def Incident.Truthful : Incident → Prop
  | made date start delay => date.time = start.plus delay
  | cancelled _ => True
  | dispatched date now => now = date.time

namespace Journal

variable {j more : Journal}

/-- When an entry is dispatched, those made without a delay at an earlier femtosecond have been
dispatched or taken back already. -/
def Drained (j : Journal) : Prop :=
  ∀ (earlier later : Journal) (date : Date) (now : Instant),
    j = earlier ++ .dispatched date now :: later →
      ∀ {d : Date} {start : Instant}, .made d start 0 ∈ j → start.fs < date.time.fs →
        d ∈ dispatched earlier ∨ d ∈ cancelled earlier

/-- Nothing is dispatched, and what is made begins no earlier than what was dispatched before. -/
theorem Drained.append (h : Drained j) (hmore : dispatched more = [])
    (hlate : ∀ {d : Date} {start : Instant}, .made d start 0 ∈ more →
      ∀ date ∈ dispatched j, date.time.fs ≤ start.fs) : Drained (j ++ more) := by
  intro earlier later date now hsplit d start hmade hstart
  obtain ⟨rest, hj⟩ : ∃ rest, j = earlier ++ .dispatched date now :: rest := by
    rcases List.append_eq_append_iff.mp hsplit with ⟨l, -, hl⟩ | ⟨l, hj, hl⟩
    · have hdate : date ∈ dispatched more := by
        rw [mem_dispatched, hl]
        exact ⟨now, List.mem_append_right l List.mem_cons_self⟩
      rw [hmore] at hdate
      cases hdate
    · cases l with
      | nil =>
          have hdate : date ∈ dispatched more := by
            rw [mem_dispatched, ← List.nil_append more, ← hl]
            exact ⟨now, List.mem_cons_self⟩
          rw [hmore] at hdate
          cases hdate
      | cons o rest =>
          cases hl
          exact ⟨rest, hj⟩
  cases List.mem_append.mp hmade with
  | inl hold => exact h earlier rest date now hj hold hstart
  | inr hnew =>
      have hdate : date ∈ dispatched j := by
        rw [mem_dispatched, hj]
        exact ⟨now, List.mem_append_right earlier List.mem_cons_self⟩
      exact absurd (hlate hnew date hdate) (Nat.not_le_of_lt hstart)

theorem Drained.dispatch (h : Drained j) {date : Date} {now : Instant}
    (hall : ∀ {d : Date} {start : Instant}, .made d start 0 ∈ j → start.fs < date.time.fs →
      d ∈ dispatched j ∨ d ∈ cancelled j) : Drained (j ++ [.dispatched date now]) := by
  intro earlier later date' now' hsplit d start hmade hstart
  have hold : .made d start 0 ∈ j := by
    cases List.mem_append.mp hmade with
    | inl hold => exact hold
    | inr hnew =>
        rw [List.mem_singleton] at hnew
        cases hnew
  rcases List.eq_nil_or_concat later with rfl | ⟨rest, o, rfl⟩
  · obtain ⟨rfl, heq⟩ := List.append_inj' hsplit rfl
    cases heq
    exact hall hold hstart
  · have hj : j ++ [.dispatched date now] =
        (earlier ++ .dispatched date' now' :: rest) ++ [o] := by
      simpa using hsplit
    exact h earlier rest date' now' (List.append_inj' hj rfl).1 hold hstart

structure Regular (j : Journal) (b : Book) : Prop where
  truthful : ∀ o ∈ j, o.Truthful
  numbered : ((made j).map Date.seq).Pairwise (· < ·)
  below : ∀ d ∈ made j, d.seq < b.nextSeq
  ascending : Date.Ascending (dispatched j ++ b.batch ++ b.pending)
  past : ∀ d ∈ dispatched j, ¬b.now.before d.time
  present : ∀ d ∈ b.batch, d.time = b.now
  future : ∀ d ∈ b.pending, b.now.before d.time
  accounted : dispatched j ++ cancelled j ++ (b.batch ++ b.pending) ~ made j
  drained : Drained j

theorem regular_initial {κ τ : Type} :
    Regular [] ((Scheduler.initial : Scheduler κ τ).book []) where
  truthful _ h := nomatch h
  numbered := .nil
  below _ h := nomatch h
  ascending := .nil
  past _ h := nomatch h
  present _ h := nomatch h
  future _ h := nomatch h
  accounted := .refl _
  drained _ _ _ _ h := by simp at h

namespace Regular

variable {now : Instant} {nextSeq : Nat} {batch pending : List Date}

theorem made_of_pending {b : Book} (h : Regular j b) {d : Date} (hd : d ∈ b.pending) :
    d ∈ made j :=
  h.accounted.subset (List.mem_append_right _ (List.mem_append_right _ hd))

theorem ascending_pending {b : Book} (h : Regular j b) : Date.Ascending b.pending :=
  (List.pairwise_append.mp h.ascending).2.1

theorem not_after {b : Book} (h : Regular j b) {d : Date} (hd : d ∈ dispatched j ++ b.batch) :
    ¬b.now.before d.time := by
  cases List.mem_append.mp hd with
  | inl hold => exact h.past d hold
  | inr hmem =>
      rw [h.present d hmem]
      exact Instant.before_irrefl _

theorem schedule (h : Regular j ⟨now, nextSeq, batch, pending⟩) {delay : Nat} {date : Date}
    {pending' : List Date} (htime : date.time = now.plus delay) (hseq : date.seq = nextSeq)
    (hperm : pending' ~ date :: pending) (hpending : Date.Ascending pending') :
    Regular (j ++ [.made date now delay]) ⟨now, nextSeq + 1, batch, pending'⟩ := by
  have hmade : made (j ++ [.made date now delay]) = made j ++ [date] := made_append
  have hcancelled : cancelled (j ++ [.made date now delay]) = cancelled j := by
    rw [cancelled_append]
    exact List.append_nil _
  have hdispatched : dispatched (j ++ [.made date now delay]) = dispatched j := by
    rw [dispatched_append]
    exact List.append_nil _
  have hnew : now.before date.time := by
    rw [htime]
    exact now.before_plus delay
  have hafter : ∀ d ∈ pending', now.before d.time := by
    intro d hd
    cases List.mem_cons.mp (hperm.subset hd) with
    | inl heq => exact heq ▸ hnew
    | inr hold => exact h.future d hold
  constructor
  case truthful =>
    exact List.forall_mem_append.mpr ⟨h.truthful, List.forall_mem_singleton.mpr htime⟩
  case numbered =>
    rw [hmade, List.map_append, List.pairwise_append]
    refine ⟨h.numbered, List.pairwise_singleton _ _, ?_⟩
    simp only [List.mem_map, List.map_cons, List.map_nil, List.mem_singleton, hseq]
    rintro _ ⟨d, hd, rfl⟩ _ rfl
    exact h.below d hd
  case below =>
    rw [hmade]
    refine List.forall_mem_append.mpr ⟨fun d hd => Nat.lt_succ_of_lt (h.below d hd), ?_⟩
    exact List.forall_mem_singleton.mpr (hseq ▸ Nat.lt_succ_self date.seq)
  case ascending =>
    rw [hdispatched]
    obtain ⟨hbefore, -, -⟩ := List.pairwise_append.mp h.ascending
    refine List.pairwise_append.mpr ⟨hbefore, hpending, fun a ha b hb => .inl ?_⟩
    have ha : ¬now.before a.time := h.not_after ha
    have hb := hafter b hb
    rw [Instant.before_iff] at *
    omega
  case past =>
    rw [hdispatched]
    exact h.past
  case present => exact h.present
  case future => exact hafter
  case accounted =>
    rw [hmade, hcancelled, hdispatched]
    refine ((hperm.append_left batch).append_left _).trans ?_
    refine (List.perm_middle.append_left _).trans (List.perm_middle.trans ?_)
    exact (h.accounted.cons date).trans (List.perm_append_singleton date (made j)).symm
  case drained =>
    refine h.drained.append rfl ?_
    intro d start hmem date' hdate'
    rw [List.mem_singleton] at hmem
    cases hmem
    exact Instant.fs_le_of_not_before (h.past date' hdate')

/-- Some entries are taken back. -/
theorem cancel (h : Regular j ⟨now, nextSeq, batch, pending⟩) (p : Date → Bool) :
    Regular (j ++ (pending.filter p).map .cancelled)
      ⟨now, nextSeq, batch, pending.filter fun d => !p d⟩ := by
  constructor
  case truthful =>
    exact List.forall_mem_append.mpr ⟨h.truthful, List.forall_mem_map.mpr fun _ _ => trivial⟩
  case numbered =>
    rw [made_append, made_map_cancelled, List.append_nil]
    exact h.numbered
  case below =>
    rw [made_append, made_map_cancelled, List.append_nil]
    exact h.below
  case ascending =>
    rw [dispatched_append, dispatched_map_cancelled, List.append_nil]
    exact h.ascending.sublist (List.filter_sublist.append_left _)
  case past =>
    rw [dispatched_append, dispatched_map_cancelled, List.append_nil]
    exact h.past
  case present => exact h.present
  case future => exact fun d hd => h.future d (List.mem_of_mem_filter hd)
  case accounted =>
    rw [made_append, made_map_cancelled, List.append_nil, dispatched_append,
      dispatched_map_cancelled, List.append_nil, cancelled_append, cancelled_map_cancelled]
    have hsplit : pending.filter p ++ (pending.filter fun d => !p d) ~ pending :=
      List.filter_append_perm p pending
    refine List.Perm.trans ?_ h.accounted
    simp only [List.append_assoc]
    refine (List.Perm.append_left _ (List.Perm.append_left _ ?_))
    rw [← List.append_assoc]
    refine (List.perm_append_comm.append_right _).trans ?_
    rw [List.append_assoc]
    exact hsplit.append_left batch
  case drained =>
    refine h.drained.append (dispatched_map_cancelled _) ?_
    intro d start ho
    obtain ⟨_, -, heq⟩ := List.mem_map.mp ho
    cases heq

theorem take {due rest : List Date} {t : Instant}
    (h : Regular j ⟨now, nextSeq, [], due ++ rest⟩) (ht : now.before t)
    (hdue : ∀ d ∈ due, d.time = t) (hrest : ∀ d ∈ rest, t.before d.time) :
    Regular j ⟨t, nextSeq, due, rest⟩ where
  truthful := h.truthful
  numbered := h.numbered
  below := h.below
  ascending := by
    have hascending := h.ascending
    rwa [List.append_nil, ← List.append_assoc] at hascending
  past d hd := by
    have hd : ¬now.before d.time := h.past d hd
    intro htd
    exact hd (Instant.before_trans ht htd)
  present := hdue
  future := hrest
  accounted := h.accounted
  drained := h.drained

/-- The first of the entries taken out is dispatched. -/
theorem dispatch {date : Date} (h : Regular j ⟨now, nextSeq, date :: batch, pending⟩) :
    Regular (j ++ [.dispatched date now]) ⟨now, nextSeq, batch, pending⟩ := by
  have hmade : made (j ++ [.dispatched date now]) = made j := by
    rw [made_append]
    exact List.append_nil _
  have hcancelled : cancelled (j ++ [.dispatched date now]) = cancelled j := by
    rw [cancelled_append]
    exact List.append_nil _
  have hdispatched : dispatched (j ++ [.dispatched date now]) = dispatched j ++ [date] :=
    dispatched_append
  have hdate : date.time = now := h.present date List.mem_cons_self
  constructor
  case truthful =>
    exact List.forall_mem_append.mpr ⟨h.truthful, List.forall_mem_singleton.mpr hdate.symm⟩
  case numbered =>
    rw [hmade]
    exact h.numbered
  case below =>
    rw [hmade]
    exact h.below
  case ascending =>
    have hascending := h.ascending
    rw [hdispatched, List.append_assoc (dispatched j)]
    exact hascending
  case past =>
    rw [hdispatched]
    refine List.forall_mem_append.mpr ⟨h.past, List.forall_mem_singleton.mpr ?_⟩
    rw [hdate]
    exact now.before_irrefl
  case present => exact fun d hd => h.present d (List.mem_cons_of_mem date hd)
  case future => exact h.future
  case accounted =>
    rw [hmade, hcancelled, hdispatched]
    refine List.Perm.trans ?_ h.accounted
    rw [List.append_assoc, List.append_assoc, List.append_assoc]
    have hmiddle : cancelled j ++ date :: (batch ++ pending) ~
        date :: (cancelled j ++ (batch ++ pending)) := List.perm_middle
    exact hmiddle.symm.append_left _
  case drained =>
    refine h.drained.dispatch ?_
    intro d start hd hstart
    have htime : d.time.fs = start.fs := by
      have htime : d.time = start.plus 0 := h.truthful _ hd
      rw [htime]
      rfl
    have hmem := h.accounted.mem_iff.mpr (mem_made.mpr ⟨start, 0, hd⟩)
    simp only [List.mem_append] at hmem
    rcases hmem with (hdone | hback) | hnow | hpending
    · exact .inl hdone
    · exact .inr hback
    -- Entries of the batch and of the agenda are due now or later, this one is due before.
    · have hnow : d.time = now := h.present d hnow
      rw [hnow, ← hdate] at htime
      omega
    · have hlate : now.before d.time := h.future d hpending
      rw [Instant.before_iff, ← hdate] at hlate
      omega

end Regular

end Journal

end Clockwork
