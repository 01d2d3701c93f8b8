import Mathlib.Data.List.TakeDrop
import Mathlib.Data.List.TakeWhile
import Clockwork.Concurrency.Scheduler
import Clockwork.Number.Bounded
/-!
The agenda in its order, and what the users of a scheduler do with its entries. The date of an
entry is the instant at which it is due, together with its number; an agenda is in order if its
dates ascend. A new entry has the largest number, so that it keeps its place behind all entries of
the same instant (`ascending_insertEntry`), and the entries that are due together are a first part
of the agenda (`takeDue_spec`). No call moves the clock (`Scheduler.Calls`).
-/

namespace Clockwork

open scoped List

namespace Instant

theorem before_iff {a b : Instant} :
    a.before b = true ↔ a.fs < b.fs ∨ a.fs = b.fs ∧ a.delta < b.delta := by
  simp [before]

theorem eq_iff {a b : Instant} : a = b ↔ a.fs = b.fs ∧ a.delta = b.delta := by
  cases a
  cases b
  simp

theorem before_irrefl (a : Instant) : ¬a.before a := by
  rw [before_iff]
  omega

theorem before_trans {a b c : Instant} (hab : a.before b) (hbc : b.before c) : a.before c := by
  rw [before_iff] at *
  omega

theorem fs_le_of_not_before {a b : Instant} (h : ¬b.before a) : a.fs ≤ b.fs := by
  rw [before_iff] at h
  omega

theorem eq_or_before {a b : Instant} (h : ¬b.before a) : a = b ∨ a.before b := by
  rw [before_iff] at *
  rw [eq_iff]
  omega

end Instant

/-- When an entry is due, and its number among all entries. -/
structure Date where
  time : Instant
  seq : Nat
  deriving DecidableEq, Repr

namespace Date

/-- Due earlier, or at the same instant and made earlier. -/
def Before (a b : Date) : Prop := a.time.before b.time ∨ a.time = b.time ∧ a.seq < b.seq

variable {a b c : Date}

theorem before_iff : a.Before b ↔ a.time.fs < b.time.fs ∨ a.time.fs = b.time.fs ∧
    (a.time.delta < b.time.delta ∨ a.time.delta = b.time.delta ∧ a.seq < b.seq) := by
  rw [Before, Instant.before_iff, Instant.eq_iff]
  omega

theorem before_trans (hab : a.Before b) (hbc : b.Before c) : a.Before c := by
  rw [before_iff] at *
  omega

theorem Before.not_before_time (h : a.Before b) : ¬b.time.before a.time := by
  rw [before_iff] at h
  rw [Instant.before_iff]
  omega

def Ascending (l : List Date) : Prop := l.Pairwise Before

end Date

/-- When an entry is due, and its number. -/
def Entry.date {κ : Type} (e : Entry κ) : Date := ⟨e.time, e.seq⟩

namespace Scheduler

variable {κ τ : Type}

/-- The dates of the entries that are pending. -/
def dates (s : Scheduler κ τ) : List Date := s.agenda.map Entry.date

theorem mem_dates {s : Scheduler κ τ} {e : Entry κ} (h : e ∈ s.agenda) : e.date ∈ s.dates :=
  List.mem_map_of_mem h

theorem insertEntry_perm (e : Entry κ) (l : List (Entry κ)) : insertEntry e l ~ e :: l := by
  induction l with
  | nil => rfl
  | cons f rest ih =>
      simp only [insertEntry]
      split
      · rfl
      · exact (ih.cons f).trans (List.Perm.swap e f rest)

theorem ascending_insertEntry {e : Entry κ} {l : List (Entry κ)}
    (hl : Date.Ascending (l.map Entry.date)) (hnew : ∀ f ∈ l, f.seq < e.seq) :
    Date.Ascending ((insertEntry e l).map Entry.date) := by
  induction l with
  | nil => exact List.pairwise_singleton _ _
  | cons f rest ih =>
      obtain ⟨hfirst, hrest⟩ := List.pairwise_cons.mp hl
      simp only [insertEntry]
      split
      · rename_i hearly
        refine List.pairwise_cons.mpr ⟨?_, hl⟩
        intro d hd
        have hef : e.date.Before f.date := .inl hearly
        cases List.mem_cons.mp hd with
        | inl heq => exact heq ▸ hef
        | inr hmem => exact Date.before_trans hef (hfirst d hmem)
      · rename_i hlate
        refine List.pairwise_cons.mpr
          ⟨?_, ih hrest fun g hg => hnew g (List.mem_cons_of_mem f hg)⟩
        intro d hd
        have hmem := ((insertEntry_perm e rest).map Entry.date).mem_iff.mp hd
        cases List.mem_cons.mp hmem with
        | inl heq =>
            rw [heq]
            exact (Instant.eq_or_before hlate).elim
              (fun htime => .inr ⟨htime, hnew f List.mem_cons_self⟩) .inl
        | inr hmem => exact hfirst d hmem

theorem before_of_mem_dropWhile {t : Instant} {l : List (Entry κ)}
    (hl : Date.Ascending (l.map Entry.date)) (ht : ∀ e ∈ l, ¬e.time.before t) {e : Entry κ}
    (he : e ∈ l.dropWhile fun f => decide (f.time = t)) : t.before e.time := by
  induction l with
  | nil => cases he
  | cons f rest ih =>
      obtain ⟨hfirst, hrest⟩ := List.pairwise_cons.mp hl
      rw [List.dropWhile_cons] at he
      split at he
      · exact ih hrest (fun g hg => ht g (List.mem_cons_of_mem f hg)) he
      · rename_i hne
        have hf : t.before f.time := by
          refine (Instant.eq_or_before (ht f List.mem_cons_self)).resolve_left fun heq => hne ?_
          exact decide_eq_true heq.symm
        cases List.mem_cons.mp he with
        | inl heq => exact heq ▸ hf
        | inr hmem =>
            have hfe : f.date.Before e.date := hfirst _ (List.mem_map_of_mem hmem)
            have hlate : ¬e.time.before f.time := hfe.not_before_time
            rw [Instant.before_iff] at *
            omega

/-- The scheduler goes on to the time of the first entries, and takes out all entries of that
time. -/
theorem takeDue_spec {s s' : Scheduler κ τ} {due : List (Entry κ)}
    (h : s.takeDue = some (s', due)) :
    (∃ e ∈ s.agenda, s'.now = e.time) ∧ s.agenda = due ++ s'.agenda ∧
      (∀ e ∈ due, e.time = s'.now) ∧ s'.nextSeq = s.nextSeq ∧
      (Date.Ascending s.dates → ∀ e ∈ s'.agenda, s'.now.before e.time) := by
  unfold takeDue at h
  cases hagenda : s.agenda with
  | nil =>
      rw [hagenda] at h
      cases h
  | cons e rest =>
      rw [hagenda] at h
      simp only [List.span_eq_takeWhile_dropWhile, Option.some.injEq, Prod.mk.injEq] at h
      obtain ⟨rfl, rfl⟩ := h
      refine ⟨⟨e, List.mem_cons_self, rfl⟩, List.takeWhile_append_dropWhile.symm, ?_, rfl, ?_⟩
      · intro f hf
        have htime := List.mem_takeWhile_imp hf
        exact of_decide_eq_true htime
      · intro hl
        rw [dates, hagenda] at hl
        refine fun f hf => before_of_mem_dropWhile hl ?_ hf
        intro g hg
        cases List.mem_cons.mp hg with
        | inl heq => exact heq ▸ Instant.before_irrefl _
        | inr hmem =>
            have heg : e.date.Before g.date :=
              (List.pairwise_cons.mp hl).1 _ (List.mem_map_of_mem hmem)
            exact heg.not_before_time

theorem lt_of_mem_dates {s : Scheduler κ τ} {stop : Nat} (hs : Date.Ascending s.dates)
    (hhead : ∀ e, s.agenda.head? = some e → stop < e.time.fs) {d : Date} (hd : d ∈ s.dates) :
    stop < d.time.fs := by
  unfold dates at hs hd
  cases hagenda : s.agenda with
  | nil =>
      rw [hagenda] at hd
      cases hd
  | cons e rest =>
      rw [hagenda] at hs hd hhead
      have he : stop < e.time.fs := hhead e rfl
      cases List.mem_cons.mp hd with
      | inl heq => exact heq ▸ he
      | inr hmem =>
          have hed : e.date.Before d := (List.pairwise_cons.mp hs).1 d hmem
          exact Nat.lt_of_lt_of_le he (Instant.fs_le_of_not_before hed.not_before_time)

end Scheduler

/-- Something that happens to an entry. -/
inductive Incident where
  | made (date : Date) (start : Instant) (delay : Nat)
  | cancelled (date : Date)
  /-- Its callback is run or its sleeper is woken while the scheduler's time is `now`. -/
  | dispatched (date : Date) (now : Instant)
  deriving DecidableEq, Repr

namespace Incident

def made? : Incident → Option Date
  | made date _ _ => some date
  | _ => none

def cancelled? : Incident → Option Date
  | cancelled date => some date
  | _ => none

def dispatched? : Incident → Option Date
  | dispatched date _ => some date
  | _ => none

end Incident

/-- All that happened to the entries of a scheduler, in order. -/
abbrev Journal := List Incident

namespace Journal

variable {j j₁ j₂ : Journal} {date : Date}

/-- The entries made, in the order in which they were made. -/
def made (j : Journal) : List Date := j.filterMap Incident.made?

def cancelled (j : Journal) : List Date := j.filterMap Incident.cancelled?

def dispatched (j : Journal) : List Date := j.filterMap Incident.dispatched?

@[simp] theorem made_append : made (j₁ ++ j₂) = made j₁ ++ made j₂ := List.filterMap_append

@[simp] theorem cancelled_append : cancelled (j₁ ++ j₂) = cancelled j₁ ++ cancelled j₂ :=
  List.filterMap_append

@[simp] theorem dispatched_append : dispatched (j₁ ++ j₂) = dispatched j₁ ++ dispatched j₂ :=
  List.filterMap_append

theorem mem_made : date ∈ made j ↔ ∃ start delay, .made date start delay ∈ j := by
  simp only [made, List.mem_filterMap]
  constructor
  · rintro ⟨o, ho, hdate⟩
    cases o <;> cases hdate
    exact ⟨_, _, ho⟩
  · rintro ⟨start, delay, ho⟩
    exact ⟨_, ho, rfl⟩

theorem mem_dispatched : date ∈ dispatched j ↔ ∃ now, .dispatched date now ∈ j := by
  simp only [dispatched, List.mem_filterMap]
  constructor
  · rintro ⟨o, ho, hdate⟩
    cases o <;> cases hdate
    exact ⟨_, ho⟩
  · rintro ⟨now, ho⟩
    exact ⟨_, ho, rfl⟩

@[simp] theorem made_map_cancelled (l : List Date) : made (l.map .cancelled) = [] := by
  simp [made, Incident.made?]

@[simp] theorem cancelled_map_cancelled (l : List Date) : cancelled (l.map .cancelled) = l := by
  induction l with
  | nil => rfl
  | cons d l ih => exact congrArg (d :: ·) ih

@[simp] theorem dispatched_map_cancelled (l : List Date) :
    dispatched (l.map .cancelled) = [] := by
  simp [dispatched, Incident.dispatched?]

/-- No entry was made whose time is beyond the largest femtosecond or the largest delta step. -/
def Unsaturated (j : Journal) : Prop :=
  ∀ {date start delay}, .made date start delay ∈ j →
    if delay = 0 then start.delta < Bounded.max32 else start.fs + delay ≤ Bounded.max64

theorem Unsaturated.left (h : Unsaturated (j₁ ++ j₂)) : Unsaturated j₁ :=
  fun ho => h (List.mem_append_left j₂ ho)

theorem Unsaturated.right (h : Unsaturated (j₁ ++ j₂)) : Unsaturated j₂ :=
  fun ho => h (List.mem_append_right j₁ ho)

end Journal

def Instant.plus (start : Instant) (delay : Nat) : Instant :=
  if delay = 0 then ⟨start.fs, start.delta + 1⟩ else ⟨start.fs + delay, 0⟩

theorem Instant.before_plus (start : Instant) (delay : Nat) : start.before (start.plus delay) := by
  rw [before_iff, plus]
  split
  · exact .inr ⟨rfl, Nat.lt_succ_self _⟩
  · left
    dsimp only
    omega

namespace Scheduler

variable {κ τ : Type} {s s' s₁ : Scheduler κ τ}

theorem target_eq_plus {delay : Nat}
    (h : if delay = 0 then s.now.delta < Bounded.max32 else s.now.fs + delay ≤ Bounded.max64) :
    s.target delay = s.now.plus delay := by
  unfold target Instant.plus
  split at h
  · rename_i hzero
    rw [if_pos hzero, if_pos hzero, Instant.nextDelta, Nat.min_eq_left (by omega)]
  · rename_i hpos
    rw [if_neg hpos, if_neg hpos, Instant.after, Bounded.add64, Nat.min_eq_left h]
    rfl

/-- The clock, the number of the next entry, and the dates of all entries are the same. -/
structure Alike (s s' : Scheduler κ τ) : Prop where
  now : s'.now = s.now
  nextSeq : s'.nextSeq = s.nextSeq
  dates : s'.dates = s.dates

def sleepDates (s : Scheduler κ τ) (entry : Option Nat) : List Date :=
  s.dates.filter fun d => some d.seq = entry

/-- A call of a scheduler by a callback, by a task or from outside. -/
inductive Call : Scheduler κ τ → Journal → Scheduler κ τ → Prop
  /-- A callback is to run after a delay, or a sleep begins. -/
  | schedule (s : Scheduler κ τ) (delay : Nat) (due : Due κ) :
      Call s [.made ⟨s.target delay, s.nextSeq⟩ s.now delay] (s.schedule delay due).1
  | abandonSleep (s : Scheduler κ τ) (entry : Option Nat) :
      Call s ((s.sleepDates entry).map .cancelled) (s.abandonSleep entry)
  | other {s s' : Scheduler κ τ} (h : s.Alike s') : Call s [] s'

/-- Any number of calls. -/
inductive Calls : Scheduler κ τ → Journal → Scheduler κ τ → Prop
  | nil (s : Scheduler κ τ) : Calls s [] s
  | cons {s s₁ s' : Scheduler κ τ} {j₁ j : Journal} :
      Call s j₁ s₁ → Calls s₁ j s' → Calls s (j₁ ++ j) s'

theorem Call.calls {j : Journal} (h : Call s j s') : Calls s j s' := by
  have hcalls := Calls.cons h (.nil s')
  rwa [List.append_nil] at hcalls

theorem Calls.trans {j₁ j : Journal} (h₁ : Calls s j₁ s₁) (h : Calls s₁ j s') :
    Calls s (j₁ ++ j) s' := by
  induction h₁ with
  | nil => exact h
  | cons hcall _ ih =>
      rw [List.append_assoc]
      exact .cons hcall (ih h)

/-- Some calls lead from one state of the scheduler to another one. -/
def CallsTo (s s' : Scheduler κ τ) : Prop := ∃ j, Calls s j s'

theorem CallsTo.refl (s : Scheduler κ τ) : s.CallsTo s := ⟨_, .nil s⟩

theorem CallsTo.trans (h₁ : s.CallsTo s₁) (h : s₁.CallsTo s') : s.CallsTo s' := by
  obtain ⟨j₁, h₁⟩ := h₁
  obtain ⟨j, h⟩ := h
  exact ⟨_, h₁.trans h⟩

theorem Alike.callsTo (h : s.Alike s') : s.CallsTo s' := ⟨_, (Call.other h).calls⟩

variable (s)

theorem callsTo_schedule (delay : Nat) (due : Due κ) : s.CallsTo (s.schedule delay due).1 :=
  ⟨_, (Call.schedule s delay due).calls⟩

theorem callsTo_abandonSleep (entry : Option Nat) : s.CallsTo (s.abandonSleep entry) :=
  ⟨_, (Call.abandonSleep s entry).calls⟩

theorem alike_wake (w : Waker) : s.Alike (s.wake w) := by
  cases w <;> exact ⟨rfl, rfl, rfl⟩

theorem alike_fire (seq : Nat) (w : Waker) : s.Alike (s.fire seq w) := by
  cases w <;> exact ⟨rfl, rfl, rfl⟩

theorem callsTo_wakeAll (ws : List Waker) : s.CallsTo (s.wakeAll ws) := by
  induction ws generalizing s with
  | nil => exact .refl s
  | cons w ws ih => exact (s.alike_wake w).callsTo.trans (ih _)

theorem callsTo_spawn (task : τ) : s.CallsTo (s.spawn task).1 :=
  Alike.callsTo ⟨rfl, rfl, rfl⟩

theorem alike_cancel (id : Nat) : s.Alike (s.cancel id).1 := by
  unfold cancel
  split
  · exact ⟨rfl, rfl, rfl⟩
  · split <;> exact ⟨rfl, rfl, rfl⟩

theorem callsTo_stop : s.CallsTo s.stop := Alike.callsTo ⟨rfl, rfl, rfl⟩

def Attempt.scheduler : Attempt κ τ → Scheduler κ τ
  | .over s => s
  | .waiting _ s => s

theorem callsTo_pollSleep (delay : Nat) (entry : Option Nat) (w : Waker) :
    s.CallsTo (s.pollSleep delay entry w).scheduler := by
  cases entry with
  | none => exact s.callsTo_schedule delay (.sleeper w)
  | some seq =>
      simp only [pollSleep]
      split
      · exact Alike.callsTo ⟨rfl, rfl, rfl⟩
      · refine Alike.callsTo ⟨rfl, rfl, ?_⟩
        simp only [Attempt.scheduler, dates, List.map_map]
        refine List.map_congr_left fun e _ => ?_
        simp only [Function.comp_apply]
        split <;> rfl

end Scheduler

end Clockwork
