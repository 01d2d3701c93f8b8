import Mathlib.Data.List.Perm.Basic
import Clockwork.Concurrency.WaitQueue

namespace Clockwork

def without : Option Nat → List Nat → List Nat
  | none, l => l
  | some t, l => l.filter (· ≠ t)

@[simp] theorem without_none (l : List Nat) : without none l = l := rfl

@[simp] theorem without_nil (t : Option Nat) : without t [] = [] := by
  cases t <;> rfl

theorem without_append (t : Option Nat) (l l' : List Nat) :
    without t (l ++ l') = without t l ++ without t l' := by
  cases t with
  | none => rfl
  | some t => exact List.filter_append l l'

theorem without_of_not_mem {t : Nat} {l : List Nat} (h : t ∉ l) : without (some t) l = l := by
  refine List.filter_eq_self.mpr fun u hu => decide_eq_true ?_
  rintro rfl
  exact h hu

namespace WaitQueue

/-- The tickets in a queue, the one that is woken next first. -/
def tickets (q : WaitQueue) : List Nat := q.waiting.map (·.1)

/-- The tickets other than the given one that left a queue while the waker beside them was told. -/
def heard (q q' : WaitQueue) (told : Option Waker) (own : Option Nat) : List Nat :=
  without own ((q.waiting.filter fun p => !q'.holds p.1 && told == some p.2).map (·.1))

variable (q : WaitQueue) (t : Nat) (w : Waker)

@[simp] theorem tickets_empty : empty.tickets = [] := rfl

theorem waiting_eq_nil_iff {q : WaitQueue} : q.waiting = [] ↔ q.tickets = [] := by
  simp [tickets]

theorem holds_iff {q : WaitQueue} {t : Nat} : q.holds t = true ↔ t ∈ q.tickets := by
  simp [holds, tickets]

@[simp] theorem next_refresh : (q.refresh t w).next = q.next := rfl

@[simp] theorem tickets_refresh : (q.refresh t w).tickets = q.tickets := by
  simp only [tickets, refresh, List.map_map]
  refine List.map_congr_left fun p _ => ?_
  by_cases h : p.1 = t <;> simp [h]

@[simp] theorem next_enter : (q.enter w).1.next = q.next + 1 := rfl

@[simp] theorem tickets_enter : (q.enter w).1.tickets = q.tickets ++ [q.next] := by
  simp [tickets, enter]

@[simp] theorem next_remove : (q.remove t).next = q.next := rfl

@[simp] theorem tickets_remove : (q.remove t).tickets = without (some t) q.tickets := by
  simp only [tickets, remove, without, List.filter_map]
  rfl

@[simp] theorem tickets_pop : q.pop.1.tickets = q.tickets.tail := by
  rcases q with ⟨next, _ | ⟨p, rest⟩⟩ <;> rfl

@[simp] theorem next_pop : q.pop.1.next = q.next := by
  rcases q with ⟨next, _ | ⟨p, rest⟩⟩ <;> rfl

theorem heard_of_subset {q q' : WaitQueue} (h : q.tickets ⊆ q'.tickets) (told : Option Waker)
    (own : Option Nat) : q.heard q' told own = [] := by
  have hnone : (q.waiting.filter fun p => !q'.holds p.1 && told == some p.2) = [] := by
    refine List.filter_eq_nil_iff.mpr fun p hp => ?_
    have hheld : q'.holds p.1 = true := holds_iff.mpr (h (List.mem_map_of_mem hp))
    simp [hheld]
  rw [heard, hnone]
  exact without_nil own

@[simp] theorem heard_self (told : Option Waker) (own : Option Nat) : q.heard q told own = [] :=
  heard_of_subset (fun _ => id) told own

@[simp] theorem heard_remove (told : Option Waker) : q.heard (q.remove t) told (some t) = [] := by
  refine List.filter_eq_nil_iff.mpr fun u hu => ?_
  obtain ⟨p, hp, rfl⟩ := List.mem_map.mp hu
  obtain ⟨hmem, hleft⟩ := List.mem_filter.mp hp
  have hnot : p.1 ∉ without (some t) q.tickets := by
    intro hin
    rw [← tickets_remove, ← holds_iff] at hin
    simp [hin] at hleft
  have hin : p.1 ∈ q.tickets := List.mem_map_of_mem hmem
  simpa [without, hin] using hnot

def leave (q : WaitQueue) : Option Nat → WaitQueue
  | none => q
  | some t => q.remove t

@[simp] theorem next_leave (own : Option Nat) : (q.leave own).next = q.next := by
  cases own <;> rfl

@[simp] theorem tickets_leave (own : Option Nat) :
    (q.leave own).tickets = without own q.tickets := by
  cases own with
  | none => rfl
  | some t => exact q.tickets_remove t

@[simp] theorem heard_leave (own : Option Nat) (told : Option Waker) :
    q.heard (q.leave own) told own = [] := by
  cases own with
  | none => exact q.heard_self told none
  | some t => exact q.heard_remove t told

/-- The queue after a request was given up, and whom that wakes: where there is what the queue waits
for, a request that was woken passes its turn on. -/
def giveUp (q : WaitQueue) (ready : Bool) : Option Nat → WaitQueue × Option Waker
  | none => (q, none)
  | some t =>
    if q.holds t then (q.remove t, none)
    else if ready then (q.pop.1, q.pop.2.map (·.2))
    else (q, none)

theorem giveUp_queued {q : WaitQueue} {t : Nat} (ht : t ∈ q.tickets) (ready : Bool) :
    q.giveUp ready (some t) = (q.remove t, none) := by
  rw [giveUp, if_pos (holds_iff.mpr ht)]

theorem giveUp_woken {q : WaitQueue} {t : Nat} (ht : t ∉ q.tickets) (ready : Bool) :
    q.giveUp ready (some t) = if ready then (q.pop.1, q.pop.2.map (·.2)) else (q, none) := by
  rw [giveUp, if_neg fun hheld => ht (holds_iff.mp hheld)]

@[simp] theorem park_snd : (q.park (some t) w).2 = t := by
  by_cases h : q.holds t = true <;> simp [park, h]

theorem tickets_subset_park (own : Option Nat) : q.tickets ⊆ (q.park own w).1.tickets := by
  intro u hu
  cases own with
  | none => simpa [park] using .inl hu
  | some t =>
      by_cases h : q.holds t = true
      · simpa [park, h] using hu
      · simpa [park, h, tickets] using .inr (by simpa [tickets] using hu)

@[simp] theorem heard_park (own : Option Nat) (told : Option Waker) :
    q.heard (q.park own w).1 told own = [] :=
  heard_of_subset (q.tickets_subset_park w own) told own

/-- Whose waker is told by taking the first party out of the queue. -/
theorem heard_pop {q : WaitQueue} (h : q.tickets.Nodup) {own : Option Nat}
    (hown : ∀ t ∈ own, t ∉ q.tickets) :
    q.heard q.pop.1 (q.pop.2.map (·.2)) own = q.tickets.head?.toList := by
  rcases q with ⟨next, _ | ⟨⟨t, w⟩, rest⟩⟩
  · cases own <;> rfl
  · obtain ⟨hfirst, -⟩ : t ∉ rest.map (·.1) ∧ (rest.map (·.1)).Nodup := List.nodup_cons.mp h
    have hgone : (WaitQueue.mk next rest).holds t = false := by
      rw [Bool.eq_false_iff]
      exact fun hheld => hfirst (holds_iff.mp hheld)
    have hrest : (rest.filter fun p =>
        !(WaitQueue.mk next rest).holds p.1 && some w == some p.2) = [] := by
      refine List.filter_eq_nil_iff.mpr fun p hp => ?_
      have hheld : (WaitQueue.mk next rest).holds p.1 = true :=
        holds_iff.mpr (List.mem_map_of_mem hp)
      simp [hheld]
    have hheard : (⟨next, (t, w) :: rest⟩ : WaitQueue).heard ⟨next, rest⟩ (some w) own =
        without own [t] := by
      rw [heard, List.filter_cons_of_pos (by simp [hgone]), hrest]
      rfl
    refine hheard.trans ?_
    cases own with
    | none => rfl
    | some u =>
        refine without_of_not_mem fun hu => hown u rfl ?_
        rw [List.mem_singleton.mp hu]
        exact List.mem_cons_self

end WaitQueue

open scoped List

@[ext] structure Roll where
  next : Nat
  queue : List Nat
  /-- The tickets that were called from the queue, and whose requests did not react yet. -/
  out : List Nat
  live : List Nat

theorem perm_without {t : Option Nat} {l l' : List Nat} (h : l ~ t.toList ++ l')
    (hl : l.Nodup) : l' ~ without t l := by
  cases t with
  | none => exact h.symm
  | some t =>
      have hfirst : t ∉ l' := (List.nodup_cons.mp (h.nodup_iff.mp hl)).1
      have hself : without (some t) (t :: l') = l' := by
        rw [without, List.filter_cons_of_neg (by simp)]
        exact without_of_not_mem hfirst
      have hperm : without (some t) l ~ without (some t) (t :: l') := h.filter _
      rw [hself] at hperm
      exact hperm.symm

theorem length_without {t : Nat} {l : List Nat} (hl : l.Nodup) (ht : t ∈ l) :
    l.length = (without (some t) l).length + 1 := by
  have hsplit : l ~ t :: l.erase t := List.perm_cons_erase ht
  have hrest : l.erase t ~ without (some t) l := perm_without (t := some t) hsplit hl
  exact hsplit.length_eq.trans (congrArg (· + 1) hrest.length_eq)

theorem length_le_without {t : Option Nat} {l : List Nat} (hl : l.Nodup) :
    l.length ≤ (without t l).length + 1 := by
  cases t with
  | none => exact Nat.le_succ _
  | some t =>
      by_cases ht : t ∈ l
      · exact Nat.le_of_eq (length_without hl ht)
      · rw [without_of_not_mem ht]
        exact Nat.le_succ _

theorem head?_append_tail {α : Type} (l : List α) : l.head?.toList ++ l.tail = l := by
  cases l <;> rfl

theorem perm_filterMap_set {α β : Type} (f : α → Option β) {l : List α} {i : Nat} {a : α}
    (h : l[i]? = some a) (b : α) :
    (f b).toList ++ l.filterMap f ~ (f a).toList ++ (l.set i b).filterMap f := by
  obtain ⟨hi, rfl⟩ := List.getElem?_eq_some_iff.mp h
  have hcons : ∀ (c : α) (l : List α), (c :: l).filterMap f = (f c).toList ++ l.filterMap f := by
    intro c l
    cases hc : f c <;> simp [hc]
  have hold := (List.getElem_cons_eraseIdx_perm hi).symm.filterMap f
  have hnew := (List.set_perm_cons_eraseIdx hi b).filterMap f
  rw [hcons] at hold hnew
  calc
    (f b).toList ++ l.filterMap f
      ~ (f b).toList ++ ((f l[i]).toList ++ (l.eraseIdx i).filterMap f) := hold.append_left _
    _ ~ (f l[i]).toList ++ ((f b).toList ++ (l.eraseIdx i).filterMap f) := by
      rw [← List.append_assoc, ← List.append_assoc]
      exact List.perm_append_comm.append_right _
    _ ~ (f l[i]).toList ++ (l.set i b).filterMap f := hnew.symm.append_left _

theorem filterMap_set_eq {α β : Type} {f : α → Option β} {l : List α} {i : Nat} {a b : α}
    (h : l[i]? = some a) (hf : f b = f a) : (l.set i b).filterMap f = l.filterMap f := by
  induction l generalizing i with
  | nil => rfl
  | cons c l ih =>
      cases i with
      | zero =>
          cases h
          simp only [List.set_cons_zero, List.filterMap_cons, hf]
      | succ i =>
          simp only [List.set_cons_succ, List.filterMap_cons]
          rw [ih h]

theorem countP_any {α β : Type} (f : α → Option β) (p : β → Bool) (l : List α) :
    l.countP (fun a => (f a).any p) = (l.filterMap f).countP p := by
  rw [List.countP_filterMap]
  refine List.countP_congr fun a _ => ?_
  cases f a <;> simp

namespace Roll

/-- Every request in progress that has a ticket is queued or out, and its ticket is its own. -/
structure Sound (r : Roll) : Prop where
  perm : r.live ~ r.queue ++ r.out
  nodup : r.live.Nodup
  lt_next : ∀ t ∈ r.live, t < r.next

namespace Sound

variable {r : Roll} (h : r.Sound)

include h

theorem nodup_append : (r.queue ++ r.out).Nodup := h.perm.nodup_iff.mp h.nodup

theorem nodup_queue : r.queue.Nodup := (List.nodup_append.mp h.nodup_append).1

theorem nodup_out : r.out.Nodup := (List.nodup_append.mp h.nodup_append).2.1

theorem not_mem_out {t : Nat} (ht : t ∈ r.queue) : t ∉ r.out := fun hout =>
  (List.nodup_append.mp h.nodup_append).2.2 t ht t hout rfl

theorem mem_live_iff {t : Nat} : t ∈ r.live ↔ t ∈ r.queue ∨ t ∈ r.out := by
  rw [h.perm.mem_iff, List.mem_append]

theorem lt_of_mem_queue {t : Nat} (ht : t ∈ r.queue) : t < r.next :=
  h.lt_next t (h.mem_live_iff.mpr (.inl ht))

theorem lt_of_mem_out {t : Nat} (ht : t ∈ r.out) : t < r.next :=
  h.lt_next t (h.mem_live_iff.mpr (.inr ht))

theorem countP_out : r.live.countP (· ∈ r.out) = r.out.length := by
  have hqueue : r.queue.countP (· ∈ r.out) = 0 :=
    List.countP_eq_zero.mpr fun t ht => by simpa using h.not_mem_out ht
  have hout : r.out.countP (· ∈ r.out) = r.out.length :=
    List.countP_eq_length.mpr fun t ht => by simpa using ht
  rw [h.perm.countP_eq, List.countP_append, hqueue, hout, Nat.zero_add]

theorem of_perm {out live : List Nat} (hout : r.out ~ out) (hlive : r.live ~ live) :
    Sound { r with out, live } :=
  ⟨hlive.symm.trans (h.perm.trans (hout.append_left _)), hlive.nodup_iff.mp h.nodup,
    fun t ht => h.lt_next t (hlive.mem_iff.mpr ht)⟩

theorem pop : Sound { r with queue := r.queue.tail, out := r.out ++ r.queue.head?.toList } := by
  refine ⟨h.perm.trans ?_, h.nodup, h.lt_next⟩
  calc
    r.queue ++ r.out = r.queue.head?.toList ++ (r.queue.tail ++ r.out) := by
      rw [← List.append_assoc, head?_append_tail]
    _ ~ r.queue.tail ++ r.out ++ r.queue.head?.toList := List.perm_append_comm
    _ = r.queue.tail ++ (r.out ++ r.queue.head?.toList) := List.append_assoc _ _ _

theorem enter {live : List Nat} (hlive : live ~ r.next :: r.live) :
    Sound { r with next := r.next + 1, queue := r.queue ++ [r.next], live } := by
  have hnew : r.next ∉ r.live := fun hin => Nat.lt_irrefl _ (h.lt_next _ hin)
  refine ⟨hlive.trans ?_, hlive.nodup_iff.mpr (List.nodup_cons.mpr ⟨hnew, h.nodup⟩), ?_⟩
  · have hperm : r.next :: (r.queue ++ r.out) ~ r.queue ++ r.next :: r.out :=
      List.perm_middle.symm
    rw [List.append_assoc]
    exact (h.perm.cons _).trans hperm
  · intro t ht
    rcases List.mem_cons.mp (hlive.mem_iff.mp ht) with rfl | hold
    · exact Nat.lt_succ_self _
    · exact Nat.lt_succ_of_lt (h.lt_next t hold)

theorem finish {t : Option Nat} {live : List Nat} (hlive : r.live ~ t.toList ++ live) :
    Sound { r with queue := without t r.queue, out := without t r.out, live } := by
  have hperm := perm_without hlive h.nodup
  refine ⟨hperm.trans ?_, (List.nodup_append.mp (hlive.nodup_iff.mp h.nodup)).2.1, ?_⟩
  · rw [← without_append]
    cases t with
    | none => exact h.perm
    | some t => exact h.perm.filter _
  · exact fun u hu => h.lt_next u (hlive.mem_iff.mpr (List.mem_append_right _ hu))

theorem back {t : Nat} (ht : t ∈ r.out) :
    Sound { r with queue := t :: r.queue, out := without (some t) r.out } := by
  refine ⟨h.perm.trans ?_, h.nodup, h.lt_next⟩
  have hsplit : r.out ~ t :: r.out.erase t := List.perm_cons_erase ht
  have hrest : r.out.erase t ~ without (some t) r.out :=
    perm_without (t := some t) hsplit h.nodup_out
  have hout : r.out ~ t :: without (some t) r.out := hsplit.trans (hrest.cons t)
  exact (hout.append_left _).trans List.perm_middle

end Sound

end Roll

end Clockwork
