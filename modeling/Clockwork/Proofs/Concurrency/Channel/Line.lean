import Mathlib.Data.ENat.Basic
import Clockwork.Concurrency.Channel
import Clockwork.Proofs.Concurrency.WaitQueue
/-!
One end of a channel, as those see it who wait there: getters wait for items, putters for room, and
both ends follow the same rules. `Line.Move` lists what can happen to an end, and the lemmas on
`Line.of` say which changes of its queue are moves.
-/

namespace Clockwork

open scoped List

/-- One end of a channel. The tickets that are out are those that were woken. -/
@[ext] structure Line extends Roll where
  /-- All tickets that were woken so far, in order. -/
  called : List Nat
  supply : ℕ∞

/-- Who was woken at one end of a channel. -/
structure Calls where
  /-- The tickets that were woken, and whose requests were neither polled nor dropped since, in the
  order in which they were woken. -/
  out : List Nat
  called : List Nat
  deriving DecidableEq, Repr

/-- The calls after a queue changed on behalf of a request with the given ticket. -/
def Calls.after (c : Calls) (q q' : WaitQueue) (told : Option Waker) (own : Option Nat) : Calls :=
  ⟨without own c.out ++ q.heard q' told own, c.called ++ q.heard q' told own⟩

@[simp] theorem Calls.after_self (c : Calls) (q : WaitQueue) (told : Option Waker) :
    c.after q q told none = c := by
  simp [after]

namespace Line

inductive Move (l : Line) : Line → Prop
  /-- There may be less to have, but nobody of the line did anything. -/
  | others {supply : ℕ∞} (h : supply ≤ l.supply) : Move l { l with supply }
  | wake : Move l
      { l with
        queue := l.queue.tail, out := l.out ++ l.queue.head?.toList
        called := l.called ++ l.queue.head?.toList, supply := l.supply + 1 }
  | finish (t : Option Nat) {live : List Nat} {supply : ℕ∞} (hlive : l.live ~ t.toList ++ live)
      (h : l.supply = supply + 1) : Move l
      { l with queue := without t l.queue, out := without t l.out, live, supply }
  | enter {live : List Nat} (hlive : live ~ l.next :: l.live) (h : l.supply = 0) : Move l
      { l with next := l.next + 1, queue := l.queue ++ [l.next], live }
  /-- A request that was woken finds nothing and waits again. -/
  | back (t : Nat) (ht : t ∈ l.out) (h : l.supply = 0) : Move l
      { l with queue := t :: l.queue, out := without (some t) l.out }
  /-- A request is given up that was not woken, or that was woken for nothing. -/
  | quit (t : Option Nat) {live : List Nat} (hlive : l.live ~ t.toList ++ live)
      (h : (∀ u ∈ t, u ∈ l.queue) ∨ l.supply = 0) : Move l
      { l with queue := without t l.queue, out := without t l.out, live }
  /-- A request is given up that was woken, and the first of the queue is woken in its place. -/
  | pass (t : Nat) {live : List Nat} (ht : t ∈ l.out) (hlive : l.live ~ t :: live) : Move l
      { l with
        queue := l.queue.tail, out := without (some t) l.out ++ l.queue.head?.toList
        called := l.called ++ l.queue.head?.toList, live }

theorem Move.sound {l l' : Line} (h : l.Move l') (hl : l.Sound) : l'.Sound := by
  cases h with
  | others => exact hl
  | wake => exact hl.pop
  | finish t hlive => exact hl.finish hlive
  | enter hlive => exact hl.enter hlive
  | back t ht => exact hl.back ht
  | quit t hlive => exact hl.finish hlive
  | pass t ht hlive =>
      have hqueue : without (some t) l.queue = l.queue :=
        without_of_not_mem fun hin => hl.not_mem_out hin ht
      have hpop := (hl.finish (t := some t) hlive).pop
      rwa [hqueue] at hpop

/-- An end of a channel with this queue, these calls and these tickets of requests in progress. -/
def of (q : WaitQueue) (c : Calls) (live : List Nat) (supply : ℕ∞) : Line :=
  ⟨⟨q.next, q.tickets, c.out, live⟩, c.called, supply⟩

variable {q : WaitQueue} {c : Calls} {live live' : List Nat} {supply supply' : ℕ∞}

theorem move_still (told : Option Waker) (hlive : live' = live) (h : supply' ≤ supply) :
    (of q c live supply).Move (of q (c.after q q told none) live' supply') := by
  rw [Calls.after_self, hlive]
  exact .others h

theorem move_pop (hl : (of q c live supply).Sound) (hlive : live' = live)
    (h : supply' = supply + 1) :
    (of q c live supply).Move
      (of q.pop.1 (c.after q q.pop.1 (q.pop.2.map (·.2)) none) live' supply') := by
  have hheard : q.heard q.pop.1 (q.pop.2.map (·.2)) none = q.tickets.head?.toList :=
    WaitQueue.heard_pop hl.nodup_queue (by simp)
  have heq : of q.pop.1 (c.after q q.pop.1 (q.pop.2.map (·.2)) none) live' supply' =
      { of q c live supply with
        queue := q.tickets.tail, out := c.out ++ q.tickets.head?.toList
        called := c.called ++ q.tickets.head?.toList, supply := supply + 1 } := by
    simp [of, Calls.after, hheard, hlive, h]
  rw [heq]
  exact .wake

theorem move_leave (t : Option Nat) (told : Option Waker) (hlive : live ~ t.toList ++ live')
    (h : supply = supply' + 1) :
    (of q c live supply).Move
      (of (q.leave t) (c.after q (q.leave t) told t) live' supply') := by
  have heq : of (q.leave t) (c.after q (q.leave t) told t) live' supply' =
      { of q c live supply with
        queue := without t q.tickets, out := without t c.out, live := live'
        supply := supply' } := by
    simp [of, Calls.after]
  rw [heq]
  exact .finish t hlive h

theorem move_enter (w : Waker) (hlive : live' ~ q.next :: live) (h : supply = 0) :
    (of q c live supply).Move
      (of (q.park none w).1 (c.after q (q.park none w).1 none none) live' supply) := by
  have heq : of (q.park none w).1 (c.after q (q.park none w).1 none none) live' supply =
      { of q c live supply with
        next := q.next + 1, queue := q.tickets ++ [q.next], live := live' } := by
    rw [of, Calls.after, WaitQueue.heard_park]
    simp [of, WaitQueue.park]
  rw [heq]
  exact .enter hlive h

theorem move_return (hl : (of q c live supply).Sound) {t : Nat} (ht : t ∈ live) (w : Waker)
    (h : supply = 0) :
    (of q c live supply).Move
      (of (q.park (some t) w).1 (c.after q (q.park (some t) w).1 none (some t)) live supply) := by
  have heq : of (q.park (some t) w).1 (c.after q (q.park (some t) w).1 none (some t)) live supply =
      { of q c live supply with
        next := (q.park (some t) w).1.next, queue := (q.park (some t) w).1.tickets
        out := without (some t) c.out } := by
    rw [of, Calls.after, WaitQueue.heard_park]
    simp [of]
  rw [heq]
  by_cases hq : t ∈ q.tickets
  · have hout : t ∉ c.out := hl.not_mem_out hq
    have hheld := WaitQueue.holds_iff.mpr hq
    simp only [WaitQueue.park, hheld, if_true, WaitQueue.tickets_refresh, without_of_not_mem hout]
    exact .others le_rfl
  · have hout : t ∈ c.out := (hl.mem_live_iff.mp ht).resolve_left hq
    have hheld : ¬ q.holds t = true := fun hh => hq (WaitQueue.holds_iff.mp hh)
    simp only [WaitQueue.park, hheld]
    exact .back t hout h

/-- A request waits for the first time, or goes on waiting. One that goes on keeps its place unless
it was woken. -/
theorem move_park (hl : (of q c live supply).Sound) {t : Option Nat} (w : Waker)
    (hnew : t = none → live' ~ q.next :: live) (hold : ∀ u ∈ t, u ∈ live ∧ live' = live)
    (h : supply = 0) :
    (of q c live supply).Move
      (of (q.park t w).1 (c.after q (q.park t w).1 none t) live' supply) := by
  cases t with
  | none => exact move_enter w (hnew rfl) h
  | some t =>
      obtain ⟨ht, rfl⟩ := hold t rfl
      exact move_return hl ht w h

theorem move_quit {t : Nat} (ht : t ∈ q.tickets) (hlive : live ~ t :: live') :
    (of q c live supply).Move
      (of (q.remove t) (c.after q (q.remove t) none (some t)) live' supply) := by
  have heq : of (q.remove t) (c.after q (q.remove t) none (some t)) live' supply =
      { of q c live supply with
        queue := without (some t) q.tickets, out := without (some t) c.out, live := live' } := by
    simp [of, Calls.after]
  rw [heq]
  exact .quit (some t) hlive (.inl fun u hu => Option.some.inj hu ▸ ht)

theorem move_lapse {t : Nat} (ht : t ∉ q.tickets) (hlive : live ~ t :: live') (h : supply = 0) :
    (of q c live supply).Move (of q (c.after q q none (some t)) live' supply) := by
  have heq : of q (c.after q q none (some t)) live' supply =
      { of q c live supply with
        queue := without (some t) q.tickets, out := without (some t) c.out, live := live' } := by
    simp [of, Calls.after, without_of_not_mem ht]
  rw [heq]
  exact .quit (some t) hlive (.inr h)

theorem move_pass (hl : (of q c live supply).Sound) {t : Nat} (ht : t ∉ q.tickets)
    (hlive : live ~ t :: live') :
    (of q c live supply).Move
      (of q.pop.1 (c.after q q.pop.1 (q.pop.2.map (·.2)) (some t)) live' supply) := by
  have hheard : q.heard q.pop.1 (q.pop.2.map (·.2)) (some t) = q.tickets.head?.toList :=
    WaitQueue.heard_pop hl.nodup_queue fun u hu => Option.some.inj hu ▸ ht
  have heq : of q.pop.1 (c.after q q.pop.1 (q.pop.2.map (·.2)) (some t)) live' supply =
      { of q c live supply with
        queue := q.tickets.tail, out := without (some t) c.out ++ q.tickets.head?.toList
        called := c.called ++ q.tickets.head?.toList, live := live' } := by
    simp [of, Calls.after, hheard]
  have hout : t ∈ c.out :=
    (hl.mem_live_iff.mp (hlive.mem_iff.mpr List.mem_cons_self)).resolve_left ht
  rw [heq]
  exact .pass t hout hlive

/-- A request is given up. If it was woken, the first of the queue is woken in its place, provided
that there is what it was woken for. -/
theorem move_giveUp (hl : (of q c live supply).Sound) (ready : Bool) {t : Option Nat}
    (hlive : live ~ t.toList ++ live') (h : ready = false → supply = 0) :
    (of q c live supply).Move
      (of (q.giveUp ready t).1 (c.after q (q.giveUp ready t).1 (q.giveUp ready t).2 t) live'
        supply) := by
  cases t with
  | none =>
      rw [WaitQueue.giveUp, Calls.after_self]
      exact .quit none hlive (.inl (by simp))
  | some t =>
      by_cases ht : t ∈ q.tickets
      · rw [WaitQueue.giveUp_queued ht]
        exact move_quit ht hlive
      · rw [WaitQueue.giveUp_woken ht]
        cases ready with
        | false => exact move_lapse ht hlive (h rfl)
        | true => exact move_pass hl ht hlive

end Line

namespace Channel

variable {α : Type} {c : Channel α}

/-- The number of items in a channel. -/
def stock (c : Channel α) : ℕ∞ := c.items.length

/-- The number of items that a channel has room for. -/
def room (c : Channel α) : ℕ∞ :=
  if c.capacity = 0 then ⊤ else ↑(c.capacity - c.items.length)

def Bounded (c : Channel α) : Prop := c.capacity = 0 ∨ c.items.length ≤ c.capacity

theorem hasRoom_iff : c.hasRoom = true ↔ c.room ≠ 0 := by
  by_cases h : c.capacity = 0
  · simp [hasRoom, room, h]
  · simp only [hasRoom, room, h, if_false, beq_iff_eq, Bool.or_eq_true, decide_eq_true_eq, false_or,
      ne_eq, Nat.cast_eq_zero]
    omega

theorem room_eq_zero (h : c.hasRoom = false) : c.room = 0 := by
  by_contra hne
  rw [hasRoom_iff.mpr hne] at h
  cases h

theorem hasItem_iff : c.hasItem = true ↔ c.stock ≠ 0 := by
  simp [hasItem, stock]

theorem stock_eq_zero (h : c.hasItem = false) : c.stock = 0 := by
  by_contra hne
  rw [hasItem_iff.mpr hne] at h
  cases h

theorem stock_take {a : α} {rest : List α} (h : c.items = a :: rest) (capacity : Nat)
    (getters putters : WaitQueue) : c.stock = stock ⟨rest, capacity, getters, putters⟩ + 1 := by
  simp [stock, h]

theorem stock_store (c : Channel α) (a : α) (capacity : Nat) (getters putters : WaitQueue) :
    stock ⟨c.items ++ [a], capacity, getters, putters⟩ = c.stock + 1 := by
  simp [stock]

theorem room_take (hc : c.Bounded) {a : α} {rest : List α} (h : c.items = a :: rest)
    (getters putters : WaitQueue) : room ⟨rest, c.capacity, getters, putters⟩ = c.room + 1 := by
  by_cases hcap : c.capacity = 0
  · simp [room, hcap]
  · have hle : c.items.length ≤ c.capacity := hc.resolve_left hcap
    rw [h, List.length_cons] at hle
    simp only [room, hcap, if_false, h, List.length_cons]
    norm_cast
    omega

theorem room_store (h : c.hasRoom = true) (a : α) (getters putters : WaitQueue) :
    c.room = room ⟨c.items ++ [a], c.capacity, getters, putters⟩ + 1 := by
  by_cases hcap : c.capacity = 0
  · simp [room, hcap]
  · have hlt : c.items.length < c.capacity := by simpa [hasRoom, hcap] using h
    simp only [room, hcap, if_false, List.length_append, List.length_singleton]
    norm_cast
    omega

theorem Bounded.take (hc : c.Bounded) {a : α} {rest : List α} (h : c.items = a :: rest)
    (getters putters : WaitQueue) : Bounded ⟨rest, c.capacity, getters, putters⟩ := by
  refine hc.imp id fun hle => ?_
  rw [h] at hle
  exact Nat.le_of_succ_le hle

theorem Bounded.store (h : c.hasRoom = true) (a : α) (getters putters : WaitQueue) :
    Bounded ⟨c.items ++ [a], c.capacity, getters, putters⟩ := by
  by_cases hcap : c.capacity = 0
  · exact .inl hcap
  · have hlt : c.items.length < c.capacity := by simpa [hasRoom, hcap] using h
    exact .inr (by simpa using hlt)

theorem tryGet_nil (h : c.items = []) : c.tryGet = (c, none, none) := by
  simp only [tryGet, h]

theorem tryGet_cons {a : α} {rest : List α} (h : c.items = a :: rest) :
    c.tryGet = (⟨rest, c.capacity, c.getters, c.putters.pop.1⟩, some a,
      c.putters.pop.2.map (·.2)) := by
  simp only [tryGet, h, wakePutter]

theorem pollGet_nil (h : c.items = []) (t : Option Nat) (w : Waker) :
    c.pollGet t w = .waiting (c.getters.park t w).2
      { c with getters := (c.getters.park t w).1 } := by
  simp only [pollGet, h]

theorem pollGet_cons {a : α} {rest : List α} (h : c.items = a :: rest) (t : Option Nat)
    (w : Waker) : c.pollGet t w = .complete a
      ⟨rest, c.capacity, c.getters.leave t, c.putters.pop.1⟩ (c.putters.pop.2.map (·.2)) := by
  simp only [pollGet, h, wakePutter]
  cases t <;> rfl

theorem abandonGet_eq (c : Channel α) (t : Option Nat) :
    c.abandonGet t = ({ c with getters := (c.getters.giveUp c.hasItem t).1 },
      (c.getters.giveUp c.hasItem t).2) := by
  cases t with
  | none => rfl
  | some t =>
      simp only [abandonGet, WaitQueue.giveUp, wakeGetter]
      split_ifs <;> rfl

theorem tryPut_full (h : c.hasRoom = false) (a : α) : c.tryPut a = none := by
  simp [tryPut, h]

theorem tryPut_room (h : c.hasRoom = true) (a : α) :
    c.tryPut a = some (⟨c.items ++ [a], c.capacity, c.getters.pop.1, c.putters⟩,
      c.getters.pop.2.map (·.2)) := by
  simp only [tryPut, h, if_true, wakeGetter]

theorem pollPut_full (h : c.hasRoom = false) (a : α) (t : Option Nat) (w : Waker) :
    c.pollPut a t w = .waiting (c.putters.park t w).2
      { c with putters := (c.putters.park t w).1 } := by
  simp [pollPut, h]

theorem pollPut_room (h : c.hasRoom = true) (a : α) (t : Option Nat) (w : Waker) :
    c.pollPut a t w = .complete ()
      ⟨c.items ++ [a], c.capacity, c.getters.pop.1, c.putters.leave t⟩
      (c.getters.pop.2.map (·.2)) := by
  simp only [pollPut, h, if_true, wakeGetter]
  cases t <;> rfl

theorem abandonPut_eq (c : Channel α) (t : Option Nat) :
    c.abandonPut t = ({ c with putters := (c.putters.giveUp c.hasRoom t).1 },
      (c.putters.giveUp c.hasRoom t).2) := by
  cases t with
  | none => rfl
  | some t =>
      simp only [abandonPut, WaitQueue.giveUp, wakePutter]
      split_ifs <;> rfl

end Channel

end Clockwork
