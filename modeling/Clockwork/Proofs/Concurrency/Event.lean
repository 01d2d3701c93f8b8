import Mathlib.Data.List.Induction
import Clockwork.Concurrency.Event
import Clockwork.Proofs.Concurrency.WaitQueue
/-!
Waits for an event, polled and dropped at any time, while the event is set and cleared.
`Vigil.run` performs any sequence of such actions, and keeps account of whom each set woke.

`Vigil.Sound` says that the generation counts the sets, and that whoever was left waiting by his
last poll stands in the queue or left it at a set since then. Every action keeps it; `no_set_missed`
is the main result.
-/

namespace Clockwork.Event

variable {ε : Type} {e : Event ε}

/-- A ticket is queued with a waker; all others stay where they are. -/
structure Parks (q q' : WaitQueue) (ticket : Option Nat) (t : Nat) (w : Waker) : Prop where
  queued : (t, w) ∈ q'.waiting
  others : ∀ p ∈ q.waiting, p.1 ≠ t → p ∈ q'.waiting
  ticket : ticket = some t ∧ q'.next = q.next ∨
    ticket = none ∧ t = q.next ∧ q'.next = q.next + 1

/-- What may be over: the flag is set, or the event was set after the wait began. -/
def Due (e : Event ε) (start : Option Nat) : Prop :=
  e.flag = true ∨ e.generation ≠ start.getD e.generation

theorem poll_due {start : Option Nat} (h : e.Due start) (ticket : Option Nat) (w : Waker) :
    e.poll start ticket w = .over { e with queue := e.queue.leave ticket } := by
  have hover : (e.flag || e.generation != start.getD e.generation) = true := by
    simpa [Due] using h
  cases ticket <;> simp only [poll, hover, if_true] <;> rfl

theorem poll_not_due {start : Option Nat} (h : ¬e.Due start) (ticket : Option Nat) (w : Waker) :
    ∃ t q, e.poll start ticket w = .waiting (start.getD e.generation) t { e with queue := q } ∧
      Parks e.queue q ticket t w := by
  have hover : (e.flag || e.generation != start.getD e.generation) = false := by
    simpa [Due] using h
  simp only [poll, hover, Bool.false_eq_true, if_false]
  cases ticket with
  | none =>
      refine ⟨_, _, rfl, ⟨?_, fun p hp _ => ?_, .inr ⟨rfl, rfl, rfl⟩⟩⟩
      · exact List.mem_append_right _ List.mem_cons_self
      · exact List.mem_append_left _ hp
  | some t =>
      by_cases hheld : e.queue.holds t = true
      · simp only [hheld, if_true]
        refine ⟨_, _, rfl, ⟨?_, fun p hp hne => ?_, .inl ⟨rfl, rfl⟩⟩⟩
        · obtain ⟨p, hp, rfl⟩ := List.mem_map.mp (WaitQueue.holds_iff.mp hheld)
          exact List.mem_map.mpr ⟨p, hp, if_pos rfl⟩
        · exact List.mem_map.mpr ⟨p, hp, if_neg hne⟩
      · simp only [hheld, Bool.false_eq_true, if_false]
        refine ⟨_, _, rfl, ⟨?_, fun p hp _ => ?_, .inl ⟨rfl, rfl⟩⟩⟩
        · exact List.mem_append_right _ List.mem_cons_self
        · exact List.mem_append_left _ hp

theorem mem_leave {q : WaitQueue} {ticket : Option Nat} {p : Nat × Waker} (hp : p ∈ q.waiting)
    (hne : ticket ≠ some p.1) : p ∈ (q.leave ticket).waiting := by
  cases ticket with
  | none => exact hp
  | some t =>
      refine List.mem_filter.mpr ⟨hp, decide_eq_true fun heq => hne ?_⟩
      rw [heq]

/-- One who waits for an event, with an account of his polls. -/
structure Waiter where
  /-- The generation in which the wait began, once it was polled. -/
  start : Option Nat
  ticket : Option Nat
  first : Option Nat
  /-- If the last poll left him waiting: the number of sets before it, and the waker it gave. -/
  parked : Option (Nat × Waker)
  dropped : Bool

/-- What can be done with an event. Waits go by number, in the order in which they are begun. -/
inductive Action where
  | set
  | clear
  | begin
  | poll (waiter : Nat) (w : Waker)
  | drop (waiter : Nat)
  deriving DecidableEq, Repr

/-- Whether an action goes on with a wait, or gives it up. -/
def Action.Concerns (i : Nat) : Action → Prop
  | .poll j _ | .drop j => j = i
  | _ => False

/-- An event with all that was done with it. -/
structure Vigil (ε : Type) where
  event : Event ε
  waiters : List Waiter
  /-- For each set, in order, who left the queue at it while his waker was told. -/
  woken : List (List (Nat × Waker))

namespace Vigil

/-- A new event, with its callback. -/
def new (detached : Bool) (callback : Option (Callback ε)) : Vigil ε :=
  ⟨{ (Event.ofScheduler detached : Event ε) with callback }, [], []⟩

def step (s : Vigil ε) : Action → Vigil ε
  | .set =>
    let (e, told) := s.event.set
    { s with
      event := e
      woken := s.woken ++
        [s.event.queue.waiting.filter fun p => !e.queue.holds p.1 && told.contains p.2] }
  | .clear => { s with event := s.event.clear }
  | .begin => { s with waiters := s.waiters ++ [⟨none, none, none, none, false⟩] }
  | .poll i w =>
    match s.waiters[i]? with
    | some v =>
      let first := some (v.first.getD s.woken.length)
      if v.dropped then s
      else
        match s.event.poll v.start v.ticket w with
        | .over e =>
          let start := some (v.start.getD s.event.generation)
          { s with event := e, waiters := s.waiters.set i ⟨start, none, first, none, false⟩ }
        | .waiting start t e =>
          { s with
            event := e
            waiters := s.waiters.set i
              ⟨some start, some t, first, some (s.woken.length, w), false⟩ }
    | none => s
  | .drop i =>
    match s.waiters[i]? with
    | some v =>
      { s with
        event := s.event.abandon v.ticket
        waiters := s.waiters.set i { v with ticket := none, parked := none, dropped := true } }
    | none => s

/-- What becomes of an event when some actions follow. -/
def run (s : Vigil ε) (acts : List Action) : Vigil ε := acts.foldl step s

/-- His last poll left him waiting, and he stands in the queue with the waker it gave. -/
def Registered (s : Vigil ε) (v : Waiter) : Prop :=
  ∃ n w t, v.parked = some (n, w) ∧ v.ticket = some t ∧ (t, w) ∈ s.event.queue.waiting

/-- His last poll left him waiting, and a set since then woke him with the waker it gave. -/
def Woken (s : Vigil ε) (v : Waiter) : Prop :=
  ∃ n w t, v.parked = some (n, w) ∧ v.ticket = some t ∧ ∃ l ∈ s.woken.drop n, (t, w) ∈ l

structure Knows (s : Vigil ε) (v : Waiter) : Prop where
  start : v.start = v.first
  first : ∀ n ∈ v.first, n ≤ s.woken.length
  ticket : ∀ t ∈ v.ticket, t < s.event.queue.next
  parked : ∀ n w, v.parked = some (n, w) →
    v.first.isSome ∧ (n = s.woken.length ∧ s.Registered v ∨ n ≤ s.woken.length ∧ s.Woken v)

/-- The generation counts the sets, and no two that wait have the same ticket. -/
structure Sound (s : Vigil ε) : Prop where
  generation : s.event.generation = s.woken.length
  knows : ∀ v ∈ s.waiters, s.Knows v
  own : ∀ (i j : Nat) (v v' : Waiter) (t : Nat), s.waiters[i]? = some v →
    s.waiters[j]? = some v' → v.ticket = some t → v'.ticket = some t → i = j

variable {s : Vigil ε}

theorem Knows.transfer {v : Waiter} (h : s.Knows v) {queue : WaitQueue}
    (hnext : s.event.queue.next ≤ queue.next)
    (hqueue : ∀ p ∈ s.event.queue.waiting, v.ticket = some p.1 → p ∈ queue.waiting)
    (waiters : List Waiter) :
    Knows { s with event := { s.event with queue }, waiters } v := by
  refine ⟨h.start, h.first, fun t ht => Nat.lt_of_lt_of_le (h.ticket t ht) hnext, ?_⟩
  intro n w hn
  obtain ⟨hfirst, ⟨hlast, n', w', t, hparked, ht, hin⟩ | hwoken⟩ := h.parked n w hn
  · exact ⟨hfirst, .inl ⟨hlast, n', w', t, hparked, ht, hqueue _ hin ht⟩⟩
  · exact ⟨hfirst, .inr hwoken⟩

theorem Sound.due_iff (hs : s.Sound) {v : Waiter} (hv : s.Knows v) :
    s.event.Due v.start ↔ s.event.flag = true ∨ ∃ n ∈ v.first, n < s.woken.length := by
  rw [Due, hv.start, hs.generation]
  refine or_congr_right ?_
  cases hfirst : v.first with
  | none => simp
  | some n =>
      have hle : n ≤ s.woken.length := hv.first n hfirst
      simp only [Option.getD_some, Option.mem_def, Option.some.injEq, exists_eq_left']
      omega

/-- One who waits is replaced, and the queue changes for him alone. -/
theorem Sound.replace (hs : s.Sound) {i : Nat} {v v' : Waiter} {queue : WaitQueue}
    (h : s.waiters[i]? = some v) (hnext : s.event.queue.next ≤ queue.next)
    (hqueue : ∀ p ∈ s.event.queue.waiting, v.ticket ≠ some p.1 → p.1 < s.event.queue.next →
      p ∈ queue.waiting)
    (hv' : Knows { s with event := { s.event with queue } } v')
    (hticket : ∀ t ∈ v'.ticket, v.ticket = some t ∨ t = s.event.queue.next) :
    Sound { s with event := { s.event with queue }, waiters := s.waiters.set i v' } := by
  have hi : i < s.waiters.length := (List.getElem?_eq_some_iff.mp h).1
  have hne : ∀ j v₁ t, j ≠ i → s.waiters[j]? = some v₁ → v₁.ticket = some t →
      v'.ticket ≠ some t := by
    intro j v₁ t hj hv₁ ht ht'
    rcases hticket t ht' with hold | rfl
    · exact hj (hs.own j i v₁ v t hv₁ h ht hold)
    · exact Nat.lt_irrefl _ ((hs.knows v₁ (List.mem_of_getElem? hv₁)).ticket _ ht)
  refine ⟨hs.generation, fun v₁ hv₁ => ?_, fun j k v₁ v₂ t hv₁ hv₂ ht₁ ht₂ => ?_⟩
  · obtain ⟨j, hj⟩ := List.getElem?_of_mem hv₁
    by_cases hji : j = i
    · obtain rfl : v' = v₁ := by simpa [hji, hi] using hj
      exact ⟨hv'.start, hv'.first, hv'.ticket, hv'.parked⟩
    · rw [List.getElem?_set_ne (Ne.symm hji)] at hj
      have hknows := hs.knows v₁ (List.mem_of_getElem? hj)
      refine hknows.transfer hnext (fun p hp hown => ?_) _
      exact hqueue p hp (fun heq => hji (hs.own j i v₁ v p.1 hj h hown heq))
        (hknows.ticket _ hown)
  · by_cases hji : j = i <;> by_cases hki : k = i
    · rw [hji, hki]
    · obtain rfl : v' = v₁ := by simpa [hji, hi] using hv₁
      rw [List.getElem?_set_ne (Ne.symm hki)] at hv₂
      exact absurd ht₁ (hne k v₂ t hki hv₂ ht₂)
    · obtain rfl : v' = v₂ := by simpa [hki, hi] using hv₂
      rw [List.getElem?_set_ne (Ne.symm hji)] at hv₁
      exact absurd ht₂ (hne j v₁ t hji hv₁ ht₁)
    · rw [List.getElem?_set_ne (Ne.symm hji)] at hv₁
      rw [List.getElem?_set_ne (Ne.symm hki)] at hv₂
      exact hs.own j k v₁ v₂ t hv₁ hv₂ ht₁ ht₂

theorem set_event (s : Vigil ε) : (s.step .set).event =
    { s.event with
      flag := true
      generation := s.event.generation + 1
      queue := ⟨s.event.queue.next, []⟩ } := rfl

theorem set_woken (s : Vigil ε) :
    (s.step .set).woken = s.woken ++ [s.event.queue.waiting] := by
  have hall : (s.event.queue.waiting.filter fun p =>
      !(WaitQueue.mk s.event.queue.next []).holds p.1 &&
        (s.event.queue.waiting.map (·.2)).contains p.2) = s.event.queue.waiting := by
    refine List.filter_eq_self.mpr fun p hp => ?_
    have htold : p.2 ∈ s.event.queue.waiting.map (·.2) := List.mem_map_of_mem hp
    simpa [WaitQueue.holds] using htold
  exact congrArg (fun l => s.woken ++ [l]) hall

theorem Knows.set {v : Waiter} (h : s.Knows v) : (s.step .set).Knows v := by
  refine ⟨h.start, fun n hn => ?_, h.ticket, fun n w hn => ?_⟩
  · rw [set_woken, List.length_append]
    exact Nat.le_add_right_of_le (h.first n hn)
  · obtain ⟨hfirst, hcases⟩ := h.parked n w hn
    refine ⟨hfirst, .inr ?_⟩
    rw [Woken, set_woken, List.length_append]
    rcases hcases with ⟨rfl, n, w', t, hparked, ht, hin⟩ | ⟨hle, n', w', t, hparked, ht, l, hl, hin⟩
    · obtain ⟨rfl, rfl⟩ : n = s.woken.length ∧ w' = w := by
        simpa [hn, eq_comm] using hparked
      refine ⟨Nat.le_add_right _ _, _, _, t, hn, ht, s.event.queue.waiting, ?_, hin⟩
      simp
    · refine ⟨Nat.le_add_right_of_le hle, n', w', t, hparked, ht, l, ?_, hin⟩
      rw [List.drop_append]
      exact List.mem_append_left _ hl

theorem Sound.poll (hs : s.Sound) (i : Nat) (w : Waker) : (s.step (.poll i w)).Sound := by
  cases h : s.waiters[i]? with
  | none => simpa only [step, h] using hs
  | some v =>
      have hv := hs.knows v (List.mem_of_getElem? h)
      have hstart : v.start.getD s.event.generation = v.first.getD s.woken.length := by
        rw [hv.start, hs.generation]
      have hfirst : v.first.getD s.woken.length ≤ s.woken.length := by
        cases hfirst : v.first with
        | none => exact Nat.le_refl _
        | some n => exact hv.first n hfirst
      cases hdropped : v.dropped with
      | true => simpa only [step, h, hdropped, if_true] using hs
      | false =>
          simp only [step, h, hdropped, Bool.false_eq_true, if_false]
          by_cases hdue : s.event.Due v.start
          · simp only [poll_due hdue, hstart]
            refine hs.replace h (Nat.le_of_eq (WaitQueue.next_leave _ _).symm)
              (fun p hp hne _ => mem_leave hp hne) ⟨rfl, ?_, nofun, nofun⟩ nofun
            rintro n ⟨⟩
            exact hfirst
          · obtain ⟨t, q, hpoll, hparks⟩ := poll_not_due hdue v.ticket w
            have hnext : s.event.queue.next ≤ q.next := by
              rcases hparks.ticket with ⟨-, hsame⟩ | ⟨-, -, hsucc⟩ <;> omega
            have hlt : t < q.next := by
              rcases hparks.ticket with ⟨hown, hsame⟩ | ⟨-, rfl, hsucc⟩
              · rw [hsame]
                exact hv.ticket t hown
              · omega
            simp only [hpoll, hstart]
            refine hs.replace h hnext (fun p hp hne hbelow => ?_) ⟨rfl, ?_, ?_, ?_⟩ ?_
            · refine hparks.others p hp fun heq => ?_
              rcases hparks.ticket with ⟨hown, -⟩ | ⟨-, rfl, -⟩
              · exact hne (hown.trans (congrArg some heq.symm))
              · omega
            · rintro n ⟨⟩
              exact hfirst
            · rintro u ⟨⟩
              exact hlt
            · rintro n w' ⟨⟩
              exact ⟨rfl, .inl ⟨rfl, _, _, t, rfl, rfl, hparks.queued⟩⟩
            · rintro u ⟨⟩
              rcases hparks.ticket with ⟨hown, -⟩ | ⟨-, rfl, -⟩
              · exact .inl hown
              · exact .inr rfl

theorem Sound.drop (hs : s.Sound) (i : Nat) : (s.step (.drop i)).Sound := by
  cases h : s.waiters[i]? with
  | none => simpa only [step, h] using hs
  | some v =>
      have hv := hs.knows v (List.mem_of_getElem? h)
      have habandon : s.event.abandon v.ticket =
          { s.event with queue := s.event.queue.leave v.ticket } := by
        cases v.ticket <;> rfl
      simp only [step, h, habandon]
      exact hs.replace h (Nat.le_of_eq (WaitQueue.next_leave _ _).symm)
        (fun p hp hne _ => mem_leave hp hne) ⟨hv.start, hv.first, nofun, nofun⟩ nofun

theorem Sound.step (hs : s.Sound) (a : Action) : (s.step a).Sound := by
  cases a with
  | set =>
      refine ⟨?_, fun v hv => (hs.knows v hv).set, hs.own⟩
      rw [set_woken, set_event, List.length_append, hs.generation]
      rfl
  | clear => exact ⟨hs.generation, fun v hv => ⟨(hs.knows v hv).start, (hs.knows v hv).first,
      (hs.knows v hv).ticket, (hs.knows v hv).parked⟩, hs.own⟩
  | begin =>
      refine ⟨hs.generation, fun v hv => ?_, fun i j v v' t hi hj ht ht' => ?_⟩
      · rcases List.mem_append.mp hv with hold | hnew
        · exact (hs.knows v hold).transfer (Nat.le_refl _) (fun p hp _ => hp) _
        · obtain rfl := List.mem_singleton.mp hnew
          exact ⟨rfl, nofun, nofun, nofun⟩
      · have hold : ∀ {k : Nat} {u : Waiter}, (s.step .begin).waiters[k]? = some u →
            u.ticket = some t → s.waiters[k]? = some u := by
          intro k u hk hu
          simp only [Vigil.step, List.getElem?_append] at hk
          split_ifs at hk with hlt
          · exact hk
          · have hnew := List.mem_singleton.mp (List.mem_of_getElem? hk)
            rw [hnew] at hu
            cases hu
        exact hs.own i j v v' t (hold hi ht) (hold hj ht') ht ht'
  | poll i w => exact hs.poll i w
  | drop i => exact hs.drop i

theorem Sound.run (hs : s.Sound) (acts : List Action) : (s.run acts).Sound := by
  induction acts generalizing s with
  | nil => exact hs
  | cons a acts ih => exact ih (hs.step a)

theorem sound_new (detached : Bool) (callback : Option (Callback ε)) :
    (new detached callback).Sound :=
  ⟨rfl, nofun, fun i _ _ _ _ hi => by simp [new] at hi⟩

theorem length_woken_step (s : Vigil ε) (a : Action) :
    s.woken.length ≤ (s.step a).woken.length := by
  cases a with
  | set => simp [set_woken]
  | clear | begin => exact Nat.le_refl _
  | poll i w =>
      simp only [step]
      split
      · split_ifs
        · exact Nat.le_refl _
        · split <;> exact Nat.le_refl _
      · exact Nat.le_refl _
  | drop i =>
      simp only [step]
      split <;> exact Nat.le_refl _

theorem waiter_step {i : Nat} {v : Waiter} (h : s.waiters[i]? = some v) {a : Action}
    (ha : ¬a.Concerns i) : (s.step a).waiters[i]? = some v := by
  cases a with
  | set | clear => exact h
  | begin =>
      have hi : i < s.waiters.length := (List.getElem?_eq_some_iff.mp h).1
      simpa only [step, List.getElem?_append_left hi] using h
  | poll j w =>
      simp only [step]
      split
      · split_ifs
        · exact h
        · split <;> exact (List.getElem?_set_ne ha).trans h
      · exact h
  | drop j =>
      simp only [step]
      split
      · exact (List.getElem?_set_ne ha).trans h
      · exact h

theorem waiter_run {i : Nat} {v : Waiter} (h : s.waiters[i]? = some v) {acts : List Action}
    (hacts : ∀ a ∈ acts, ¬a.Concerns i) :
    (s.run acts).waiters[i]? = some v ∧ s.woken.length ≤ (s.run acts).woken.length := by
  induction acts generalizing s with
  | nil => exact ⟨h, Nat.le_refl _⟩
  | cons a acts ih =>
      obtain ⟨hkept, hlength⟩ := ih (waiter_step h (hacts a List.mem_cons_self))
        fun b hb => hacts b (List.mem_cons_of_mem _ hb)
      exact ⟨hkept, Nat.le_trans (length_woken_step s a) hlength⟩

theorem Sound.over_iff (hs : s.Sound) {v : Waiter} (hv : v ∈ s.waiters) (w : Waker) :
    (∃ e, s.event.poll v.start v.ticket w = .over e) ↔
      s.event.flag = true ∨ ∃ n ∈ v.first, n < s.woken.length := by
  rw [← hs.due_iff (hs.knows v hv)]
  by_cases hdue : s.event.Due v.start
  · exact iff_of_true ⟨_, poll_due hdue v.ticket w⟩ hdue
  · obtain ⟨t, q, hpoll, -⟩ := poll_not_due hdue v.ticket w
    refine iff_of_false ?_ hdue
    rintro ⟨e, he⟩
    rw [hpoll] at he
    cases he

theorem Sound.registered_or_woken (hs : s.Sound) {v : Waiter} (hv : v ∈ s.waiters)
    (hparked : v.parked.isSome) : s.Registered v ∨ s.Woken v := by
  obtain ⟨⟨n, w⟩, hn⟩ := Option.isSome_iff_exists.mp hparked
  obtain ⟨-, ⟨-, hregistered⟩ | ⟨-, hwoken⟩⟩ := (hs.knows v hv).parked n w hn
  · exact .inl hregistered
  · exact .inr hwoken

/-- Whoever waits when the event is set is released, if it is cleared at once too. -/
theorem Sound.released (hs : s.Sound) {i : Nat} {v : Waiter} (h : s.waiters[i]? = some v)
    (hparked : v.parked.isSome) {later : List Action} (hlater : ∀ a ∈ later, ¬a.Concerns i)
    (w : Waker) :
    let s' := s.run (.set :: .clear :: later)
    s'.waiters[i]? = some v ∧ s'.Woken v ∧ ∃ e, s'.event.poll v.start v.ticket w = .over e := by
  intro s'
  have hs' : s'.Sound := hs.run _
  have hset : ((s.step .set).step .clear).waiters[i]? = some v := h
  obtain ⟨hkept, hlength⟩ : s'.waiters[i]? = some v ∧ _ := waiter_run hset hlater
  have hmore : s.woken.length < s'.woken.length := by
    refine Nat.lt_of_lt_of_le ?_ hlength
    change s.woken.length < (s.step .set).woken.length
    rw [set_woken, List.length_append]
    exact Nat.lt_succ_self _
  obtain ⟨⟨n, w'⟩, hn⟩ := Option.isSome_iff_exists.mp hparked
  have hv := hs.knows v (List.mem_of_getElem? h)
  obtain ⟨hfirst, hbefore⟩ := hv.parked n w' hn
  have hin : v ∈ s'.waiters := List.mem_of_getElem? hkept
  refine ⟨hkept, ?_, (hs'.over_iff hin w).mpr (.inr ?_)⟩
  · obtain ⟨-, ⟨rfl, -⟩ | ⟨-, hwoken⟩⟩ := (hs'.knows v hin).parked n w' hn
    · rcases hbefore with ⟨hlast, -⟩ | ⟨hle, -⟩ <;> omega
    · exact hwoken
  · obtain ⟨k, hk⟩ := Option.isSome_iff_exists.mp hfirst
    exact ⟨k, hk, Nat.lt_of_le_of_lt (hv.first k hk) hmore⟩

/-- No set is missed. A poll ends a wait exactly if the flag is set at that moment or the event
was set since the first poll of the wait. Whoever was left waiting by his last poll stands in the
queue or was woken by a set since then. So everybody who waits when the event is set is woken and
released, also if the event is cleared at once, whatever others do before he is polled again. -/
theorem no_set_missed (detached : Bool) (callback : Option (Callback ε)) (acts : List Action) :
    let s := (new detached callback).run acts
    (∀ v ∈ s.waiters, ∀ w, (∃ e, s.event.poll v.start v.ticket w = .over e) ↔
        s.event.flag = true ∨ ∃ n ∈ v.first, n < s.woken.length) ∧
      (∀ v ∈ s.waiters, v.parked.isSome → s.Registered v ∨ s.Woken v) ∧
      ∀ i v, s.waiters[i]? = some v → v.parked.isSome →
        ∀ later : List Action, (∀ a ∈ later, ¬a.Concerns i) → ∀ w,
          let s' := s.run (.set :: .clear :: later)
          s'.waiters[i]? = some v ∧ s'.Woken v ∧
            ∃ e, s'.event.poll v.start v.ticket w = .over e := by
  intro s
  have hs : s.Sound := (sound_new detached callback).run acts
  exact ⟨fun v hv w => hs.over_iff hv w, fun v hv hparked => hs.registered_or_woken hv hparked,
    fun i v h hparked later hlater w => hs.released h hparked hlater w⟩

/-- Both tasks that wait are woken by a set, though it is taken back at once. -/
example :
    ((new false none : Vigil Empty).run [.begin, .begin, .poll 0 (.task 0), .poll 1 (.task 1),
      .set, .clear]).woken = [[(0, .task 0), (1, .task 1)]] := by
  decide

end Vigil

end Clockwork.Event
