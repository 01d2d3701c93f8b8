import Mathlib.Data.List.Induction
import Clockwork.Concurrency.Lock
import Clockwork.Proofs.Concurrency.Lock.Tenure
/-!
Parties that contend for a lock: they try to get it, request it, poll and drop their requests, and
release it. `Contest.run` performs any sequence of such actions, and keeps account of who has the
lock, of who waits, and of the order in which the lock was granted. `lock_goes_round` states for
every sequence of actions that the lock is safe and fair.

A party releases the lock only if it has it and knows it: its try succeeded, or its request was
polled to the end. A request that was granted and not polled since counts as having the lock, but
its party does not release what it does not know of.
-/

namespace Clockwork.Lock

open scoped List

variable {l : Lock} {t : Nat}

theorem tryAcquire_free (h : l.locked = false) :
    l.tryAcquire = ({ l with locked := true }, true) := by
  simp [tryAcquire, h]

theorem tryAcquire_locked (h : l.locked = true) : l.tryAcquire = (l, false) := by
  simp [tryAcquire, h]

theorem poll_free (h : l.locked = false) (w : Waker) :
    l.poll none w = .acquired { l with locked := true } := by
  simp [poll, h]

theorem poll_locked (h : l.locked = true) (w : Waker) :
    l.poll none w = .waiting l.queue.next { l with queue := (l.queue.enter w).1 } := by
  simp [poll, h, WaitQueue.enter]

theorem poll_granted (h : t ∈ l.granted) (w : Waker) :
    l.poll (some t) w = .acquired { l with granted := without (some t) l.granted } := by
  simp [poll, h, without]

theorem poll_not_granted (h : t ∉ l.granted) (w : Waker) :
    l.poll (some t) w = .waiting t { l with queue := l.queue.refresh t w } := by
  simp [poll, h]

theorem abandon_granted (h : t ∈ l.granted) :
    l.abandon (some t) = handOff { l with granted := without (some t) l.granted } := by
  simp [abandon, h, without]

theorem abandon_not_granted (h : t ∉ l.granted) :
    l.abandon (some t) = ({ l with queue := l.queue.remove t }, none) := by
  simp [abandon, h]

theorem release_locked (h : l.locked = true) : l.release = .ok l.handOff := by
  simp [release, h]

@[simp] theorem handOff_queue (l : Lock) : l.handOff.1.queue = l.queue.pop.1 := by
  rcases l with ⟨locked, ⟨next, _ | ⟨p, rest⟩⟩, granted⟩ <;> rfl

@[simp] theorem handOff_granted (l : Lock) :
    l.handOff.1.granted = l.queue.tickets.head?.toList ++ l.granted := by
  rcases l with ⟨locked, ⟨next, _ | ⟨p, rest⟩⟩, granted⟩ <;> rfl

@[simp] theorem handOff_locked (l : Lock) :
    l.handOff.1.locked = (l.locked && !l.queue.tickets.isEmpty) := by
  rcases l with ⟨locked, ⟨next, _ | ⟨p, rest⟩⟩, granted⟩
  · exact (Bool.and_false locked).symm
  · exact (Bool.and_true locked).symm

@[simp] theorem handOff_told (l : Lock) : l.handOff.2 = l.queue.pop.2.map (·.2) := by
  rcases l with ⟨locked, ⟨next, _ | ⟨p, rest⟩⟩, granted⟩ <;> rfl

/-- A request for a lock. -/
inductive Request where
  /-- It is made for a party, and has a ticket while it waits. One that was met may be made again.
  -/
  | live (party : Nat) (ticket : Option Nat)
  | dropped
  deriving DecidableEq, Repr

def Request.ticket? : Request → Option Nat
  | live _ t => t
  | dropped => none

def Request.grantee? (l : Lock) : Request → Option Nat
  | live p (some t) => if t ∈ l.granted then some p else none
  | _ => none

/-- What can be done with a lock. Requests go by number, in the order in which they are begun. -/
inductive Action where
  | tryAcquire (party : Nat)
  /-- Begins a request; the lock learns of it when it is polled. -/
  | acquire (party : Nat)
  | poll (request : Nat) (w : Waker)
  | drop (request : Nat)
  /-- Does nothing unless the party has the lock, and knows it. -/
  | release (party : Nat)
  deriving DecidableEq, Repr

/-- A lock with all that was done with it. -/
structure Contest where
  lock : Lock
  requests : List Request
  holders : List Nat
  asked : List Nat
  /-- The tickets of requests that were dropped while they were queued. -/
  left : List Nat
  grants : List Nat
  /-- All tickets that left the queue while their wakers were told, in order. -/
  woken : List Nat

namespace Contest

def new : Contest := ⟨.free, [], [], [], [], [], []⟩

/-- The lock changes, and somebody may be told. -/
def onto (s : Contest) (l : Lock) (told : Option Waker) : Contest :=
  { s with
    lock := l
    grants := s.grants ++ l.granted.filter (· ∉ s.lock.granted)
    woken := s.woken ++ s.lock.queue.heard l.queue told none }

/-- Does something with the lock. -/
def step (s : Contest) : Action → Contest
  | .tryAcquire p =>
    match s.lock.tryAcquire with
    | (l, true) => { s.onto l none with holders := s.holders ++ [p] }
    | (l, false) => s.onto l none
  | .acquire p => { s with requests := s.requests ++ [.live p none] }
  | .poll i w =>
    match s.requests[i]? with
    | some (.live p t) =>
      match s.lock.poll t w with
      | .acquired l =>
        { s.onto l none with
          requests := s.requests.set i (.live p none), holders := s.holders ++ [p] }
      | .waiting t' l =>
        { s.onto l none with
          requests := s.requests.set i (.live p (some t'))
          asked := if t.isNone then s.asked ++ [t'] else s.asked }
    | _ => s
  | .drop i =>
    match s.requests[i]? with
    | some (.live _ t) =>
      let (l, told) := s.lock.abandon t
      { s.onto l told with
        requests := s.requests.set i .dropped
        left := s.left ++ t.toList.filter (· ∈ s.lock.queue.tickets) }
    | _ => s
  | .release p =>
    if p ∈ s.holders then
      match s.lock.release with
      | .ok (l, told) => { s.onto l told with holders := s.holders.erase p }
      | .error _ => s
    else s

/-- The contest after some actions on a new lock. -/
def run (acts : List Action) : Contest := acts.foldl step new

/-- The parties that have the lock, whether they know it or not. -/
def owners (s : Contest) : List Nat :=
  s.holders ++ s.requests.filterMap (·.grantee? s.lock)

def tenure (s : Contest) : Tenure :=
  ⟨⟨s.lock.queue.next, s.lock.queue.tickets, s.lock.granted, s.requests.filterMap Request.ticket?⟩,
    s.lock.locked, s.holders,
    s.asked, s.left, s.grants, s.woken⟩

variable {s : Contest}

theorem filter_not_mem_eq_nil {l l' : List Nat} (h : l' ⊆ l) : l'.filter (· ∉ l) = [] :=
  List.filter_eq_nil_iff.mpr fun t ht => by simpa using h ht

theorem onto_quiet (locked : Bool) (queue : WaitQueue) {granted : List Nat}
    (h : granted ⊆ s.lock.granted) : s.onto ⟨locked, queue, granted⟩ none =
    { s with lock := ⟨locked, queue, granted⟩ } := by
  have hheard : s.lock.queue.heard queue none none = [] := by
    simp [WaitQueue.heard]
  simp only [onto, hheard, filter_not_mem_eq_nil h, List.append_nil]

theorem onto_handOff (hs : s.tenure.Exclusive) (locked : Bool) {granted : List Nat}
    (h : granted ⊆ s.lock.granted) :
    let l := handOff ⟨locked, s.lock.queue, granted⟩
    s.onto l.1 l.2 =
      { s with
        lock := l.1
        grants := s.grants ++ s.lock.queue.tickets.head?.toList
        woken := s.woken ++ s.lock.queue.tickets.head?.toList } := by
  intro l
  have hheard : s.lock.queue.heard s.lock.queue.pop.1 (s.lock.queue.pop.2.map (·.2)) none =
      s.lock.queue.tickets.head?.toList :=
    WaitQueue.heard_pop hs.roll.nodup_queue (by simp)
  have hfirst : s.lock.queue.tickets.head?.toList.filter (· ∉ s.lock.granted) =
      s.lock.queue.tickets.head?.toList := by
    refine List.filter_eq_self.mpr fun t ht => decide_eq_true ?_
    have hin : t ∈ s.tenure.queue := List.mem_of_mem_head? (Option.mem_toList.mp ht)
    exact hs.roll.not_mem_out hin
  simp only [l, onto, handOff_queue, handOff_granted, handOff_told, hheard, List.filter_append,
    hfirst, filter_not_mem_eq_nil h, List.append_nil]

theorem tryAcquire_moves (p : Nat) : s.tenure.Move (s.step (.tryAcquire p)).tenure := by
  cases h : s.lock.locked with
  | true =>
      have hstep : s.step (.tryAcquire p) = s := by
        simp only [step, tryAcquire_locked h]
        exact onto_quiet _ _ (List.Subset.refl _)
      rw [hstep]
      exact .stay
  | false =>
      simp only [step, tryAcquire_free h, onto_quiet true s.lock.queue (List.Subset.refl _)]
      exact Tenure.Move.take (r := s.tenure) p h

theorem acquire_moves (p : Nat) : s.tenure.Move (s.step (.acquire p)).tenure := by
  have hstep : (s.step (.acquire p)).tenure = s.tenure := by
    simp [step, tenure, Request.ticket?]
  rw [hstep]
  exact .stay

theorem pollNew_moves {i p : Nat} (w : Waker) (h : s.requests[i]? = some (.live p none)) :
    s.tenure.Move (s.step (.poll i w)).tenure := by
  cases hl : s.lock.locked with
  | true =>
      have hlive :=
        perm_filterMap_set Request.ticket? h (.live p (some s.lock.queue.next))
      have hstep : (s.step (.poll i w)).tenure =
          { s.tenure with
            next := s.lock.queue.next + 1, queue := s.lock.queue.tickets ++ [s.lock.queue.next]
            live := (s.requests.set i (.live p (some s.lock.queue.next))).filterMap Request.ticket?
            asked := s.asked ++ [s.lock.queue.next] } := by
        simp only [step, h, poll_locked hl, onto_quiet _ _ (List.Subset.refl _)]
        simp [tenure]
      rw [hstep]
      exact Tenure.Move.enter (r := s.tenure) hlive.symm hl
  | false =>
      have hlive : (s.requests.set i (.live p none)).filterMap Request.ticket? =
          s.requests.filterMap Request.ticket? := filterMap_set_eq h rfl
      have hstep : (s.step (.poll i w)).tenure =
          { s.tenure with locked := true, holders := s.holders ++ [p] } := by
        simp only [step, h, poll_free hl, onto_quiet _ _ (List.Subset.refl _), tenure, hlive]
      rw [hstep]
      exact Tenure.Move.take (r := s.tenure) p hl

theorem pollWaiting_moves {i p t : Nat} (w : Waker)
    (h : s.requests[i]? = some (.live p (some t))) :
    s.tenure.Move (s.step (.poll i w)).tenure := by
  by_cases ht : t ∈ s.lock.granted
  · have hlive := perm_filterMap_set Request.ticket? h (.live p none)
    have hsub : without (some t) s.lock.granted ⊆ s.lock.granted :=
      List.filter_subset_self _
    simp only [step, h, poll_granted ht, onto_quiet _ _ hsub]
    exact Tenure.Move.notice (r := s.tenure) p t ht hlive
  · have hlive : (s.requests.set i (.live p (some t))).filterMap Request.ticket? =
        s.requests.filterMap Request.ticket? := filterMap_set_eq h rfl
    have hstep : (s.step (.poll i w)).tenure = s.tenure := by
      simp only [step, h, poll_not_granted ht, onto_quiet _ _ (List.Subset.refl _)]
      simp [tenure, hlive]
    rw [hstep]
    exact .stay

theorem tenure_drop_granted (hs : s.tenure.Exclusive) {i p t : Nat}
    (h : s.requests[i]? = some (.live p (some t))) (ht : t ∈ s.lock.granted) :
    (s.step (.drop i)).tenure =
      Tenure.handOff
        { s.tenure with
          out := without (some t) s.lock.granted
          live := (s.requests.set i .dropped).filterMap Request.ticket? } := by
  have hqueue : t ∉ s.lock.queue.tickets := fun hin => hs.roll.not_mem_out hin ht
  have hsub : without (some t) s.lock.granted ⊆ s.lock.granted := List.filter_subset_self _
  simp only [step, h, abandon_granted ht, onto_handOff hs _ hsub]
  simp [tenure, Tenure.handOff, hqueue]

theorem drop_moves (hs : s.tenure.Exclusive) {i p : Nat} {t : Option Nat}
    (h : s.requests[i]? = some (.live p t)) : s.tenure.Move (s.step (.drop i)).tenure := by
  cases t with
  | none =>
      have hlive : (s.requests.set i .dropped).filterMap Request.ticket? =
          s.requests.filterMap Request.ticket? := filterMap_set_eq h rfl
      have hstep : (s.step (.drop i)).tenure = s.tenure := by
        have hsame : s.onto s.lock none = s := onto_quiet _ _ (List.Subset.refl _)
        simp only [step, h, abandon, hsame]
        simp [tenure, hlive]
      rw [hstep]
      exact .stay
  | some t =>
      have hlive := perm_filterMap_set Request.ticket? h .dropped
      by_cases ht : t ∈ s.lock.granted
      · rw [tenure_drop_granted hs h ht]
        exact Tenure.Move.pass (r := s.tenure) t ht hlive
      · have hqueue : t ∈ s.lock.queue.tickets :=
          (hs.roll.mem_live_iff.mp (List.mem_filterMap.mpr
            ⟨_, List.mem_of_getElem? h, rfl⟩)).resolve_right ht
        have hstep : (s.step (.drop i)).tenure =
            { s.tenure with
              queue := without (some t) s.lock.queue.tickets
              live := (s.requests.set i .dropped).filterMap Request.ticket?
              left := s.left ++ [t] } := by
          simp only [step, h, abandon_not_granted ht, onto_quiet _ _ (List.Subset.refl _)]
          simp [tenure, hqueue]
        rw [hstep]
        exact Tenure.Move.quit (r := s.tenure) t hqueue hlive

theorem release_moves (hs : s.tenure.Exclusive) (p : Nat) :
    s.tenure.Move (s.step (.release p)).tenure := by
  by_cases hp : p ∈ s.holders
  · have hl : s.lock.locked = true := hs.locked_of_holders hp
    have hstep : (s.step (.release p)).tenure =
        Tenure.handOff { s.tenure with holders := s.holders.erase p } := by
      simp only [step, hp, if_true, release_locked hl,
        onto_handOff hs s.lock.locked (List.Subset.refl s.lock.granted)]
      simp [tenure, Tenure.handOff]
    rw [hstep]
    exact Tenure.Move.release (r := s.tenure) p hp
  · simp only [step, hp, if_false]
    exact .stay

theorem step_moves (hs : s.tenure.Exclusive) (a : Action) :
    s.tenure.Move (s.step a).tenure := by
  cases a with
  | tryAcquire p => exact tryAcquire_moves p
  | acquire p => exact acquire_moves p
  | poll i w =>
      cases h : s.requests[i]? with
      | none =>
          simp only [step, h]
          exact .stay
      | some r =>
          rcases r with ⟨p, _ | t⟩ | _
          · exact pollNew_moves w h
          · exact pollWaiting_moves w h
          · simp only [step, h]
            exact .stay
  | drop i =>
      cases h : s.requests[i]? with
      | none =>
          simp only [step, h]
          exact .stay
      | some r =>
          cases r with
          | live p t => exact drop_moves hs h
          | dropped =>
              simp only [step, h]
              exact .stay
  | release p => exact release_moves hs p

variable {s : Contest}

theorem isSome_grantee? (l : Lock) (r : Request) :
    (r.grantee? l).isSome = r.ticket?.any (· ∈ l.granted) := by
  rcases r with ⟨p, _ | t⟩ | _
  · rfl
  · by_cases ht : t ∈ l.granted <;> simp [Request.grantee?, Request.ticket?, ht]
  · rfl

theorem length_owners (hs : s.tenure.Exclusive) : s.owners.length = s.lock.locked.toNat := by
  have hgranted : (s.requests.filterMap (·.grantee? s.lock)).length = s.lock.granted.length := by
    rw [List.length_filterMap_eq_countP]
    simp only [isSome_grantee?]
    rw [countP_any]
    exact hs.roll.countP_out
  rw [owners, List.length_append, hgranted]
  exact hs.owners

/-- What is done for a party that has not waited so far. -/
def Newcomer (s : Contest) : Action → Prop
  | .tryAcquire _ => True
  | .poll i _ => ∃ p, s.requests[i]? = some (.live p none)
  | _ => False

/-- While the lock is held, newcomers do not get it, and wait behind all others. -/
theorem newcomer_waits (hs : s.tenure.Exclusive) (hl : s.lock.locked = true) {a : Action}
    (ha : s.Newcomer a) :
    (s.step a).owners = s.owners ∧ (s.step a).grants = s.grants ∧
      s.lock.queue.tickets <+: (s.step a).lock.queue.tickets := by
  cases a with
  | tryAcquire p =>
      have hstep : s.step (.tryAcquire p) = s := by
        simp only [step, tryAcquire_locked hl]
        exact onto_quiet _ _ (List.Subset.refl _)
      rw [hstep]
      exact ⟨rfl, rfl, List.prefix_rfl⟩
  | poll i w =>
      obtain ⟨p, h⟩ := ha
      have hnew : s.lock.queue.next ∉ s.lock.granted := fun hin =>
        Nat.lt_irrefl _ (hs.roll.lt_of_mem_out hin)
      have hgrantees : (s.requests.set i (.live p (some s.lock.queue.next))).filterMap
          (·.grantee? s.lock) = s.requests.filterMap (·.grantee? s.lock) :=
        filterMap_set_eq h (by simp [Request.grantee?, hnew])
      simp only [step, h, poll_locked hl, onto_quiet _ _ (List.Subset.refl _)]
      refine ⟨congrArg (s.holders ++ ·) hgrantees, trivial, ?_⟩
      rw [WaitQueue.tickets_enter]
      exact List.prefix_append _ _
  | acquire | drop | release => exact ha.elim

/-- A request that was granted and is dropped passes the lock on to the first of the queue, or
frees it. -/
theorem drop_passes_on (hs : s.tenure.Exclusive) {i p t : Nat}
    (h : s.requests[i]? = some (.live p (some t))) (ht : t ∈ s.lock.granted) :
    let s' := s.step (.drop i)
    s'.lock.granted = s.lock.queue.tickets.head?.toList ∧
      s'.lock.queue.tickets = s.lock.queue.tickets.tail ∧
      s'.lock.locked = !s.lock.queue.tickets.isEmpty := by
  intro s'
  have htenure := tenure_drop_granted hs h ht
  have hl : s.lock.locked = true := hs.locked_of_out ht
  -- There is one owner only, and that was the request which is dropped.
  have hrest : without (some t) s.lock.granted = [] := by
    have howners : s.holders.length + s.lock.granted.length = 1 := by
      simpa [tenure, hl] using hs.owners
    have hlength : s.lock.granted.length = (without (some t) s.lock.granted).length + 1 :=
      length_without hs.roll.nodup_out ht
    exact List.length_eq_zero_iff.mp (by omega)
  refine ⟨?_, congrArg (·.queue) htenure, ?_⟩
  · have hout : s'.lock.granted =
        s.lock.queue.tickets.head?.toList ++ without (some t) s.lock.granted :=
      congrArg (·.out) htenure
    rw [hout, hrest, List.append_nil]
  · have hlocked : s'.lock.locked = (s.lock.locked && !s.lock.queue.tickets.isEmpty) :=
      congrArg (·.locked) htenure
    rw [hlocked, hl, Bool.true_and]

@[simp] theorem run_snoc (acts : List Action) (a : Action) :
    run (acts ++ [a]) = (run acts).step a := by
  simp [run]

theorem run_tenure (acts : List Action) :
    (run acts).tenure.Exclusive ∧ (run acts).tenure.InTurn := by
  induction acts using List.reverseRecOn with
  | nil =>
      refine ⟨⟨⟨.refl _, List.nodup_nil, ?_⟩, rfl, fun h => absurd rfl h⟩,
        ⟨.nil, ?_, List.nil_subset _, rfl, rfl⟩⟩
      · intro t ht
        cases ht
      · intro t ht
        cases ht
  | append_singleton acts a ih =>
      have hmove := step_moves ih.1 a
      rw [run_snoc]
      exact ⟨hmove.exclusive ih.1, hmove.inTurn ih.2⟩

/-- At most one party has the lock, whether it knows it or not, and the flag is set if and only if
one has it; parties wait only while it is held. The lock is granted to those who wait in the order
in which they were first polled, leaving out those that were dropped while they waited, and they are
woken. While somebody waits, no newcomer gets the lock or comes to stand before him. A request that
is dropped after it was granted passes the lock on to the next one, or frees it. -/
theorem lock_goes_round (acts : List Action) :
    let s := run acts
    (s.owners.length ≤ 1 ∧ (s.lock.locked = true ↔ ∃ p, s.owners = [p])) ∧
      (s.lock.queue.waiting ≠ [] → s.lock.locked = true) ∧
      (s.asked.Pairwise (· < ·) ∧
        s.grants ++ s.lock.queue.tickets = s.asked.filter (· ∉ s.left) ∧ s.woken = s.grants) ∧
      (s.lock.queue.waiting ≠ [] → ∀ a, s.Newcomer a →
        (s.step a).owners = s.owners ∧ (s.step a).grants = s.grants ∧
          s.lock.queue.tickets <+: (s.step a).lock.queue.tickets) ∧
      ∀ i p t, s.requests[i]? = some (.live p (some t)) → t ∈ s.lock.granted →
        (s.step (.drop i)).lock.granted = s.lock.queue.tickets.head?.toList ∧
          (s.step (.drop i)).lock.queue.tickets = s.lock.queue.tickets.tail ∧
          (s.step (.drop i)).lock.locked = !s.lock.queue.tickets.isEmpty := by
  intro s
  obtain ⟨hexclusive, hturn⟩ : s.tenure.Exclusive ∧ s.tenure.InTurn := run_tenure acts
  have howners : s.owners.length = s.lock.locked.toNat := length_owners hexclusive
  have hqueued : s.lock.queue.waiting ≠ [] → s.lock.locked = true := fun hq =>
    hexclusive.queued (mt WaitQueue.waiting_eq_nil_iff.mpr hq)
  refine ⟨⟨?_, ?_⟩, hqueued, ⟨hturn.sorted, hturn.turns, hturn.woken⟩,
    fun hq a ha => newcomer_waits hexclusive (hqueued hq) ha,
    fun i p t h ht => drop_passes_on hexclusive h ht⟩
  · rw [howners]
    exact s.lock.locked.toNat_le
  · rw [← List.length_eq_one_iff, howners, Bool.toNat_eq_one]

/-- Two parties wait; the lock is released, granted to the first of them, and passed on to the
second one when the first one gives up. -/
example :
    (run [.tryAcquire 0, .acquire 1, .acquire 2, .poll 0 .nobody, .poll 1 .nobody, .release 0,
      .drop 0]).owners = [2] := by
  decide

end Contest

end Clockwork.Lock
