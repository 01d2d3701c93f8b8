import Clockwork.Proofs.Concurrency.Channel.Line
import Mathlib.Data.List.Induction
/-!
Traffic on a channel: tries to get and to put, which are over at once, and requests, which are
polled until they are complete or dropped before. `Traffic.run` performs any sequence of such
actions, and keeps account of who was woken and of where the items went.

A request is polled no more once it is complete. `step_moves` says what an action means for the two
ends of the channel; `sound_run` says that what the traffic knows of tickets is consistent.
-/

namespace Clockwork.Channel

open scoped List

/-- A get or a put that was begun, with its ticket once it had to wait. -/
inductive Request (α : Type) where
  | get (ticket : Option Nat)
  | put (item : α) (ticket : Option Nat)
  | ended
  deriving DecidableEq, Repr

namespace Request

variable {α : Type}

def getTicket? : Request α → Option Nat
  | get t => t
  | _ => none

def putTicket? : Request α → Option Nat
  | put _ t => t
  | _ => none

/-- The item of a put in progress. -/
def item? : Request α → Option α
  | put a _ => some a
  | _ => none

end Request

/-- What can be done with a channel. Requests go by number, in the order in which they are begun. -/
inductive Action (α : Type) where
  | tryGet
  | tryPut (item : α)
  | get
  | put (item : α)
  | poll (request : Nat) (w : Waker)
  | drop (request : Nat)
  deriving DecidableEq, Repr

/-- A channel with all that was done with it. -/
structure Traffic (α : Type) where
  channel : Channel α
  requests : List (Request α)
  getters : Calls
  putters : Calls
  /-- The results of the gets that are complete, in the order in which they came about. -/
  taken : List α
  /-- The items of the puts that are complete, in the order in which they came about. -/
  stored : List α
  refused : List α
  withdrawn : List α

namespace Traffic

variable {α : Type}

def ofCapacity (capacity : Nat) : Traffic α :=
  ⟨.ofCapacity capacity, [], ⟨[], []⟩, ⟨[], []⟩, [], [], [], []⟩

/-- The channel changes on behalf of a request with the given ticket to get or to put. -/
def onto (s : Traffic α) (c : Channel α) (told : Option Waker) (getter putter : Option Nat) :
    Traffic α :=
  { s with
    channel := c
    getters := s.getters.after s.channel.getters c.getters told getter
    putters := s.putters.after s.channel.putters c.putters told putter }

def turn (s : Traffic α) (i : Nat) (r : Request α) : Traffic α :=
  { s with requests := s.requests.set i r }

def step (s : Traffic α) : Action α → Traffic α
  | .tryGet =>
    let (c, item, told) := s.channel.tryGet
    { s.onto c told none none with taken := s.taken ++ item.toList }
  | .tryPut a =>
    match s.channel.tryPut a with
    | some (c, told) => { s.onto c told none none with stored := s.stored ++ [a] }
    | none => { s with refused := s.refused ++ [a] }
  | .get => { s with requests := s.requests ++ [.get none] }
  | .put a => { s with requests := s.requests ++ [.put a none] }
  | .poll i w =>
    match s.requests[i]? with
    | some (.get t) =>
      match s.channel.pollGet t w with
      | .complete a c told =>
        { (s.onto c told t none).turn i .ended with taken := s.taken ++ [a] }
      | .waiting t' c => (s.onto c none t none).turn i (.get (some t'))
    | some (.put a t) =>
      match s.channel.pollPut a t w with
      | .complete () c told =>
        { (s.onto c told none t).turn i .ended with stored := s.stored ++ [a] }
      | .waiting t' c => (s.onto c none none t).turn i (.put a (some t'))
    | _ => s
  | .drop i =>
    match s.requests[i]? with
    | some (.get t) =>
      let (c, told) := s.channel.abandonGet t
      (s.onto c told t none).turn i .ended
    | some (.put a t) =>
      let (c, told) := s.channel.abandonPut t
      { (s.onto c told none t).turn i .ended with withdrawn := s.withdrawn ++ [a] }
    | _ => s

/-- The traffic after some actions on a new channel. -/
def run (capacity : Nat) (acts : List (Action α)) : Traffic α :=
  acts.foldl step (ofCapacity capacity)

def getTickets (s : Traffic α) : List Nat := s.requests.filterMap Request.getTicket?

def putTickets (s : Traffic α) : List Nat := s.requests.filterMap Request.putTicket?

/-- The end of the channel where the gets wait for items. -/
def getLine (s : Traffic α) : Line :=
  .of s.channel.getters s.getters s.getTickets s.channel.stock

/-- The end of the channel where the puts wait for room. -/
def putLine (s : Traffic α) : Line :=
  .of s.channel.putters s.putters s.putTickets s.channel.room

structure Sound (s : Traffic α) : Prop where
  get : s.getLine.Sound
  put : s.putLine.Sound
  bounded : s.channel.Bounded

structure Moves (s s' : Traffic α) : Prop where
  get : s.getLine.Move s'.getLine
  put : s.putLine.Move s'.putLine
  bounded : s'.channel.Bounded
  capacity : s'.channel.capacity = s.channel.capacity

theorem Moves.refl {s : Traffic α} (hs : s.Sound) : s.Moves s :=
  ⟨.others le_rfl, .others le_rfl, hs.bounded, rfl⟩

theorem Moves.sound {s s' : Traffic α} (h : s.Moves s') (hs : s.Sound) : s'.Sound :=
  ⟨h.get.sound hs.get, h.put.sound hs.put, h.bounded⟩

variable {s : Traffic α}

theorem getTickets_turn {i : Nat} {r : Request α} (h : s.requests[i]? = some r)
    (r' : Request α) :
    r'.getTicket?.toList ++ s.getTickets ~ r.getTicket?.toList ++ (s.turn i r').getTickets :=
  perm_filterMap_set _ h r'

theorem putTickets_turn {i : Nat} {r : Request α} (h : s.requests[i]? = some r)
    (r' : Request α) :
    r'.putTicket?.toList ++ s.putTickets ~ r.putTicket?.toList ++ (s.turn i r').putTickets :=
  perm_filterMap_set _ h r'

theorem getTickets_turn_eq {i : Nat} {r r' : Request α} (h : s.requests[i]? = some r)
    (ht : r'.getTicket? = r.getTicket?) : (s.turn i r').getTickets = s.getTickets :=
  filterMap_set_eq h ht

theorem putTickets_turn_eq {i : Nat} {r r' : Request α} (h : s.requests[i]? = some r)
    (ht : r'.putTicket? = r.putTicket?) : (s.turn i r').putTickets = s.putTickets :=
  filterMap_set_eq h ht

theorem mem_getTickets {i t : Nat} (h : s.requests[i]? = some (.get (some t))) :
    t ∈ s.getTickets :=
  List.mem_filterMap.mpr ⟨_, List.mem_of_getElem? h, rfl⟩

theorem mem_putTickets {i t : Nat} {a : α} (h : s.requests[i]? = some (.put a (some t))) :
    t ∈ s.putTickets :=
  List.mem_filterMap.mpr ⟨_, List.mem_of_getElem? h, rfl⟩

theorem le_of_eq_succ {m n : ℕ∞} (h : m = n + 1) : n ≤ m := h ▸ le_self_add

theorem tryGet_moves (hs : s.Sound) : s.Moves (s.step .tryGet) := by
  rcases hi : s.channel.items with _ | ⟨a, rest⟩
  · have hstep : s.step .tryGet = s := by
      simp [step, tryGet_nil hi, onto]
    rw [hstep]
    exact .refl hs
  · simp only [step, tryGet_cons hi]
    exact ⟨Line.move_still _ rfl (le_of_eq_succ (stock_take hi _ _ _)),
      Line.move_pop hs.put rfl (room_take hs.bounded hi _ _), hs.bounded.take hi _ _, rfl⟩

theorem tryPut_moves (hs : s.Sound) (a : α) : s.Moves (s.step (.tryPut a)) := by
  cases hr : s.channel.hasRoom with
  | false =>
      simp only [step, tryPut_full hr]
      exact ⟨.others le_rfl, .others le_rfl, hs.bounded, rfl⟩
  | true =>
      simp only [step, tryPut_room hr]
      exact ⟨Line.move_pop hs.get rfl (stock_store _ a _ _ _),
        Line.move_still _ rfl (le_of_eq_succ (room_store hr a _ _)), .store hr a _ _, rfl⟩

theorem begin_moves (hs : s.Sound) {r : Request α} (hget : r.getTicket? = none)
    (hput : r.putTicket? = none) : s.Moves { s with requests := s.requests ++ [r] } := by
  have hg : (s.requests ++ [r]).filterMap Request.getTicket? = s.getTickets := by
    simp [getTickets, hget]
  have hp : (s.requests ++ [r]).filterMap Request.putTicket? = s.putTickets := by
    simp [putTickets, hput]
  have hgets : ({ s with requests := s.requests ++ [r] } : Traffic α).getLine = s.getLine :=
    congrArg (Line.of _ _ · _) hg
  have hputs : ({ s with requests := s.requests ++ [r] } : Traffic α).putLine = s.putLine :=
    congrArg (Line.of _ _ · _) hp
  refine ⟨?_, ?_, hs.bounded, rfl⟩
  · rw [hgets]
    exact .others le_rfl
  · rw [hputs]
    exact .others le_rfl

theorem pollGet_moves (hs : s.Sound) {i : Nat} {t : Option Nat} (w : Waker)
    (h : s.requests[i]? = some (.get t)) : s.Moves (s.step (.poll i w)) := by
  rcases hi : s.channel.items with _ | ⟨a, rest⟩
  · have hnone : s.channel.hasItem = false := by simp [hasItem, hi]
    simp only [step, h, pollGet_nil hi]
    refine ⟨Line.move_park hs.get w ?_ ?_ (stock_eq_zero hnone),
      Line.move_still _ (putTickets_turn_eq h rfl) le_rfl, hs.bounded, rfl⟩
    · rintro rfl
      exact (getTickets_turn h (.get (some _))).symm
    · rintro u rfl
      exact ⟨mem_getTickets h, getTickets_turn_eq h (congrArg some (WaitQueue.park_snd _ _ _))⟩
  · simp only [step, h, pollGet_cons hi]
    exact ⟨Line.move_leave t _ (getTickets_turn h .ended) (stock_take hi _ _ _),
      Line.move_pop hs.put (putTickets_turn_eq h rfl) (room_take hs.bounded hi _ _),
      hs.bounded.take hi _ _, rfl⟩

theorem pollPut_moves (hs : s.Sound) {i : Nat} {a : α} {t : Option Nat} (w : Waker)
    (h : s.requests[i]? = some (.put a t)) : s.Moves (s.step (.poll i w)) := by
  cases hr : s.channel.hasRoom with
  | false =>
      simp only [step, h, pollPut_full hr]
      refine ⟨Line.move_still _ (getTickets_turn_eq h rfl) le_rfl,
        Line.move_park hs.put w ?_ ?_ (room_eq_zero hr), hs.bounded, rfl⟩
      · rintro rfl
        exact (putTickets_turn h (.put a (some _))).symm
      · rintro u rfl
        exact ⟨mem_putTickets h, putTickets_turn_eq h (congrArg some (WaitQueue.park_snd _ _ _))⟩
  | true =>
      simp only [step, h, pollPut_room hr]
      exact ⟨Line.move_pop hs.get (getTickets_turn_eq h rfl) (stock_store _ a _ _ _),
        Line.move_leave t _ (putTickets_turn h .ended) (room_store hr a _ _), .store hr a _ _, rfl⟩

theorem dropGet_moves (hs : s.Sound) {i : Nat} {t : Option Nat}
    (h : s.requests[i]? = some (.get t)) : s.Moves (s.step (.drop i)) := by
  simp only [step, h, abandonGet_eq]
  exact ⟨Line.move_giveUp hs.get _ (getTickets_turn h .ended) stock_eq_zero,
    Line.move_still _ (putTickets_turn_eq h rfl) le_rfl, hs.bounded, rfl⟩

theorem dropPut_moves (hs : s.Sound) {i : Nat} {a : α} {t : Option Nat}
    (h : s.requests[i]? = some (.put a t)) : s.Moves (s.step (.drop i)) := by
  simp only [step, h, abandonPut_eq]
  exact ⟨Line.move_still _ (getTickets_turn_eq h rfl) le_rfl,
    Line.move_giveUp hs.put _ (putTickets_turn h .ended) room_eq_zero, hs.bounded, rfl⟩

theorem step_moves (hs : s.Sound) (a : Action α) : s.Moves (s.step a) := by
  cases a with
  | tryGet => exact tryGet_moves hs
  | tryPut a => exact tryPut_moves hs a
  | get => exact begin_moves hs rfl rfl
  | put a => exact begin_moves hs rfl rfl
  | poll i w =>
      cases h : s.requests[i]? with
      | none =>
          simp only [step, h]
          exact .refl hs
      | some r =>
          cases r with
          | get t => exact pollGet_moves hs w h
          | put a t => exact pollPut_moves hs w h
          | ended =>
              simp only [step, h]
              exact .refl hs
  | drop i =>
      cases h : s.requests[i]? with
      | none =>
          simp only [step, h]
          exact .refl hs
      | some r =>
          cases r with
          | get t => exact dropGet_moves hs h
          | put a t => exact dropPut_moves hs h
          | ended =>
              simp only [step, h]
              exact .refl hs

theorem sound_ofCapacity (capacity : Nat) : (ofCapacity capacity : Traffic α).Sound := by
  refine ⟨⟨.refl _, List.nodup_nil, by simp [getLine, Line.of, getTickets, ofCapacity]⟩,
    ⟨.refl _, List.nodup_nil, by simp [putLine, Line.of, putTickets, ofCapacity]⟩, .inr ?_⟩
  exact Nat.zero_le _

@[simp] theorem run_nil (capacity : Nat) :
    run capacity ([] : List (Action α)) = ofCapacity capacity := rfl

@[simp] theorem run_snoc (capacity : Nat) (acts : List (Action α)) (a : Action α) :
    run capacity (acts ++ [a]) = (run capacity acts).step a := by
  simp [run]

theorem sound_run (capacity : Nat) (acts : List (Action α)) : (run capacity acts).Sound := by
  induction acts using List.reverseRecOn with
  | nil => exact sound_ofCapacity capacity
  | append_singleton acts a ih =>
      rw [run_snoc]
      exact (step_moves ih a).sound ih

@[simp] theorem capacity_run (capacity : Nat) (acts : List (Action α)) :
    (run capacity acts).channel.capacity = capacity := by
  induction acts using List.reverseRecOn with
  | nil => rfl
  | append_singleton acts a ih =>
      rw [run_snoc, (step_moves (sound_run capacity acts) a).capacity, ih]

theorem run_moves (capacity : Nat) (acts : List (Action α)) (a : Action α) :
    (run capacity acts).Moves (run capacity (acts ++ [a])) := by
  rw [run_snoc]
  exact step_moves (sound_run capacity acts) a

end Traffic

end Clockwork.Channel
