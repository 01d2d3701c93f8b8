import Clockwork.Proofs.Concurrency.WaitQueue
/-!
Who has a lock and who waits for it. A lock has three places where ownership shows: its flag, the
tickets that it was granted to, and the parties that know that they have it. `Tenure.Move` lists
what can happen to a lock as long as only those release it who know that they have it; `Exclusive`
says that the three places agree, and `InTurn` that the lock goes round in the order of asking.
-/

namespace Clockwork

open scoped List

/-- A lock as those see it who want it. The tickets that are out are those it is granted to. -/
structure Tenure extends Roll where
  locked : Bool
  holders : List Nat
  /-- All tickets, in the order in which their requests began to wait. -/
  asked : List Nat
  /-- The tickets of requests that were given up while they waited. -/
  left : List Nat
  grants : List Nat
  woken : List Nat

namespace Tenure

def handOff (r : Tenure) : Tenure :=
  { r with
    queue := r.queue.tail, out := r.queue.head?.toList ++ r.out
    locked := r.locked && !r.queue.isEmpty
    grants := r.grants ++ r.queue.head?.toList, woken := r.woken ++ r.queue.head?.toList }

inductive Move (r : Tenure) : Tenure → Prop
  | stay : Move r r
  | take (p : Nat) (h : r.locked = false) : Move r
      { r with locked := true, holders := r.holders ++ [p] }
  /-- A request finds the lock held, and waits. -/
  | enter {live : List Nat} (hlive : live ~ r.next :: r.live) (h : r.locked = true) : Move r
      { r with
        next := r.next + 1, queue := r.queue ++ [r.next], live, asked := r.asked ++ [r.next] }
  | notice (p t : Nat) {live : List Nat} (ht : t ∈ r.out) (hlive : r.live ~ t :: live) : Move r
      { r with out := without (some t) r.out, live, holders := r.holders ++ [p] }
  | quit (t : Nat) {live : List Nat} (ht : t ∈ r.queue) (hlive : r.live ~ t :: live) : Move r
      { r with queue := without (some t) r.queue, live, left := r.left ++ [t] }
  /-- A request is given up that was granted, and the lock is handed off. -/
  | pass (t : Nat) {live : List Nat} (ht : t ∈ r.out) (hlive : r.live ~ t :: live) : Move r
      (handOff { r with out := without (some t) r.out, live })
  | release (p : Nat) (hp : p ∈ r.holders) : Move r
      (handOff { r with holders := r.holders.erase p })

/-- The lock is held by one party if its flag says so, and by nobody otherwise; parties wait only
while it is held. -/
structure Exclusive (r : Tenure) : Prop where
  roll : r.Sound
  owners : r.holders.length + r.out.length = r.locked.toNat
  queued : r.queue ≠ [] → r.locked = true

theorem Exclusive.locked_of_out {r : Tenure} (h : r.Exclusive) {t : Nat} (ht : t ∈ r.out) :
    r.locked = true := by
  have hpos : 0 < r.out.length := List.length_pos_of_mem ht
  have howners := h.owners
  cases hl : r.locked with
  | true => rfl
  | false =>
      rw [hl, Bool.toNat_false] at howners
      omega

theorem Exclusive.locked_of_holders {r : Tenure} (h : r.Exclusive) {p : Nat}
    (hp : p ∈ r.holders) : r.locked = true := by
  have hpos : 0 < r.holders.length := List.length_pos_of_mem hp
  have howners := h.owners
  cases hl : r.locked with
  | true => rfl
  | false =>
      rw [hl, Bool.toNat_false] at howners
      omega

theorem exclusive_handOff {r : Tenure} (hroll : r.Sound) (hl : r.locked = true)
    (hown : r.holders.length + r.out.length = 0) : r.handOff.Exclusive := by
  refine ⟨hroll.pop.of_perm List.perm_append_comm (.refl _), ?_, ?_⟩
  · simp only [handOff, List.length_append]
    cases hq : r.queue with
    | nil =>
        simp only [List.head?_nil, Option.toList_none, List.length_nil, List.isEmpty_nil,
          Bool.not_true, Bool.and_false, Bool.toNat_false]
        omega
    | cons t rest =>
        simp only [List.head?_cons, Option.toList_some, List.length_singleton,
          List.isEmpty_cons, Bool.not_false, Bool.and_true, hl, Bool.toNat_true]
        omega
  · intro hq
    cases hqueue : r.queue with
    | nil => simp [handOff, hqueue] at hq
    | cons t rest => simp [handOff, hqueue, hl]

theorem Move.exclusive {r r' : Tenure} (h : r.Move r') (hr : r.Exclusive) : r'.Exclusive := by
  have howners := hr.owners
  cases h with
  | stay => exact hr
  | take p h =>
      refine ⟨hr.roll, ?_, fun _ => rfl⟩
      rw [h, Bool.toNat_false] at howners
      simp only [List.length_append, List.length_singleton, Bool.toNat_true]
      omega
  | enter hlive h => exact ⟨hr.roll.enter hlive, howners, fun _ => h⟩
  | notice p t ht hlive =>
      have hqueue : without (some t) r.queue = r.queue :=
        without_of_not_mem fun hin => hr.roll.not_mem_out hin ht
      have hroll := hr.roll.finish (t := some t) hlive
      rw [hqueue] at hroll
      refine ⟨hroll, ?_, hr.queued⟩
      rw [length_without hr.roll.nodup_out ht] at howners
      simp only [List.length_append, List.length_singleton]
      omega
  | quit t ht hlive =>
      have hout : without (some t) r.out = r.out :=
        without_of_not_mem (hr.roll.not_mem_out ht)
      have hroll := hr.roll.finish (t := some t) hlive
      rw [hout] at hroll
      exact ⟨hroll, howners, fun _ => hr.queued (List.ne_nil_of_mem ht)⟩
  | pass t ht hlive =>
      have hqueue : without (some t) r.queue = r.queue :=
        without_of_not_mem fun hin => hr.roll.not_mem_out hin ht
      have hroll := hr.roll.finish (t := some t) hlive
      rw [hqueue] at hroll
      have hl := hr.locked_of_out ht
      refine exclusive_handOff hroll hl ?_
      rw [length_without hr.roll.nodup_out ht, hl, Bool.toNat_true] at howners
      exact Nat.succ.inj howners
  | release p hp =>
      have hl := hr.locked_of_holders hp
      refine exclusive_handOff hr.roll hl ?_
      have hpos : 0 < r.holders.length := List.length_pos_of_mem hp
      rw [hl, Bool.toNat_true] at howners
      simp only [List.length_erase_of_mem hp]
      omega

/-- The lock is granted to requests in the order in which they began to wait, leaving out those
that were given up meanwhile; and whomever it is granted to is woken. -/
structure InTurn (r : Tenure) : Prop where
  sorted : r.asked.Pairwise (· < ·)
  lt_next : ∀ t ∈ r.asked, t < r.next
  left : r.left ⊆ r.asked
  turns : r.grants ++ r.queue = r.asked.filter (· ∉ r.left)
  woken : r.woken = r.grants

theorem InTurn.mem_asked {r : Tenure} (h : r.InTurn) {t : Nat} (ht : t ∈ r.queue) :
    t ∈ r.asked := by
  have hin : t ∈ r.grants ++ r.queue := List.mem_append_right _ ht
  rw [h.turns] at hin
  exact List.mem_of_mem_filter hin

theorem InTurn.not_mem_grants {r : Tenure} (h : r.InTurn) {t : Nat} (ht : t ∈ r.queue) :
    t ∉ r.grants := by
  intro hin
  have hsorted : (r.grants ++ r.queue).Pairwise (· < ·) := by
    rw [h.turns]
    exact h.sorted.filter _
  exact Nat.lt_irrefl _ ((List.pairwise_append.mp hsorted).2.2 t hin t ht)

theorem InTurn.handOff {r : Tenure} (h : r.InTurn) : r.handOff.InTurn := by
  refine ⟨h.sorted, h.lt_next, h.left, ?_, congrArg (· ++ r.queue.head?.toList) h.woken⟩
  calc
    r.grants ++ r.queue.head?.toList ++ r.queue.tail = r.grants ++ r.queue := by
      rw [List.append_assoc, head?_append_tail]
    _ = r.asked.filter (· ∉ r.left) := h.turns

theorem Move.inTurn {r r' : Tenure} (h : r.Move r') (hr : r.InTurn) : r'.InTurn := by
  cases h with
  | stay => exact hr
  | take | notice => exact ⟨hr.sorted, hr.lt_next, hr.left, hr.turns, hr.woken⟩
  | enter hlive =>
      refine ⟨?_, ?_, List.subset_append_of_subset_left _ hr.left, ?_, hr.woken⟩
      · refine List.pairwise_append.mpr ⟨hr.sorted, List.pairwise_singleton _ _, ?_⟩
        intro t ht u hu
        rw [List.mem_singleton.mp hu]
        exact hr.lt_next t ht
      · intro t ht
        rcases List.mem_append.mp ht with ht | ht
        · exact Nat.lt_succ_of_lt (hr.lt_next t ht)
        · rw [List.mem_singleton.mp ht]
          exact Nat.lt_succ_self _
      · have hnew : r.next ∉ r.left := fun hin => Nat.lt_irrefl _ (hr.lt_next _ (hr.left hin))
        calc
          r.grants ++ (r.queue ++ [r.next])
            = r.asked.filter (· ∉ r.left) ++ [r.next] := by
              rw [← List.append_assoc, hr.turns]
          _ = (r.asked ++ [r.next]).filter (· ∉ r.left) := by
              rw [List.filter_append, List.filter_cons_of_pos (by simpa using hnew),
                List.filter_nil]
  | quit t ht hlive =>
      refine ⟨hr.sorted, hr.lt_next, ?_, ?_, hr.woken⟩
      · exact List.append_subset.mpr ⟨hr.left, by simpa using hr.mem_asked ht⟩
      · have hgrants : without (some t) r.grants = r.grants :=
          without_of_not_mem (hr.not_mem_grants ht)
        calc
          r.grants ++ without (some t) r.queue
            = without (some t) (r.asked.filter (· ∉ r.left)) := by
              rw [← hr.turns, without_append, hgrants]
          _ = r.asked.filter (· ∉ r.left ++ [t]) := by
              rw [without, List.filter_filter]
              refine List.filter_congr fun u _ => ?_
              simp [and_comm]
  | @pass t live ht hlive =>
      have hr' : InTurn { r with out := without (some t) r.out, live } :=
        ⟨hr.sorted, hr.lt_next, hr.left, hr.turns, hr.woken⟩
      exact hr'.handOff
  | release p hp =>
      have hr' : InTurn { r with holders := r.holders.erase p } :=
        ⟨hr.sorted, hr.lt_next, hr.left, hr.turns, hr.woken⟩
      exact hr'.handOff

end Tenure

end Clockwork
