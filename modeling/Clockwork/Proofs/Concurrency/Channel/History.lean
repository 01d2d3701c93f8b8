import Clockwork.Proofs.Concurrency.Channel.Traffic
import Mathlib.Algebra.Order.Group.Multiset
import Mathlib.Tactic.Abel
/-!
Where the items of a channel go. `items_in_order` states that gets receive the items of the puts
in the order in which the puts were completed, that none is lost and none comes twice, and that a
channel never holds more than it may.
-/

namespace Clockwork.Channel

open scoped List

variable {α : Type}

def Action.item? : Action α → Option α
  | tryPut a => some a
  | put a => some a
  | _ => none

/-- All items that are offered, in order. -/
def offered (acts : List (Action α)) : List α := acts.filterMap Action.item?

@[simp] theorem items_abandonGet (c : Channel α) (t : Option Nat) :
    (c.abandonGet t).1.items = c.items := by
  rw [abandonGet_eq]

@[simp] theorem items_abandonPut (c : Channel α) (t : Option Nat) :
    (c.abandonPut t).1.items = c.items := by
  rw [abandonPut_eq]

structure Book (α : Type) where
  items : List α
  taken : List α
  /-- Put into it, in order, those that were taken out included. -/
  stored : List α
  refused : List α
  withdrawn : List α
  held : List α

namespace Book

/-- What becomes of the items when these ones are offered. -/
inductive Entry (b : Book α) : List α → Book α → Prop
  | none {held : List α} (h : held = b.held) : Entry b [] { b with held }
  | take {a : α} {rest held : List α} (hi : b.items = a :: rest) (h : held = b.held) :
      Entry b [] { b with items := rest, taken := b.taken ++ [a], held }
  | store (a : α) : Entry b [a] { b with items := b.items ++ [a], stored := b.stored ++ [a] }
  | refuse (a : α) : Entry b [a] { b with refused := b.refused ++ [a] }
  | hold (a : α) {held : List α} (h : held = b.held ++ [a]) : Entry b [a] { b with held }
  | complete (a : α) {held : List α} (h : b.held ~ a :: held) :
      Entry b [] { b with items := b.items ++ [a], stored := b.stored ++ [a], held }
  | withdraw (a : α) {held : List α} (h : b.held ~ a :: held) :
      Entry b [] { b with withdrawn := b.withdrawn ++ [a], held }

/-- The items are taken out in the order in which they were put in, and every item that was offered
is in one place. -/
structure Balanced (b : Book α) (offered : List α) : Prop where
  order : b.taken ++ b.items = b.stored
  all : (offered : Multiset α) = ↑b.stored + ↑b.refused + ↑b.withdrawn + ↑b.held

theorem Entry.balanced {b b' : Book α} {new offered : List α} (h : b.Entry new b')
    (hb : b.Balanced offered) : b'.Balanced (offered ++ new) := by
  have hall : (↑(offered ++ new) : Multiset α) =
      ↑b.stored + ↑b.refused + ↑b.withdrawn + ↑b.held + ↑new := by
    rw [← Multiset.coe_add, hb.all]
  cases h with
  | none h => exact ⟨hb.order, by simpa [h] using hb.all⟩
  | take hi h =>
      refine ⟨?_, by simpa [h] using hb.all⟩
      rw [← hb.order, hi]
      simp
  | store a =>
      refine ⟨by simp [← hb.order], ?_⟩
      rw [hall]
      simp only [← Multiset.coe_add]
      abel
  | refuse a =>
      refine ⟨hb.order, ?_⟩
      rw [hall]
      simp only [← Multiset.coe_add]
      abel
  | hold a h =>
      refine ⟨hb.order, ?_⟩
      rw [hall, h]
      simp only [← Multiset.coe_add]
      abel
  | complete a h =>
      have hheld := Multiset.coe_eq_coe.mpr h
      refine ⟨by simp [← hb.order], ?_⟩
      rw [hall, hheld, ← Multiset.cons_coe, ← Multiset.singleton_add]
      simp only [← Multiset.coe_add, Multiset.coe_nil, Multiset.coe_singleton]
      abel
  | withdraw a h =>
      have hheld := Multiset.coe_eq_coe.mpr h
      refine ⟨hb.order, ?_⟩
      rw [hall, hheld, ← Multiset.cons_coe, ← Multiset.singleton_add]
      simp only [← Multiset.coe_add, Multiset.coe_nil, Multiset.coe_singleton]
      abel

end Book

namespace Traffic

def book (s : Traffic α) : Book α :=
  ⟨s.channel.items, s.taken, s.stored, s.refused, s.withdrawn, s.requests.filterMap Request.item?⟩

variable {s : Traffic α}

theorem held_turn {i : Nat} {r : Request α} (h : s.requests[i]? = some r) (r' : Request α) :
    r'.item?.toList ++ s.book.held ~ r.item?.toList ++ (s.turn i r').book.held :=
  perm_filterMap_set Request.item? h r'

theorem held_turn_eq {i : Nat} {r r' : Request α} (h : s.requests[i]? = some r)
    (hitem : r'.item? = r.item?) : (s.turn i r').book.held = s.book.held :=
  filterMap_set_eq h hitem

theorem poll_entry (i : Nat) (w : Waker) : s.book.Entry [] (s.step (.poll i w)).book := by
  cases h : s.requests[i]? with
  | none =>
      simp only [step, h]
      exact .none rfl
  | some r =>
      cases r with
      | get t =>
          rcases hi : s.channel.items with _ | ⟨a, rest⟩
          · simp only [step, h, pollGet_nil hi]
            exact .none (held_turn_eq h rfl)
          · simp only [step, h, pollGet_cons hi]
            exact .take hi (held_turn_eq h rfl)
      | put a t =>
          cases hr : s.channel.hasRoom with
          | false =>
              simp only [step, h, pollPut_full hr]
              exact .none (held_turn_eq h rfl)
          | true =>
              simp only [step, h, pollPut_room hr]
              exact .complete a (held_turn h .ended)
      | ended =>
          simp only [step, h]
          exact .none rfl

theorem drop_entry (i : Nat) : s.book.Entry [] (s.step (.drop i)).book := by
  cases h : s.requests[i]? with
  | none =>
      simp only [step, h]
      exact .none rfl
  | some r =>
      cases r with
      | get t =>
          have hbook : (s.step (.drop i)).book =
              { s.book with held := (s.turn i .ended).book.held } := by
            simp [step, h, book, onto, turn]
          rw [hbook]
          exact .none (held_turn_eq h rfl)
      | put a t =>
          have hbook : (s.step (.drop i)).book =
              { s.book with
                withdrawn := s.withdrawn ++ [a], held := (s.turn i .ended).book.held } := by
            simp [step, h, book, onto, turn]
          rw [hbook]
          exact .withdraw a (held_turn h .ended)
      | ended =>
          simp only [step, h]
          exact .none rfl

theorem step_entry (s : Traffic α) (a : Action α) :
    s.book.Entry a.item?.toList (s.step a).book := by
  cases a with
  | tryGet =>
      rcases hi : s.channel.items with _ | ⟨a, rest⟩
      · have hbook : (s.step .tryGet).book = s.book := by
          simp [step, tryGet_nil hi, book, onto]
        rw [hbook]
        exact .none rfl
      · simp only [step, tryGet_cons hi]
        exact .take hi rfl
  | tryPut a =>
      cases hr : s.channel.hasRoom with
      | false =>
          simp only [step, tryPut_full hr]
          exact .refuse a
      | true =>
          simp only [step, tryPut_room hr]
          exact .store a
  | get => exact .none (by simp [step, book, Request.item?])
  | put a => exact .hold a (by simp [step, book, Request.item?])
  | poll i w => exact poll_entry i w
  | drop i => exact drop_entry i

theorem run_balanced (capacity : Nat) (acts : List (Action α)) :
    (run capacity acts).book.Balanced (offered acts) := by
  induction acts using List.reverseRecOn with
  | nil => exact ⟨rfl, rfl⟩
  | append_singleton acts a ih =>
      have hentry := (step_entry (run capacity acts) a).balanced ih
      have hoffered : offered (acts ++ [a]) = offered acts ++ a.item?.toList := by
        cases h : a.item? <;> simp [offered, h]
      rwa [run_snoc, hoffered]

/-- What was taken out of a channel and what is still in it are the items of the complete puts, in
the order in which these were completed. Every item offered was stored, or handed back, or dropped,
or belongs to a put in progress; so what was handed back or dropped never appears. -/
theorem items_in_order (capacity : Nat) (acts : List (Action α)) :
    let s := run capacity acts
    s.taken ++ s.channel.items = s.stored ∧
      offered acts ~
        s.stored ++ s.refused ++ s.withdrawn ++ s.requests.filterMap Request.item? ∧
      ((offered acts).Nodup → ∀ a ∈ s.refused ++ s.withdrawn, a ∉ s.taken ++ s.channel.items) ∧
      (0 < capacity → s.channel.items.length ≤ capacity) := by
  intro s
  have hbook : s.book.Balanced (offered acts) := run_balanced capacity acts
  have horder : s.taken ++ s.channel.items = s.stored := hbook.order
  have hperm : offered acts ~
      s.stored ++ s.refused ++ s.withdrawn ++ s.requests.filterMap Request.item? := by
    have hall := hbook.all
    simp only [Multiset.coe_add] at hall
    exact Multiset.coe_eq_coe.mp hall
  refine ⟨horder, hperm, fun hnodup a ha hin => ?_, fun hcap => ?_⟩
  · have hstored : a ∈ s.stored := horder ▸ hin
    have hsplit := hperm.nodup_iff.mp hnodup
    rw [List.append_assoc, List.append_assoc] at hsplit
    refine (List.nodup_append.mp hsplit).2.2 a hstored a ?_ rfl
    rw [← List.append_assoc]
    exact List.mem_append_left _ ha
  · have hbounded : s.channel.Bounded := (sound_run capacity acts).bounded
    have hcapacity : s.channel.capacity = capacity := capacity_run capacity acts
    rw [Bounded, hcapacity] at hbounded
    exact hbounded.resolve_left (Nat.ne_of_gt hcap)

end Traffic

end Clockwork.Channel
