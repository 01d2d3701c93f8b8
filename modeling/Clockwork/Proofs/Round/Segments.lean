import Clockwork.Simulation.Machine
import Mathlib.Data.List.Basic

namespace Clockwork

/-- A part of the body of a clocked process: statements, and the arguments of the marker after them
unless it is the last part. -/
structure Segment where
  statements : List Stmt
  marker : Option (List Expr)

def segments : List Stmt → List Segment
  | [] => [⟨[], none⟩]
  | s :: rest =>
    match Machine.cyclesArgs? s with
    | some args => ⟨[], some args⟩ :: segments rest
    | none => (segments rest).modifyHead fun seg => ⟨s :: seg.statements, seg.marker⟩

theorem segments_cons_marker {s : Stmt} {args : List Expr} (h : Machine.cyclesArgs? s = some args)
    (rest : List Stmt) : segments (s :: rest) = ⟨[], some args⟩ :: segments rest := by
  simp only [segments, h]

theorem segments_cons {s : Stmt} {seg : Segment} {l : List Segment} {rest : List Stmt}
    (h : Machine.cyclesArgs? s = none) (hrest : segments rest = seg :: l) :
    segments (s :: rest) = ⟨s :: seg.statements, seg.marker⟩ :: l := by
  simp only [segments, h, hrest, List.modifyHead_cons]

theorem exists_segments (body : List Stmt) : ∃ seg l, segments body = seg :: l := by
  induction body with
  | nil => exact ⟨_, _, rfl⟩
  | cons s rest ih =>
      obtain ⟨seg, l, hrest⟩ := ih
      cases h : Machine.cyclesArgs? s with
      | some args => exact ⟨_, _, segments_cons_marker h rest⟩
      | none => exact ⟨_, _, segments_cons h hrest⟩

theorem flatMap_segments (body : List Stmt) :
    (segments body).flatMap Segment.statements =
      body.filter fun s => (Machine.cyclesArgs? s).isNone := by
  induction body with
  | nil => rfl
  | cons s rest ih =>
      obtain ⟨seg, l, hrest⟩ := exists_segments rest
      cases h : Machine.cyclesArgs? s with
      | some args =>
          rw [segments_cons_marker h, List.filter_cons_of_neg (by simp [h]), ← ih]
          rfl
      | none =>
          rw [segments_cons h hrest, List.filter_cons_of_pos (by simp [h]), ← ih, hrest]
          rfl

/-- How the run of a segment ends. -/
inductive Stop where
  /-- With the marker at its end, which lasts some cycles; the variables are kept. -/
  | marker (cycles : Int) (locals : Table String Value)
  /-- With the end of the body, or since a statement returns. -/
  | over
  | fault

/-- What a clocked process does when it is activated. -/
inductive Deed where
  | idle
  | runs (segment : Nat) (locals : Table String Value) (stop : Stop)

/-- An activation of a clocked process. -/
structure ProcessTurn where
  reset : Bool
  deed : Deed

def ProcessTurn.Begins (t : ProcessTurn) (segment : Nat) (locals : Table String Value) : Prop :=
  ∃ stop, t.deed = .runs segment locals stop

/-- The reset is off in all activations after one up to another one. -/
def Unreset (turns : List ProcessTurn) (k j : Nat) : Prop :=
  ∀ i t, k < i → i ≤ j → turns[i]? = some t → t.reset = false

/-- Activations make a state machine of the segments. The first one, one with a reset, and one after
the end of the body, a return or a fault begin with the first segment and no variables; a marker
makes the process let edges pass, one less than it lasts, and then run the next segment with the
variables as they were, unless there is a reset in between. -/
structure FollowSegments (turns : List ProcessTurn) : Prop where
  first : ∀ t ∈ turns.head?, t.Begins 0 .empty
  reset : ∀ t ∈ turns, t.reset = true → t.Begins 0 .empty
  anew {k i : Nat} {t t' : ProcessTurn} {locals : Table String Value} {stop : Stop}
    (hk : turns[k]? = some t) (ht : t.deed = .runs i locals stop)
    (hstop : stop = .over ∨ stop = .fault) (hk' : turns[k + 1]? = some t') : t'.Begins 0 .empty
  idle {k i d : Nat} {t t' : ProcessTurn} {locals locals' : Table String Value} {n : Int}
    (hk : turns[k]? = some t) (ht : t.deed = .runs i locals (.marker n locals'))
    (hn : n ≤ Bounded.max64) (hk' : turns[k + d]? = some t') (hpos : 0 < d) (hd : d < max n 1)
    (hreset : Unreset turns k (k + d)) : t'.deed = .idle
  next {k i d : Nat} {t t' : ProcessTurn} {locals locals' : Table String Value} {n : Int}
    (hk : turns[k]? = some t) (ht : t.deed = .runs i locals (.marker n locals'))
    (hn : n ≤ Bounded.max64) (hk' : turns[k + d]? = some t') (hd : d = max n 1)
    (hreset : Unreset turns k (k + d)) : t'.Begins (i + 1) locals'

def edges (cycles : Int) : Nat := (Bounded.toNat64? (max cycles 1)).getD 1

theorem edges_eq {n : Int} (h : n ≤ Bounded.max64) : (edges n : Int) = max n 1 := by
  have hpos : 1 ≤ Bounded.max64 := by decide
  have hnat : 0 ≤ max n 1 ∧ (max n 1).toNat ≤ Bounded.max64 := by omega
  rw [edges, Bounded.toNat64?, if_pos hnat, Option.getD_some]
  omega

/-- Where a clocked process stands between two activations. -/
inductive Standing where
  | anew
  | held (segment skip : Nat) (locals : Table String Value)

namespace Standing

def Takes (st : Standing) (t : ProcessTurn) : Prop :=
  match t.reset, st with
  | true, _ | false, .anew => t.Begins 0 .empty
  | false, .held i 0 locals => t.Begins i locals
  | false, .held _ (_ + 1) _ => t.deed = .idle

def after (st : Standing) (t : ProcessTurn) : Standing :=
  match t.deed, st with
  | .runs i _ (.marker n locals), _ => .held (i + 1) (edges n - 1) locals
  | .runs _ _ .over, _ | .runs _ _ .fault, _ => .anew
  | .idle, .held i skip locals => .held i (skip - 1) locals
  | .idle, .anew => .anew

def afterAll (turns : List ProcessTurn) : Standing := turns.foldl after .anew

theorem afterAll_snoc (turns : List ProcessTurn) (t : ProcessTurn) :
    afterAll (turns ++ [t]) = (afterAll turns).after t := by
  rw [afterAll, List.foldl_append]
  rfl

theorem afterAll_take {turns : List ProcessTurn} {k : Nat} {t : ProcessTurn}
    (h : turns[k]? = some t) :
    afterAll (turns.take (k + 1)) = (afterAll (turns.take k)).after t := by
  rw [List.take_add_one, h]
  exact afterAll_snoc _ t

theorem afterAll_marker {turns : List ProcessTurn} {k i : Nat} {t : ProcessTurn}
    {locals locals' : Table String Value} {n : Int} (hk : turns[k]? = some t)
    (ht : t.deed = .runs i locals (.marker n locals')) :
    afterAll (turns.take (k + 1)) = .held (i + 1) (edges n - 1) locals' := by
  simp only [afterAll_take hk, after, ht]

end Standing

def Regular (turns : List ProcessTurn) : Prop :=
  ∀ k t, turns[k]? = some t → (Standing.afterAll (turns.take k)).Takes t

namespace Regular

variable {turns : List ProcessTurn}

theorem nil : Regular [] := by
  intro k t h
  cases h

theorem snoc (h : Regular turns) {t : ProcessTurn} (ht : (Standing.afterAll turns).Takes t) :
    Regular (turns ++ [t]) := by
  intro k t' hk
  rw [List.getElem?_append] at hk
  split at hk
  · rename_i hlt
    rw [List.take_append_of_le_length (Nat.le_of_lt hlt)]
    exact h k t' hk
  · rename_i hge
    obtain ⟨hlt, -⟩ := List.getElem?_eq_some_iff.mp hk
    obtain rfl : k = turns.length := by
      have hone : k - turns.length < 1 := hlt
      omega
    rw [Nat.sub_self] at hk
    cases hk
    rwa [List.take_left]

theorem held (h : Regular turns) {k i n : Nat} {locals : Table String Value}
    (hk : Standing.afterAll (turns.take (k + 1)) = .held i n locals) {d : Nat}
    (hd : d ≤ n) (hlt : k + d < turns.length) (hreset : Unreset turns k (k + d)) :
    Standing.afterAll (turns.take (k + 1 + d)) = .held i (n - d) locals := by
  induction d with
  | zero => exact hk
  | succ d ih =>
      have hprev := ih (by omega) (by omega) fun j t hj hjd => hreset j t hj (by omega)
      have ht : turns[k + 1 + d]? = some turns[k + 1 + d] := List.getElem?_eq_getElem (by omega)
      have htakes := h _ _ ht
      rw [show k + 1 + (d + 1) = k + 1 + d + 1 by omega, Standing.afterAll_take ht]
      rw [hprev] at htakes ⊢
      obtain ⟨m, hm⟩ : ∃ m, n - d = m + 1 := ⟨n - d - 1, by omega⟩
      have hidle : turns[k + 1 + d].deed = .idle := by
        simpa only [hm, Standing.Takes, hreset _ _ (by omega) (by omega) ht] using htakes
      simp only [Standing.after, hidle]
      congr 1

theorem followSegments (h : Regular turns) : FollowSegments turns where
  first t ht := by
    rw [Option.mem_def, List.head?_eq_getElem?] at ht
    have htakes := h 0 t ht
    rw [List.take_zero] at htakes
    cases hr : t.reset <;> simpa [Standing.Takes, hr, Standing.afterAll] using htakes
  reset t ht hr := by
    obtain ⟨k, hk⟩ := List.getElem?_of_mem ht
    simpa [Standing.Takes, hr] using h k t hk
  anew {k i t t' locals stop} hk ht hstop hk' := by
    have htakes := h (k + 1) t' hk'
    have hanew : Standing.afterAll (turns.take (k + 1)) = .anew := by
      rcases hstop with rfl | rfl <;> simp only [Standing.afterAll_take hk, Standing.after, ht]
    rw [hanew] at htakes
    cases hr : t'.reset <;> simpa [Standing.Takes, hr] using htakes
  idle {k i d t t' locals locals' n} hk ht hn hk' hpos hd hreset := by
    obtain ⟨hlt, -⟩ := List.getElem?_eq_some_iff.mp hk'
    have hedges := edges_eq hn
    have hheld := h.held (d := d - 1) (Standing.afterAll_marker hk ht) (by omega) (by omega)
      fun j t hj hjd => hreset j t hj (by omega)
    have htakes := h _ _ hk'
    obtain ⟨m, hm⟩ : ∃ m, edges n - 1 - (d - 1) = m + 1 := ⟨edges n - 2 - (d - 1), by omega⟩
    rw [show k + d = k + 1 + (d - 1) by omega, hheld, hm] at htakes
    simpa only [Standing.Takes, hreset _ _ (by omega) (by omega) hk'] using htakes
  next {k i d t t' locals locals' n} hk ht hn hk' hd hreset := by
    obtain ⟨hlt, -⟩ := List.getElem?_eq_some_iff.mp hk'
    have hedges := edges_eq hn
    have hheld := h.held (d := d - 1) (Standing.afterAll_marker hk ht) (by omega) (by omega)
      fun j t hj hjd => hreset j t hj (by omega)
    have htakes := h _ _ hk'
    rw [show k + d = k + 1 + (d - 1) by omega, hheld,
      show edges n - 1 - (d - 1) = 0 by omega] at htakes
    simpa only [Standing.Takes, hreset _ _ (by omega) (by omega) hk'] using htakes

end Regular

end Clockwork
