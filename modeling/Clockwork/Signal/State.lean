import Clockwork.Table
import Clockwork.Value.Basic
/-!
The signals of one instance: their current values, and the values staged for the next commit.
Signals are named by numbers, and a signal that was never written is zero. The signals of all
instances are kept together with the list of the instances that have staged values.
-/

namespace Clockwork

/-- A change of a signal: its number, the value before and the value after. -/
structure Change where
  key : Nat
  old : Value
  new : Value
  deriving Repr, Inhabited

/-- Current and staged values of signals. -/
structure SignalState where
  current : Table Nat Value
  staged : Table Nat Value
  deriving Repr, Inhabited

namespace SignalState

def empty : SignalState := ⟨.empty, .empty⟩

def read (s : SignalState) (key : Nat) : Value := (s.current.get? key).getD (.int 0)

def set (s : SignalState) (key : Nat) (v : Value) : SignalState :=
  { s with current := s.current.insert key v }

/-- Stages a value; of several for one signal the last counts. -/
def stage (s : SignalState) (key : Nat) (v : Value) : SignalState :=
  { s with staged := s.staged.insert key v }

/-- Makes staged values current, and gives the changes by signal. A value equal to the current one
is no change. -/
def applyAll (s : SignalState) : List (Nat × Value) → SignalState × List Change
  | [] => (s, [])
  | (key, v) :: rest =>
    let old := s.read key
    if old.same v then s.applyAll rest
    else
      let (s, changes) := (s.set key v).applyAll rest
      (s, ⟨key, old, v⟩ :: changes)

def discard (s : SignalState) : SignalState := { s with staged := .empty }

def apply (s : SignalState) : SignalState × List Change := s.discard.applyAll s.staged.entries

def hasStaged (s : SignalState) : Bool := !s.staged.isEmpty

theorem hasStaged_stage (s : SignalState) (key : Nat) (v : Value) :
    (s.stage key v).hasStaged = true := by
  rcases s with ⟨current, ⟨_ | ⟨e, entries⟩⟩⟩
  · rfl
  · simp only [hasStaged, stage, Table.insert, Table.isEmpty, Table.insertSorted]
    split
    · rfl
    · split <;> rfl

theorem hasStaged_of_get? {s : SignalState} {key : Nat} {v : Value}
    (h : s.staged.get? key = some v) : s.hasStaged = true := by
  rcases s with ⟨current, ⟨_ | ⟨e, entries⟩⟩⟩
  · cases h
  · rfl

theorem hasStaged_discard (s : SignalState) : s.discard.hasStaged = false := rfl

theorem discard_of_none {s : SignalState} (h : s.hasStaged = false) : s.discard = s := by
  obtain ⟨current, ⟨entries⟩⟩ := s
  have hnil : entries = [] := by simpa [hasStaged, Table.isEmpty] using h
  subst hnil
  rfl

theorem applyAll_staged (s : SignalState) (l : List (Nat × Value)) :
    (s.applyAll l).1.staged = s.staged := by
  induction l generalizing s with
  | nil => rfl
  | cons e l ih =>
      obtain ⟨key, v⟩ := e
      simp only [applyAll]
      split
      · exact ih s
      · exact ih (s.set key v)

theorem hasStaged_apply (s : SignalState) : s.apply.1.hasStaged = false := by
  simp only [apply, hasStaged, applyAll_staged]
  rfl

theorem apply_of_none {s : SignalState} (h : s.hasStaged = false) : s.apply = (s, []) := by
  rw [apply, discard_of_none h]
  obtain ⟨current, ⟨entries⟩⟩ := s
  have hnil : entries = [] := by simpa [hasStaged, Table.isEmpty] using h
  subst hnil
  rfl

end SignalState

/-- Adds a number to an ascending list, unless it is there. -/
def insertAscending (id : Nat) : List Nat → List Nat
  | [] => [id]
  | i :: rest =>
    if id < i then id :: i :: rest
    else if id = i then i :: rest
    else i :: insertAscending id rest

theorem insertAscending_filter {id : Nat} (p : Nat → Bool) {l : List Nat}
    (hl : l.Pairwise (· < ·)) (hid : id ∈ l) :
    insertAscending id (l.filter p) = l.filter fun i => i == id || p i := by
  induction l with
  | nil => cases hid
  | cons i l ih =>
      rw [List.pairwise_cons] at hl
      rcases List.mem_cons.mp hid with rfl | hmem
      · have hrest : l.filter (fun i => i == id || p i) = l.filter p := by
          refine List.filter_congr fun i hi => ?_
          have hne : i ≠ id := Nat.ne_of_gt (hl.1 i hi)
          simp [hne]
        have hfirst : insertAscending id (l.filter p) = id :: l.filter p := by
          cases hf : l.filter p with
          | nil => rfl
          | cons i rest =>
              have hi : i ∈ l := (List.mem_filter.mp (hf ▸ List.mem_cons_self)).1
              rw [insertAscending, if_pos (hl.1 i hi)]
        cases hp : p id <;> simp [hp, hrest, hfirst, insertAscending]
      · have hlt : i < id := hl.1 id hmem
        have hne : i ≠ id := Nat.ne_of_lt hlt
        cases hp : p i <;>
          simp [hp, hne, hne.symm, Nat.lt_asymm hlt, insertAscending, ih hl.2 hmem]

/-- The signals of all instances. The instances with staged values are kept in a list of their
own, so that a commit looks at no others. -/
structure SignalStore where
  states : Array SignalState
  /-- The instances with staged values, in ascending order. -/
  touched : List Nat
  agrees : touched = (List.range states.size).filter fun id =>
    (states[id]?.getD .empty).hasStaged
  deriving Repr

namespace SignalStore

instance : Inhabited SignalStore := ⟨⟨#[], [], rfl⟩⟩

def size (s : SignalStore) : Nat := s.states.size

def get (s : SignalStore) (id : Nat) : SignalState := s.states[id]?.getD .empty

theorem mem_touched {s : SignalStore} {id : Nat} :
    id ∈ s.touched ↔ (s.get id).hasStaged = true := by
  rw [s.agrees, List.mem_filter, List.mem_range, get, and_iff_right_iff_imp]
  intro hstaged
  refine Nat.lt_of_not_le fun hid => ?_
  rw [Array.getElem?_eq_none hid] at hstaged
  cases hstaged

theorem touched_ascending (s : SignalStore) : s.touched.Pairwise (· < ·) := by
  rw [s.agrees]
  exact List.pairwise_lt_range.filter _

theorem agrees_nil {states : Array SignalState}
    (h : ∀ x ∈ states, x.hasStaged = false) :
    [] = (List.range states.size).filter fun id => (states[id]?.getD .empty).hasStaged := by
  symm
  rw [List.filter_eq_nil_iff]
  intro id hid
  have hlt : id < states.size := List.mem_range.mp hid
  simp [hlt, h states[id] (Array.getElem_mem hlt)]

def start (states : Array SignalState) : SignalStore where
  states := states.map SignalState.discard
  touched := []
  agrees := agrees_nil (by simp [SignalState.hasStaged_discard])

/-- Changes the current value of a signal. -/
def set (s : SignalStore) (id key : Nat) (v : Value) : SignalStore where
  states := s.states.modify id fun x => x.set key v
  touched := s.touched
  agrees := by
    rw [s.agrees, Array.size_modify]
    refine List.filter_congr fun i _ => ?_
    rw [Array.getElem?_modify]
    split
    · cases s.states[i]? <;> rfl
    · rfl

def stage (s : SignalStore) (id key : Nat) (v : Value) : SignalStore :=
  if h : id < s.states.size then
    { states := s.states.modify id fun x => x.stage key v
      touched := insertAscending id s.touched
      agrees := by
        rw [s.agrees, insertAscending_filter _ List.pairwise_lt_range (List.mem_range.mpr h),
          Array.size_modify]
        refine List.filter_congr fun i _ => ?_
        rw [Array.getElem?_modify]
        by_cases hi : i = id
        · subst hi
          simp [h, SignalState.hasStaged_stage]
        · simp [hi, Ne.symm hi] }
  else s

/-- Applies a function to the signals of some instances, one after the other. -/
def modifyEach (f : SignalState → SignalState) (ids : List Nat) (states : Array SignalState) :
    Array SignalState :=
  ids.foldl (fun states id => states.modify id f) states

theorem getElem?_modifyEach (f : SignalState → SignalState) {ids : List Nat} (hids : ids.Nodup)
    (states : Array SignalState) (id : Nat) :
    (modifyEach f ids states)[id]? = if id ∈ ids then states[id]?.map f else states[id]? := by
  induction ids generalizing states with
  | nil => rfl
  | cons i ids ih =>
      rw [List.nodup_cons] at hids
      refine (ih hids.2 (states.modify i f)).trans ?_
      rw [Array.getElem?_modify]
      by_cases hi : i = id
      · subst hi
        simp [hids.1]
      · simp [hi, Ne.symm hi]

theorem modifyEach_touched (s : SignalStore) {f : SignalState → SignalState}
    (hf : ∀ x, x.hasStaged = false → f x = x) :
    modifyEach f s.touched s.states = s.states.map f := by
  apply Array.ext_getElem?
  intro id
  rw [getElem?_modifyEach f (s.touched_ascending.imp Nat.ne_of_lt), Array.getElem?_map]
  split
  · rfl
  · rename_i hid
    rw [mem_touched, Bool.not_eq_true, get] at hid
    cases hget : s.states[id]? with
    | none => rfl
    | some x =>
        rw [hget] at hid
        rw [Option.map_some, hf x hid]

def discard (s : SignalStore) : SignalStore where
  states := modifyEach SignalState.discard s.touched s.states
  touched := []
  agrees := agrees_nil (by
    rw [s.modifyEach_touched fun _ => SignalState.discard_of_none]
    simp [SignalState.hasStaged_discard])

/-- Makes all staged values current; gives the changes by instance and signal. -/
def apply (s : SignalStore) : SignalStore × List (Nat × Change) :=
  ({ states := modifyEach (fun x => x.apply.1) s.touched s.states
     touched := []
     agrees := agrees_nil (by
       rw [s.modifyEach_touched fun _ h => by rw [SignalState.apply_of_none h]]
       simp [SignalState.hasStaged_apply]) },
   s.touched.flatMap fun id => (s.get id).apply.2.map fun c => (id, c))

theorem get_map (states : Array SignalState) {f : SignalState → SignalState}
    (hf : f .empty = .empty) (id : Nat) :
    (states.map f)[id]?.getD .empty = f (states[id]?.getD .empty) := by
  rw [Array.getElem?_map]
  cases states[id]? with
  | none => exact hf.symm
  | some x => rfl

theorem get_modify (states : Array SignalState) (f : SignalState → SignalState) (id id' : Nat) :
    (states.modify id f)[id']?.getD .empty =
      if id' = id ∧ id < states.size then f (states[id']?.getD .empty)
      else states[id']?.getD .empty := by
  rw [Array.getElem?_modify]
  by_cases h : id' = id
  · subst h
    by_cases hid : id' < states.size <;> simp [hid]
  · simp [h, Ne.symm h]

theorem get_start (states : Array SignalState) (id : Nat) :
    (start states).get id = (states[id]?.getD .empty).discard := get_map states rfl id

theorem size_start (states : Array SignalState) : (start states).size = states.size :=
  Array.size_map

theorem get_set (s : SignalStore) (id key : Nat) (v : Value) (id' : Nat) :
    (s.set id key v).get id' =
      if id' = id ∧ id < s.size then (s.get id').set key v else s.get id' :=
  get_modify s.states (fun x => x.set key v) id id'

theorem get_stage (s : SignalStore) (id key : Nat) (v : Value) (id' : Nat) :
    (s.stage id key v).get id' =
      if id' = id ∧ id < s.size then (s.get id').stage key v else s.get id' := by
  rw [stage]
  split
  · exact get_modify s.states (fun x => x.stage key v) id id'
  · rename_i hid
    rw [if_neg fun h => hid h.2]

theorem states_discard (s : SignalStore) : s.discard.states = s.states.map SignalState.discard :=
  s.modifyEach_touched fun _ => SignalState.discard_of_none

theorem states_apply (s : SignalStore) : s.apply.1.states = s.states.map fun x => x.apply.1 :=
  s.modifyEach_touched fun _ h => by rw [SignalState.apply_of_none h]

theorem get_discard (s : SignalStore) (id : Nat) : s.discard.get id = (s.get id).discard := by
  rw [get, states_discard, get_map _ rfl, get]

theorem get_apply (s : SignalStore) (id : Nat) : s.apply.1.get id = (s.get id).apply.1 := by
  rw [get, states_apply, get_map _ rfl, get]

theorem size_set (s : SignalStore) (id key : Nat) (v : Value) : (s.set id key v).size = s.size :=
  Array.size_modify

theorem size_stage (s : SignalStore) (id key : Nat) (v : Value) :
    (s.stage id key v).size = s.size := by
  rw [stage]
  split
  · exact Array.size_modify
  · rfl

theorem size_discard (s : SignalStore) : s.discard.size = s.size := by
  rw [size, states_discard, Array.size_map, size]

theorem size_apply (s : SignalStore) : s.apply.1.size = s.size := by
  rw [size, states_apply, Array.size_map, size]

theorem mem_changes_apply {s : SignalStore} {id : Nat} {c : Change} :
    (id, c) ∈ s.apply.2 ↔ id ∈ s.touched ∧ c ∈ (s.get id).apply.2 := by
  simp [apply]

theorem ext_get {s s' : SignalStore} (hsize : s.size = s'.size) (h : ∀ id, s.get id = s'.get id) :
    s = s' := by
  obtain ⟨states, touched, agrees⟩ := s
  obtain ⟨states', touched', agrees'⟩ := s'
  have hstates : states = states' := by
    refine Array.ext hsize fun id hid hid' => ?_
    simpa [get, hid, hid'] using h id
  subst hstates
  simp only [agrees, agrees']

end SignalStore

end Clockwork
