import Clockwork.Proofs.Elaboration.Changes
import Clockwork.Proofs.Elaboration.Shape
/-!
Paths of instances. Names without dots are read back from a path that is made of them, and the
names below the root lead from field to field down to the instance that has the path, also where a
field is named like the root.
-/

namespace Clockwork

namespace Text

def IsLabel (name : String) : Prop := name ≠ "" ∧ '.' ∉ name.toList

instance (name : String) : Decidable (IsLabel name) :=
  inferInstanceAs (Decidable (_ ∧ _))

theorem splitDots_ne_nil (cs : List Char) : splitDots cs ≠ [] := by
  induction cs using splitDots.induct with
  | case1 => simp [splitDots]
  | case2 rest _ => simp [splitDots]
  | case3 c rest hdot hrest _ => simp [splitDots, hrest]
  | case4 c rest hdot part parts hrest _ => simp [splitDots, hrest]

theorem splitDots_append (a b : List Char) :
    splitDots (a ++ '.' :: b) = splitDots a ++ splitDots b := by
  induction a using splitDots.induct with
  | case1 => rfl
  | case2 rest ih => rw [List.cons_append, splitDots, ih, splitDots, List.cons_append]
  | case3 c rest hdot hrest => exact absurd hrest (splitDots_ne_nil rest)
  | case4 c rest hdot part parts hrest ih =>
      rw [hrest] at ih
      simp [splitDots, hrest, ih]

theorem splitDots_of_not_mem {cs : List Char} (h : '.' ∉ cs) : splitDots cs = [cs] := by
  induction cs with
  | nil => rfl
  | cons c rest ih =>
      obtain ⟨hc, hrest⟩ := not_or.mp (mt List.mem_cons.mpr h)
      simp [splitDots, Ne.symm hc, ih hrest]

theorem intercalate_splitDots (cs : List Char) : List.intercalate ['.'] (splitDots cs) = cs := by
  induction cs using splitDots.induct with
  | case1 => rfl
  | case2 rest ih =>
      obtain ⟨part, parts, hrest⟩ := List.exists_cons_of_ne_nil (splitDots_ne_nil rest)
      rw [hrest] at ih
      rw [splitDots, hrest, List.intercalate_cons_cons, ih]
      rfl
  | case3 c rest hdot hrest => exact absurd hrest (splitDots_ne_nil rest)
  | case4 c rest hdot part parts hrest ih =>
      rw [hrest] at ih
      simp only [splitDots, hrest]
      cases parts with
      | nil => simpa using ih
      | cons next parts =>
          rw [List.intercalate_cons_cons] at ih ⊢
          rw [← ih]
          rfl

theorem segments_append (a b : String) : segments (a ++ "." ++ b) = segments a ++ segments b := by
  have hchars : (a ++ "." ++ b).toList = a.toList ++ '.' :: b.toList := by simp
  rw [segments, hchars, splitDots_append, List.filter_append, List.map_append, segments, segments]

theorem segments_label {name : String} (h : IsLabel name) : segments name = [name] := by
  have hne : name.toList ≠ [] := fun hnil => h.1 (String.toList_eq_nil_iff.mp hnil)
  rw [segments, splitDots_of_not_mem h.2]
  simp [hne]

theorem splitLast_append (front : String) {name : String} (h : '.' ∉ name.toList) :
    splitLast (front ++ "." ++ name) = (front, name) := by
  have hchars : (front ++ "." ++ name).toList = front.toList ++ '.' :: name.toList := by simp
  simp [splitLast, hchars, splitDots_append, splitDots_of_not_mem h, intercalate_splitDots]

theorem after?_append (start rest : List Char) : after? start (start ++ rest) = some rest := by
  induction start with
  | nil => rfl
  | cons c start ih => rw [List.cons_append, after?, if_pos rfl, ih]

def extend (path : String) (names : List String) : String :=
  names.foldl (fun path name => path ++ "." ++ name) path

theorem extend_append (path : String) (names more : List String) :
    extend path (names ++ more) = extend (extend path names) more := List.foldl_append

theorem extend_prefixed (path name : String) (names : List String) :
    extend (path ++ "." ++ name) names = path ++ "." ++ extend name names := by
  induction names using List.reverseRecOn with
  | nil => rfl
  | append_singleton names next ih =>
      rw [extend_append, ih, extend_append]
      simp [extend, String.append_assoc]

theorem segments_extend (path : String) {names : List String} (h : ∀ name ∈ names, IsLabel name) :
    segments (extend path names) = segments path ++ names := by
  induction names generalizing path with
  | nil => exact (List.append_nil _).symm
  | cons name names ih =>
      obtain ⟨hname, hnames⟩ := List.forall_mem_cons.mp h
      change segments (extend (path ++ "." ++ name) names) = _
      rw [ih _ hnames, segments_append, segments_label hname, List.append_assoc,
        List.singleton_append]

end Text

open Text

namespace Tree

variable {t : Tree} {f : FieldRef} {name path : String} {id i c : Nat}

/-- What is below the root is read without the name of the root, whatever follows it. -/
theorem segments_relative (path : String) {names : List String} (h : ∀ name ∈ names, IsLabel name) :
    Text.segments (relative path (extend path names)) = names := by
  cases names with
  | nil =>
      change Text.segments (relative path path) = []
      rw [relative, if_pos rfl]
      rfl
  | cons name names =>
      obtain ⟨hname, hnames⟩ := List.forall_mem_cons.mp h
      have hpath : extend path (name :: names) = path ++ "." ++ extend name names :=
        extend_prefixed path name names
      have hchars : (path ++ "." ++ extend name names).toList =
          path.toList ++ ['.'] ++ (extend name names).toList := by simp
      have hne : path ++ "." ++ extend name names ≠ path := by
        intro heq
        have hlength := congrArg (fun s => s.toList.length) heq
        simp at hlength
      rw [hpath, relative, if_neg hne, hchars, after?_append]
      simp only [String.ofList_toList]
      rw [segments_extend name hnames, segments_label hname, List.singleton_append]

/-- The names of all fields can be parts of a path. -/
def Labelled (t : Tree) : Prop := ∀ i ∈ t.instances, ∀ s ∈ i.fields, IsLabel s.name

instance (t : Tree) : Decidable t.Labelled :=
  inferInstanceAs (Decidable (∀ i ∈ t.instances, ∀ s ∈ i.fields, IsLabel s.name))

theorem Labelled.isLabel (ht : t.Labelled) (h : t.name? f = some name) : IsLabel name := by
  obtain ⟨s, hs, rfl⟩ := Option.map_eq_some_iff.mp h
  rw [inst] at hs
  cases hi : t.instances[f.owner]? with
  | none =>
      rw [hi] at hs
      cases hs
  | some i =>
      rw [hi] at hs
      exact ht i (Array.mem_of_getElem? hi) s (Array.mem_of_getElem? hs)

theorem Distinct.fieldIndex? (ht : t.Distinct) (h : t.name? ⟨id, i⟩ = some name) :
    (t.inst id).fieldIndex? name = some i := by
  obtain ⟨s, hs, rfl⟩ := Option.map_eq_some_iff.mp h
  obtain ⟨hi, hget⟩ := Array.getElem?_eq_some_iff.mp hs
  rw [Instance.fieldIndex?, Array.findIdx?_eq_some_iff_getElem]
  refine ⟨hi, by simp [hget], fun j hj hsame => ?_⟩
  have hj' : t.name? ⟨id, j⟩ = some s.name := by
    rw [name?, Array.getElem?_eq_getElem (Nat.lt_trans hj hi), Option.map_some,
      of_decide_eq_true hsame]
  exact absurd (ht id j i _ hj' h) (Nat.ne_of_lt hj)

theorem descend_append (t : Tree) (id : Nat) (names more : List String) :
    t.descend id (names ++ more) = (t.descend id names).bind fun c => t.descend c more := by
  induction names generalizing id with
  | nil => rfl
  | cons name names ih =>
      simp only [List.cons_append, descend]
      split
      · rfl
      · split
        · exact ih _
        · rfl

theorem Distinct.descend (ht : t.Distinct) (hname : t.name? f = some name)
    (hchild : t.child? f = some c) : t.descend f.owner [name] = some c := by
  have hstorage := child?_eq_some.mp hchild
  rw [storage?] at hstorage
  simp only [Tree.descend, ht.fieldIndex? hname, hstorage]

def Held (t : Tree) : Prop := ∀ id < t.size, id ≠ root → ∃ f, t.Holds f id

theorem exists_names (ht : t.Distinct) (hheld : t.Held) (hnames : t.Labelled) (hid : id < t.size) :
    ∃ names, (∀ name ∈ names, IsLabel name) ∧ t.descend root names = some id ∧
      (t.inst id).path = extend (t.inst root).path names := by
  induction id using Nat.strongRecOn with
  | ind id ih =>
      by_cases hroot : id = root
      · subst hroot
        exact ⟨[], by simp, rfl, rfl⟩
      · -- The way to the owner of the field goes on by the field.
        obtain ⟨f, hf⟩ := hheld id hid hroot
        obtain ⟨names, hlabels, hdown, hpath⟩ := ih f.owner hf.before (Nat.lt_trans hf.before hid)
        obtain ⟨name, hname, hpath'⟩ := hf.path
        refine ⟨names ++ [name], ?_, ?_, ?_⟩
        · rw [List.forall_mem_append]
          exact ⟨hlabels, List.forall_mem_singleton.mpr (hnames.isLabel hname)⟩
        · rw [descend_append, hdown, Option.bind_some, ht.descend hname hf.child]
        · rw [hpath', hpath, extend_append]
          rfl

theorem find?_path (ht : t.Distinct) (hheld : t.Held) (hnames : t.Labelled) (hid : id < t.size) :
    t.find? (t.inst id).path = some id := by
  obtain ⟨names, hlabels, hdown, hpath⟩ := exists_names ht hheld hnames hid
  have hsome : t.instances.isEmpty = false := by
    rw [Array.isEmpty_eq_false_iff, ← Array.size_pos_iff]
    exact Nat.lt_of_le_of_lt (Nat.zero_le _) hid
  rw [find?, hsome, hpath, segments_relative _ hlabels]
  exact hdown

theorem resolveField_path (ht : t.Distinct) (hnames : t.Labelled) (hid : t.find? path = some id)
    (h : t.name? ⟨id, i⟩ = some name) : t.resolveField (path ++ "." ++ name) = .ok ⟨id, i⟩ := by
  rw [resolveField, splitLast_append path (hnames.isLabel h).2]
  simp only [hid, ht.fieldIndex? h]

end Tree

open Elaboration

section

variable {types : TypeTable} {objects : Objects} {top : String} {values : Table String Value}
  {settings : ElabSettings} {r : Elaborated} {log : List LogRecord}

theorem elaborate_held (h : elaborate types objects top values settings = (.ok r, log)) :
    r.tree.Held := by
  obtain ⟨e, id, hbuilt, htree, -⟩ := elaborate_eq_ok h
  have hplants := instantiate_plants values (settings.maxDepth + 1) []
    { ofTypes types with objects := objects } (.ref top) top none [] fun f c hc => by cases hc
  rw [hbuilt, Ends, ← htree] at hplants
  obtain ⟨rfl, -, -, -, hbranch, -, -⟩ := hplants
  intro id hid hne
  obtain ⟨f, hf, -⟩ := hbranch.held id (Nat.pos_of_ne_zero hne) hid
  exact ⟨f, hf⟩

/-- In an elaborated design whose names can be parts of paths, the path of an instance leads to the
instance, and with the name of a field behind it to that field. -/
theorem paths_lead_back (h : elaborate types objects top values settings = (.ok r, log))
    (hnames : r.tree.Labelled) :
    ∀ id < r.tree.size, r.tree.find? (r.tree.inst id).path = some id ∧
      ∀ i name, r.tree.name? ⟨id, i⟩ = some name →
        r.tree.resolveField ((r.tree.inst id).path ++ "." ++ name) = .ok ⟨id, i⟩ := by
  have hdistinct : r.tree.Distinct := (elaborate_grows h).distinct Tree.distinct_empty
  intro id hid
  have hfind := Tree.find?_path hdistinct (elaborate_held h) hnames hid
  exact ⟨hfind, fun i name hname => Tree.resolveField_path hdistinct hnames hfind hname⟩

end

def echoDesign : TypeTable :=
  ⟨[⟨"Leaf", .component { Component.ofName "Leaf" with
      body := { Body.ofName "Leaf" with fields := [.ofType "x" (.int 8 false)] } }⟩,
    ⟨"Mid", .component { Component.ofName "Mid" with
      body := { Body.ofName "Mid" with
        fields := [.ofType "x" (.int 8 false), .ofType "Top" (.ref "Leaf")] } }⟩,
    ⟨"Top", .component { Component.ofName "Top" with
      body := { Body.ofName "Top" with fields := [.ofType "Top" (.ref "Mid")] } }⟩], by decide⟩

theorem echoDesign_elaboration : ∃ r log,
    elaborate echoDesign .empty "Top" .empty .standard = (.ok r, log) ∧ r.tree.Labelled ∧
      2 < r.tree.size ∧ (r.tree.inst 1).path = "Top.Top" ∧ (r.tree.inst 2).path = "Top.Top.Top" ∧
      r.tree.name? ⟨2, 0⟩ = some "x" := by
  have hchecked : ((elaborate echoDesign .empty "Top" .empty .standard).1.toOption.map fun r =>
      decide (r.tree.Labelled ∧ 2 < r.tree.size ∧ (r.tree.inst 1).path = "Top.Top" ∧
        (r.tree.inst 2).path = "Top.Top.Top" ∧ r.tree.name? ⟨2, 0⟩ = some "x")) = some true := by
    decide +kernel
  cases hr : elaborate echoDesign .empty "Top" .empty .standard with
  | mk r log =>
      rw [hr] at hchecked
      cases r with
      | error errors => cases hchecked
      | ok r => exact ⟨r, log, rfl, of_decide_eq_true (Option.some.inj hchecked)⟩

theorem paths_lead_back_in_echo : ∃ r log,
    elaborate echoDesign .empty "Top" .empty .standard = (.ok r, log) ∧
      r.tree.find? "Top.Top" = some 1 ∧ r.tree.find? "Top.Top.Top" = some 2 ∧
      r.tree.resolveField "Top.Top.Top.x" = .ok ⟨2, 0⟩ := by
  obtain ⟨r, log, hr, hnames, hsize, hone, htwo, hx⟩ := echoDesign_elaboration
  have hpaths := paths_lead_back hr hnames
  obtain ⟨hfind₁, -⟩ := hpaths 1 (by omega)
  obtain ⟨hfind₂, hfields⟩ := hpaths 2 hsize
  rw [hone] at hfind₁
  rw [htwo] at hfind₂ hfields
  exact ⟨r, log, hr, hfind₁, hfind₂, hfields 0 "x" hx⟩

end Clockwork
