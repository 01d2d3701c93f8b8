import Mathlib.Data.List.Basic
import Clockwork.Design.Interchange.Shape
import Clockwork.Proofs.Json.RoundTrip

namespace Clockwork

namespace Json

@[simp] theorem integral_null : Json.null.Integral := .null

@[simp] theorem integral_bool (b : Bool) : (Json.bool b).Integral := .bool b

@[simp] theorem integral_text (s : String) : (Json.text s).Integral := .text s

@[simp] theorem integral_ofInt (n : Int) : (Json.ofInt n).Integral := .number rfl

@[simp] theorem integral_ofNat (n : Nat) : (Json.ofNat n).Integral := .number rfl

theorem integral_array {items : List Json} :
    (Json.array items).Integral ↔ ∀ j ∈ items, j.Integral :=
  ⟨fun | .array h => h, .array⟩

@[simp] theorem integral_object {members : List (String × Json)} :
    (Json.object members).Integral ↔ ∀ m ∈ members, m.2.Integral :=
  ⟨fun | .object h => h, .object⟩

end Json

namespace Interchange

@[simp] theorem integral_tagged {tag : String} {payload : Json} :
    (tagged tag payload).Integral ↔ payload.Integral := by
  simp [tagged]

theorem depth_tagged (tag : String) (payload : Json) :
    (tagged tag payload).depth = payload.depth + 1 := by
  simp [tagged, Json.depth, Json.depthMembers]

@[simp] theorem integral_taggedRecord {tag : String} {members : List (String × Json)} :
    (taggedRecord tag members).Integral ↔ ∀ m ∈ members, m.2.Integral := by
  simp [taggedRecord]

theorem depth_taggedRecord (tag : String) (members : List (String × Json)) :
    (taggedRecord tag members).depth = Json.depthMembers members + 2 := by
  rw [taggedRecord, depth_tagged, Json.depth]

theorem text?_text (s : String) : text? (.text s) = some s := rfl

theorem bool?_bool (b : Bool) : bool? (.bool b) = some b := rfl

theorem natural?_ofNat {limit n : Nat} (h : n ≤ limit) : natural? limit (.ofNat n) = some n := by
  simp [natural?, Json.ofNat, Json.ofInt, Numeral.ofInt, h]

theorem word?_ofInt {n : Int} (h : Word.InRange n) : word? (.ofInt n) = some n := by
  have hvalue : (Numeral.ofInt n).toInt? = some n := by
    simp only [Numeral.toInt?, Numeral.ofInt, Bool.not_true, Bool.false_eq_true, ↓reduceIte,
      decide_eq_true_eq]
    split <;> congr 1 <;> omega
  simp [word?, Json.ofInt, hvalue, h]

namespace Tagged

@[simp] theorem of?_tagged (tag : String) (payload : Json) :
    of? (tagged tag payload) = some ⟨tag, some payload⟩ := rfl

@[simp] theorem of?_taggedRecord (tag : String) (members : List (String × Json)) :
    of? (taggedRecord tag members) = some ⟨tag, some (.object members)⟩ := rfl

@[simp] theorem of?_text (s : String) : of? (.text s) = some ⟨s, none⟩ := rfl

@[simp] theorem alone_none {α : Type} (tag : String) (a : α) :
    (⟨tag, none⟩ : Tagged).alone a = some a := rfl

@[simp] theorem one_some {α : Type} (tag : String) (j : Json) (read : Json → Option α) :
    (⟨tag, some j⟩ : Tagged).one read = read j := rfl

@[simp] theorem record_some (tag : String) (j : Json) (names : List String) :
    (⟨tag, some j⟩ : Tagged).record names = Record.of? names j := rfl

end Tagged

namespace Record

variable {α : Type} {positional : Bool} {members : List (String × Json)}

@[simp] theorem of?_object {names : List String} (hnames : members.map Prod.fst = names)
    (hdistinct : names.Nodup) : of? names (.object members) = some ⟨false, members⟩ := by
  have hknown : members.filter (fun m => names.contains m.1) = members := by
    rw [List.filter_eq_self]
    intro m hm
    exact List.contains_iff_mem.mpr (hnames ▸ List.mem_map_of_mem hm)
  rw [of?, hknown, if_pos (hnames ▸ hdistinct)]

@[simp] theorem get_cons_self (name : String) (j : Json) (read : Json → Option α) :
    (⟨positional, (name, j) :: members⟩ : Record).get name read = read j := by
  simp [get, member?]

@[simp] theorem get_cons_ne {m : String × Json} {name : String} (h : m.1 ≠ name)
    (read : Json → Option α) : (⟨positional, m :: members⟩ : Record).get name read =
      (⟨positional, members⟩ : Record).get name read := by
  simp [get, member?, h]

@[simp] theorem getD_cons_self (name : String) (j : Json) (default : α)
    (read : Json → Option α) :
    (⟨positional, (name, j) :: members⟩ : Record).getD name default read = read j := by
  simp [getD, member?]

@[simp] theorem getD_cons_ne {m : String × Json} {name : String} (h : m.1 ≠ name) (default : α)
    (read : Json → Option α) : (⟨positional, m :: members⟩ : Record).getD name default read =
      (⟨positional, members⟩ : Record).getD name default read := by
  simp [getD, member?, h]

@[simp] theorem optional_cons_self (name : String) (j : Json) (read : Json → Option α) :
    (⟨positional, (name, j) :: members⟩ : Record).optional name read = nullable? read j := by
  simp [optional, member?]

@[simp] theorem optional_cons_ne {m : String × Json} {name : String} (h : m.1 ≠ name)
    (read : Json → Option α) : (⟨positional, m :: members⟩ : Record).optional name read =
      (⟨positional, members⟩ : Record).optional name read := by
  simp [optional, member?, h]

end Record

theorem list?_array {α : Type} {read : Json → Option α} {items : List Json} {as : List α}
    (h : items.mapM read = some as) : list? read (.array items) = some as := h

/-- `j` is what `a` is written as, and what `read` gives back. -/
structure Decodes {α : Type} (read : Json → Option α) (j : Json) (a : α) : Prop where
  integral : j.Integral
  eq : read j = some a

/-- `j` is what `a` is written as: `read` gives it back if it may descend as deep. -/
structure Reads {α : Type} (read : Nat → Json → Option α) (j : Json) (a : α) : Prop where
  integral : j.Integral
  eq : ∀ {n : Nat}, j.depth < n → read n j = some a

structure ReadsAll {α : Type} (read : Nat → Json → Option α) (items : List Json) (as : List α) :
    Prop where
  integral : (Json.array items).Integral
  eq : ∀ {n : Nat}, Json.depthItems items < n → items.mapM (read n) = some as

theorem Decodes.nil {α : Type} {read : Json → Option α} :
    Decodes (list? read) (.array []) ([] : List α) :=
  ⟨.array (by simp), rfl⟩

theorem Decodes.cons {α : Type} {read : Json → Option α} {j : Json} {a : α} {items : List Json}
    {as : List α} (h : Decodes read j a) (hs : Decodes (list? read) (.array items) as) :
    Decodes (list? read) (.array (j :: items)) (a :: as) := by
  have hitems : items.mapM read = some as := hs.eq
  refine ⟨?_, list?_array ?_⟩
  · rw [Json.integral_array, List.forall_mem_cons]
    exact ⟨h.integral, Json.integral_array.mp hs.integral⟩
  · rw [List.mapM_cons, h.eq, hitems]
    rfl

theorem Decodes.map {α : Type} {read : Json → Option α} {f : α → Json} {as : List α}
    (h : ∀ a ∈ as, Decodes read (f a) a) : Decodes (list? read) (.array (as.map f)) as := by
  induction as with
  | nil => exact .nil
  | cons a as ih =>
      exact .cons (h a List.mem_cons_self) (ih fun b hb => h b (List.mem_cons_of_mem a hb))

theorem nullable?_of_read {α : Type} {read : Json → Option α} {j : Json} {a : α}
    (hnull : read .null = none) (h : read j = some a) : nullable? read j = some (some a) := by
  cases j with
  | null => rw [hnull] at h; cases h
  | _ => simp [nullable?, h]

theorem Decodes.ofOption {α : Type} {read : Json → Option α} {f : α → Json} {o : Option α}
    (hnull : read .null = none) (h : ∀ a ∈ o, Decodes read (f a) a) :
    Decodes (nullable? read) (Json.ofOption f o) o := by
  cases o with
  | none => exact ⟨.null, rfl⟩
  | some a => exact ⟨(h a rfl).integral, nullable?_of_read hnull (h a rfl).eq⟩

section Reads

variable {α : Type} {read : Nat → Json → Option α}

theorem Reads.intro {j : Json} {a : α} (integral : j.Integral)
    (h : ∀ n, j.depth ≤ n → read (n + 1) j = some a) : Reads read j a := by
  refine ⟨integral, fun {n} hn => ?_⟩
  cases n with
  | zero => exact absurd hn (Nat.not_lt_zero _)
  | succ n => exact h n (Nat.le_of_lt_succ hn)

theorem ReadsAll.nil : ReadsAll read [] ([] : List α) :=
  ⟨.array (by simp), fun _ => rfl⟩

theorem ReadsAll.cons {j : Json} {a : α} {items : List Json} {as : List α} (h : Reads read j a)
    (hs : ReadsAll read items as) : ReadsAll read (j :: items) (a :: as) := by
  refine ⟨?_, fun {n} hn => ?_⟩
  · rw [Json.integral_array, List.forall_mem_cons]
    exact ⟨h.integral, Json.integral_array.mp hs.integral⟩
  · rw [Json.depthItems] at hn
    rw [List.mapM_cons, h.eq (by omega), hs.eq (by omega)]
    rfl

end Reads

end Interchange

end Clockwork
