import Clockwork.Value.Basic

namespace Clockwork.Value

/-- The quotient rounded towards minus infinity. -/
def floorDiv (a b : Int) : Except SimError Int :=
  if b = 0 then .error .divisionByZero else .ok (Word.floorDiv a b)

def floorMod (a b : Int) : Except SimError Int :=
  if b = 0 then .error .divisionByZero else .ok (Word.floorMod a b)

def places (n : Int) : Except SimError Nat :=
  if n < 0 then .error (.evaluation s!"negative shift count {n}") else .ok n.toNat

/-- A power with an exponent of at most 32 bits. -/
def pow (a b : Value) : Except SimError Value := do
  let base ← a.asInt
  let exponent ← b.asInt
  if exponent < 0 then throw (.evaluation s!"negative exponent {exponent}")
  match Bounded.toNat32? exponent with
  | some n => return .int (Word.power base n)
  | Option.none => throw (.evaluation "exponent too large")

def orderInt (a b : Int) : Ordering := if a < b then .lt else if a = b then .eq else .gt

def orderText (a b : String) : Ordering := if a < b then .lt else if a = b then .eq else .gt

mutual

/-- The order of two values. Texts and tuples compare only with their like. -/
def order : Value → Value → Except SimError Ordering
  | str a, str b => .ok (orderText a b)
  | tuple a, tuple b => orderAll a b
  | a, b => do return orderInt (← a.asInt) (← b.asInt)

/-- The order of two lists: that of the first items that differ, else that of the lengths. -/
def orderAll : List Value → List Value → Except SimError Ordering
  | [], [] => .ok .eq
  | [], _ :: _ => .ok .lt
  | _ :: _, [] => .ok .gt
  | a :: as, b :: bs =>
    match order a b with
    | .ok .eq => orderAll as bs
    | r => r

end

def isPart (part : List Char) : List Char → Bool
  | [] => part.isEmpty
  | c :: rest => part.isPrefixOf (c :: rest) || isPart part rest

/-- Whether a value is an item of a tuple or a part of a text. -/
def includes (container item : Value) : Except SimError Bool :=
  match container, item with
  | tuple items, _ => .ok (items.any fun v => v.same item)
  | str s, str part => .ok (isPart part.toList s.toList)
  | v, _ => .error (.evaluation ("'in' needs a tuple or string, found " ++ v.typeName))

def arithmetic (op : BinOp) (a b : Int) : Except SimError Int :=
  match op with
  | .add => .ok (Word.add a b)
  | .sub => .ok (Word.sub a b)
  | .mul => .ok (Word.mul a b)
  | .div => floorDiv a b
  | .mod => floorMod a b
  | .bitAnd => .ok (Word.and a b)
  | .bitOr => .ok (Word.or a b)
  | .bitXor => .ok (Word.xor a b)
  | .shiftLeft => return Word.shiftLeft a (← places b)
  | .shiftRight => return Word.shiftRight a (← places b)
  | .eq | .ne | .lt | .le | .gt | .ge | .and | .or =>
    .error (.evaluation (op.label ++ " is not arithmetic"))

def binary (op : BinOp) (a b : Value) : Except SimError Value :=
  match op with
  | .eq => .ok (bool (same a b))
  | .ne => .ok (bool (!same a b))
  | .lt => return bool ((← order a b).isLT)
  | .le => return bool ((← order a b).isLE)
  | .gt => return bool ((← order a b).isGT)
  | .ge => return bool ((← order a b).isGE)
  | .and => .ok (bool (a.truthy && b.truthy))
  | .or => .ok (bool (a.truthy || b.truthy))
  | op =>
    match op, a, b with
    | .add, str s, str t => .ok (str (s ++ t))
    | .add, tuple s, tuple t => .ok (tuple (s ++ t))
    | op, a, b => do return int (← arithmetic op (← a.asInt) (← b.asInt))

def unary (op : UnaryOp) (v : Value) : Except SimError Value :=
  match op with
  | .not => .ok (bool (!v.truthy))
  | .invert => return int (Word.complement (← v.asInt))
  | .plus => return int (← v.asInt)
  | .minus => return int (Word.neg (← v.asInt))

def compare (op : CmpOp) (a b : Value) : Except SimError Bool :=
  match op with
  | .eq | .is => .ok (same a b)
  | .ne | .isNot => .ok (!same a b)
  | .lt => return (← order a b).isLT
  | .le => return (← order a b).isLE
  | .gt => return (← order a b).isGT
  | .ge => return (← order a b).isGE
  | .member => includes b a
  | .notMember => return !(← includes b a)

def update (op : AugOp) (a b : Value) : Except SimError Value :=
  match op.binary? with
  | some op => binary op a b
  | Option.none => pow a b

def decides (op : BoolOp) (v : Value) : Bool :=
  match op with
  | .and => !v.truthy
  | .or => v.truthy

def neutral (op : BoolOp) : Value := bool (op == .and)

/-- A position among `length` items; a negative one counts from the end. -/
def position (length : Nat) (i : Int) : Except SimError Nat :=
  let k := if i < 0 then i + length else i
  if 0 ≤ k ∧ k < length then .ok k.toNat else .error (.indexOutOfBounds i length)

def item (items : List Value) (i : Int) : Except SimError Value :=
  match position items.length i with
  | .ok k => .ok (items[k]?.getD none)
  | .error e => .error e

/-- The number that is left when two numbers at a time are reduced to one of them. -/
def extreme (pick : Int → Int → Int) (items : List Value) : Except SimError (Option Int) :=
  items.foldlM (fun best v => do
    let n ← v.asInt
    return some (match best with
      | some b => pick b n
      | Option.none => n)) Option.none

end Clockwork.Value
