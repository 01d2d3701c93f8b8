import Clockwork.Simulation.State
import Clockwork.Value.Operators

namespace Clockwork

namespace Function

/-- The arguments of a call by parameter: first by position, then by name. -/
def arguments (f : Function) (args : List Value) (keywords : List (String × Value)) :
    Except SimError (List Value) := do
  let count := f.params.length
  if count < args.length then
    throw (.evaluation s!"{f.name}() takes {count} arguments, {args.length} given")
  let slots := args.map some ++ List.replicate (count - args.length) none
  let slots ← keywords.foldlM (fun slots (name, v) =>
    match f.paramIndex? name with
    | some i => .ok (slots.set i (some v))
    | none => .error (.evaluation s!"{f.name}() has no parameter '{name}'")) slots
  (slots.zip f.params).mapM fun (v, p) =>
    match v with
    | some v => .ok v
    | none => .error (.evaluation s!"{f.name}() missing argument '{p.name}'")

end Function

namespace Simulation

def maxRange : Nat := 0x100000

/-- Whether a number lies before the end of a range, in the direction of the step. -/
def Before (stop step i : Int) : Prop := 0 < step ∧ i < stop ∨ step < 0 ∧ stop < i

instance (stop step i : Int) : Decidable (Before stop step i) := by unfold Before; infer_instance

/-- Goes on with a range whose items so far are given, the last one first. It ends with the first
term that is no word or not before `stop`; if that takes more than `room` further items it fails. -/
def rangeFrom (stop step : Int) (room : Nat) (items : List Value) (next : Option Int) :
    Except SimError (List Value) :=
  match next with
  | none => .ok items.reverse
  | some i =>
    if Before stop step i then
      match room with
      | 0 => .error (.evaluation s!"range() is longer than {maxRange} items")
      | room + 1 => rangeFrom stop step room (.int i :: items) (Word.add? i step)
    else .ok items.reverse

/-- The terms `start`, `start + step`, … before `stop` in the direction of the step. -/
def range (start stop step : Int) : Except SimError (List Value) :=
  if step = 0 then .error (.evaluation "range() step must not be zero")
  else rangeFrom stop step maxRange [] (some start)

def lengthOf (s : Simulation) : Value → Except SimError Nat
  | .tuple items => .ok items.length
  | .str text => .ok text.length
  | .obj (.channel id) => .ok (s.kernel.channel id).items.length
  | v => .error (.evaluation ("len() of " ++ v.typeName))

/-- A place where pauses of a clocked process are not allowed. -/
def misplacedCycles : SimError :=
  .unsupported "cycles() outside the top level of a sync process"

/-- The numbers that a minimum or a maximum is taken of: the items of a tuple that is alone. -/
def extremeItems : List Value → List Value
  | [.tuple items] => items
  | args => args

def builtin (s : Simulation) (b : Builtin) (args : List Value) :
    Simulation × Except SimError Value :=
  match b with
  | .cycles => (s, .error misplacedCycles)
  | .mapAt => (s, .error (.unsupported "at() outside an address-space bind"))
  | .range => (s, do
    match ← args.mapM Value.asInt with
    | [stop] => return .tuple (← range 0 stop 1)
    | [start, stop] => return .tuple (← range start stop 1)
    | [start, stop, step] => return .tuple (← range start stop step)
    | _ => throw (.evaluation "range() takes 1 to 3 arguments"))
  | .len =>
    (s, match args with
      | v :: _ => (s.lengthOf v).map fun n => .int n
      | [] => .error (.evaluation "len() takes one argument"))
  | .print =>
    let text := String.intercalate " " (args.map Value.render)
    (s.note (.info ("[" ++ s.now.render ++ "] " ++ text)), .ok .none)
  | .min | .max => (s, do
    match ← Value.extreme (if b = .min then min else max) (extremeItems args) with
    | some n => return .int n
    | none => throw (.evaluation (b.name ++ "() of nothing")))
  | .abs =>
    (s, match args with
      | v :: _ => v.asInt.map fun n => .int (Word.abs n)
      | [] => .error (.evaluation "abs() takes one argument"))

def argument (args : List Value) (i : Nat) (method : String) : Except SimError Value :=
  match args[i]? with
  | some v => .ok v
  | none => .error (.evaluation s!"{method}() missing argument {i + 1}")

def accessSize (v : Value) : Except SimError Nat := do
  match Bounded.toNat32? (← v.asInt) with
  | some n => return n
  | none => throw (.invalidAccessSize Bounded.max32)

def setBanks (s : Simulation) (b : Banks) : Simulation :=
  { s with objects := { s.objects with banks := b } }

/-- Takes over storages that were written, or the fault of the write. -/
def withBanks (s : Simulation) (r : Except SimError Banks) : Simulation × Option SimError :=
  match r with
  | .ok b => (s.setBanks b, none)
  | .error e => (s, some e)

def readMemory (s : Simulation) (id : Nat) (index : Int) : Except SimError Int :=
  s.objects.banks.readMemory id index

def writeMemory (s : Simulation) (id : Nat) (index value : Int) : Simulation × Option SimError :=
  s.withBanks (s.objects.banks.writeMemory id index value)

def readRegister (s : Simulation) (id offset : Nat) : Except SimError Int :=
  s.objects.banks.readRegister id offset

def writeRegister (s : Simulation) (id offset : Nat) (value : Int) :
    Simulation × Option SimError :=
  s.withBanks (s.objects.banks.writeRegister id offset value)

def readSpace (s : Simulation) (id addr size : Nat) : Except SimError Nat :=
  (s.objects.space id).read s.objects.banks addr size

def writeSpace (s : Simulation) (id addr value size : Nat) : Simulation × Option SimError :=
  let (banks, e) := (s.objects.space id).write s.objects.banks addr value size
  (s.setBanks banks, e)

def setKernel (s : Simulation) (k : Kernel Empty EventHook Task) : Simulation :=
  { s with kernel := k }

def tryGet (s : Simulation) (channel : Nat) : Simulation × Option Value :=
  let (k, v) := s.kernel.tryGet channel
  (s.setKernel k, v)

def tryPut (s : Simulation) (channel : Nat) (v : Value) : Simulation × Bool :=
  let (k, put) := s.kernel.tryPut channel v
  (s.setKernel k, put)

def tryAcquire (s : Simulation) (lock : Nat) : Simulation × Bool :=
  let (k, taken) := s.kernel.tryAcquire lock
  (s.setKernel k, taken)

def release (s : Simulation) (lock : Nat) : Simulation × Option SimError :=
  match s.kernel.release lock with
  | .ok k => (s.setKernel k, none)
  | .error e => (s, some e)

inductive MethodResult where
  | done (s : Simulation) (r : Except SimError Value)
  | waits (w : Wait)
  | sets (event : Nat)
  deriving Inhabited

namespace MethodResult

def pure (s : Simulation) (r : Except SimError Value) : MethodResult := done s r

def fail (s : Simulation) (e : SimError) : MethodResult := done s (.error e)

def effect (r : Simulation × Option SimError) : MethodResult :=
  match r with
  | (s, none) => done s (.ok .none)
  | (s, some e) => done s (.error e)

def truth (r : Simulation × Bool) : MethodResult := done r.1 (.ok (.bool r.2))

def item (r : Simulation × Option Value) : MethodResult := done r.1 (.ok (r.2.getD .none))

def withArgs {α : Type} (s : Simulation) (args : Except SimError α) (f : α → MethodResult) :
    MethodResult :=
  match args with
  | .ok a => f a
  | .error e => fail s e

end MethodResult

open MethodResult

def noMethod (s : Simulation) (target : Handle) (name : String) : MethodResult :=
  .fail s (.unknownMethod target.kind name)

def channelMethod (s : Simulation) (target : Handle) (id : Nat) (name : String)
    (args : List Value) : MethodResult :=
  let c := s.kernel.channel id
  match name with
  | "get" => .waits (.get id none)
  | "put" => withArgs s (argument args 0 name) fun v => .waits (.put id v none)
  | "try_get" => item (s.tryGet id)
  | "try_put" => withArgs s (argument args 0 name) fun v => truth (s.tryPut id v)
  | "can_get" => truth (s, c.hasItem)
  | "can_put" => truth (s, c.hasRoom)
  | "len" => .done s (.ok (.int c.items.length))
  | _ => s.noMethod target name

def memoryMethod (s : Simulation) (id : Nat) (name : String) (args : List Value) :
    MethodResult :=
  match name with
  | "read" => .done s do return .int (← s.readMemory id (← (← argument args 0 name).asInt))
  | "write" =>
    withArgs s (do return (← (← argument args 0 name).asInt, ← (← argument args 1 name).asInt))
      fun (index, value) => effect (s.writeMemory id index value)
  | "size" => .done s (.ok (.int (s.objects.banks.memory id).size))
  | _ => s.noMethod (.memory id) name

def regFileMethod (s : Simulation) (id : Nat) (name : String) (args : List Value) :
    MethodResult :=
  match name with
  | "read" => .done s do return .int (← s.readRegister id (← (← argument args 0 name).asNat64))
  | "write" =>
    withArgs s (do return (← (← argument args 0 name).asNat64, ← (← argument args 1 name).asInt))
      fun (offset, value) => effect (s.writeRegister id offset value)
  | _ => s.noMethod (.regFile id) name

/-- A value of which an address space takes the 64 low bits. -/
def low64Argument (args : List Value) (i : Nat) (method : String) : Except SimError Nat := do
  return AddressSpace.low64 (← (← argument args i method).asInt)

def spaceMethod (s : Simulation) (id : Nat) (name : String) (args : List Value) : MethodResult :=
  match name with
  | "read" => .done s do
    let addr ← (← argument args 0 name).asNat64
    let size ← accessSize (← argument args 1 name)
    return .int (← s.readSpace id addr size)
  | "write" =>
    let read : Except SimError (Nat × Nat × Nat) := do
      let addr ← (← argument args 0 name).asNat64
      let value ← low64Argument args 1 name
      return (addr, value, ← accessSize (← argument args 2 name))
    withArgs s read fun (addr, value, size) => effect (s.writeSpace id addr value size)
  | _ => s.noMethod (.addressSpace id) name

/-- The number of bytes that a method of a view reads or writes, if its name says so. -/
def fixedSize? (verb name : String) : Option Nat :=
  [1, 2, 4, 8].find? fun size => decide (name = verb ++ toString (8 * size))

def viewMethod (s : Simulation) (id base : Nat) (name : String) (args : List Value) :
    MethodResult :=
  withArgs s (do (← argument args 0 name).asNat64) fun offset =>
    let addr := Bounded.wrapAdd64 base offset
    match name, fixedSize? "read" name, fixedSize? "write" name with
    | "read", _, _ => .done s do
      return .int (← s.readSpace id addr (← accessSize (← argument args 1 name)))
    | "write", _, _ =>
      let read : Except SimError (Nat × Nat) := do
        let size ← accessSize (← argument args 2 name)
        return (← low64Argument args 1 name, size)
      withArgs s read fun (value, size) => effect (s.writeSpace id addr value size)
    | "offset", _, _ => .done s (.ok (.obj (.addrHandle id addr)))
    | _, some size, _ => .done s do return .int (← s.readSpace id addr size)
    | _, _, some size =>
      withArgs s (low64Argument args 1 name) fun value => effect (s.writeSpace id addr value size)
    | _, _, _ => s.noMethod (.addrHandle id base) name

def method (s : Simulation) (target : Handle) (name : String) (args : List Value) :
    MethodResult :=
  match target with
  | .component _ =>
    match name with
    | "wait" =>
      withArgs s (match args with
        | v :: _ => v.asNat64
        | [] => .ok 0) fun ns => .waits (.sleep (Bounded.mul64 ns TimeUnit.ns.femtoseconds) none)
    | "time" => .done s (.ok (.int s.now.toNs))
    | _ => s.noMethod target name
  | .channel id => s.channelMethod target id name args
  | .getEnd id =>
    if name ∈ ["get", "try_get", "can_get"] then s.channelMethod target id name args
    else s.noMethod target name
  | .putEnd id =>
    if name ∈ ["put", "try_put", "can_put"] then s.channelMethod target id name args
    else s.noMethod target name
  | .lock id =>
    match name with
    | "acquire" => .waits (.acquire id none)
    | "release" => effect (s.release id)
    | "try_acquire" => truth (s.tryAcquire id)
    | "is_locked" => truth (s, (s.kernel.lock id).locked)
    | _ => s.noMethod target name
  | .event id =>
    match name with
    | "set" => .sets id
    | "clear" => .done (s.setKernel (s.kernel.clearFlag id)) (.ok .none)
    | "is_set" => truth (s, (s.kernel.event id).flag)
    | "wait" => .waits (.event id none none)
    | _ => s.noMethod target name
  | .memory id => s.memoryMethod id name args
  | .regFile id => s.regFileMethod id name args
  | .addressSpace id => s.spaceMethod id name args
  | .addrHandle id base => s.viewMethod id base name args
  | .method _ _ | .bound _ _ | .builtin _ | .interface _ => s.noMethod target name

def member (s : Simulation) (v : Value) (name : String) : Except SimError Value :=
  match v with
  | .obj (.component id) =>
    let i := s.tree.inst id
    match i.fieldIndex? name with
    | some index => s.readField ⟨id, index⟩
    | none =>
      if i.functions.contains name then .ok (.obj (.method id name))
      else if name = "wait" ∨ name = "time" then .ok (.obj (.bound (.component id) name))
      else .error (.unknownField i.path name)
  | .obj (.interface id) =>
    match (s.objects.interface id).get? name with
    | some v => .ok v
    | none => .error (.unknownMethod "interface" name)
  | .obj h => .ok (.obj (.bound h name))
  | v => .error (.evaluation (v.typeName ++ s!" has no attribute '{name}'"))

/-- The item of a value at an index: an item of a tuple, a bit of a number, a character of a text,
an element of a memory or a register. -/
def subscript (s : Simulation) (container index : Value) : Except SimError Value :=
  match container with
  | .tuple items => do Value.item items (← index.asInt)
  | .int n => do return .int (Word.bit n (← index.asNat64))
  | .str text => do Value.item (Value.ofChars text) (← index.asInt)
  | .obj (.memory id) => do return .int (← s.readMemory id (← index.asInt))
  | .obj (.regFile id) => do return .int (← s.readRegister id (← index.asNat64))
  | v => .error (.evaluation (v.typeName ++ " is not subscriptable"))

end Simulation

end Clockwork
