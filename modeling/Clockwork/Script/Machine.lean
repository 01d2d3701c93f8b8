import Clockwork.Concurrency.Dispatch
import Clockwork.Concurrency.Kernel
import Clockwork.Script.Instruction

namespace Clockwork.Script

/-- A body under the label of its notes. -/
structure Labelled where
  label : String
  body : List Instr
  deriving Inhabited

inductive Frame where
  | program (label : String) (rest : List Instr)
  | callback (label : String) (rest : List Instr)
  | awaiting (label : String) (name : String)
  | locking (label : String) (lock : Nat) (program : List Instr)
  | holding (label : String) (lock : Nat)
  | setting (label : String)
  | times (label : String) (count : Nat) (program : List Instr)
  | forever (label : String) (program : List Instr)
  deriving Inhabited

/-- A task that does not run now. -/
structure Task where
  wait : Option Wait
  stack : List Frame
  deriving Inhabited

/-- A wait, or what it gave, that is kept under a name outside all tasks. -/
inductive Kept where
  | wait (w : Wait) (guard : Option Nat)
  | guard (lock : Nat)
  deriving Inhabited

structure World where
  kernel : Kernel Labelled Labelled Task
  /-- The scheduler's numbers of the tasks that scripts spawned. -/
  spawned : Array Nat
  notes : List Note
  kept : Table String Kept
  deriving Inhabited

namespace World

def note (w : World) (label name : String) (outcome : Outcome) : World :=
  { w with notes := w.notes ++ [⟨label, name, outcome, w.kernel.scheduler.now⟩] }

def abandonWait (w : World) (wait : Wait) : World :=
  { w with kernel := w.kernel.abandon wait }

def unlock (w : World) (lock : Nat) : World :=
  match w.kernel.release lock with
  | .ok k => { w with kernel := k }
  | .error _ => w

/-- Gives up what a stack holds, from the top. -/
def unwind (w : World) (stack : List Frame) : World :=
  stack.foldl (fun w f =>
    match f with
    | .holding _ lock => w.unlock lock
    | _ => w) w

/-- Gives up the wait of a task, then all that it holds. -/
def abandon (task : Task) (w : World) : World :=
  let w := match task.wait with
    | some wait => w.abandonWait wait
    | none => w
  w.unwind task.stack

def updateScheduler (f : Scheduler Labelled Task → Scheduler Labelled Task) (w : World) :
    World :=
  { w with kernel := { w.kernel with scheduler := f w.kernel.scheduler } }

def start (w : World) (stack : List Frame) : World × Nat :=
  let (s, id) := w.kernel.scheduler.spawn ⟨none, stack⟩
  (w.updateScheduler fun _ => s, id)

def gotten : Option Value → Outcome
  | some v => .item v
  | none => .noItem

/-- Carries out an instruction that does not wait, for a label. Also gives the callback that has
to run before the instruction is over. An instruction that waits does nothing here. -/
def instant (w : World) (label : String) (i : Instr) :
    Except SimError (World × Outcome × Option Labelled) :=
  let k := w.kernel
  match i with
  | .log x => .ok (w, .echo x, none)
  | .fail text => .error (.evaluation text)
  | .tryPut ch v =>
    let (k, put) := k.tryPut ch v
    .ok ({ w with kernel := k }, if put then .truth true else .item v, none)
  | .tryGet ch =>
    let (k, v) := k.tryGet ch
    .ok ({ w with kernel := k }, gotten v, none)
  | .inspect ch =>
    let c := k.channel ch
    .ok (w, .channel c.hasItem c.hasRoom c.items.length c.items.isEmpty c.capacity, none)
  | .ends ch v =>
    let c := k.channel ch
    let (k, put) := k.tryPut ch v
    let (k, got) := k.tryGet ch
    .ok ({ w with kernel := k }, .ends c.hasItem c.hasRoom true put got, none)
  | .tryAcquire l =>
    let (k, taken) := k.tryAcquire l
    .ok ({ w with kernel := k }, .truth taken, none)
  | .isLocked l => .ok (w, .truth (k.lock l).locked, none)
  | .release l =>
    match k.release l with
    | .ok k => .ok ({ w with kernel := k }, .nothing, none)
    | .error e => .error e
  | .set e =>
    let (k, callback) := k.setFlag e
    let w := { w with kernel := k }
    match callback with
    | none => .ok (w, .nothing, none)
    | some (.immediate b) => .ok (w, .nothing, some b)
    | some (.task b) => .ok ((w.start [.program b.label b.body]).1, .nothing, none)
  | .clear e => .ok ({ w with kernel := k.clearFlag e }, .nothing, none)
  | .isSet e => .ok (w, .truth (k.event e).flag, none)
  | .stop => .ok (w.updateScheduler Scheduler.stop, .nothing, none)
  | .spawn program =>
    let number := w.spawned.size
    let (w, id) := w.start [.program s!"t{number}" program]
    .ok ({ w with spawned := w.spawned.push id }, .task number, none)
  | .cancel n =>
    match w.spawned[n]? with
    | none => .ok (w, .nothing, none)
    | some id =>
      let (s, task) := k.scheduler.cancel id
      let w := w.updateScheduler fun _ => s
      .ok (task.elim w (abandon · w), .nothing, none)
  | .isDone n =>
    let live := (w.spawned[n]?.map k.scheduler.isLive).getD false
    .ok (w, .truth (!live), none)
  | .after delay body =>
    .ok (w.updateScheduler fun s => s.after delay ⟨label ++ ".after", body⟩, .nothing, none)
  | .bindCallback e immediate body =>
    let b : Labelled := ⟨s!"e{e}", body⟩
    match (k.event e).bindCallback (if immediate then .immediate b else .task b) with
    | .ok ev => .ok ({ w with kernel := k.setEvent e ev }, .nothing, none)
    | .error err => .error err
  | _ => .ok (w, .nothing, none)

end World

def Instr.wait? : Instr → Option Wait
  | wait delay => some (.sleep delay none)
  | waitDelta => some (.sleep 0 none)
  | put ch v => some (.put ch v none)
  | putEnd ch v => some (.put ch v none)
  | get ch => some (.get ch none)
  | getEnd ch => some (.get ch none)
  | acquire l => some (.acquire l none)
  | waitFor e => some (.event e none none)
  | guarded l _ => some (.acquire l none)
  | _ => none

def waited (w : Wait) (result : Value) : Outcome :=
  match w with
  | .get _ _ => .item result
  | _ => .nothing

/-- Where a step of a task leads. -/
inductive Next where
  | go (stack : List Frame) (w : World)
  | await (wait : Wait) (stack : List Frame) (w : World)
  | stop (fault : Option SimError) (w : World)

namespace World

def failWith (w : World) (e : SimError) (stack : List Frame) : Next :=
  .stop (some e) (w.unwind stack)

/-- Begins an instruction; `stack` is left to do after it. -/
def begin (w : World) (label : String) (i : Instr) (stack : List Frame) : Next :=
  match i with
  | .times n program => .go (.times label n program :: stack) w
  | .forever program => .go (.forever label program :: stack) w
  | .guarded l program => .await (.acquire l none) (.locking label l program :: stack) w
  | i =>
    match i.wait? with
    | some wait => .await wait (.awaiting label i.name :: stack) w
    | none =>
      match w.instant label i with
      | .error e => w.failWith e stack
      | .ok (w, outcome, none) => .go stack (w.note label i.name outcome)
      | .ok (w, _, some b) => .go (.callback b.label b.body :: .setting label :: stack) w

def step (w : World) : List Frame → Next
  | [] => .stop none w
  | .program label [] :: stack => .go stack (w.note label "end" .nothing)
  | .program label (i :: rest) :: stack => w.begin label i (.program label rest :: stack)
  | .callback _ [] :: stack => .go stack w
  | .callback label (i :: rest) :: stack => w.begin label i (.callback label rest :: stack)
  | .awaiting _ _ :: stack => .go stack w
  | .locking label l program :: stack =>
    .go (.program label program :: .holding label l :: stack) (w.note label "guarded" .nothing)
  | .holding label l :: stack => .go stack ((w.unlock l).note label "guard" .nothing)
  | .setting label :: stack => .go stack (w.note label "ev_set" .nothing)
  | .times _ 0 _ :: stack => .go stack w
  | .times label (n + 1) program :: stack =>
    .go (.program label program :: .times label n program :: stack) w
  | .forever label program :: stack =>
    .go (.program label program :: .forever label program :: stack) w

def resume (w : World) (wait : Wait) (result : Value) : List Frame → World × List Frame
  | .awaiting label name :: stack => (w.note label name (waited wait result), stack)
  | stack => (w, stack)

mutual

/-- Runs a task until it waits or ends. -/
def run (waker : Waker) : (fuel : Nat) → List Frame → World → Option (World × Turn Task)
  | 0, _, _ => none
  | fuel + 1, stack, w =>
    match w.step stack with
    | .go stack w => run waker fuel stack w
    | .stop fault w => some (w, .ended fault)
    | .await wait stack w => await waker fuel wait stack w

def await (waker : Waker) : (fuel : Nat) → Wait → List Frame → World →
    Option (World × Turn Task)
  | 0, _, _, _ => none
  | fuel + 1, wait, stack, w =>
    match w.kernel.poll waker wait with
    | (k, .waiting wait) => some ({ w with kernel := k }, .waits ⟨some wait, stack⟩)
    | (k, .over result) =>
      let (w, stack) := resume { w with kernel := k } wait result stack
      run waker fuel stack w

end

def runCallback (fuel : Nat) (b : Labelled) (w : World) : Option (World × Option SimError) :=
  match run .nobody fuel [.callback b.label b.body] w with
  | none => none
  | some (w, .ended fault) => some (w, fault)
  | some (w, .waits task) => some (abandon task w, none)

def pollTask (fuel : Nat) (task : Task) (w : World) : Option (World × Turn Task) :=
  let waker := match w.kernel.scheduler.running with
    | some id => Waker.task id
    | none => .nobody
  match task.wait with
  | none => run waker fuel task.stack w
  | some wait => await waker fuel wait task.stack w

/-- How the scheduler runs scripts. -/
def host : Host World Labelled Task where
  scheduler w := w.kernel.scheduler
  update := updateScheduler
  poll := pollTask
  call := runCallback
  abandon := abandon

/-- Carries out an instruction that does not wait, outside all tasks. -/
def perform (fuel : Nat) (w : World) (i : Instr) :
    Option (World × Except SimError Outcome) :=
  match w.instant "main" i with
  | .error e => some (w, .error e)
  | .ok (w, outcome, none) => some (w, .ok outcome)
  | .ok (w, outcome, some b) =>
    (runCallback fuel b w).map fun (w, fault) =>
      match fault with
      | some e => (w, .error e)
      | none => (w, .ok outcome)

/-- Keeps a wait under a name, in place of what was kept under it. -/
def keep (w : World) (name : String) (kept : Kept) : World × Option Kept :=
  ({ w with kept := w.kept.insert name kept }, w.kept.get? name)

def letGo (w : World) : Kept → World
  | .wait wait _ => w.abandonWait wait
  | .guard lock => w.unlock lock

def beginKept (w : World) (name : String) (wait : Wait) (guard : Option Nat) : World :=
  let (w, old) := w.keep name (.wait wait guard)
  old.elim w w.letGo

/-- Gives up what is kept under a name; tells whether there was anything. -/
def endKept (w : World) (name : String) : World × Bool :=
  match w.kept.get? name with
  | none => (w, false)
  | some kept => (({ w with kept := w.kept.erase name }).letGo kept, true)

/-- Goes on with the wait under a name; gives its outcome when it is over. -/
def pollKept (w : World) (name : String) : World × Option Outcome :=
  match w.kept.get? name with
  | some (.wait wait guard) =>
    match w.kernel.poll .nobody wait with
    | (k, .waiting wait) =>
      ({ w with kernel := k, kept := w.kept.insert name (.wait wait guard) }, none)
    | (k, .over result) =>
      let kept := match guard with
        | some lock => w.kept.insert name (.guard lock)
        | none => w.kept.erase name
      ({ w with kernel := k, kept := kept }, some (waited wait result))
  | _ => (w, none)

/-- A world with the given channels, locks and events. -/
def ofParts (capacities : List Nat) (locks events : Nat) : World :=
  let k : Kernel Labelled Labelled Task := .initial
  let k := capacities.foldl (fun k c => (k.addChannel c).1) k
  let k := (List.range locks).foldl (fun k _ => k.addLock.1) k
  let k := (List.range events).foldl (fun k _ => (k.addEvent false).1) k
  ⟨k, #[], [], .empty⟩

/-- The states of all channels, locks and events in words. -/
def describe (w : World) : List String × List String × List String :=
  (w.kernel.channels.toList.map fun c => s!"Channel(len={c.items.length}, max={c.capacity})",
   w.kernel.locks.toList.map fun l =>
     s!"Lock(locked={l.locked}, waiters={l.queue.waiting.length})",
   w.kernel.events.toList.map fun e =>
     s!"Event(set={e.flag}, waiters={e.queue.waiting.length})")

end World

end Clockwork.Script
