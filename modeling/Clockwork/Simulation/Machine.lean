import Clockwork.Simulation.Function
/-!
One step of a run. The machine either looks at a piece of a design, or gives what the last piece
came to to the frame on top of the stack. A frame that a completion does not concern is passed
over, so a fault unwinds the stack, and the frames that count what is under way see it too.

A change of a signal is worked off in depth: the fields that follow the signal take the value, then
the combinational processes that depend on it run. The clocked processes whose edge rose in
between run in rounds when the outermost write is done. All processes of a round see the values
from before the round, since their own writes are staged.
-/

namespace Clockwork

inductive Control where
  | eval (e : Expr)
  | exec (s : Stmt)
  | store (target : Expr) (v : Value)
  | matching (p : Pattern) (subject : Value)
  | await (w : Wait)
  | done (c : Completion)
  deriving Inhabited

/-- A run under way. -/
structure Machine where
  control : Control
  activation : Activation
  stack : List Frame
  sim : Simulation
  deriving Inhabited

namespace Machine

def complete (m : Machine) (c : Completion) : Machine := { m with control := .done c }

def give (m : Machine) (v : Value) : Machine := m.complete (.value v)

def finish (m : Machine) : Machine := m.give .none

def fail (m : Machine) (e : SimError) : Machine := m.complete (.failed e)

def giveResult (m : Machine) : Except SimError Value → Machine
  | .ok v => m.give v
  | .error e => m.fail e

def look (m : Machine) (c : Control) : Machine := { m with control := c }

def push (m : Machine) (f : Frame) (c : Control) : Machine :=
  { m with stack := f :: m.stack, control := c }

def pushAll (m : Machine) (frames : List Frame) : Machine :=
  { m with stack := frames ++ m.stack }.finish

def setSim (m : Machine) (s : Simulation) : Machine := { m with sim := s }

def setLocal (m : Machine) (name : String) (v : Value) : Machine :=
  { m with activation := { m.activation with locals := m.activation.locals.insert name v } }

def block (m : Machine) : List Stmt → Machine
  | [] => m.finish
  | s :: rest => m.push (.block rest) (.exec s)

def callFunction (m : Machine) (owner : Nat) (name : String) (args : List Value)
    (keywords : List (String × Value)) (mode : WriteMode) : Machine :=
  let i := m.sim.tree.inst owner
  match i.functions.get? name with
  | none => m.fail (.unknownMethod i.path name)
  | some f =>
    match f.arguments args keywords with
    | .error e => m.fail e
    | .ok params =>
      let callee := { Activation.begin owner f.name mode with params := params.toArray }
      { m with
        stack := .returning m.activation :: m.stack
        activation := callee }.block f.body

def callNow (m : Machine) (owner : Nat) (name : String) (args : List Value) : Machine :=
  { m with stack := .boundary name m.activation :: m.stack }.callFunction owner name args []
    .immediate

/-- Sets an event. Its callback runs at once, or as a new task unless the event belongs to a
scheduler that never runs. -/
def setEvent (m : Machine) (event : Nat) : Machine :=
  let (k, callback) := m.sim.kernel.setFlag event
  let m := m.setSim (m.sim.setKernel k)
  match callback with
  | none => m.finish
  | some (.immediate hook) =>
    { m with stack := .discard :: m.stack }.callNow hook.owner hook.method []
  | some (.task hook) =>
    if (k.event event).detached then m.finish
    else
      let activation := Activation.begin hook.owner hook.method .immediate
      let (s, _) := m.sim.spawn activation [.calling hook.owner hook.method]
      (m.setSim s).finish

def builtin (m : Machine) (b : Builtin) (args : List Value) : Machine :=
  let (s, r) := m.sim.builtin b args
  (m.setSim s).giveResult r

def callMethod (m : Machine) (target : Handle) (name : String) (args : List Value) : Machine :=
  match m.sim.method target name args with
  | .done s r => (m.setSim s).giveResult r
  | .waits w => m.look (.await w)
  | .sets event => m.setEvent event

def invoke (m : Machine) (callee : Value) (args : List Value)
    (keywords : List (String × Value)) : Machine :=
  match callee with
  | .obj (.method owner name) => m.callFunction owner name args keywords m.activation.mode
  | .obj (.bound target name) =>
    if keywords.isEmpty then m.callMethod target name args
    else m.fail (.evaluation s!"{name}() takes no keyword arguments")
  | .obj (.builtin b) => m.builtin b args
  | v => m.fail (.evaluation (v.typeName ++ " is not callable"))

/-- Uses the values of a list, which are complete. -/
def gathered (m : Machine) (use : Gathered) (values : List Value) : Machine :=
  match use with
  | .tuple => m.give (.tuple values)
  | .builtin b => m.builtin b values
  | .arguments callee [] => m.invoke callee values []
  | .arguments callee ((name, e) :: rest) =>
    let names := name :: rest.map (·.1)
    m.push (.gather (.keywords callee values names) [] (rest.map (·.2))) (.eval e)
  | .keywords callee args names => m.invoke callee args (names.zip values)

/-- Evaluates expressions; `done` are the values so far, the latest first. -/
def gather (m : Machine) (use : Gathered) (done : List Value) : List Expr → Machine
  | [] => m.gathered use done.reverse
  | e :: rest => m.push (.gather use done rest) (.eval e)

def compareOn (m : Machine) (left : Value) (ops : List CmpOp) (comparators : List Expr) :
    Machine :=
  match ops, comparators with
  | op :: ops, e :: rest => m.push (.compared left op ops rest) (.eval e)
  | _, _ => m.give (.bool true)

def eval (m : Machine) : Expr → Machine
  | .constant c => m.give (.ofLiteral c)
  | .self => m.give (.obj (.component m.activation.owner))
  | .field base index => m.push (.fieldOf index) (.eval base)
  | .param name index =>
    match m.activation.params[index]? with
    | some v => m.give v
    | none => m.fail (.evaluation s!"no argument for parameter '{name}'")
  | .var name =>
    match m.activation.locals.get? name with
    | some v => m.give v
    | none => m.fail (.evaluation s!"local '{name}' read before assignment")
  | .builtin b => m.give (.obj (.builtin b))
  | .binary lhs op rhs => m.push (.rightOf op rhs) (.eval lhs)
  | .unary op operand => m.push (.unary op) (.eval operand)
  | .logical op [] => m.give (Value.neutral op)
  | .logical op (e :: rest) => m.push (.logical op rest) (.eval e)
  | .compare left ops comparators => m.push (.comparing ops comparators) (.eval left)
  | .member value name => m.push (.memberOf name) (.eval value)
  | .subscript value index => m.push (.indexOf index) (.eval value)
  | .call (.builtin b) args _ => m.gather (.builtin b) [] args
  | .call callee args keywords => m.push (.calleeOf args keywords) (.eval callee)
  | .conditional test body orelse => m.push (.conditional body orelse) (.eval test)
  | .await value => m.look (.eval value)
  | .tuple items => m.gather .tuple [] items

/-- Records a change of a signal and notes the processes that its edge starts; then the fields
that follow it take the value, and then `after` is done. -/
def announce (m : Machine) (f : FieldRef) (name : String) (old new : Value)
    (after : List Frame) : Machine :=
  let s := (m.sim.trace f name old new).noteEdge f old new
  (m.setSim s).pushAll (.propagate (s.tree.targets f) new :: after)

/-- Changes a signal at once, with all that follows from it. -/
def drive (m : Machine) (f : FieldRef) (v : Value) : Machine :=
  match m.sim.tree.slot f.owner f.index with
  | .error e => m.fail e
  | .ok slot =>
    let v := v.fit slot.width slot.signed
    let old := (m.sim.signalsOf f.owner).read slot.key
    if old.same v then m.finish
    else
      let s := m.sim.withValue f slot v
      (m.setSim s).announce f slot.name old v [.combs (s.watchers f)]

/-- An immediate write from outside of all other writes lets the rounds run that it leads to. -/
def driveAndSettle (m : Machine) (f : FieldRef) (v : Value) : Machine :=
  { m with
    sim := { m.sim with driveDepth := m.sim.driveDepth + 1 }
    stack := .driven :: m.stack }.drive f v

def unassignable : Storage → String
  | .component _ => "component"
  | .unbound => "unbound"
  | _ => "object"

def write (m : Machine) (f : FieldRef) (v : Value) (mode : WriteMode) : Machine :=
  match m.sim.tree.slot f.owner f.index with
  | .error e => m.fail e
  | .ok slot =>
    let path := (m.sim.tree.inst f.owner).path ++ "." ++ slot.name
    match slot.storage, mode with
    | .signal, .staged => (m.setSim (m.sim.stage f slot v)).finish
    | .signal, .immediate => m.driveAndSettle f v
    | .const _, _ => m.fail (.evaluation s!"cannot assign to constant '{path}'")
    | other, _ =>
      m.fail (.unsupported ("assignment to " ++ unassignable other ++ s!" field '{path}'"))

def storeAll (m : Machine) : List (Expr × Value) → Machine
  | [] => m.finish
  | (target, v) :: rest => m.push (.storeRest rest) (.store target v)

/-- What an expression is called that cannot be assigned to. -/
def kindOf : Expr → String
  | .constant _ => "constant"
  | .self => "self"
  | .field _ _ => "field reference"
  | .param _ _ => "parameter"
  | .var _ => "local"
  | .builtin _ => "builtin"
  | .binary _ _ _ => "binary expression"
  | .unary _ _ => "unary expression"
  | .logical _ _ => "boolean expression"
  | .compare _ _ _ => "comparison"
  | .member _ _ => "attribute"
  | .subscript _ _ => "subscript"
  | .call _ _ _ => "call"
  | .conditional _ _ _ => "conditional expression"
  | .await _ => "await"
  | .tuple _ => "tuple"

def store (m : Machine) (target : Expr) (v : Value) : Machine :=
  match target with
  | .var name => (m.setLocal name v).finish
  | .param name index =>
    if index < m.activation.params.size then
      let params := m.activation.params.setIfInBounds index v
      { m with activation := { m.activation with params := params } }.finish
    else m.fail (.evaluation s!"no parameter '{name}'")
  | .field base index => m.push (.storeField index v) (.eval base)
  | .member base name => m.push (.storeMember name v) (.eval base)
  | .tuple targets =>
    match v.asTuple with
    | .error e => m.fail e
    | .ok items =>
      if items.length = targets.length then m.storeAll (targets.zip items)
      else m.fail (.evaluation
        s!"cannot unpack {items.length} values into {targets.length} targets")
  | .subscript container index => m.push (.storeIndex container index v) (.eval container)
  | other => m.fail (.unsupported ("assignment to " ++ kindOf other))

def storeField (m : Machine) (instance' : Value) (index : Nat) (v : Value) : Machine :=
  match instance'.asComponent with
  | .error e => m.fail e
  | .ok id => m.write ⟨id, index⟩ v m.activation.mode

/-- Writes the field of an instance that has a name. -/
def storeMember (m : Machine) (instance' : Value) (name : String) (v : Value) : Machine :=
  match instance'.asComponent with
  | .error e => m.fail e
  | .ok id =>
    let i := m.sim.tree.inst id
    match i.fieldIndex? name with
    | some index => m.write ⟨id, index⟩ v m.activation.mode
    | none => m.fail (.unknownField i.path name)

def effect (m : Machine) (r : Simulation × Option SimError) : Machine :=
  match r with
  | (s, none) => (m.setSim s).finish
  | (s, some e) => (m.setSim s).fail e

def withResult {α : Type} (m : Machine) (r : Except SimError α) (f : α → Machine) : Machine :=
  match r with
  | .ok a => f a
  | .error e => m.fail e

/-- Replaces the item of a container at an index. A bit of a number and an item of a tuple are
replaced in a copy, which is then stored where the container was. -/
def storeItem (m : Machine) (container : Expr) (held index v : Value) : Machine :=
  match held with
  | .obj (.memory id) =>
    m.withResult (do return (← index.asInt, ← v.asInt)) fun (i, n) =>
      m.effect (m.sim.writeMemory id i n)
  | .obj (.regFile id) =>
    m.withResult (do return (← index.asNat64, ← v.asInt)) fun (offset, n) =>
      m.effect (m.sim.writeRegister id offset n)
  | .int n =>
    m.withResult index.asNat64 fun bit =>
      if bit < 128 then m.look (.store container (.int (Word.setBit n bit v.truthy)))
      else m.fail (.indexOutOfBounds bit 128)
  | .tuple items =>
    m.withResult (do Value.position items.length (← index.asInt)) fun k =>
      m.look (.store container (.tuple (items.set k v)))
  | other => m.fail (.evaluation (other.typeName ++ " does not support item assignment"))

/-- The arguments of a pause, if a statement is one: a call of `cycles`, perhaps awaited. -/
def cyclesArgs? : Stmt → Option (List Expr)
  | .expr (.await (.call (.builtin .cycles) args _)) => some args
  | .expr (.call (.builtin .cycles) args _) => some args
  | _ => none

/-- Runs the next round of a loop over items, or what follows the last one. -/
def eachNext (m : Machine) (target : Expr) (items : List Value) (body orelse : List Stmt) :
    Machine :=
  match items with
  | [] => m.block orelse
  | v :: rest => m.push (.eachItem target rest body orelse) (.store target v)

/-- Begins a loop over the items of a value. -/
def eachOf (m : Machine) (target : Expr) (v : Value) (body orelse : List Stmt) : Machine :=
  match v with
  | .tuple items => m.eachNext target items body orelse
  | .str text => m.eachNext target (Value.ofChars text) body orelse
  | v => m.fail (.evaluation ("cannot iterate over " ++ v.typeName))

def assertionWord : AssertionKind → String
  | .assume => "assumption"
  | _ => "assertion"

def check (m : Machine) (kind : AssertionKind) (holds : Bool) (message : Option String) :
    Machine :=
  let place := (m.sim.tree.inst m.activation.owner).path ++ "." ++ m.activation.name
  match kind, holds with
  | .cover, true => (m.setSim (m.sim.cover (message.getD place))).finish
  | .cover, false | .assert, true | .assume, true => m.finish
  | kind, false =>
    let text := assertionWord kind ++ " in " ++ place ++ " does not hold"
    m.fail (.assertionFailed m.sim.now.fs (message.getD text))

def selectNext (m : Machine) (subject : Value) : List Case → Machine
  | [] => m.finish
  | c :: rest => m.push (.caseMatched subject c rest) (.matching c.pattern subject)

def exec (m : Machine) (s : Stmt) : Machine :=
  match s with
  | .assign targets value => m.push (.assign targets) (.eval value)
  | .update target op value => m.push (.updateBy target op value) (.eval target)
  | .result none => m.complete (.result .none)
  | .result (some e) => m.push .resultOf (.eval e)
  | .branch test body orelse => m.push (.branch body orelse) (.eval test)
  | .each target items body orelse => m.push (.eachOf target body orelse) (.eval items)
  | .loop test body orelse => m.push (.loopTest test body orelse) (.eval test)
  | .leave => m.complete .leave
  | .again => m.complete .again
  | .pass => m.finish
  | .assertion kind test message => m.push (.assertionTest kind message) (.eval test)
  | .select subject cases => m.push (.select cases) (.eval subject)
  | .expr e =>
    if (cyclesArgs? s).isSome then m.fail Simulation.misplacedCycles
    else m.push .discard (.eval e)

def matchAny (m : Machine) (subject : Value) : List Pattern → Machine
  | [] => m.give (.bool false)
  | p :: rest => m.push (.alternatives rest subject) (.matching p subject)

def matchPattern (m : Machine) (p : Pattern) (subject : Value) : Machine :=
  match p with
  | .value none => m.give (.bool true)
  | .value (some e) => m.push (.equals subject) (.eval e)
  | .bind none name => (m.setLocal name subject).give (.bool true)
  | .bind (some inner) name => m.push (.bindPattern name subject) (.matching inner subject)
  | .alternatives patterns => m.matchAny subject patterns

def runBody (m : Machine) (owner : Nat) (f : Function) : Machine :=
  { m with
    stack := .boundary f.name m.activation :: m.stack
    activation := .begin owner f.name .immediate }.block f.body

def runComb (m : Machine) (p : ProcessRef) : Machine :=
  let i := m.sim.tree.inst p.owner
  match i.combs[p.index]? with
  | none => m.finish
  | some f =>
    let depth := m.sim.combDepth + 1
    if m.sim.maxCombDepth < depth then m.fail (.combCycle i.path f.name depth)
    else
      { m with
        sim := { m.sim with combDepth := depth }
        stack := .combOver p depth :: m.stack }.runBody p.owner f

def runCombs (m : Machine) : List ProcessRef → Machine
  | [] => m.finish
  | p :: rest => { m with stack := .combs rest :: m.stack }.runComb p

/-- Pauses a clocked process for a number of cycles, at least one. -/
def pause (m : Machine) (p : ProcessRef) (next : Nat) (cycles : Int) : Machine :=
  let count := (Bounded.toNat64? (max cycles 1)).getD 1
  let pause : Pause := ⟨next, count - 1, m.activation.locals⟩
  (m.setSim { m.sim with paused := m.sim.paused.insert p pause }).finish

/-- Runs the body of a clocked process from the statement `next` on, up to a pause. -/
def syncBody (m : Machine) (p : ProcessRef) (next : Nat) : List Stmt → Machine
  | [] => m.finish
  | s :: rest =>
    match cyclesArgs? s with
    | some [] => m.pause p (next + 1) 1
    | some (e :: _) => m.push (.syncPause p (next + 1)) (.eval e)
    | none => m.push (.syncStep p (next + 1) rest) (.exec s)

/-- Runs a clocked process from a statement on. -/
def resumeSync (m : Machine) (p : ProcessRef) (f : Function) (next : Nat)
    (locals : Table String Value) : Machine :=
  { m with
    stack := .boundary f.name m.activation :: m.stack
    activation := { Activation.begin p.owner f.name .staged with locals := locals } }.syncBody p
      next (f.body.drop next)

def isReset (s : Simulation) (p : ProcessRef) : Except SimError Bool :=
  match s.wiring.resets.get? p with
  | none => .ok false
  | some f => (s.readField f).map Value.truthy

/-- Runs a clocked process on an edge. A process that is paused goes on when enough edges have
passed; a reset makes it begin anew. -/
def runSync (m : Machine) (p : ProcessRef) : Machine :=
  match (m.sim.tree.inst p.owner).syncs[p.index]? with
  | none => m.finish
  | some f =>
    m.withResult (isReset m.sim p) fun reset =>
      let held := if reset then none else m.sim.paused.get? p
      let m := m.setSim { m.sim with paused := m.sim.paused.erase p }
      match held with
      | none => m.resumeSync p f 0 .empty
      | some pause =>
        if 0 < pause.skip then
          let pause := { pause with skip := pause.skip - 1 }
          (m.setSim { m.sim with paused := m.sim.paused.insert p pause }).finish
        else m.resumeSync p f pause.next pause.locals

def runSyncs (m : Machine) : List ProcessRef → Machine
  | [] => m.finish
  | p :: rest => { m with stack := .syncs rest :: m.stack }.runSync p

def workOff (m : Machine) : List (FieldRef × Value × Value) → Machine
  | [] => m.finish
  | (f, old, new) :: rest =>
    let name := (((m.sim.tree.inst f.owner).fields[f.index]?).map FieldSlot.name).getD ""
    m.announce f name old new [.combs (m.sim.watchers f), .changes rest]

/-- Makes all staged values current, and works off the changes. -/
def commit (m : Machine) : Machine :=
  let (s, changes) := m.sim.applyStaged
  (m.setSim s).workOff changes

/-- Runs a round, if there is a process to run or a value to commit, and further ones after it. -/
def round (m : Machine) : Machine :=
  let batch := m.sim.pending
  if batch.isEmpty && !m.sim.hasStaged then m.finish
  else
    { m with
      sim := { m.sim with pending := [] }
      stack := .commit :: .round :: m.stack }.runSyncs batch

/-- Runs rounds until nothing is pending. Within a round this is left to that round. -/
def settle (m : Machine) : Machine :=
  if m.sim.inRound then m.finish
  else { m with sim := { m.sim with inRound := true }, stack := .settled :: m.stack }.round

/-- The end of a write. The outermost one settles what it led to, or drops it after a fault. -/
def endDrive (m : Machine) (c : Completion) : Machine :=
  let m := m.setSim { m.sim with driveDepth := m.sim.driveDepth - 1 }
  if 0 < m.sim.driveDepth then m.complete c
  else
    match c with
    | .failed e =>
      (if m.sim.inRound then m else m.setSim m.sim.discardPending).fail e
    | _ => m.settle

def endRounds (m : Machine) (c : Completion) : Machine :=
  let m := m.setSim { m.sim with inRound := false }
  match c with
  | .failed e => (m.setSim m.sim.discardPending).fail e
  | c => m.complete c

/-- Lets a clock wait for the half of its period that ends with the edge to `level`. -/
def awaitEdge (m : Machine) (f : FieldRef) (low high : Nat) (level : Bool) : Machine :=
  m.push (.clockEdge f low high level) (.await (.sleep (if level then low else high) none))

def clockEdge (m : Machine) (f : FieldRef) (low high : Nat) (level : Bool) : Machine :=
  { m with stack := .clock f low high (!level) :: m.stack }.write f
    (.int (Value.ofTruth level)) .immediate

def resume (m : Machine) (f : Frame) (v : Value) : Machine :=
  match f with
  | .fieldOf index =>
    m.withResult v.asComponent fun id => m.giveResult (m.sim.readField ⟨id, index⟩)
  | .rightOf op rhs => m.push (.binary op v) (.eval rhs)
  | .binary op lhs => m.giveResult (Value.binary op lhs v)
  | .unary op => m.giveResult (Value.unary op v)
  | .logical op rest =>
    match rest with
    | [] => m.give v
    | e :: rest => if v.decides op then m.give v else m.push (.logical op rest) (.eval e)
  | .comparing ops comparators => m.compareOn v ops comparators
  | .compared left op ops comparators =>
    m.withResult (Value.compare op left v) fun holds =>
      if holds then m.compareOn v ops comparators else m.give (.bool false)
  | .memberOf name => m.giveResult (m.sim.member v name)
  | .indexOf index => m.push (.subscript v) (.eval index)
  | .subscript container => m.giveResult (m.sim.subscript container v)
  | .calleeOf args keywords => m.gather (.arguments v keywords) [] args
  | .gather use done rest => m.gather use (v :: done) rest
  | .conditional body orelse => m.look (.eval (if v.truthy then body else orelse))
  | .storeField index value => m.storeField v index value
  | .storeMember name value => m.storeMember v name value
  | .storeRest rest => m.storeAll rest
  | .storeIndex container index value => m.push (.storeItem container v value) (.eval index)
  | .storeItem container held value => m.storeItem container held v value
  | .block rest => m.block rest
  | .assign targets => m.storeAll (targets.map fun t => (t, v))
  | .updateBy target op value => m.push (.updateWith target op v) (.eval value)
  | .updateWith target op current =>
    m.withResult (Value.update op current v) fun updated => m.look (.store target updated)
  | .resultOf => m.complete (.result v)
  | .branch body orelse => m.block (if v.truthy then body else orelse)
  | .eachOf target body orelse => m.eachOf target v body orelse
  | .eachItem target rest body orelse =>
    { m with stack := .eachRound target rest body orelse :: m.stack }.block body
  | .eachRound target rest body orelse => m.eachNext target rest body orelse
  | .loopTest test body orelse =>
    if v.truthy then { m with stack := .loopRound test body orelse :: m.stack }.block body
    else m.block orelse
  | .loopRound test body orelse => m.push (.loopTest test body orelse) (.eval test)
  | .assertionTest kind none => m.check kind v.truthy none
  | .assertionTest kind (some e) => m.push (.assertionText kind v.truthy) (.eval e)
  | .assertionText kind holds => m.check kind holds (some v.render)
  | .select cases => m.selectNext v cases
  | .caseMatched subject c rest =>
    if v.truthy then
      match c.guard with
      | none => m.block c.body
      | some e => m.push (.caseGuard subject c rest) (.eval e)
    else m.selectNext subject rest
  | .caseGuard subject c rest => if v.truthy then m.block c.body else m.selectNext subject rest
  | .equals subject => m.give (.bool (v.same subject))
  | .bindPattern name subject => (if v.truthy then m.setLocal name subject else m).give v
  | .alternatives rest subject => if v.truthy then m.give v else m.matchAny subject rest
  | .discard => m.finish
  | .returning caller => { m with activation := caller }.finish
  | .boundary _ caller => { m with activation := caller }.give v
  | .calling owner name => m.callFunction owner name [] [] .immediate
  | .propagate [] _ => m.finish
  | .propagate (f :: rest) value =>
    { m with stack := .propagate rest value :: m.stack }.drive f value
  | .combs rest => m.runCombs rest
  | .combOver _ depth => (m.setSim { m.sim with combDepth := depth - 1 }).finish
  | .driven => m.endDrive (.value v)
  | .settled => m.endRounds (.value v)
  | .round => m.round
  | .syncs rest => m.runSyncs rest
  | .syncStep p next rest => m.syncBody p next rest
  | .syncPause p next => m.withResult v.asInt fun n => m.pause p next n
  | .commit => m.commit
  | .changes rest => m.workOff rest
  | .clock f low high level => m.awaitEdge f low high level
  | .clockEdge f low high level => m.clockEdge f low high level

/-- Gives a frame what is no value. A frame that it does not concern passes it on. -/
def unwind (m : Machine) (f : Frame) (c : Completion) : Machine :=
  match f, c with
  | .eachRound target rest body orelse, .again => m.eachNext target rest body orelse
  | .eachRound _ _ _ _, .leave => m.finish
  | .loopRound test body orelse, .again => m.push (.loopTest test body orelse) (.eval test)
  | .loopRound _ _ _, .leave => m.finish
  | .returning caller, .result v => { m with activation := caller }.give v
  | .returning caller, .failed e => { m with activation := caller }.fail e
  | .returning caller, _ => { m with activation := caller }.finish
  | .boundary _ caller, .failed e => { m with activation := caller }.fail e
  | .boundary _ caller, _ => { m with activation := caller }.finish
  | .combOver _ depth, c => (m.setSim { m.sim with combDepth := depth - 1 }).complete c
  | .driven, c => m.endDrive c
  | .settled, c => m.endRounds c
  | .syncStep _ _ _, .result _ => m.finish
  | .syncStep _ _ _, .leave => m.fail (.evaluation "'break' or 'continue' outside a loop")
  | .syncStep _ _ _, .again => m.fail (.evaluation "'break' or 'continue' outside a loop")
  | _, c => m.complete c

end Machine

end Clockwork
