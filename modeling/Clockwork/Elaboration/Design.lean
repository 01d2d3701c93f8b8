import Clockwork.Elaboration.Instance
import Clockwork.Log

namespace Clockwork

/-- Limits and checks of an elaboration. -/
structure ElabSettings where
  maxDepth : Nat
  requireTopPorts : Bool
  deriving DecidableEq, Repr, Inhabited

def ElabSettings.standard : ElabSettings := ⟨64, true⟩

/-- A tree with the objects that its fields hold. -/
structure Elaborated where
  tree : Tree
  objects : Objects
  deriving Inhabited

namespace Elaboration

def openPorts (i : Instance) : List String :=
  (i.fields.toList.filter fun f => decide (f.kind = .port) && f.storage.isUnbound).map
    FieldSlot.name

/-- Warnings about open ports below the root. They are faults only where they are used. -/
def openPortWarnings (t : Tree) : List LogRecord :=
  (t.instances.toList.drop 1).flatMap fun i =>
    (openPorts i).map fun port => .warn s!"port {i.path}.{port} is unbound"

def checkTop (e : Elaboration) (settings : ElabSettings) : Elaboration :=
  let root := e.tree.inst Tree.root
  let ports := openPorts root
  if settings.requireTopPorts && !ports.isEmpty then e.fault (.unboundTopPorts root.path ports)
  else e

def finish (e : Elaboration) : Except (List ElabError) Elaborated :=
  if e.errors.isEmpty then .ok ⟨e.tree, e.objects⟩ else .error e.errors

end Elaboration

/-- Elaborates a component as the root of a tree. Values for the fields of the root may hold some
of the given objects. Also gives what there is to report. -/
def elaborate (types : TypeTable) (objects : Objects) (top : String)
    (values : Table String Value) (settings : ElabSettings) :
    Except (List ElabError) Elaborated × List LogRecord :=
  if (types.type? top).isNone then (.error [.design (.unknownType top)], [])
  else
    let start : Elaboration := { Elaboration.ofTypes types with objects := objects }
    match Elaboration.instantiate values (settings.maxDepth + 1) [] start (.ref top) top none []
      with
    | .error error => (.error [error], [])
    | .ok (e, _) => ((e.checkTop settings).finish, Elaboration.openPortWarnings e.tree)

end Clockwork
