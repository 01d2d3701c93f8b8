import Clockwork.Design.TypeTable
import Clockwork.Elaboration.Endpoint
import Clockwork.Elaboration.Error
import Clockwork.Tree.Objects

namespace Clockwork

structure Elaboration where
  types : TypeTable
  tree : Tree
  objects : Objects
  errors : List ElabError
  links : Table FieldRef (List FieldRef)
  /-- The types of the ports that were left open when their instance was built. -/
  declared : Table FieldRef DataType
  deriving Inhabited

namespace Elaboration

def ofTypes (types : TypeTable) : Elaboration := ⟨types, .empty, .empty, [], .empty, .empty⟩

def fault (e : Elaboration) (error : ElabError) : Elaboration :=
  { e with errors := e.errors ++ [error] }

def attempt (e : Elaboration) : Except ElabError Elaboration → Elaboration
  | .ok e => e
  | .error error => e.fault error

def setStorage (e : Elaboration) (f : FieldRef) (s : Storage) : Elaboration :=
  { e with tree := e.tree.setStorage f s }

def isUnbound (e : Elaboration) (f : FieldRef) : Bool :=
  match e.tree.slot f.owner f.index with
  | .ok slot => slot.storage.isUnbound
  | .error _ => false

def linked (e : Elaboration) (f : FieldRef) : List FieldRef := (e.links.get? f).getD []

def link (e : Elaboration) (a b : FieldRef) : Elaboration :=
  let links := e.links.insert a (e.linked a ++ [b])
  { e with links := links.insert b ((links.get? b).getD [] ++ [a]) }

/-- What a port of a type gets when it is bound to a value: of a channel the end that it declares,
and of an address space a view from its start. -/
def narrow (declared : Option DataType) (v : Value) : Value :=
  match declared, v with
  | some (.getEnd _), .obj (.channel c) => .obj (.getEnd c)
  | some (.putEnd _), .obj (.channel c) => .obj (.putEnd c)
  | some .addrHandle, .obj (.addressSpace s) => .obj (.addrHandle s 0)
  | _, v => v

/-- Binds the ports of a list and the open ports that they lead to, each one once; `seen` are
those that were listed before. -/
def bindFrom (v : Value) : (room : Nat) → (work seen : List FieldRef) → Elaboration → Elaboration
  | 0, _, _, e => e
  | _, [], _, e => e
  | room + 1, f :: work, seen, e =>
    let e := e.setStorage f (.object (narrow (e.declared.get? f) v))
    let fresh := (e.linked f).foldl (fun l g => if g ∈ seen ++ l then l else l ++ [g]) []
    bindFrom v room (fresh.filter e.isUnbound ++ work) (seen ++ fresh) e

/-- Binds a port and every open port linked with it, directly or through open ports. -/
def bindObject (e : Elaboration) (f : FieldRef) (v : Value) : Elaboration :=
  bindFrom v (e.links.size + 1) [f] [f] e

def setInitial (e : Elaboration) (f : FieldRef) (slot : FieldSlot) (v : Value) : Elaboration :=
  { e with tree := e.tree.setSignal f.owner slot.key (v.fit slot.width slot.signed) }

def record (e : Elaboration) (target source : String) : Elaboration :=
  { e with tree := e.tree.record (target ++ " <- " ++ source) }

end Elaboration

end Clockwork
