import Clockwork.Digest.Fingerprint
import Clockwork.Tree.Basic
import Clockwork.Tree.Objects

namespace Clockwork.Tree

structure ListedRegion where
  base : Nat
  size : Nat
  label : String
  deriving DecidableEq, Repr, Inhabited

def listRegions (o : Objects) (space : Nat) : List ListedRegion :=
  (o.space space).regions.map fun r => ⟨r.base, r.size, o.banks.label r.backing⟩

/-- The regions of every field that holds an address space, by the path of the field. -/
def regionMap (t : Tree) (o : Objects) : List (String × List ListedRegion) :=
  t.instances.toList.flatMap fun i =>
    i.fields.toList.filterMap fun f =>
      match f.storage with
      | .object (.obj (.addressSpace space)) => some (i.path ++ "." ++ f.name, listRegions o space)
      | _ => none

def directionWord : Option Direction → String
  | some .input => "in "
  | some .output => "out "
  | some .inout => "inout "
  | none => ""

def indent (level : Nat) : String := String.ofList (List.replicate (2 * level) ' ')

/-- The lines of an instance and of all instances below it, up to `room` levels. -/
def listingFrom (t : Tree) : (room : Nat) → (level id : Nat) → List String
  | 0, _, _ => []
  | room + 1, level, id =>
    let i := t.inst id
    let pad := indent level
    (pad ++ i.name ++ ": " ++ i.typeName) :: i.fields.toList.flatMap fun f =>
      match f.storage with
      | .component child => t.listingFrom room (level + 1) child
      | .signal => [pad ++ "  " ++ directionWord f.direction ++ f.name ++ s!" [{f.width}]"]
      | .const v => [pad ++ "  const " ++ f.name ++ " = " ++ v.render]
      | .object v => [pad ++ "  " ++ f.name ++ " <" ++ v.typeName ++ ">"]
      | .unbound => [pad ++ "  " ++ f.name ++ " <unbound>"]

/-- The instances below the root with their fields, a line each. A child has a greater number
than its parent, so there are no more levels than instances. -/
def listing (t : Tree) : String :=
  if t.instances.isEmpty then ""
  else String.join ((t.listingFrom t.size 0 root).map (· ++ "\n"))

open Digest

def storageWord : Storage → String
  | .signal => "signal"
  | .const _ => "const"
  | .component _ => "component"
  | .object v => v.typeName
  | .unbound => "unbound"

def feedInstance (h : Feed) (i : Instance) : Feed :=
  i.fields.foldl (fun h f => ((h.text f.name).number f.width).text (storageWord f.storage))
    ((h.text i.path).text i.typeName)

def feedField (h : Feed) (f : FieldRef) : Feed := (h.number f.owner).number f.index

def feedBinding (h : Feed) (driver : FieldRef) (targets : List FieldRef) : Feed :=
  targets.foldl feedField (feedField h driver)

def feedRegions (h : Feed) (path : String) (regions : List ListedRegion) : Feed :=
  regions.foldl (fun h r => ((h.number r.base).number r.size).text r.label) (h.text path)

def fingerprint (t : Tree) (o : Objects) : Fingerprint :=
  let h := t.instances.foldl feedInstance .empty
  let h := t.bindings.entries.foldl (fun h (driver, targets) => feedBinding h driver targets) h
  let h := t.connections.foldl Feed.text h
  ((t.regionMap o).foldl (fun h (path, regions) => feedRegions h path regions) h).finish

end Clockwork.Tree
