/-!
Finite directed graphs, and their nodes in an order in which every edge leads forward.

Where several orders exist, the one chosen is that of a depth-first search that begins at the
nodes by number and goes on, from each node, to its neighbours of lower number first.
-/

namespace Clockwork

/-- A directed graph on the numbers below a size. -/
structure Graph where
  /-- For every node the nodes that its edges lead to, the greatest first. -/
  successors : Array (List Nat)
  deriving Repr, Inhabited

namespace Graph

def ofRelation (n : Nat) (edge : Nat → Nat → Bool) : Graph :=
  ⟨(Array.range n).map fun a => ((List.range n).filter (edge a)).reverse⟩

def size (g : Graph) : Nat := g.successors.size

/-- The nodes that the edges of a node lead to, the greatest first. -/
def next (g : Graph) (v : Nat) : List Nat := g.successors[v]?.getD []

/-- The nodes whose edges lead to a node, the greatest first. -/
def previous (g : Graph) (v : Nat) : List Nat :=
  (List.range g.size).reverse.filter fun w => (g.next w).contains v

/-- More steps than a search can take: every edge is followed at most once, and every node is met
at most twice for each time it was listed. -/
def searchLimit (g : Graph) : Nat := 2 * (g.size + 1) * (g.size + 1)

/-- Searches on from the nodes of a stack. A node stays on the stack until all that follows it is
finished; it is then put in front of `order`. A node with an edge to itself ends the search. -/
def search (g : Graph) : (room : Nat) → (stack seen order : List Nat) →
    Except Nat (List Nat × List Nat)
  | 0, _, seen, order => .ok (seen, order)
  | _, [], seen, order => .ok (seen, order)
  | room + 1, v :: stack, seen, order =>
    if v ∈ seen then g.search room stack seen (if v ∈ order then order else v :: order)
    else if v ∈ g.next v then .error v
    else
      let fresh := (g.next v).filter fun w => decide (w ∉ v :: seen)
      g.search room (fresh.reverse ++ v :: stack) (v :: seen) order

/-- All nodes, each before those that it leads to if there is no circle. -/
def searchAll (g : Graph) : Except Nat (List Nat) := do
  let (_, order) ← (List.range g.size).foldlM (fun (seen, order) v =>
    if v ∈ seen then .ok (seen, order) else g.search g.searchLimit [v] seen order)
    (([], []) : List Nat × List Nat)
  return order

/-- The nodes that lead to those of a stack and were not seen before, in the order in which a
backward search meets them. -/
def backward (g : Graph) : (room : Nat) → (stack seen found : List Nat) → List Nat × List Nat
  | 0, _, seen, found => (seen, found.reverse)
  | _, [], seen, found => (seen, found.reverse)
  | room + 1, v :: stack, seen, found =>
    if v ∈ seen then g.backward room stack seen found
    else
      let fresh := (g.previous v).filter fun w => decide (w ∉ v :: seen)
      g.backward room (fresh.reverse ++ stack) (v :: seen) (v :: found)

/-- The second node of the first backward search that finds more than its start. In an order in
which every edge leads forward there is none. -/
def circleIn (g : Graph) (seen : List Nat) : List Nat → Option Nat
  | [] => none
  | v :: rest =>
    match g.backward g.searchLimit [v] seen [] with
    | (_, _ :: w :: _) => some w
    | (seen, _) => g.circleIn seen rest

/-- The nodes in an order in which every edge leads forward, or a node on a circle. -/
def order (g : Graph) : Except Nat (List Nat) := do
  let order ← g.searchAll
  match g.circleIn [] order with
  | some v => throw v
  | none => return order

end Graph

end Clockwork
