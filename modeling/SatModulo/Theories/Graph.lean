import SatModulo.Literal

/-!
# Graphs with switched edges

A directed graph each of whose edges is switched by an atom. Parallel edges, loops and edges that share
an atom are allowed. Breadth-first search finds a shortest path along edges whose atoms are enabled. The
edges of a node are tried in the order in which the graph lists them, latest first unless it is made otherwise.
-/
namespace SatModulo

/-- An edge and the atom that switches it. -/
structure Edge where
  source : Nat
  target : Nat
  atom : Atom
  deriving DecidableEq, Repr

/-- A way to list the edges out of a node. -/
structure Listing where
  out : List Edge → Nat → List Edge
  perm : ∀ edges node, (out edges node).Perm (edges.filter (·.source == node))

/-- The edges that were added last come first. -/
def Listing.latestFirst : Listing where
  out edges node := edges.reverse.filter (·.source == node)
  perm edges _ := edges.reverse_perm.filter _

/-- A directed graph on the nodes below a number, with its edges in the order in which they were added. -/
structure Graph where
  nodes : Nat
  edges : List Edge := []
  listing : Listing := .latestFirst

namespace Graph

/-- Adds an edge, and as many nodes as its ends need. -/
def addEdge (g : Graph) (e : Edge) : Graph :=
  { g with nodes := max g.nodes (max (e.source + 1) (e.target + 1)), edges := g.edges ++ [e] }

def outgoing (g : Graph) (node : Nat) : List Edge := g.listing.out g.edges node

/-- Among some edges, the enabled ones to nodes that have not been visited, the first for each node. -/
def firstVisits (enabled : Atom → Bool) : List Edge → List Nat → List Edge
  | [], _ => []
  | e :: rest, visited =>
    if enabled e.atom && !visited.contains e.target then
      e :: firstVisits enabled rest (e.target :: visited)
    else firstVisits enabled rest visited

/-- Takes nodes, each with a path to it, from a queue until the target is met. The edges of a node are
tried in the order in which `out` lists them. -/
def search (out : Nat → List Edge) (enabled : Atom → Bool) (target : Nat) :
    Nat → List (Nat × List Edge) → List Nat → Option (List Edge)
  | 0, _, _ => none
  | _ + 1, [], _ => none
  | fuel + 1, (node, path) :: queue, visited =>
    if node = target then some path
    else
      let steps := firstVisits enabled (out node) visited
      search out enabled target fuel (queue ++ steps.map fun e => (e.target, path ++ [e]))
        (visited ++ steps.map (·.target))

/-- A path of enabled edges with as few edges as possible. No node is put into the queue twice, so as
many nodes as the graph has are taken at most. -/
def shortestPath (g : Graph) (enabled : Atom → Bool) (source target : Nat) : Option (List Edge) :=
  search g.outgoing enabled target (g.nodes + 1) [(source, [])] [source]

/-- Takes nodes from a queue until it is empty, and gives all nodes visited. -/
def explore (out : Nat → List Edge) (enabled : Atom → Bool) : Nat → List Nat → List Nat → List Nat
  | 0, _, visited => visited
  | _ + 1, [], visited => visited
  | fuel + 1, node :: queue, visited =>
    let steps := firstVisits enabled (out node) visited
    explore out enabled fuel (queue ++ steps.map (·.target)) (visited ++ steps.map (·.target))

/-- The nodes to which a path of enabled edges leads. -/
def reachable (g : Graph) (enabled : Atom → Bool) (source : Nat) : List Nat :=
  explore g.outgoing enabled (g.nodes + 1) [source] [source]

end Graph

end SatModulo
