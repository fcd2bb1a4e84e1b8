import SatModulo.Proofs.Connectivity
import Mathlib.Logic.Function.Basic

/-!
# Breadth-first search

A search has a flag for every node that it has visited, the edge by which it first met each of them, and a
queue. Where it meets its target it walks back along these edges. It takes no fuel: that it ends, and with one
answer only, is proved of the loop (`Search.Finds`), for every order in which the edges of a node are tried.

The nodes that wait are at depths that do not fall along the queue and differ by one at most, so the first path
found is as short as any (`Graph.length_le_of_search`). The loop does what is done with paths in the queue
(`Graph.finds_search`), so the theory of reachability finds shortest paths and cuts
(`Reachability.searches_exactly`).
-/
namespace SatModulo

/-! ### Layers -/

namespace Graph

variable {g : Graph} {out : Nat → List Edge} {enabled : Atom → Bool} {source target node : Nat}
  {queue visited : List Nat} {depth : Nat → Nat}

/-- Nodes are at depths that do not fall along the queue. No node is more than one below one that waits, nor,
once it has led to its neighbours, are these more than one below it. -/
structure Layered (g : Graph) (enabled : Atom → Bool) (source : Nat) (depth : Nat → Nat)
    (queue visited : List Nat) : Prop where
  base : depth source = 0
  ordered : queue.Pairwise fun x y => depth x ≤ depth y
  near : ∀ x ∈ visited, ∀ y ∈ queue, depth x ≤ depth y + 1
  closed : ∀ x ∈ visited, x ∈ queue ∨ ∀ y, g.Step enabled x y → depth y ≤ depth x + 1

/-- What is visited next is one below the node that leads to it. -/
def deepen (depth : Nat → Nat) (visited : List Nat) (node : Nat) (x : Nat) : Nat :=
  if x ∈ visited then depth x else depth node + 1

theorem deepen_of_mem {x : Nat} (seen : x ∈ visited) : deepen depth visited node x = depth x := if_pos seen

theorem deepen_of_not_mem {x : Nat} (new : x ∉ visited) : deepen depth visited node x = depth node + 1 :=
  if_neg new

theorem not_mem_of_nextVisits {x : Nat} (next : x ∈ nextVisits out enabled node visited) : x ∉ visited := by
  obtain ⟨e, first, rfl⟩ := List.mem_map.mp next
  exact (mem_firstVisits first).2.2

namespace Layered

theorem initial (g : Graph) (enabled : Atom → Bool) (source : Nat) :
    g.Layered enabled source (fun _ => 0) [source] [source] where
  base := rfl
  ordered := List.pairwise_singleton _ _
  near _ _ _ _ := Nat.zero_le _
  closed _ member := .inl member

theorem head_le (layered : g.Layered enabled source depth (node :: queue) visited) :
    ∀ x ∈ node :: queue, depth node ≤ depth x :=
  List.forall_mem_cons.mpr ⟨Nat.le_refl _, (List.pairwise_cons.mp layered.ordered).1⟩

/-- When a node leaves the queue for its neighbours, depths do not fall along the queue. -/
theorem advance (out : Nat → List Edge) (frontier : g.Frontier enabled source (node :: queue) visited)
    (layered : g.Layered enabled source depth (node :: queue) visited) :
    g.Layered enabled source (deepen depth visited node) (queue ++ nextVisits out enabled node visited)
      (visited ++ nextVisits out enabled node visited) := by
  have waits : ∀ x ∈ queue, x ∈ visited := fun x later => frontier.waiting x (.tail _ later)
  have head : node ∈ visited := frontier.waiting node (.head _)
  have bound : ∀ x ∈ visited, depth x ≤ depth node + 1 := fun x seen => layered.near x seen node (.head _)
  have old : ∀ x ∈ visited, deepen depth visited node x = depth x := fun x => deepen_of_mem
  have new : ∀ x ∈ nextVisits out enabled node visited, deepen depth visited node x = depth node + 1 :=
    fun x next => deepen_of_not_mem (not_mem_of_nextVisits next)
  have later : ∀ y ∈ queue ++ nextVisits out enabled node visited,
      depth node ≤ deepen depth visited node y := by
    refine List.forall_mem_append.mpr ⟨fun y waiting => ?_, fun y next => ?_⟩
    · rw [old y (waits y waiting)]
      exact layered.head_le y (.tail _ waiting)
    · rw [new y next]
      exact Nat.le_succ _
  -- No node that has been visited by now is more than one below the node that was taken.
  have shallow : ∀ x, deepen depth visited node x ≤ depth node + 1 := by
    intro x
    by_cases seen : x ∈ visited
    · rw [old x seen]
      exact bound x seen
    · exact Nat.le_of_eq (deepen_of_not_mem seen)
  refine ⟨?_, ?_, fun x _ y waiting => ?_, ?_⟩
  · rw [old source frontier.start, layered.base]
  · refine List.pairwise_append.mpr ⟨?_, ?_, fun x waiting y next => ?_⟩
    · refine (List.pairwise_cons.mp layered.ordered).2.imp_of_mem fun {x y} waitingX waitingY le => ?_
      rwa [old x (waits x waitingX), old y (waits y waitingY)]
    · refine List.pairwise_of_forall_mem_list fun x nextX y nextY => ?_
      exact Nat.le_of_eq ((new x nextX).trans (new y nextY).symm)
    · rw [new y next]
      exact shallow x
  · exact Nat.le_trans (shallow x) (Nat.succ_le_succ (later y waiting))
  · refine List.forall_mem_append.mpr ⟨fun x seen => ?_, fun x next => .inl (List.mem_append_right _ next)⟩
    by_cases waiting : x ∈ node :: queue
    · rcases List.mem_cons.mp waiting with rfl | waiting
      · refine .inr fun y _ => ?_
        rw [old x seen]
        exact shallow y
      · exact .inl (List.mem_append_left _ waiting)
    · refine .inr fun y step => ?_
      rw [old x seen, old y ((frontier.closed x seen).resolve_left waiting y step)]
      exact (layered.closed x seen).resolve_left waiting y step

/-- A walk to the first node that waits is no shorter than the node is deep: all nodes above it have led to
their neighbours. -/
theorem depth_le (frontier : g.Frontier enabled source (node :: queue) visited)
    (layered : g.Layered enabled source depth (node :: queue) visited) {path : List Edge}
    (walk : g.IsWalk enabled source path node) : depth node ≤ path.length := by
  have above : ∀ {x : Nat} {path : List Edge}, g.IsWalk enabled source path x → path.length < depth node →
      x ∈ visited ∧ depth x ≤ path.length := by
    intro x path walk
    induction walk with
    | nil => exact fun _ => ⟨frontier.start, Nat.le_of_eq layered.base⟩
    | @concat path e _ edge isEnabled ih =>
      intro short
      rw [List.length_append, List.length_singleton] at short ⊢
      obtain ⟨seen, le⟩ := ih (Nat.lt_of_succ_lt short)
      have taken : e.source ∉ node :: queue := fun waiting =>
        absurd (layered.head_le _ waiting) (by omega)
      have step : g.Step enabled e.source e.target := ⟨e, edge, isEnabled, rfl, rfl⟩
      refine ⟨(frontier.closed _ seen).resolve_left taken _ step, ?_⟩
      exact Nat.le_trans ((layered.closed _ seen).resolve_left taken _ step) (Nat.succ_le_succ le)
  by_contra short
  exact short (above walk (Nat.not_le.mp short)).2

end Layered

/-- What a search finds is no longer than any walk to the target. -/
theorem length_le_of_search (wellFormed : g.WellFormed) (lists : g.Lists out) {fuel : Nat}
    {queue : List (Nat × List Edge)} (frontier : g.Frontier enabled source (queue.map Prod.fst) visited)
    (layered : g.Layered enabled source depth (queue.map Prod.fst) visited)
    (lengths : ∀ entry ∈ queue, entry.2.length = depth entry.1) {path other : List Edge}
    (found : search out enabled target fuel queue visited = some path)
    (walk : g.IsWalk enabled source other target) : path.length ≤ other.length := by
  induction fuel generalizing queue visited depth with
  | zero => cases found
  | succ fuel ih =>
    cases queue with
    | nil => cases found
    | cons entry queue =>
      obtain ⟨node, first⟩ := entry
      rw [search] at found
      split at found
      · rename_i same
        subst same
        cases found
        rw [lengths _ (.head _)]
        exact layered.depth_le frontier walk
      · have frontier' := frontier.advance wellFormed lists
        have layered' := layered.advance out frontier
        rw [nextVisits, ← map_fst_advance queue _ first] at frontier' layered'
        refine ih frontier' layered' (List.forall_mem_append.mpr ⟨fun entry later => ?_, ?_⟩) found
        · rw [deepen_of_mem (frontier.waiting _ (.tail _ (List.mem_map_of_mem later)))]
          exact lengths entry (.tail _ later)
        · intro entry next
          obtain ⟨e, visits, rfl⟩ := List.mem_map.mp next
          rw [deepen_of_not_mem (mem_firstVisits visits).2.2, List.length_append, lengths _ (.head _)]
          rfl

end Graph

/-! ### The loops -/

/-- How far a search has come: the flags of the nodes it has visited, the edge by which it first met each of
them but the first, and the visited nodes that wait, in order. -/
structure Search where
  visited : Nat → Bool
  met : Nat → Option Edge
  queue : List Nat

namespace Search

variable {g : Graph} {nodes : Nat} {out : Nat → List Edge} {enabled : Atom → Bool}
  {source target node x : Nat} {s : Search} {met met' : Nat → Option Edge} {path path' : List Edge}

def start (source : Nat) : Search := ⟨fun x => x == source, fun _ => none, [source]⟩

/-- Visits the target of an edge, if the edge is enabled and the target was not visited before. -/
def follow (enabled : Atom → Bool) (s : Search) (e : Edge) : Search :=
  if !s.visited e.target && enabled e.atom then
    ⟨Function.update s.visited e.target true, Function.update s.met e.target (some e), s.queue ++ [e.target]⟩
  else s

/-- Takes the first node from the queue and follows the edges out of it. -/
def expand (enabled : Atom → Bool) (edges : List Edge) (s : Search) : Search :=
  edges.foldl (follow enabled) { s with queue := s.queue.tail }

/-- The walk back from a node, along the edges by which nodes were first met. Only nodes of the graph are looked
up. -/
inductive TracesBack (nodes : Nat) (met : Nat → Option Edge) : Nat → List Edge → Prop
  | first {x : Nat} (inside : x < nodes) (none : met x = none) : TracesBack nodes met x []
  | back {x : Nat} {e : Edge} {path : List Edge} (inside : x < nodes) (last : met x = some e)
    (earlier : TracesBack nodes met e.source path) : TracesBack nodes met x (path ++ [e])

/-- The loop that searches a target, and its answer. Only nodes of the graph are flagged. -/
inductive Finds (nodes : Nat) (out : Nat → List Edge) (enabled : Atom → Bool) (target : Nat) :
    Search → Option (List Edge) → Prop
  | exhausted {s : Search} (empty : s.queue = []) : Finds nodes out enabled target s none
  | reached {s : Search} {queue : List Nat} {path : List Edge} (first : s.queue = target :: queue)
    (traces : TracesBack nodes s.met target path) : Finds nodes out enabled target s (some path)
  | further {s : Search} {node : Nat} {queue : List Nat} {answer : Option (List Edge)}
    (first : s.queue = node :: queue) (other : node ≠ target) (inside : ∀ e ∈ out node, e.target < nodes)
    (rest : Finds nodes out enabled target (s.expand enabled (out node)) answer) :
    Finds nodes out enabled target s answer

/-- The loop that visits what can be reached, and the flags at its end. -/
inductive Marks (nodes : Nat) (out : Nat → List Edge) (enabled : Atom → Bool) : Search → (Nat → Bool) → Prop
  | exhausted {s : Search} (empty : s.queue = []) : Marks nodes out enabled s s.visited
  | further {s : Search} {node : Nat} {queue : List Nat} {marked : Nat → Bool} (first : s.queue = node :: queue)
    (inside : ∀ e ∈ out node, e.target < nodes)
    (rest : Marks nodes out enabled (s.expand enabled (out node)) marked) : Marks nodes out enabled s marked

/-- Each node was first met by one edge, so there is one way back. -/
theorem TracesBack.unique (traces : TracesBack nodes met x path) (traces' : TracesBack nodes met x path') :
    path = path' := by
  induction traces generalizing path' with
  | first _ none =>
    cases traces' with
    | first => rfl
    | back _ last => rw [none] at last; cases last
  | back _ last _ ih =>
    cases traces' with
    | first _ none => rw [none] at last; cases last
    | back _ last' earlier' =>
      obtain rfl := Option.some.inj (last.symm.trans last')
      rw [ih earlier']

/-- A loop has one answer only. -/
theorem Finds.unique {answer answer' : Option (List Edge)} (finds : Finds nodes out enabled target s answer)
    (finds' : Finds nodes out enabled target s answer') : answer = answer' := by
  induction finds with
  | exhausted empty =>
    cases finds' with
    | exhausted => rfl
    | reached first => rw [empty] at first; cases first
    | further first => rw [empty] at first; cases first
  | reached first traces =>
    cases finds' with
    | exhausted empty => rw [empty] at first; cases first
    | reached _ traces' => rw [traces.unique traces']
    | further first' other => exact absurd (List.cons.inj (first'.symm.trans first)).1 other
  | further first other _ _ ih =>
    cases finds' with
    | exhausted empty => rw [empty] at first; cases first
    | reached first' => exact absurd (List.cons.inj (first.symm.trans first')).1 other
    | further first' _ _ rest' =>
      obtain ⟨rfl, rfl⟩ := List.cons.inj (first.symm.trans first')
      exact ih rest'

/-- A loop leaves one set of flags only. -/
theorem Marks.unique {marked marked' : Nat → Bool} (marks : Marks nodes out enabled s marked)
    (marks' : Marks nodes out enabled s marked') : marked = marked' := by
  induction marks with
  | exhausted empty =>
    cases marks' with
    | exhausted => rfl
    | further first => rw [empty] at first; cases first
  | further first _ _ ih =>
    cases marks' with
    | exhausted empty => rw [empty] at first; cases first
    | further first' _ rest' =>
      obtain ⟨rfl, rfl⟩ := List.cons.inj (first.symm.trans first')
      exact ih rest'

/-! ### What the loops do -/

/-- The queue and the flags of a search, as lists of nodes. -/
structure Shows (s : Search) (queue visited : List Nat) : Prop where
  queue : s.queue = queue
  visited : ∀ x, s.visited x = true ↔ x ∈ visited

/-- A search at which each node that waits has a path, which is that of the walk back from it. -/
structure Carries (nodes : Nat) (s : Search) (queue : List (Nat × List Edge)) (visited : List Nat) :
    Prop where
  shows : s.Shows (queue.map Prod.fst) visited
  known : ∀ x e, s.met x = some e → e.source ∈ visited
  traces : ∀ entry ∈ queue, TracesBack nodes s.met entry.1 entry.2

variable {queue visited : List Nat}

theorem shows_start (source : Nat) : (start source).Shows [source] [source] :=
  ⟨rfl, fun x => by rw [start, beq_iff_eq, List.mem_singleton]⟩

/-- Edges that are followed lead to the nodes that they are first to visit, and only those are met by them. -/
theorem Shows.foldl_follow (enabled : Atom → Bool) (edges : List Edge) (shows : s.Shows queue visited) :
    (edges.foldl (follow enabled) s).Shows
        (queue ++ (Graph.firstVisits enabled edges visited).map Edge.target)
        (visited ++ (Graph.firstVisits enabled edges visited).map Edge.target) ∧
      (∀ e ∈ Graph.firstVisits enabled edges visited,
        (edges.foldl (follow enabled) s).met e.target = some e) ∧
      ∀ x, x ∉ (Graph.firstVisits enabled edges visited).map Edge.target →
        (edges.foldl (follow enabled) s).met x = s.met x := by
  induction edges generalizing s queue visited with
  | nil => simpa [Graph.firstVisits] using shows
  | cons e rest ih =>
    have flag : s.visited e.target = visited.contains e.target := by
      rw [Bool.eq_iff_iff, shows.visited, List.contains_iff_mem]
    rw [List.foldl_cons, follow, Graph.firstVisits, flag, Bool.and_comm]
    split
    · rename_i visits
      have shows' : Shows ⟨Function.update s.visited e.target true,
          Function.update s.met e.target (some e), s.queue ++ [e.target]⟩ (queue ++ [e.target])
          (e.target :: visited) := by
        refine ⟨by rw [shows.queue], fun x => ?_⟩
        by_cases same : x = e.target
        · simp [same]
        · simp [same, shows.visited]
      obtain ⟨after, now, before⟩ := ih shows'
      refine ⟨⟨by rw [after.queue, List.map_cons, List.append_assoc]; rfl, fun x => ?_⟩, ?_, ?_⟩
      · rw [after.visited, List.map_cons]
        simp only [List.mem_append, List.mem_cons]
        tauto
      · refine List.forall_mem_cons.mpr ⟨?_, now⟩
        rw [before e.target fun again => ?_]
        · exact Function.update_self ..
        · obtain ⟨later, visits', same⟩ := List.mem_map.mp again
          exact (Graph.mem_firstVisits visits').2.2 (same ▸ .head _)
      · intro x other
        rw [List.map_cons, List.mem_cons, not_or] at other
        rw [before x other.2]
        exact Function.update_of_ne other.1 ..
    · exact ih shows

theorem Shows.expand (shows : s.Shows (node :: queue) visited) (edges : List Edge) :
    (s.expand enabled edges).Shows (queue ++ (Graph.firstVisits enabled edges visited).map Edge.target)
      (visited ++ (Graph.firstVisits enabled edges visited).map Edge.target) :=
  (foldl_follow (s := { s with queue := s.queue.tail }) enabled edges
    ⟨by rw [shows.queue]; rfl, shows.visited⟩).1

/-- The walk back from a node does not change where other nodes are met. -/
theorem TracesBack.of_same (traces : TracesBack nodes met x path) (seen : x ∈ visited)
    (known : ∀ x e, met x = some e → e.source ∈ visited) (same : ∀ x ∈ visited, met' x = met x) :
    TracesBack nodes met' x path := by
  induction traces with
  | first inside none => exact .first inside ((same _ seen).trans none)
  | back inside last _ ih => exact .back inside ((same _ seen).trans last) (ih (known _ _ last))

theorem carries_start (inside : source < nodes) : (start source).Carries nodes [(source, [])] [source] :=
  ⟨shows_start source, nofun, List.forall_mem_singleton.mpr (.first inside rfl)⟩

/-- A node that is taken from the queue gives its path to the nodes that it leads to. -/
theorem Carries.expand {queue : List (Nat × List Edge)} (carries : s.Carries nodes ((node, path) :: queue) visited)
    (waiting : ∀ x ∈ node :: queue.map Prod.fst, x ∈ visited) {edges : List Edge}
    (leave : ∀ e ∈ edges, e.source = node ∧ e.target < nodes) :
    (s.expand enabled edges).Carries nodes
      (queue ++ (Graph.firstVisits enabled edges visited).map fun e => (e.target, path ++ [e]))
      (visited ++ (Graph.firstVisits enabled edges visited).map Edge.target) := by
  obtain ⟨-, now, before⟩ := Shows.foldl_follow (s := { s with queue := s.queue.tail }) enabled edges
    ⟨rfl, carries.shows.visited⟩
  have same : ∀ x ∈ visited, (s.expand enabled edges).met x = s.met x := by
    refine fun x seen => before x fun next => ?_
    obtain ⟨e, visits, rfl⟩ := List.mem_map.mp next
    exact (Graph.mem_firstVisits visits).2.2 seen
  have seen : node ∈ visited := waiting node (.head _)
  refine ⟨?_, fun x e last => List.mem_append_left _ ?_, List.forall_mem_append.mpr ⟨fun entry later => ?_, ?_⟩⟩
  · rw [Graph.map_fst_advance]
    exact carries.shows.expand edges
  · by_cases next : x ∈ (Graph.firstVisits enabled edges visited).map Edge.target
    · obtain ⟨e', visits, rfl⟩ := List.mem_map.mp next
      obtain rfl : e' = e := Option.some.inj ((now e' visits).symm.trans last)
      rwa [(leave e' (Graph.mem_firstVisits visits).1).1]
    · exact carries.known x e ((before x next).symm.trans last)
  · exact (carries.traces entry (.tail _ later)).of_same (waiting _ (.tail _ (List.mem_map_of_mem later)))
      carries.known same
  · intro entry next
    obtain ⟨e, visits, rfl⟩ := List.mem_map.mp next
    obtain ⟨from', inside⟩ := leave e (Graph.mem_firstVisits visits).1
    refine .back inside (now e visits) ?_
    rw [from']
    exact (carries.traces _ (.head _)).of_same seen carries.known same

end Search

namespace Graph

open Search

variable {g : Graph} {out : Nat → List Edge} {enabled : Atom → Bool} {source target : Nat}
  {queue visited : List Nat} {s : Search}

theorem WellFormed.leave (wellFormed : g.WellFormed) (lists : g.Lists out) (node : Nat) :
    ∀ e ∈ out node, e.source = node ∧ e.target < g.nodes := fun e listed =>
  ⟨(lists.mem_iff.mp listed).2, (wellFormed e (lists.mem_iff.mp listed).1).2⟩

/-- The loop ends, with the answer that paths in the queue give. -/
theorem finds_search (wellFormed : g.WellFormed) (lists : g.Lists out) {fuel : Nat}
    {queue : List (Nat × List Edge)} (frontier : g.Frontier enabled source (queue.map Prod.fst) visited)
    (carries : s.Carries g.nodes queue visited) (enough : g.nodes + queue.length < fuel + visited.length) :
    Finds g.nodes out enabled target s (search out enabled target fuel queue visited) := by
  induction fuel generalizing queue visited s with
  | zero => exact absurd frontier.length_le (by omega)
  | succ fuel ih =>
    cases queue with
    | nil => exact .exhausted carries.shows.queue
    | cons entry queue =>
      obtain ⟨node, path⟩ := entry
      rw [search]
      by_cases found : node = target
      · subst found
        rw [if_pos rfl]
        exact .reached carries.shows.queue (carries.traces _ (.head _))
      · rw [if_neg found]
        have leave := wellFormed.leave lists node
        have frontier' := frontier.advance wellFormed lists
        rw [nextVisits, ← map_fst_advance queue _ path] at frontier'
        refine .further carries.shows.queue found (fun e listed => (leave e listed).2) (ih frontier' ?_ ?_)
        · exact carries.expand frontier.waiting leave
        · rw [List.length_cons] at enough
          simp only [List.length_append, List.length_map]
          omega

/-- The loop that visits what can be reached ends, with the flags of the nodes that are visited. -/
theorem marks_explore (wellFormed : g.WellFormed) (lists : g.Lists out) {fuel : Nat}
    (frontier : g.Frontier enabled source queue visited) (shows : s.Shows queue visited)
    (enough : g.nodes + queue.length < fuel + visited.length) :
    ∃ marked, Marks g.nodes out enabled s marked ∧
      ∀ x, marked x = true ↔ x ∈ explore out enabled fuel queue visited := by
  induction fuel generalizing queue visited s with
  | zero => exact absurd frontier.length_le (by omega)
  | succ fuel ih =>
    cases queue with
    | nil => exact ⟨s.visited, .exhausted shows.queue, shows.visited⟩
    | cons node queue =>
      obtain ⟨marked, marks, same⟩ := ih (frontier.advance wellFormed lists) (shows.expand (out node)) (by
        rw [List.length_cons] at enough
        simp only [nextVisits, List.length_append, List.length_map]
        omega)
      exact ⟨marked, .further shows.queue (fun e listed => (wellFormed.leave lists node e listed).2) marks, same⟩

/-- The edges that lead from marked nodes to nodes that are not. -/
def leaving (g : Graph) (marked : Nat → Bool) : List Edge :=
  g.edges.filter fun e => marked e.source && !marked e.target

theorem mem_leaving {marked : Nat → Bool} {e : Edge} :
    e ∈ g.leaving marked ↔ e ∈ g.edges ∧ marked e.source = true ∧ marked e.target = false := by
  rw [leaving, List.mem_filter, Bool.and_eq_true, Bool.not_eq_true']

/-- A walk from a marked node to one that is not uses an edge between such nodes. -/
theorem IsWalk.exists_leaving {marked : Nat → Bool} {path : List Edge}
    (walk : g.IsWalk enabled source path target) (near : marked source = true)
    (far : marked target = false) : ∃ e ∈ path, e ∈ g.leaving marked := by
  induction walk with
  | nil => rw [near] at far; cases far
  | @concat path e _ edge _ ih =>
    by_cases already : marked e.source = true
    · exact ⟨e, List.mem_append_right _ (.head _), mem_leaving.mpr ⟨edge, already, far⟩⟩
    · obtain ⟨e', earlier, leaves⟩ := ih (Bool.not_eq_true _ ▸ already)
      exact ⟨e', List.mem_append_left _ earlier, leaves⟩

end Graph

/-! ### The searches of reachability -/

/-- Which edges a search goes along: those that are true, or those that are not false. -/
inductive Approximation where
  | under
  | over

def Approximation.enables (approximation : Approximation) (status : Atom → Option Bool) (a : Atom) : Bool :=
  match approximation with
  | .under => status a == some true
  | .over => status a != some false

namespace Reachability

/-- The search for a path, where the edges of a node are tried in the order of `out`, and its answer. -/
def Finds (t : Reachability) (out : Nat → List Edge) (status : Atom → Option Bool)
    (approximation : Approximation) : Option (List Edge) → Prop :=
  Search.Finds t.graph.nodes out (approximation.enables status) t.target (.start t.source)

/-- The search for what may be reached, and the flags at its end. -/
def Marks (t : Reachability) (out : Nat → List Edge) (status : Atom → Option Bool) : (Nat → Bool) → Prop :=
  Search.Marks t.graph.nodes out (Approximation.over.enables status) (.start t.source)

/-- The searches for a path and for what may be reached end and are right, where atoms have the given values and
the edges of a node are tried in the order of `out`. -/
structure SearchesExactly (t : Reachability) (out : Nat → List Edge) (status : Atom → Option Bool) : Prop where
  ends : ∀ approximation, ∃! answer, t.Finds out status approximation answer
  none_iff : ∀ approximation, t.Finds out status approximation none ↔
    ¬t.graph.Connects (approximation.enables status) t.source t.target
  shortest : ∀ approximation path, t.Finds out status approximation (some path) →
    t.graph.IsWalk (approximation.enables status) t.source path t.target ∧
      ∀ other, t.graph.IsWalk (approximation.enables status) t.source other t.target →
        path.length ≤ other.length
  empty : t.source = t.target → ∀ approximation, t.Finds out status approximation (some [])
  marks : ∃! marked, t.Marks out status marked
  marked_iff : ∀ marked, t.Marks out status marked → ∀ node,
    marked node = true ↔ t.graph.Connects (Approximation.over.enables status) t.source node
  /-- The clause of a cut names the edges that leave what is marked. -/
  names : ∀ marked, t.Marks out status marked → ∀ facts, factValue facts = status →
    t.cutClause facts = (Literal.ofAtom t.reach false).map fun unreached =>
      Clause.addAllNew [unreached] ((t.graph.leaving marked).map fun e => .positive e.atom)
  falsified : ∀ marked, t.Marks out status marked → ∀ e ∈ t.graph.leaving marked, status e.atom = some false
  separates : ∀ marked, t.Marks out status marked →
    ¬t.graph.Connects (Approximation.over.enables status) t.source t.target →
    ∀ path, t.graph.IsWalk (fun _ => true) t.source path t.target → ∃ e ∈ path, e ∈ t.graph.leaving marked
  /-- The paths of the theory are the answers where the edges of a node are tried latest first. -/
  paths : ∀ facts, factValue facts = status →
    t.Finds t.graph.outgoing status .under (t.truePath facts) ∧
      t.Finds t.graph.outgoing status .over (t.possiblePath facts)

variable {t : Reachability} {out : Nat → List Edge} {status : Atom → Option Bool}
  {approximation : Approximation} {marked : Nat → Bool}

section Searches

variable (wellFormed : t.graph.WellFormed) (inside : t.source < t.graph.nodes) (lists : t.graph.Lists out)

include wellFormed inside lists

/-- The answer is that of the search with paths in the queue. -/
theorem finds_search (status : Atom → Option Bool) (approximation : Approximation) :
    t.Finds out status approximation (Graph.search out (approximation.enables status) t.target
      (t.graph.nodes + 1) [(t.source, [])] [t.source]) :=
  Graph.finds_search wellFormed lists (.initial inside) (Search.carries_start inside) (by simp)

/-- A search for a path ends, with a walk as short as any or where there is none. -/
theorem exists_finds (status : Atom → Option Bool) (approximation : Approximation) :
    ∃ answer, t.Finds out status approximation answer ∧
      (answer = none → ¬t.graph.Connects (approximation.enables status) t.source t.target) ∧
      ∀ path, answer = some path → t.graph.IsWalk (approximation.enables status) t.source path t.target ∧
        ∀ other, t.graph.IsWalk (approximation.enables status) t.source other t.target →
          path.length ≤ other.length := by
  have spec := Graph.search_start_spec wellFormed lists inside (approximation.enables status) t.target
  refine ⟨_, finds_search wellFormed inside lists status approximation, fun found => ?_, fun path found => ?_⟩
  · rwa [found] at spec
  · rw [found] at spec
    refine ⟨spec, fun other walk => ?_⟩
    exact Graph.length_le_of_search wellFormed lists (.initial inside) (.initial ..)
      (List.forall_mem_singleton.mpr rfl) found walk

theorem finds_none_iff : t.Finds out status approximation none ↔
    ¬t.graph.Connects (approximation.enables status) t.source t.target := by
  obtain ⟨answer, finds, absent, walks⟩ := exists_finds wellFormed inside lists status approximation
  refine ⟨fun finds' => absent (finds.unique finds'), fun apart => ?_⟩
  cases answer with
  | none => exact finds
  | some path => exact absurd (walks path rfl).1.connects apart

theorem shortest_of_finds {path : List Edge} (finds : t.Finds out status approximation (some path)) :
    t.graph.IsWalk (approximation.enables status) t.source path t.target ∧
      ∀ other, t.graph.IsWalk (approximation.enables status) t.source other t.target →
        path.length ≤ other.length := by
  obtain ⟨answer, finds', _, walks⟩ := exists_finds wellFormed inside lists status approximation
  exact walks path (finds'.unique finds)

/-- From a node to itself the empty path is found. -/
theorem finds_nil (same : t.source = t.target) : t.Finds out status approximation (some []) := by
  obtain ⟨answer, finds, absent, walks⟩ := exists_finds wellFormed inside lists status approximation
  have here : t.graph.IsWalk (approximation.enables status) t.source [] t.target := same ▸ .nil
  cases answer with
  | none => exact absurd here.connects (absent rfl)
  | some path => rwa [List.length_eq_zero_iff.mp (Nat.le_zero.mp ((walks path rfl).2 [] here))] at finds

/-- The search for what may be reached ends, and marks it. -/
theorem exists_marks (status : Atom → Option Bool) : ∃ marked, t.Marks out status marked ∧
    ∀ node, marked node = true ↔ t.graph.Connects (Approximation.over.enables status) t.source node := by
  have frontier : t.graph.Frontier (Approximation.over.enables status) t.source [t.source] [t.source] :=
    .initial inside
  obtain ⟨marked, marks, same⟩ : ∃ marked, t.Marks out status marked ∧ ∀ x, marked x = true ↔
      x ∈ Graph.explore out (Approximation.over.enables status) (t.graph.nodes + 1) [t.source] [t.source] :=
    Graph.marks_explore wellFormed lists frontier (Search.shows_start t.source) (by simp)
  refine ⟨marked, marks, fun node => ?_⟩
  rw [same, Graph.mem_explore_iff wellFormed lists frontier (by simp)]

theorem marked_iff_connects (marks : t.Marks out status marked) (node : Nat) :
    marked node = true ↔ t.graph.Connects (Approximation.over.enables status) t.source node := by
  obtain ⟨marked', marks', reached⟩ := exists_marks wellFormed inside lists status
  rw [marks.unique marks', reached]

/-- The clause of a cut does not depend on the order in which the edges of a node are tried. -/
theorem cutClause_of_marks {facts : List Literal} (marks : t.Marks out (factValue facts) marked) :
    t.cutClause facts = (Literal.ofAtom t.reach false).map fun unreached =>
      Clause.addAllNew [unreached] ((t.graph.leaving marked).map fun e => .positive e.atom) := by
  have near : ∀ x, (t.graph.reachable (fun a => factValue facts a != some false) t.source).contains x =
      marked x := by
    intro x
    rw [Bool.eq_iff_iff, List.contains_iff_mem, Graph.mem_reachable_iff wellFormed inside]
    exact (marked_iff_connects wellFormed inside lists marks x).symm
  unfold cutClause Graph.leaving
  simp only [near]
  cases Literal.ofAtom t.reach false <;> rfl

theorem value_of_leaving (marks : t.Marks out status marked) {e : Edge} (leaves : e ∈ t.graph.leaving marked) :
    status e.atom = some false := by
  have reached := marked_iff_connects wellFormed inside lists marks
  obtain ⟨edge, near, far⟩ := Graph.mem_leaving.mp leaves
  by_contra notFalse
  have next : t.graph.Connects (Approximation.over.enables status) t.source e.target :=
    .tail ((reached _).mp near) ⟨e, edge, bne_iff_ne.mpr notFalse, rfl, rfl⟩
  rw [(reached _).mpr next] at far
  cases far

/-- Where the target may not be reached, every walk to it uses an edge that leaves what is marked. -/
theorem exists_leaving_of_walk (marks : t.Marks out status marked)
    (apart : ¬t.graph.Connects (Approximation.over.enables status) t.source t.target) {path : List Edge}
    (walk : t.graph.IsWalk (fun _ => true) t.source path t.target) :
    ∃ e ∈ path, e ∈ t.graph.leaving marked := by
  have reached := marked_iff_connects wellFormed inside lists marks
  exact walk.exists_leaving ((reached _).mpr .refl) (Bool.not_eq_true _ ▸ mt (reached _).mp apart)

/-- Whatever the order in which the edges of a node are tried, breadth-first search ends, on both approximations
and whatever the values of the atoms. It answers that there is no path exactly if there is none, and else gives a
shortest one; it marks exactly the nodes that may be reached; and where the target may not, all edges that the
clause of the cut names are false, and every path to the target uses one of them. -/
theorem searches_exactly (status : Atom → Option Bool) : t.SearchesExactly out status where
  ends approximation := by
    obtain ⟨answer, finds, _⟩ := exists_finds wellFormed inside lists status approximation
    exact ⟨answer, finds, fun other finds' => finds'.unique finds⟩
  none_iff _ := finds_none_iff wellFormed inside lists
  shortest _ _ := shortest_of_finds wellFormed inside lists
  empty same _ := finds_nil wellFormed inside lists same
  marks := by
    obtain ⟨marked, marks, _⟩ := exists_marks wellFormed inside lists status
    exact ⟨marked, marks, fun other marks' => marks'.unique marks⟩
  marked_iff _ := marked_iff_connects wellFormed inside lists
  names := by
    rintro marked marks facts rfl
    exact cutClause_of_marks wellFormed inside lists marks
  falsified _ marks _ := value_of_leaving wellFormed inside lists marks
  separates _ marks apart _ := exists_leaving_of_walk wellFormed inside lists marks apart
  paths := by
    rintro facts rfl
    have finds := finds_search wellFormed inside t.graph.lists_outgoing (factValue facts)
    exact ⟨finds .under, finds .over⟩

end Searches

/-- With parallel edges, a loop and edges on one atom, and where the edges of a node are tried earliest first, the
search ends without a path, and every path uses one of the two edges that the cut names. -/
theorem searches_exactly_earliest_first :
    ∃ (t : Reachability) (out : Nat → List Edge) (status : Atom → Option Bool),
      t = [⟨0, 1, 2⟩, ⟨0, 1, 2⟩, ⟨1, 1, 3⟩, ⟨1, 2, 3⟩, ⟨0, 2, 1⟩].foldl addEdge (.ofNodes 3 0 2 4) ∧
      (∀ node, out node = t.graph.edges.filter (·.source == node)) ∧
      status = factValue [⟨2⟩, ⟨-3⟩, ⟨-1⟩] ∧ t.graph.WellFormed ∧ t.source < t.graph.nodes ∧
      t.graph.Lists out ∧ t.SearchesExactly out status ∧ t.Finds out status .over none ∧
      t.cutClause [⟨2⟩, ⟨-3⟩, ⟨-1⟩] = .ok [⟨-4⟩, ⟨3⟩, ⟨1⟩] ∧
      ∃ marked, t.Marks out status marked ∧
        ∀ path, t.graph.IsWalk (fun _ => true) t.source path t.target → ∃ e ∈ path, e ∈ t.graph.leaving marked := by
  let t : Reachability :=
    [⟨0, 1, 2⟩, ⟨0, 1, 2⟩, ⟨1, 1, 3⟩, ⟨1, 2, 3⟩, ⟨0, 2, 1⟩].foldl addEdge (.ofNodes 3 0 2 4)
  have wellFormed : t.graph.WellFormed := by unfold Graph.WellFormed; decide
  have inside : t.source < t.graph.nodes := by decide
  have lists : t.graph.Lists fun node => t.graph.edges.filter (·.source == node) := fun _ => .refl _
  have exact' := searches_exactly wellFormed inside lists (factValue [⟨2⟩, ⟨-3⟩, ⟨-1⟩])
  have none' : t.possiblePath [⟨2⟩, ⟨-3⟩, ⟨-1⟩] = none := by decide
  have apart := (Graph.shortestPath_eq_none_iff wellFormed inside).mp none'
  obtain ⟨marked, marks, _⟩ := exact'.marks
  exact ⟨t, _, _, rfl, fun _ => rfl, rfl, wellFormed, inside, lists, exact', (exact'.none_iff .over).mpr apart,
    by decide +kernel, marked, marks, exact'.separates marked marks apart⟩

end Reachability

end SatModulo
