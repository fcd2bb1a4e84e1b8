import SatModulo.Theories.Graph
import Mathlib.Data.List.Perm.Subperm
import Mathlib.Logic.Relation

/-!
# Paths

What breadth-first search finds. The nodes visited so far are reached, and each of them waits in the
queue or has led to all its neighbours (`Frontier`); when the queue is empty they are all that can be
reached (`Frontier.mem_iff`). As no node is visited twice, the queue is empty before the fuel runs out.
So a graph is explored in full (`mem_reachable_iff`), and a path is found exactly if there is one
(`shortestPath_eq_none_iff`).
-/
namespace SatModulo

namespace Graph

variable {g : Graph} {out : Nat → List Edge} {enabled : Atom → Bool} {source target node : Nat}
  {queue visited : List Nat}

def WellFormed (g : Graph) : Prop := ∀ e ∈ g.edges, e.source < g.nodes ∧ e.target < g.nodes

def Step (g : Graph) (enabled : Atom → Bool) (x y : Nat) : Prop :=
  ∃ e ∈ g.edges, enabled e.atom = true ∧ e.source = x ∧ e.target = y

/-- The edges out of each node are listed, in any order. -/
def Lists (g : Graph) (out : Nat → List Edge) : Prop :=
  ∀ node, (out node).Perm (g.edges.filter (·.source == node))

/-- A path of enabled edges leads from one node to another. -/
def Connects (g : Graph) (enabled : Atom → Bool) : Nat → Nat → Prop :=
  Relation.ReflTransGen (g.Step enabled)

/-- The edges of a path from one node to another, first edge first. -/
inductive IsWalk (g : Graph) (enabled : Atom → Bool) (x : Nat) : List Edge → Nat → Prop
  | nil : IsWalk g enabled x [] x
  | concat {path : List Edge} {e : Edge} (walk : IsWalk g enabled x path e.source)
    (member : e ∈ g.edges) (isEnabled : enabled e.atom = true) :
    IsWalk g enabled x (path ++ [e]) e.target

theorem IsWalk.forall_enabled {path : List Edge} (walk : g.IsWalk enabled source path target) :
    ∀ e ∈ path, enabled e.atom = true := by
  induction walk with
  | nil => exact nofun
  | concat _ _ isEnabled ih =>
    rintro e member
    rcases List.mem_append.mp member with earlier | last
    · exact ih e earlier
    · rwa [List.mem_singleton.mp last]

theorem IsWalk.mem_edges {path : List Edge} (walk : g.IsWalk enabled source path target) :
    ∀ e ∈ path, e ∈ g.edges := by
  induction walk with
  | nil => exact nofun
  | concat _ edge _ ih => exact List.forall_mem_append.mpr ⟨ih, List.forall_mem_singleton.mpr edge⟩

/-- A path connects its ends wherever its edges are enabled. -/
theorem IsWalk.connects_of {enabled' : Atom → Bool} {path : List Edge}
    (walk : g.IsWalk enabled source path target) (still : ∀ e ∈ path, enabled' e.atom = true) :
    g.Connects enabled' source target := by
  induction walk with
  | nil => exact .refl
  | concat _ member _ ih =>
    refine .tail (ih fun e earlier => still e (List.mem_append_left _ earlier)) ?_
    exact ⟨_, member, still _ (List.mem_append_right _ (.head _)), rfl, rfl⟩

theorem IsWalk.connects {path : List Edge} (walk : g.IsWalk enabled source path target) :
    g.Connects enabled source target :=
  walk.connects_of walk.forall_enabled

theorem Connects.mono {enabled' : Atom → Bool} (connects : g.Connects enabled source target)
    (weaker : ∀ e ∈ g.edges, enabled e.atom = true → enabled' e.atom = true) :
    g.Connects enabled' source target := by
  refine Relation.ReflTransGen.mono (fun x y step => ?_) _ _ connects
  obtain ⟨e, member, isEnabled, ends⟩ := step
  exact ⟨e, member, weaker e member isEnabled, ends⟩

/-- A path that leaves a set of nodes crosses its border. -/
theorem Connects.exists_crossing (connects : g.Connects enabled source target) (near : Nat → Prop)
    (inside : near source) (outside : ¬near target) :
    ∃ e ∈ g.edges, enabled e.atom = true ∧ near e.source ∧ ¬near e.target := by
  induction connects with
  | refl => exact absurd inside outside
  | @tail y z _ step ih =>
    by_cases already : near y
    · obtain ⟨e, member, isEnabled, rfl, rfl⟩ := step
      exact ⟨e, member, isEnabled, already, outside⟩
    · exact ih already

/-! ### Search -/

theorem Lists.mem_iff (lists : g.Lists out) {e : Edge} :
    e ∈ out node ↔ e ∈ g.edges ∧ e.source = node := by
  rw [(lists node).mem_iff, List.mem_filter, beq_iff_eq]

theorem lists_outgoing (g : Graph) : g.Lists g.outgoing := g.listing.perm g.edges

theorem mem_firstVisits {edges : List Edge} {e : Edge} (member : e ∈ firstVisits enabled edges visited) :
    e ∈ edges ∧ enabled e.atom = true ∧ e.target ∉ visited := by
  induction edges generalizing visited with
  | nil => cases member
  | cons first rest ih =>
    rw [firstVisits] at member
    split at member
    · rename_i visits
      rw [Bool.and_eq_true, Bool.not_eq_true', List.contains_eq_mem, decide_eq_false_iff_not] at visits
      rcases List.mem_cons.mp member with rfl | later
      · exact ⟨.head _, visits⟩
      · obtain ⟨inRest, isEnabled, new⟩ := ih later
        exact ⟨.tail _ inRest, isEnabled, fun seen => new (.tail _ seen)⟩
    · obtain ⟨inRest, isEnabled, new⟩ := ih member
      exact ⟨.tail _ inRest, isEnabled, new⟩

theorem nodup_firstVisits (edges : List Edge) :
    ((firstVisits enabled edges visited).map Edge.target).Nodup := by
  induction edges generalizing visited with
  | nil => exact List.nodup_nil
  | cons first rest ih =>
    rw [firstVisits]
    split
    · refine List.nodup_cons.mpr ⟨fun again => ?_, ih⟩
      obtain ⟨e, later, same⟩ := List.mem_map.mp again
      exact (mem_firstVisits later).2.2 (same ▸ .head _)
    · exact ih

/-- The target of every enabled edge was visited before or is visited now. -/
theorem visited_of_mem {edges : List Edge} {e : Edge} (member : e ∈ edges)
    (isEnabled : enabled e.atom = true) :
    e.target ∈ visited ∨ e.target ∈ (firstVisits enabled edges visited).map Edge.target := by
  induction edges generalizing visited with
  | nil => cases member
  | cons first rest ih =>
    rw [firstVisits]
    rcases List.mem_cons.mp member with rfl | later
    · split
      · exact .inr (.head _)
      · rename_i skipped
        rw [isEnabled, Bool.true_and, Bool.not_eq_true', Bool.not_eq_false, List.contains_iff_mem]
          at skipped
        exact .inl skipped
    · split
      · rcases @ih (first.target :: visited) later with seen | now
        · rcases List.mem_cons.mp seen with same | before
          · exact .inr (List.mem_cons.mpr (.inl same))
          · exact .inl before
        · exact .inr (.tail _ now)
      · exact ih later

/-- The nodes that a search visits next. -/
def nextVisits (out : Nat → List Edge) (enabled : Atom → Bool) (node : Nat) (visited : List Nat) :
    List Nat :=
  (firstVisits enabled (out node) visited).map Edge.target

/-- Nodes that a search has visited, some of which wait in the queue. -/
structure Frontier (g : Graph) (enabled : Atom → Bool) (source : Nat) (queue visited : List Nat) :
    Prop where
  start : source ∈ visited
  distinct : visited.Nodup
  inside : ∀ x ∈ visited, x < g.nodes
  reached : ∀ x ∈ visited, g.Connects enabled source x
  waiting : ∀ x ∈ queue, x ∈ visited
  closed : ∀ x ∈ visited, x ∈ queue ∨ ∀ y, g.Step enabled x y → y ∈ visited

namespace Frontier

theorem initial (inside : source < g.nodes) : g.Frontier enabled source [source] [source] where
  start := .head _
  distinct := List.pairwise_singleton _ _
  inside := by
    rintro x member
    rwa [List.mem_singleton.mp member]
  reached := by
    rintro x member
    rw [List.mem_singleton.mp member]
    exact .refl
  waiting := fun _ member => member
  closed := fun _ member => .inl member

/-- A node that is taken from the queue leads to its neighbours. -/
theorem advance (wellFormed : g.WellFormed) (lists : g.Lists out)
    (h : g.Frontier enabled source (node :: queue) visited) :
    g.Frontier enabled source (queue ++ nextVisits out enabled node visited)
      (visited ++ nextVisits out enabled node visited) := by
  have isNext : ∀ y ∈ nextVisits out enabled node visited,
      y ∉ visited ∧ y < g.nodes ∧ g.Step enabled node y := by
    intro y member
    obtain ⟨e, first, rfl⟩ := List.mem_map.mp member
    obtain ⟨listed, isEnabled, new⟩ := mem_firstVisits first
    obtain ⟨edge, from'⟩ := lists.mem_iff.mp listed
    exact ⟨new, (wellFormed e edge).2, e, edge, isEnabled, from', rfl⟩
  refine ⟨List.mem_append_left _ h.start, ?_, ?_, ?_, ?_, ?_⟩
  · refine List.nodup_append.mpr ⟨h.distinct, nodup_firstVisits _, fun x old y next same => ?_⟩
    exact (isNext y next).1 (same ▸ old)
  · exact List.forall_mem_append.mpr ⟨h.inside, fun y next => (isNext y next).2.1⟩
  · refine List.forall_mem_append.mpr ⟨h.reached, fun y next => ?_⟩
    exact .tail (h.reached node (h.waiting node (.head _))) (isNext y next).2.2
  · refine List.forall_mem_append.mpr ⟨fun x member => ?_, fun y next => List.mem_append_right _ next⟩
    exact List.mem_append_left _ (h.waiting x (.tail _ member))
  · refine List.forall_mem_append.mpr ⟨fun x old => ?_, fun y next => .inl (List.mem_append_right _ next)⟩
    rcases h.closed x old with waits | closed
    · rcases List.mem_cons.mp waits with rfl | later
      · refine .inr fun y step => ?_
        obtain ⟨e, edge, isEnabled, from', rfl⟩ := step
        exact List.mem_append.mpr (visited_of_mem (lists.mem_iff.mpr ⟨edge, from'⟩) isEnabled)
      · exact .inl (List.mem_append_left _ later)
    · exact .inr fun y step => List.mem_append_left _ (closed y step)

theorem length_le (h : g.Frontier enabled source queue visited) : visited.length ≤ g.nodes := by
  have bounded := List.Subperm.length_le
    (h.distinct.subperm fun x member => List.mem_range.mpr (h.inside x member))
  rwa [List.length_range] at bounded

/-- When nothing waits, all that can be reached was visited. -/
theorem mem_iff (h : g.Frontier enabled source [] visited) :
    node ∈ visited ↔ g.Connects enabled source node := by
  refine ⟨h.reached node, fun connects => ?_⟩
  induction connects with
  | refl => exact h.start
  | tail _ step ih => exact ((h.closed _ ih).resolve_left List.not_mem_nil) _ step

end Frontier

/-- With fuel for every node that is not yet visited, just the nodes that are connected with the source are visited.
-/
theorem mem_explore_iff (wellFormed : g.WellFormed) (lists : g.Lists out) {fuel : Nat}
    (frontier : g.Frontier enabled source queue visited)
    (enough : g.nodes + queue.length < fuel + visited.length) :
    node ∈ explore out enabled fuel queue visited ↔ g.Connects enabled source node := by
  induction fuel generalizing queue visited with
  | zero => exact absurd frontier.length_le (by omega)
  | succ fuel ih =>
    cases queue with
    | nil => exact frontier.mem_iff
    | cons next queue =>
      refine ih (frontier.advance wellFormed lists) ?_
      rw [List.length_append, List.length_append]
      rw [List.length_cons] at enough
      omega

/-- Exploring a graph gives the nodes to which a path of enabled edges leads. -/
theorem mem_reachable_iff (wellFormed : g.WellFormed) (inside : source < g.nodes) :
    node ∈ g.reachable enabled source ↔ g.Connects enabled source node :=
  mem_explore_iff wellFormed g.lists_outgoing (.initial inside) (by simp)

/-- A search goes along edges of the graph. -/
theorem mem_edges_of_search (lists : g.Lists out) {fuel : Nat} {queue : List (Nat × List Edge)}
    {path : List Edge} (walks : ∀ entry ∈ queue, ∀ e ∈ entry.2, e ∈ g.edges)
    (found : search out enabled target fuel queue visited = some path) : ∀ e ∈ path, e ∈ g.edges := by
  induction fuel generalizing queue visited with
  | zero => cases found
  | succ fuel ih =>
    cases queue with
    | nil => cases found
    | cons entry queue =>
      obtain ⟨node, walk⟩ := entry
      obtain ⟨first, others⟩ := List.forall_mem_cons.mp walks
      rw [search] at found
      split at found
      · cases found
        exact first
      · refine ih (List.forall_mem_append.mpr ⟨others, fun entry member => ?_⟩) found
        obtain ⟨e, next, rfl⟩ := List.mem_map.mp member
        have edge := (lists.mem_iff.mp (mem_firstVisits next).1).1
        exact List.forall_mem_append.mpr ⟨first, List.forall_mem_singleton.mpr edge⟩

theorem mem_edges_of_shortestPath {path : List Edge}
    (found : g.shortestPath enabled source target = some path) : ∀ e ∈ path, e ∈ g.edges :=
  mem_edges_of_search g.lists_outgoing (List.forall_mem_singleton.mpr (List.forall_mem_nil _)) found

/-- The names of the nodes in a queue of nodes with paths, after a node was taken. -/
theorem map_fst_advance (queue : List (Nat × List Edge)) (steps : List Edge) (path : List Edge) :
    (queue ++ steps.map fun e => (e.target, path ++ [e])).map Prod.fst =
      queue.map Prod.fst ++ steps.map Edge.target := by
  rw [List.map_append, List.map_map]
  rfl

/-- A search gives a path, and if it gives none there is none. -/
theorem search_spec (wellFormed : g.WellFormed) (lists : g.Lists out) {fuel : Nat}
    {queue : List (Nat × List Edge)}
    (frontier : g.Frontier enabled source (queue.map Prod.fst) visited)
    (walks : ∀ entry ∈ queue, g.IsWalk enabled source entry.2 entry.1)
    (missed : target ∈ visited → target ∈ queue.map Prod.fst)
    (enough : g.nodes + queue.length < fuel + visited.length) :
    match search out enabled target fuel queue visited with
    | some path => g.IsWalk enabled source path target
    | none => ¬g.Connects enabled source target := by
  induction fuel generalizing queue visited with
  | zero => exact absurd frontier.length_le (by omega)
  | succ fuel ih =>
    cases queue with
    | nil => exact fun connects => List.not_mem_nil (missed (frontier.mem_iff.mpr connects))
    | cons entry queue =>
      obtain ⟨node, path⟩ := entry
      rw [search]
      by_cases found : node = target
      · rw [if_pos found]
        exact found ▸ walks _ (.head _)
      · rw [if_neg found]
        refine ih ?_ ?_ ?_ ?_
        · rw [map_fst_advance]
          exact frontier.advance wellFormed lists
        · refine List.forall_mem_append.mpr ⟨fun entry later => walks entry (.tail _ later), ?_⟩
          intro entry member
          obtain ⟨e, first, rfl⟩ := List.mem_map.mp member
          obtain ⟨listed, isEnabled, _⟩ := mem_firstVisits first
          obtain ⟨edge, from'⟩ := lists.mem_iff.mp listed
          exact .concat (from' ▸ walks _ (.head _)) edge isEnabled
        · intro seen
          rw [map_fst_advance]
          rcases List.mem_append.mp seen with old | new
          · rcases List.mem_cons.mp (missed old) with same | later
            · exact absurd same.symm found
            · exact List.mem_append_left _ later
          · exact List.mem_append_right _ new
        · rw [List.length_cons] at enough
          simp only [List.length_append, List.length_map]
          omega

theorem search_start_spec (wellFormed : g.WellFormed) (lists : g.Lists out) (inside : source < g.nodes)
    (enabled : Atom → Bool) (target : Nat) :
    match search out enabled target (g.nodes + 1) [(source, [])] [source] with
    | some path => g.IsWalk enabled source path target
    | none => ¬g.Connects enabled source target := by
  refine search_spec wellFormed lists (.initial inside) ?_ (fun seen => seen) (by simp)
  intro entry member
  rw [List.mem_singleton.mp member]
  exact .nil

theorem shortestPath_spec (wellFormed : g.WellFormed) (inside : source < g.nodes)
    (enabled : Atom → Bool) (target : Nat) :
    match g.shortestPath enabled source target with
    | some path => g.IsWalk enabled source path target
    | none => ¬g.Connects enabled source target :=
  search_start_spec wellFormed g.lists_outgoing inside enabled target

theorem isWalk_of_shortestPath (wellFormed : g.WellFormed) (inside : source < g.nodes)
    {path : List Edge} (found : g.shortestPath enabled source target = some path) :
    g.IsWalk enabled source path target := by
  have spec := shortestPath_spec wellFormed inside enabled target
  rwa [found] at spec

/-- No path is found exactly if there is none. -/
theorem shortestPath_eq_none_iff (wellFormed : g.WellFormed) (inside : source < g.nodes) :
    g.shortestPath enabled source target = none ↔ ¬g.Connects enabled source target := by
  have spec := shortestPath_spec wellFormed inside enabled target
  cases found : g.shortestPath enabled source target with
  | none =>
    rw [found] at spec
    exact ⟨fun _ => spec, fun _ => rfl⟩
  | some path =>
    rw [found] at spec
    exact ⟨nofun, fun none => absurd spec.connects none⟩

end Graph

end SatModulo
