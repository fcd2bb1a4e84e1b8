import SatModulo.Context
import SatModulo.Fault
import SatModulo.Proofs.Positions
import Mathlib.Logic.Relation

/-!
# State in vectors

The atoms in four vectors with an entry for each atom, and the trail with the positions at which its levels begin;
the occurrences of literals in a vector that grows; standings, theories and what is kept of these in a vector each.
An entry is read, replaced or split off by its position, which is a fault where the position is outside. On the
vectors of a state none of this is: each operation ends, with the vectors of what it makes of the state
(`AtomVectors.performs`, `ClauseStore.putAt_eq`, `Schedule.orderAt_eq`, `TheoryVectors.memberAt_ofRegistry`).
-/
namespace SatModulo

section Entries

variable {α : Type}

def entriesFrom (entries : List α) (position : Nat) : Except Fault (List α) :=
  if position ≤ entries.length then .ok (entries.drop position) else .error .outOfRange

def replaceAt (entries : List α) (position : Nat) (a : α) : Except Fault (List α) :=
  if position < entries.length then .ok (entries.set position a) else .error .outOfRange

theorem entriesFrom_of_le {entries : List α} {position : Nat} (inside : position ≤ entries.length) :
    entriesFrom entries position = .ok (entries.drop position) :=
  if_pos inside

theorem replaceAt_of_lt {entries : List α} {position : Nat} (inside : position < entries.length) (a : α) :
    replaceAt entries position a = .ok (entries.set position a) :=
  if_pos inside

end Entries

/-! ### The trail -/

structure TrailVectors where
  literals : List Literal := []
  /-- The positions at which the levels above the base begin. -/
  starts : List Nat := []
  head : Nat := 0
  deriving DecidableEq, Repr

namespace TrailVectors

def level (v : TrailVectors) : Nat := v.starts.length

def store (v : TrailVectors) (l : Literal) : TrailVectors := { v with literals := v.literals ++ [l] }

def openLevel (v : TrailVectors) : TrailVectors := { v with starts := v.starts ++ [v.literals.length] }

def top (v : TrailVectors) : Except Fault (List Literal) :=
  match v.starts.getLast? with
  | some start => entriesFrom v.literals start
  | none => .ok v.literals

def endOf (v : TrailVectors) (level : Nat) : Nat := v.starts[level]?.getD v.literals.length

/-- Splits off the literals above a level. -/
def cutTo (v : TrailVectors) (level : Nat) : Except Fault (List Literal × TrailVectors) :=
  match v.starts[level]? with
  | none => .ok ([], v)
  | some start => do
    let kept ← entriesBefore v.literals start
    let cleared ← entriesFrom v.literals start
    return (cleared, ⟨kept, v.starts.take level, min v.head kept.length⟩)

def ofTrail (t : Trail) : TrailVectors := ⟨t.literals, t.starts, t.head⟩

variable (t : Trail)

theorem level_ofTrail : (ofTrail t).level = t.level := t.stack.length_starts

theorem store_ofTrail (l : Literal) : (ofTrail t).store l = ofTrail (t.store l) := by
  rw [store, ofTrail, ofTrail, t.literals_store]
  rfl

theorem openLevel_ofTrail : (ofTrail t).openLevel = ofTrail t.openLevel := by
  rw [openLevel, ofTrail, ofTrail, t.literals_openLevel, Trail.starts, Trail.starts, Trail.openLevel,
    LevelStack.starts_openLevel]
  rfl

theorem top_ofTrail : (ofTrail t).top = .ok t.topLiterals := by
  obtain ⟨⟨below, top⟩, head⟩ := t
  rcases List.eq_nil_or_concat' below with rfl | ⟨lower, last, rfl⟩
  · rfl
  · have starts : (ofTrail ⟨⟨lower ++ [last], top⟩, head⟩).starts =
        LevelStack.startsFrom 0 lower ++ [(lower ++ [last]).flatten.length] := by
      simp [ofTrail, Trail.starts, LevelStack.starts, LevelStack.startsFrom_append, LevelStack.startsFrom]
    rw [TrailVectors.top, starts, List.getLast?_concat]
    refine (entriesFrom_of_le ?_).trans (congrArg Except.ok List.drop_left)
    exact List.length_append ▸ Nat.le_add_right _ _

/-- A cut splits the vector of literals within its length. -/
theorem cutTo_ofTrail (level : Nat) :
    (ofTrail t).cutTo level = .ok ((t.cutTo level).1, ofTrail (t.cutTo level).2) := by
  rw [cutTo, Trail.cutTo]
  split
  · rename_i closed
    have high : ¬level < t.level := fun low => by
      rw [ofTrail, Trail.starts, t.stack.getElem?_starts low] at closed
      cases closed
    rw [if_neg high]
  · rename_i start opened
    have low : level < t.stack.level := by
      rw [← t.stack.length_starts]
      exact (List.getElem?_eq_some_iff.mp opened).1
    have same : t.stack.endOf level = start := Option.some.inj ((t.stack.getElem?_starts low).symm.trans opened)
    have inside : start ≤ t.literals.length := same ▸ t.stack.endOf_le_length level
    have kept : t.literals.take start = (t.stack.cutTo level).entries := by rw [← same]; exact t.stack.take_endOf level
    have cleared : t.literals.drop start = t.stack.above level := by
      rw [LevelStack.above, ← t.stack.endOf_eq, same]
      rfl
    rw [if_pos (show level < t.level from low), ofTrail, entriesBefore_of_le inside, entriesFrom_of_le inside, kept,
      cleared]
    simp only [ofTrail, Trail.literals, Trail.starts, t.stack.starts_cutTo]
    rfl

end TrailVectors

/-! ### Atoms -/

structure AtomVectors where
  valuation : List (Option Bool)
  previous : List Bool
  levels : List (Option Nat)
  reasons : List (Option Reason)
  trail : TrailVectors
  deriving DecidableEq, Repr

namespace AtomVectors

def initial : AtomVectors := ⟨[some true], [true], [some 0], [none], {}⟩

def value (v : AtomVectors) (a : Atom) : Option Bool := v.valuation[a]?.join

def fresh (v : AtomVectors) (previous : Bool) : Except AtomError (Atom × AtomVectors) :=
  if v.valuation.length ≤ maxAtom then
    .ok (v.valuation.length,
      { v with
        valuation := v.valuation ++ [none]
        previous := v.previous ++ [previous]
        levels := v.levels ++ [none]
        reasons := v.reasons ++ [none] })
  else .error .exhausted

def assign (v : AtomVectors) (l : Literal) (reason : Reason) :
    Except Fault (Except AtomError (Status × AtomVectors)) :=
  if l.atom < v.valuation.length then
    match l.statusOn v.value with
    | .unset => do
      let valuation ← replaceAt v.valuation l.atom (some l.polarity)
      let levels ← replaceAt v.levels l.atom (some v.trail.level)
      let reasons ← replaceAt v.reasons l.atom (some reason)
      return .ok (.unset, { v with valuation, levels, reasons, trail := v.trail.store l })
    | status => .ok (.ok (status, v))
  else .ok (.error .unknown)

def drop (v : AtomVectors) (a : Atom) : Except Fault AtomVectors :=
  match v.value a with
  | none => .ok v
  | some value => do
    let previous ← replaceAt v.previous a value
    let valuation ← replaceAt v.valuation a none
    let levels ← replaceAt v.levels a none
    let reasons ← replaceAt v.reasons a none
    return { v with previous, valuation, levels, reasons }

def forgetAbove (v : AtomVectors) (level : Nat) : Except Fault (List Literal × AtomVectors) := do
  let (cleared, trail) ← v.trail.cutTo level
  let v ← cleared.foldlM (fun v l => v.drop l.atom) { v with trail }
  return (cleared, v)

def openLevel (v : AtomVectors) : AtomVectors := { v with trail := v.trail.openLevel }

def advance (v : AtomVectors) : AtomVectors := { v with trail.head := v.trail.head + 1 }

def ofCells (cells : List AtomCell) (trail : TrailVectors) : AtomVectors where
  valuation := cells.map fun cell => cell.assigned.map (·.value)
  previous := cells.map (·.previous)
  levels := cells.map fun cell => cell.assigned.map (·.level)
  reasons := cells.map fun cell => cell.assigned.bind (·.reason)
  trail := trail

/-- The atoms of a state, in vectors. -/
def ofAtoms (s : Atoms) : AtomVectors := ofCells s.cells.toList (.ofTrail s.trail)

/-- No operation reads or writes outside of the vectors, and each has there the outcome it has for the state. -/
structure Performs (v : AtomVectors) (s : Atoms) : Prop where
  value : ∀ a, v.value a = s.value a
  fresh : ∀ previous, v.fresh previous = (s.fresh previous).map (Prod.map id ofAtoms)
  assign : ∀ l reason, v.assign l reason = .ok ((s.assign l reason).map (Prod.map id ofAtoms))
  drop : ∀ a, v.drop a = .ok (ofAtoms (s.drop a))
  forgetAbove : ∀ level, v.forgetAbove level = .ok (Prod.map id ofAtoms (s.forgetAbove level))
  openLevel : v.openLevel = ofAtoms s.openLevel
  advance : v.advance = ofAtoms { s with trail.head := s.trail.head + 1 }
  top : v.trail.top = .ok s.trail.topLiterals
  endOf : ∀ level, v.trail.endOf level = s.trail.endOf level

variable {cells : List AtomCell} {trail : TrailVectors} {a : Atom}

theorem length_ofCells (cells : List AtomCell) (trail : TrailVectors) :
    (ofCells cells trail).valuation.length = cells.length ∧ (ofCells cells trail).previous.length = cells.length ∧
      (ofCells cells trail).levels.length = cells.length ∧ (ofCells cells trail).reasons.length = cells.length := by
  simp [ofCells]

theorem ofCells_set (a : Atom) (cell : AtomCell) : ofCells (cells.set a cell) trail =
    { valuation := (ofCells cells trail).valuation.set a (cell.assigned.map (·.value))
      previous := (ofCells cells trail).previous.set a cell.previous
      levels := (ofCells cells trail).levels.set a (cell.assigned.map (·.level))
      reasons := (ofCells cells trail).reasons.set a (cell.assigned.bind (·.reason))
      trail } := by
  simp only [ofCells, List.map_set]

theorem set_previous {cell : AtomCell} (found : cells[a]? = some cell) :
    (ofCells cells trail).previous.set a cell.previous = (ofCells cells trail).previous := by
  obtain ⟨inside, rfl⟩ := List.getElem?_eq_some_iff.mp found
  rw [ofCells, ← List.map_set, List.set_getElem_self]

variable (s : Atoms)

theorem value_ofAtoms : (ofAtoms s).value = s.value := by
  funext a
  simp only [value, ofAtoms, ofCells, List.getElem?_map, Array.getElem?_toList, Atoms.value, Atoms.assignment]
  cases s.cells[a]? <;> rfl

theorem fresh_ofAtoms (previous : Bool) :
    (ofAtoms s).fresh previous = (s.fresh previous).map (Prod.map id ofAtoms) := by
  have count : (ofAtoms s).valuation.length = s.count := (length_ofCells _ _).1.trans Array.length_toList
  rw [fresh, Atoms.fresh, count]
  split
  · simp [ofAtoms, ofCells, Except.map]
  · rfl

/-- An assignment writes to vectors that are all as long as there are atoms. -/
theorem assign_ofAtoms (l : Literal) (reason : Reason) :
    (ofAtoms s).assign l reason = .ok ((s.assign l reason).map (Prod.map id ofAtoms)) := by
  obtain ⟨valuation, _, levels, reasons⟩ := length_ofCells s.cells.toList (.ofTrail s.trail)
  rw [assign, Atoms.assign, value_ofAtoms, ofAtoms, valuation, Array.length_toList]
  change (if l.atom < s.count then _ else _) = _
  split
  · rename_i known
    replace known : l.atom < s.cells.toList.length := known
    obtain ⟨cell, found⟩ : ∃ cell, s.cells.toList[l.atom]? = some cell := ⟨_, List.getElem?_eq_getElem known⟩
    change (match l.statusOn s.value with | .unset => _ | status => _) = _
    unfold Atoms.status
    cases l.statusOn s.value with
    | same => rfl
    | different => rfl
    | unset =>
      have written : (s.cells.modify l.atom fun c =>
            { c with assigned := some ⟨l.polarity, s.level, some reason⟩ }).toList =
          s.cells.toList.set l.atom { cell with assigned := some ⟨l.polarity, s.level, some reason⟩ } := by
        rw [Array.toList_modify, List.modify_eq_set_getElem?, found]
        rfl
      rw [replaceAt_of_lt (valuation ▸ known), replaceAt_of_lt (levels ▸ known), replaceAt_of_lt (reasons ▸ known)]
      simp only [Except.map, Prod.map, ofAtoms, written, ofCells_set, set_previous found, id]
      simp only [ofCells, TrailVectors.level_ofTrail, TrailVectors.store_ofTrail]
      rfl
  · rfl

/-- A value is taken back at a position of each vector. -/
theorem drop_ofAtoms (a : Atom) : (ofAtoms s).drop a = .ok (ofAtoms (s.drop a)) := by
  obtain ⟨valuation, previous, levels, reasons⟩ := length_ofCells s.cells.toList (.ofTrail s.trail)
  rw [drop, value_ofAtoms, Atoms.value, Atoms.assignment, ← Array.getElem?_toList]
  cases found : s.cells.toList[a]? with
  | none =>
    have kept : (s.drop a).cells.toList = s.cells.toList := by
      rw [Atoms.drop, Array.toList_modify, List.modify_eq_set_getElem?, found]
      rfl
    rw [ofAtoms, ofAtoms, kept]
    rfl
  | some cell =>
    obtain ⟨known, -⟩ := List.getElem?_eq_some_iff.mp found
    obtain ⟨last, assigned⟩ := cell
    cases assigned with
    | none =>
      have kept : (s.drop a).cells.toList = s.cells.toList := by
        rw [Atoms.drop, Array.toList_modify, List.modify_eq_set_getElem?, found]
        obtain ⟨inside, same⟩ := List.getElem?_eq_some_iff.mp found
        exact (congrArg _ same.symm).trans (List.set_getElem_self inside)
      rw [ofAtoms, ofAtoms, kept]
      rfl
    | some assigned =>
      have cleared : (s.drop a).cells.toList = s.cells.toList.set a ⟨assigned.value, none⟩ := by
        rw [Atoms.drop, Array.toList_modify, List.modify_eq_set_getElem?, found]
        rfl
      simp only [Option.bind_some, Option.map_some]
      rw [ofAtoms, replaceAt_of_lt (previous ▸ known), replaceAt_of_lt (valuation ▸ known),
        replaceAt_of_lt (levels ▸ known), replaceAt_of_lt (reasons ▸ known), ofAtoms, cleared, ofCells_set]
      rfl

theorem foldlM_drop (cleared : List Literal) :
    cleared.foldlM (fun v l => v.drop l.atom) (ofAtoms s) =
      .ok (ofAtoms (cleared.foldl (fun s l => s.drop l.atom) s)) := by
  induction cleared generalizing s with
  | nil => rfl
  | cons l rest ih => rw [List.foldlM_cons, drop_ofAtoms]; exact ih (s.drop l.atom)

theorem forgetAbove_ofAtoms (level : Nat) :
    (ofAtoms s).forgetAbove level = .ok (Prod.map id ofAtoms (s.forgetAbove level)) := by
  have cut : (ofAtoms s).trail.cutTo level = _ := TrailVectors.cutTo_ofTrail s.trail level
  rw [forgetAbove, cut]
  exact congrArg (· >>= fun v => .ok ((s.trail.cutTo level).1, v))
    (foldlM_drop { s with trail := (s.trail.cutTo level).2 } (s.trail.cutTo level).1)

/-- The vectors of a state have all that its operations ask of them. -/
theorem performs : (ofAtoms s).Performs s where
  value := congrFun (value_ofAtoms s)
  fresh := fresh_ofAtoms s
  assign := assign_ofAtoms s
  drop := drop_ofAtoms s
  forgetAbove := forgetAbove_ofAtoms s
  openLevel := by
    rw [openLevel]
    exact congrArg (ofCells s.cells.toList) (TrailVectors.openLevel_ofTrail s.trail)
  advance := rfl
  top := TrailVectors.top_ofTrail s.trail
  endOf _ := rfl

/-- An operation on atoms in vectors, where it ends without a fault. -/
inductive Writes : AtomVectors → AtomVectors → Prop
  | fresh {v v' : AtomVectors} {previous : Bool} {a : Atom} (added : v.fresh previous = .ok (a, v')) : Writes v v'
  | assign {v v' : AtomVectors} {l : Literal} {reason : Reason} {status : Status}
    (made : v.assign l reason = .ok (.ok (status, v'))) : Writes v v'
  | openLevel (v : AtomVectors) : Writes v v.openLevel
  | forgetAbove {v v' : AtomVectors} {level : Nat} {cleared : List Literal}
    (taken : v.forgetAbove level = .ok (cleared, v')) : Writes v v'
  | advance (v : AtomVectors) : Writes v v.advance

namespace Writes

variable {s s' : Atoms}

theorem of_fresh {previous : Bool} {a : Atom} (added : s.fresh previous = .ok (a, s')) :
    Writes (ofAtoms s) (ofAtoms s') :=
  .fresh ((fresh_ofAtoms s previous).trans (by rw [added]; rfl))

theorem of_assign {l : Literal} {reason : Reason} {status : Status} (made : s.assign l reason = .ok (status, s')) :
    Writes (ofAtoms s) (ofAtoms s') :=
  .assign ((assign_ofAtoms s l reason).trans (by rw [made]; rfl))

theorem of_openLevel (s : Atoms) : Writes (ofAtoms s) (ofAtoms s.openLevel) :=
  (performs s).openLevel ▸ .openLevel _

theorem of_forgetAbove (s : Atoms) (level : Nat) : Writes (ofAtoms s) (ofAtoms (s.forgetAbove level).2) :=
  .forgetAbove (forgetAbove_ofAtoms s level)

end Writes

end AtomVectors

/-! ### Occurrences -/

namespace ClauseStore

variable {key : ClauseKey} {index : Array (List ClauseKey)}

/-- Notes an occurrence of a literal at its position, to which the vector grows. -/
def noteAt (key : ClauseKey) (index : List (List ClauseKey)) (l : Literal) : Except Fault (List (List ClauseKey)) := do
  let grown := index ++ List.replicate (l.index + 1 - index.length) []
  let keys ← entryAt grown l.index
  replaceAt grown l.index (keys ++ [key])

/-- Stores a clause, with its occurrences noted by position. -/
def putAt (s : ClauseStore) (c : Clause) (learnt : Bool) :
    Except Fault (Except ClauseError ClauseKey × ClauseStore) :=
  let position := if learnt then s.learnt.size else s.given.size
  if c.isEmpty then .ok (.error .emptyClause, s)
  else if UInt32.size ≤ position then .ok (.error .storageExhausted, s)
  else do
    let key : ClauseKey := if learnt then .learnt position else .given position
    let index ← c.foldlM (noteAt key) s.index.toList
    let index := index.toArray
    return (.ok key,
      if learnt then { s with learnt := s.learnt.push c, index } else { s with given := s.given.push c, index })

theorem noteAt_toList (l : Literal) : noteAt key index.toList l = .ok (noteOccurrence key index l).toList := by
  have inside : l.index < (index.toList ++ List.replicate (l.index + 1 - index.toList.length) []).length := by
    rw [List.length_append, List.length_replicate]
    omega
  have grown : (noteOccurrence key index l).toList =
      (index.toList ++ List.replicate (l.index + 1 - index.toList.length) []).modify l.index (· ++ [key]) := by
    rw [noteOccurrence, Array.toList_modify, Array.toList_append, Array.toList_replicate, Array.length_toList]
  rw [noteAt, entryAt_of_lt inside, grown, List.modify_eq_set_get _ inside]
  exact replaceAt_of_lt inside _

theorem foldlM_noteAt (c : Clause) :
    c.foldlM (noteAt key) index.toList = .ok (c.foldl (noteOccurrence key) index).toList := by
  induction c generalizing index with
  | nil => rfl
  | cons l rest ih => rw [List.foldlM_cons, noteAt_toList]; exact ih

/-- No occurrence is noted outside of the vector, and storing by position is storing. -/
theorem putAt_eq (s : ClauseStore) (c : Clause) (learnt : Bool) : s.putAt c learnt = .ok (s.put c learnt) := by
  unfold putAt put
  dsimp only
  by_cases empty : c.isEmpty = true
  · rw [if_pos empty, if_pos empty]
  · rw [if_neg empty, if_neg empty]
    by_cases full : UInt32.size ≤ if learnt then s.learnt.size else s.given.size
    · rw [if_pos full, if_pos full]
    · rw [if_neg full, if_neg full, foldlM_noteAt]
      rfl

end ClauseStore

/-! ### Standings -/

namespace Schedule

variable {α : Type} (s : Schedule α)

section Ranking

variable [Measure α]

def precedesAt (i j : Nat) : Except Fault Bool := do
  let a ← entryAt s.standings i
  let b ← entryAt s.standings j
  return (compareStandings a b).then (compare i j) == .lt

def insertAt (i : Nat) : List Nat → Except Fault (List Nat)
  | [] => .ok [i]
  | j :: rest => do
    if ← s.precedesAt i j then return i :: j :: rest
    else
      let later ← insertAt i rest
      return j :: later

/-- The indices in the order of their turns, with standings read by position. -/
def orderAt : Except Fault (List Nat) := (List.range s.standings.length).foldrM s.insertAt []

variable {s} {i j : Nat} {indices : List Nat}

theorem precedesAt_of_lt (hi : i < s.standings.length) (hj : j < s.standings.length) :
    s.precedesAt i j = .ok (s.precedes i j) := by
  rw [precedesAt, entryAt_of_lt hi, entryAt_of_lt hj, precedes, List.getElem?_eq_getElem hi,
    List.getElem?_eq_getElem hj]
  rfl

theorem insertAt_of_lt (hi : i < s.standings.length) (known : ∀ j ∈ indices, j < s.standings.length) :
    s.insertAt i indices = .ok (s.insert i indices) := by
  induction indices with
  | nil => rfl
  | cons j rest ih =>
    rw [List.forall_mem_cons] at known
    rw [insertAt, insert, precedesAt_of_lt hi known.1, ih known.2]
    cases s.precedes i j <;> rfl

variable (s)

/-- Only standings that there are are compared, so the order by position is the order. -/
theorem orderAt_eq : s.orderAt = .ok s.order := by
  have fold : ∀ indices : List Nat, (∀ i ∈ indices, i < s.standings.length) →
      indices.foldrM s.insertAt [] = .ok (indices.foldr s.insert []) ∧
        ∀ i ∈ indices.foldr s.insert [], i < s.standings.length := by
    intro indices known
    induction indices with
    | nil => exact ⟨rfl, nofun⟩
    | cons i rest ih =>
      rw [List.forall_mem_cons] at known
      obtain ⟨sorted, inside⟩ := ih known.2
      refine ⟨?_, fun j member => ?_⟩
      · rw [List.foldrM_cons, sorted]
        exact insertAt_of_lt known.1 inside
      · rcases List.mem_cons.mp ((s.insert_perm i _).mem_iff.mp member) with rfl | later
        · exact known.1
        · exact inside j later
  exact (fold _ fun i member => List.mem_range.mp member).1

end Ranking

variable [Reckoning α]

def bumpAt (i : Nat) : Except Fault (Schedule α) :=
  match s.activity i with
  | none => .ok s
  | some activity => do
    let s := if Reckoning.exceeds (activity + s.weight) s.maximum then s.rescale else s
    let standing ← entryAt s.standings i
    let standings ← replaceAt s.standings i { standing with activity := standing.activity + s.weight }
    return { s with standings, weight := s.weight * (Reckoning.one / (Reckoning.one - s.decay)) }

/-- An index without a standing is never read. -/
theorem bumpAt_eq (i : Nat) : s.bumpAt i = .ok (s.bump i) := by
  unfold bumpAt bump
  cases found : s.activity i with
  | none => rfl
  | some activity =>
    have known : i < s.standings.length := by
      rw [Schedule.activity, Option.map_eq_some_iff] at found
      obtain ⟨_, found, _⟩ := found
      exact (List.getElem?_eq_some_iff.mp found).1
    dsimp only
    generalize scaled : (if Reckoning.exceeds (activity + s.weight) s.maximum then s.rescale else s) = next
    have inside : i < next.standings.length := by
      rw [← scaled]
      split
      · simpa [rescale] using known
      · exact known
    rw [entryAt_of_lt inside, List.modify_eq_set_get _ inside]
    change (replaceAt _ _ _ >>= _) = _
    rw [replaceAt_of_lt inside]
    rfl

end Schedule

/-! ### Theories -/

/-- What is kept of a theory beside the theory. -/
structure TheoryRecord where
  capabilities : Capabilities
  level : Nat
  head : Nat
  preprocessed : Bool
  observed : List Atom

structure TheoryVectors (σ : Type) where
  theories : List σ
  records : List TheoryRecord

namespace TheoryVectors

variable {σ : Type}

/-- A theory with what is kept of it. Only the record is asked for with the chance that there is none. -/
def memberAt (v : TheoryVectors σ) (i : Nat) : Except Fault (Option (Member σ)) :=
  match v.records[i]? with
  | none => .ok none
  | some record => do
    let theory ← entryAt v.theories i
    return some
      { theory
        capabilities := record.capabilities
        level := record.level
        head := record.head
        preprocessed := record.preprocessed
        observed := record.observed }

def ofRegistry (r : Registry σ) : TheoryVectors σ where
  theories := r.members.map (·.theory)
  records := r.members.map fun m => ⟨m.capabilities, m.level, m.head, m.preprocessed, m.observed⟩

theorem memberAt_ofRegistry (r : Registry σ) (i : Nat) : (ofRegistry r).memberAt i = .ok r.members[i]? := by
  rw [memberAt, ofRegistry, List.getElem?_map]
  cases found : r.members[i]? with
  | none => rfl
  | some m =>
    obtain ⟨inside, rfl⟩ := List.getElem?_eq_some_iff.mp found
    have known : i < (r.members.map (·.theory)).length := by rwa [List.length_map]
    simp only [Option.map_some]
    rw [entryAt_of_lt known, List.getElem_map]
    rfl

end TheoryVectors

end SatModulo
