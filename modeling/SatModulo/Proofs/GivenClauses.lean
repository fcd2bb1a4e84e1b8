import SatModulo.Proofs.Verdicts

/-!
# What becomes of a clause that is given

Giving a clause adds the atoms it needs and then does one of six things (`Context.Takes`). It comes to its
end unless the value of a new atom is to be drawn against a number that is no likelihood
(`Procedure.addClause_ends`). A clause is left out exactly if it is true in every valuation, or has `falsum`
twice, which is its own negation; what is stored means the same as what was given
(`PublicRun.addClause_keeps_meaning`).
-/
namespace SatModulo

namespace Clause

variable {c kept : Clause}

def IsValid (c : Clause) : Prop := ∀ v, v topAtom = true → c.Holds v

/-- No literal of a clause is the negation of a later one. -/
def IsClashFree (c : Clause) : Prop := c.Pairwise fun l m => l ≠ m.negate

/-- A clause holds in every valuation exactly if it has both literals of an atom. -/
theorem isValid_iff : c.IsValid ↔ ∃ l ∈ c, l.atom ≠ topAtom ∧ l.negate ∈ c := by
  constructor
  · intro valid
    -- The valuation that makes every literal false that it can.
    let v : Atom → Bool := fun a => decide (a = topAtom ∨ ∃ m ∈ c, m.atom = a ∧ m.polarity = false)
    obtain ⟨l, member, holds⟩ := valid v (by simp [v])
    have positive : l.polarity = true := by
      by_contra negative
      rw [Bool.not_eq_true] at negative
      rw [Literal.Holds, negative, decide_eq_false_iff_not, not_or] at holds
      exact holds.2 ⟨l, member, rfl, negative⟩
    have proper : l.atom ≠ topAtom := by
      intro top
      have code : l.code = 0 := Int.natAbs_eq_zero.mp top
      simp [Literal.polarity, code] at positive
    rw [Literal.Holds, positive, decide_eq_true_iff] at holds
    obtain ⟨m, opposite, same, negative⟩ := holds.resolve_left proper
    rcases Literal.eq_or_eq_negate same with rfl | rfl
    · rw [positive] at negative
      cases negative
    · exact ⟨l, member, proper, opposite⟩
  · rintro ⟨l, member, proper, opposite⟩ v _
    by_cases holds : l.Holds v
    · exact ⟨l, member, holds⟩
    · exact ⟨l.negate, opposite, (Literal.holds_negate proper).mpr holds⟩

theorem eq_falsum_of_atom {l : Literal} (top : l.atom = topAtom) : l = .falsum := by
  obtain ⟨code⟩ := l
  exact congrArg Literal.mk (Int.natAbs_eq_zero.mp top)

/-- Two literals clash that are opposites, and so do two occurrences of `falsum`. -/
theorem isClashFree_iff : c.IsClashFree ↔ ¬c.IsValid ∧ c.count .falsum ≤ 1 := by
  rw [isValid_iff]
  induction c with
  | nil => simp [IsClashFree]
  | cons m rest ih =>
    rw [IsClashFree, List.pairwise_cons, ← IsClashFree, ih]
    have symmetric : ∀ l : Literal, m = l.negate ↔ l = m.negate := fun l =>
      ⟨fun same => by rw [same, Literal.negate_negate], fun same => by rw [same, Literal.negate_negate]⟩
    constructor
    · rintro ⟨apart, noPair, few⟩
      have opposite : m.negate ∉ rest := fun member => apart _ member (by rw [Literal.negate_negate])
      refine ⟨?_, ?_⟩
      · rintro ⟨l, member, proper, negation⟩
        rcases List.mem_cons.mp member with rfl | member <;>
          rcases List.mem_cons.mp negation with same | negation
        · exact Literal.negate_ne proper same
        · exact opposite negation
        · exact apart l member same.symm
        · exact noPair ⟨l, member, proper, negation⟩
      · by_cases isFalsum : m = .falsum
        · have absent : Literal.falsum ∉ rest := fun member => apart _ member isFalsum
          rw [isFalsum, List.count_cons_self, List.count_eq_zero.mpr absent]
        · rwa [List.count_cons_of_ne isFalsum]
    · rintro ⟨noPair, few⟩
      have fewer : rest.count .falsum ≤ 1 := Nat.le_trans (List.count_le_count_cons ..) few
      refine ⟨fun l member same => ?_, ?_, fewer⟩
      · by_cases top : m.atom = topAtom
        · obtain rfl := eq_falsum_of_atom top
          obtain rfl : l = .falsum := (symmetric l).mp same
          have more := List.count_pos_iff.mpr member
          rw [List.count_cons_self] at few
          omega
        · exact noPair ⟨m, .head _, top, .tail _ ((symmetric l).mp same ▸ member)⟩
      · rintro ⟨l, member, proper, negation⟩
        exact noPair ⟨l, .tail _ member, proper, .tail _ negation⟩

/-- The normal form is found for every clause whose literals have negations, and is missing exactly if two
of them clash. -/
theorem exists_normaliseFrom (free : kept.IsClashFree) (inRange : ∀ l ∈ c, l.atom ≤ maxAtom) :
    ∃ result, normaliseFrom kept c = .ok result ∧ (result = none ↔ ¬(kept ++ c).IsClashFree) := by
  induction c generalizing kept with
  | nil => exact ⟨some kept, rfl, by simpa using free⟩
  | cons m rest ih =>
    rw [List.forall_mem_cons] at inRange
    rw [normaliseFrom, Literal.negate?_of_le inRange.1]
    simp only [bind, Except.bind]
    unfold IsClashFree at free ih ⊢
    split
    · rename_i clash
      refine ⟨none, rfl, iff_of_true rfl fun apart => ?_⟩
      exact (List.pairwise_append.mp apart).2.2 _ clash m (.head _) rfl
    · rename_i noClash
      split
      · rename_i repeated
        obtain ⟨result, found, missing⟩ := ih free inRange.2
        refine ⟨result, found, missing.trans (not_congr ⟨fun apart => ?_, fun apart => ?_⟩)⟩
        · obtain ⟨_, others, across⟩ := List.pairwise_append.mp apart
          refine List.pairwise_append.mpr ⟨free, List.pairwise_cons.mpr ⟨across m repeated, others⟩, ?_⟩
          refine fun l member => List.forall_mem_cons.mpr ⟨?_, across l member⟩
          exact fun same => noClash (same ▸ member)
        · exact apart.sublist ((List.sublist_cons_self m rest).append_left kept)
      · have longer : (kept ++ [m]).Pairwise fun l n => l ≠ n.negate := by
          refine List.pairwise_append.mpr ⟨free, List.pairwise_singleton .., fun l member => ?_⟩
          exact List.forall_mem_singleton.mpr fun same => noClash (same ▸ member)
        obtain ⟨result, found, missing⟩ := ih longer inRange.2
        refine ⟨result, found, ?_⟩
        rw [missing, List.append_assoc, List.singleton_append]

theorem exists_normalise (inRange : ∀ l ∈ c, l.atom ≤ maxAtom) :
    ∃ result, c.normalise = .ok result ∧ (result = none ↔ ¬c.IsClashFree) :=
  exists_normaliseFrom List.Pairwise.nil inRange

theorem holds_congr {d : Clause} (same : ∀ l, l ∈ d ↔ l ∈ c) (v : Atom → Bool) :
    d.Holds v ↔ c.Holds v :=
  exists_congr fun l => and_congr_left' (same l)

end Clause

variable {σ : Type}

/-! ### New atoms -/

/-- Atoms were added and values drawn for them, and nothing else was done but to note it. -/
structure Context.Widens (c after : Context σ) : Prop where
  assignment : after.atoms.assignment = c.atoms.assignment
  trail : after.atoms.trail = c.atoms.trail
  rest : ∃ atoms phase random, after = { c with atoms, phase, random }

namespace Context.Widens

variable {c mid after : Context σ}

theorem refl (c : Context σ) : c.Widens c := ⟨rfl, rfl, c.atoms, c.phase, c.random, rfl⟩

theorem trans (first : c.Widens mid) (second : mid.Widens after) : c.Widens after := by
  obtain ⟨assignment, trail, atoms, phase, random, rfl⟩ := first
  obtain ⟨assignment', trail', atoms', phase', random', rfl⟩ := second
  exact ⟨assignment'.trans assignment, trail'.trans trail, atoms', phase', random', rfl⟩

theorem value (widens : c.Widens after) : after.atoms.value = c.atoms.value := by
  funext a
  rw [Atoms.value, widens.assignment, Atoms.value]

theorem valueOf (widens : c.Widens after) : after.valueOf = c.valueOf := by
  funext l
  rw [Context.valueOf, Atoms.valueOf, widens.value]
  rfl

theorem level (widens : c.Widens after) : after.level = c.level :=
  congrArg Trail.level widens.trail

theorem coherent (widens : c.Widens after) (h : c.atoms.Coherent) (room : after.atoms.count ≤ maxAtom + 1) :
    after.atoms.Coherent where
  room := room
  top := by rw [widens.assignment]; exact h.top
  mem_entriesAt_iff := by rw [widens.trail, widens.assignment]; exact h.mem_entriesAt_iff
  reasoned := by rw [widens.assignment]; exact h.reasoned
  distinct := by rw [widens.trail]; exact h.distinct
  head_le := by rw [widens.trail]; exact h.head_le

theorem clauses (widens : c.Widens after) : after.clauses = c.clauses := by
  obtain ⟨_, _, _, rfl⟩ := widens.rest
  rfl

theorem settings (widens : c.Widens after) : after.settings = c.settings := by
  obtain ⟨_, _, _, rfl⟩ := widens.rest
  rfl

theorem theories (widens : c.Widens after) : after.theories = c.theories := by
  obtain ⟨_, _, _, rfl⟩ := widens.rest
  rfl

end Context.Widens

/-- Values can be drawn for new atoms. -/
def Context.CanDraw (c : Context σ) : Prop := Generator.IsLikelihood c.settings.polarityBias.value

theorem Context.Widens.canDraw {c after : Context σ} (widens : c.Widens after) :
    after.CanDraw ↔ c.CanDraw := by
  rw [Context.CanDraw, Context.CanDraw, widens.settings]

/-- There is room for the atoms of a clause in range. -/
theorem Clause.room_of_known {clause : Clause} (inRange : ∀ l ∈ clause, l.atom ≤ maxAtom) {known before : Nat}
    (added : ∀ a, a < known ↔ a < before ∨ ∃ l ∈ clause, a ≤ l.atom) (room : before ≤ maxAtom + 1) :
    known ≤ maxAtom + 1 := by
  by_contra full
  rcases (added (maxAtom + 1)).mp (Nat.lt_of_not_le full) with more | ⟨l, member, more⟩
  · exact absurd room (Nat.not_le.mpr more)
  · exact absurd (Nat.le_trans more (inRange l member)) (Nat.not_succ_le_self _)

namespace Procedure

variable {c : Context σ} {broken : Fault → Prop}

theorem chance_ends (p : Float) :
    (chance p : Procedure σ Bool).Ends c (fun _ => ¬Generator.IsLikelihood p) fun result after =>
      ∃ answer random, result = .ok answer ∧ after = { c with random } := by
  refine .get_bind (.ofFaulty_bind (fun cause failed valid => ?_) fun (answer, random) _ => ?_)
  · exact Except.ne_error (c.settings.host.sampler.exists_chance p c.random valid) cause failed
  · exact .modify_bind (.pure ⟨answer, random, rfl, rfl⟩)

/-- As long as there is room, an atom is added. -/
theorem freshAtom_ends (room : c.atoms.count ≤ maxAtom) :
    (freshAtom : Procedure σ Atom).Ends c (fun _ => ¬c.CanDraw) fun result after =>
      result = .ok c.atoms.count ∧ c.Widens after ∧ after.atoms.count = c.atoms.count + 1 := by
  refine .get_bind (.bind (chance_ends _) ?_ ?_)
  · rintro e _ ⟨_, _, ⟨⟩, _⟩
  · rintro previous _ ⟨_, random, _, rfl⟩
    have success : c.atoms.fresh previous =
        .ok (c.atoms.count, { c.atoms with cells := c.atoms.cells.push { previous } }) := if_pos room
    refine .get_bind (.ofExcept_bind (fun e failed => ?_) fun (atom, atoms) added => ?_)
    · rw [success] at failed
      cases failed
    · obtain ⟨_, counted, trail, assignment⟩ := Atoms.fresh_eq_ok added
      obtain rfl : c.atoms.count = atom := by
        rw [success] at added
        cases added
        rfl
      exact .modify_bind (.modify_bind (.pure ⟨rfl, ⟨assignment, trail, _, _, _, rfl⟩, counted⟩))

theorem freshAtoms_ends (n : Nat) (room : c.atoms.count + n ≤ maxAtom + 1) :
    (freshAtoms n : Procedure σ Unit).Ends c (fun _ => 0 < n ∧ ¬c.CanDraw) fun result after =>
      result = .ok () ∧ c.Widens after ∧ after.atoms.count = c.atoms.count + n := by
  induction n generalizing c with
  | zero => exact .pure ⟨rfl, .refl c, rfl⟩
  | succ n ih =>
    have first := freshAtom_ends (c := c) (by omega)
    refine .bind (first.imp_broken fun _ unlikely => ⟨Nat.succ_pos n, unlikely⟩) ?_ ?_
    · rintro e _ ⟨⟨⟩, _⟩
    · rintro a mid ⟨_, widens, counted⟩
      have rest := ih (c := mid) (by omega)
      refine (rest.mono ?_).imp_broken ?_
      · rintro result after ⟨done, further, total⟩
        exact ⟨done, widens.trans further, by omega⟩
      · rintro _ ⟨_, unlikely⟩
        exact ⟨Nat.succ_pos n, fun valid => unlikely (widens.canDraw.mpr valid)⟩

theorem ensureAtom_ends {l : Literal} (inRange : l.atom ≤ maxAtom) (room : c.atoms.count ≤ maxAtom + 1) :
    (ensureAtom l.atom : Procedure σ Unit).Ends c (fun _ => c.atoms.count ≤ l.atom ∧ ¬c.CanDraw)
      fun result after => result = .ok () ∧ c.Widens after ∧
        ∀ a, a < after.atoms.count ↔ a < c.atoms.count ∨ ∃ m ∈ [l], a ≤ m.atom := by
  have added := freshAtoms_ends (c := c) (l.atom + 1 - c.atoms.count) (by simp only [Atom] at *; omega)
  refine .get_bind ((added.imp_broken ?_).mono ?_)
  · rintro _ ⟨positive, unlikely⟩
    exact ⟨by simp only [Atom] at *; omega, unlikely⟩
  · rintro result after ⟨done, widens, counted⟩
    refine ⟨done, widens, fun a => ?_⟩
    simp only [List.mem_singleton, exists_eq_left, Atom] at *
    omega

/-- The atoms of a clause in range can be added, and no others are than are needed for it. -/
theorem ensureAtoms_ends {clause : Clause} (inRange : ∀ l ∈ clause, l.atom ≤ maxAtom)
    (room : c.atoms.count ≤ maxAtom + 1) :
    (ensureAtoms clause : Procedure σ Unit).Ends c
      (fun _ => (∃ l ∈ clause, c.atoms.count ≤ l.atom) ∧ ¬c.CanDraw) fun result after =>
        result = .ok () ∧ c.Widens after ∧
          ∀ a, a < after.atoms.count ↔ a < c.atoms.count ∨ ∃ l ∈ clause, a ≤ l.atom := by
  induction clause generalizing c with
  | nil => exact .pure ⟨rfl, .refl c, by simp⟩
  | cons l rest ih =>
    rw [List.forall_mem_cons] at inRange
    have first := ensureAtom_ends (c := c) inRange.1 room
    refine .bind (first.imp_broken fun _ ⟨new, unlikely⟩ => ⟨⟨l, .head _, new⟩, unlikely⟩) ?_ ?_
    · rintro e _ ⟨⟨⟩, _⟩
    · rintro ⟨⟩ mid ⟨_, widens, known⟩
      have roomMid := Clause.room_of_known (List.forall_mem_singleton.mpr inRange.1) known room
      refine ((ih inRange.2 roomMid).mono ?_).imp_broken ?_
      · rintro result after ⟨done, further, others⟩
        refine ⟨done, widens.trans further, fun a => ?_⟩
        rw [others, known, List.exists_mem_cons_iff, or_assoc]
        simp
      · rintro _ ⟨⟨m, member, new⟩, unlikely⟩
        refine ⟨⟨m, .tail _ member, ?_⟩, fun valid => unlikely (widens.canDraw.mpr valid)⟩
        exact Nat.not_lt.mp fun old => Nat.not_lt.mpr new ((known m.atom).mpr (.inl old))

end Procedure

/-! ### Clauses -/

/-- What a context does with a clause at the base level, its atoms being known. -/
inductive Context.Takes (clause : Clause) (c : Context σ) : Except Error ClauseOutcome → Context σ → Prop
  /-- Two literals clash. -/
  | leaveOut (clash : ¬clause.IsClashFree) : Takes clause c (.ok .tautology) c
  | empty (none' : clause = []) : Takes clause c (.ok .unsatisfiable) { c with phase := .unsatisfiable }
  | full (free : clause.IsClashFree) (some' : clause ≠ []) (full : UInt32.size ≤ c.clauses.given.size) :
    Takes clause c (.error (.clause .storageExhausted)) c
  /-- The clause forces a literal. -/
  | force (free : clause.IsClashFree) (d : Clause) (distinct : (d.map Literal.atom).Nodup)
      (same : ∀ l, l ∈ d ↔ l ∈ clause) (key : ClauseKey) (clauses : ClauseStore)
      (stored : c.clauses.store d false = .ok (key, clauses)) (l : Literal)
      (state : d.stateOn c.atoms.value = .unit l) (atoms : Atoms)
      (made : c.atoms.assign l (.clause key) = .ok (.unset, atoms)) :
    Takes clause c (.ok (.added key)) { c with clauses, atoms, phase := c.phase.begun }
  /-- The clause is false. -/
  | refute (free : clause.IsClashFree) (d : Clause) (distinct : (d.map Literal.atom).Nodup)
      (same : ∀ l, l ∈ d ↔ l ∈ clause) (key : ClauseKey) (clauses : ClauseStore)
      (stored : c.clauses.store d false = .ok (key, clauses))
      (state : d.stateOn c.atoms.value = .falsified) :
    Takes clause c (.ok .unsatisfiable) { c with clauses, phase := .unsatisfiable }
  | keep (free : clause.IsClashFree) (d : Clause) (distinct : (d.map Literal.atom).Nodup)
      (same : ∀ l, l ∈ d ↔ l ∈ clause) (key : ClauseKey) (clauses : ClauseStore)
      (stored : c.clauses.store d false = .ok (key, clauses))
      (state : d.stateOn c.atoms.value = .unforced) :
    Takes clause c (.ok (.added key)) { c with clauses, phase := c.phase.begun }

/-- The store of given clauses takes a clause as long as it has room. -/
theorem ClauseStore.store_given (store : ClauseStore) {clause : Clause} (some' : clause ≠ []) :
    store.store clause false =
      if UInt32.size ≤ store.given.size then .error .storageExhausted
      else .ok (.given store.given.size,
        { store with
          given := store.given.push clause
          index := clause.foldl (noteOccurrence (.given store.given.size)) store.index }) := by
  simp only [ClauseStore.store_eq, List.isEmpty_iff, some', Bool.false_eq_true, if_false]

/-- At the base level a clause in range is taken, once its atoms are known. There is a fault only if an
atom is new and no value can be drawn for it. -/
theorem Procedure.addClause_ends {clause : Clause} {c : Context σ} (base : c.level = 0)
    (inRange : ∀ l ∈ clause, l.atom ≤ maxAtom) (room : c.atoms.count ≤ maxAtom + 1) :
    (addClause clause).Ends c (fun _ => (∃ l ∈ clause, c.atoms.count ≤ l.atom) ∧ ¬c.CanDraw)
      fun result after => ∃ mid, c.Widens mid ∧
        (∀ a, a < mid.atoms.count ↔ a < c.atoms.count ∨ ∃ l ∈ clause, a ≤ l.atom) ∧
          mid.Takes clause result after := by
  unfold addClause
  refine .get_bind ?_
  rw [if_neg (Decidable.not_not.mpr base)]
  refine .bind (ensureAtoms_ends inRange room) ?_ ?_
  · rintro e _ ⟨⟨⟩, _⟩
  rintro ⟨⟩ mid ⟨_, widens, known⟩
  suffices taken : Ends _ mid (fun _ => False) (mid.Takes clause) from
    (taken.mono fun result after takes => ⟨mid, widens, known, takes⟩).imp_broken fun _ => False.elim
  obtain ⟨normal, normalised, clashes⟩ := Clause.exists_normalise inRange
  have meaning := Clause.normalise_eq_ok normalised
  refine .ofFaulty_bind (fun cause failed => ?_) fun found normalised' => ?_
  · rw [normalised] at failed
    cases failed
  obtain rfl : normal = found := by
    rw [normalised] at normalised'
    cases normalised'
    rfl
  split
  · exact .pure (.leaveOut (clashes.mp rfl))
  · exact .modify_bind (.pure (.empty (List.eq_nil_iff_forall_not_mem.mpr fun l member =>
      absurd ((meaning.2 l).mpr member) List.not_mem_nil)))
  · rename_i d nonempty
    obtain ⟨distinct, same⟩ := meaning
    have free : clause.IsClashFree := by
      by_contra clash
      cases clashes.mpr clash
    have someD : d ≠ [] := by
      rintro rfl
      exact nonempty rfl
    have some' : clause ≠ [] := by
      rintro rfl
      exact someD (List.eq_nil_iff_forall_not_mem.mpr fun l member => absurd ((same l).mp member)
        List.not_mem_nil)
    refine .get_bind (.get_bind (.ofExcept_bind (fun e failed => ?_) ?_))
    · rw [ClauseStore.store_given _ someD] at failed
      split at failed
      · rename_i full
        cases failed
        exact .full free some' full
      · cases failed
    rintro ⟨key, clauses⟩ stored
    refine .modify_bind (.modify_bind ?_)
    dsimp only
    split
    · rename_i l unit
      obtain ⟨member, unset, _⟩ := Clause.stateOn_eq_unit unit
      have knownL : l.atom < mid.atoms.count :=
        (known l.atom).mpr (.inr ⟨l, (same l).mp member, Nat.le_refl _⟩)
      refine .bind (assign_ends knownL unset) ?_ ?_
      · rintro e _ ⟨_, _, ⟨⟩, _⟩
      · rintro status _ ⟨atoms, made, _, rfl⟩
        exact .pure (.force free d distinct same key clauses stored l unit atoms made)
    · rename_i falsified
      exact .modify_bind (.pure (.refute free d distinct same key clauses stored falsified))
    · rename_i unforced
      exact .pure (.keep free d distinct same key clauses stored unforced)

namespace Clause

/-- A clause with every literal false is left out only if it has `falsum` twice. -/
theorem isClashFree_of_false {value : Atom → Option Bool} {c : Clause}
    (falsified : ∀ l ∈ c, l.valueOn value = some false) (few : c.count .falsum ≤ 1) : c.IsClashFree := by
  refine isClashFree_iff.mpr ⟨fun valid => ?_, few⟩
  obtain ⟨l, member, proper, opposite⟩ := isValid_iff.mp valid
  have here := Literal.valueOn_eq_false.mp (falsified l member)
  have there := Literal.valueOn_eq_false.mp (falsified _ opposite)
  rw [Literal.atom_negate, here, Literal.polarity_negate proper] at there
  simp at there

end Clause

namespace Context.Takes

variable {clause : Clause} {c after : Context σ} {result : Except Error ClauseOutcome}

/-- A clause is passed over exactly if every valuation makes it true, or if it repeats the literal that is always
false. -/
theorem tautology_iff (takes : c.Takes clause result after) :
    result = .ok .tautology ↔ clause.IsValid ∨ 2 ≤ clause.count .falsum := by
  have left : clause.IsValid ∨ 2 ≤ clause.count .falsum ↔ ¬clause.IsClashFree := by
    rw [Clause.isClashFree_iff, not_and_or, not_not, Nat.not_le]
    rfl
  rw [left]
  cases takes with
  | leaveOut clash => exact iff_of_true rfl clash
  | empty none' =>
    subst none'
    exact iff_of_false nofun (not_not.mpr List.Pairwise.nil)
  | full free | force free | refute free | keep free => exact iff_of_false nofun (not_not.mpr free)

/-- What was stored has the same literals, without repetition, and is not due. -/
theorem of_added {key : ClauseKey} (takes : c.Takes clause (.ok (.added key)) after) :
    ∃ d, after.clauses.get? key = some d ∧ d.Nodup ∧ (∀ l, l ∈ d ↔ l ∈ clause) ∧
      ((∃ l ∈ d, after.valueOf l = some true) ∨
        ∃ l ∈ d, ∃ m ∈ d, l ≠ m ∧ after.valueOf l = none ∧ after.valueOf m = none) := by
  cases takes with
  | force free d distinct same _ clauses stored l state atoms made =>
    refine ⟨d, (ClauseStore.store_eq_ok stored).2.2.1, List.Nodup.of_map _ distinct, same, .inl ?_⟩
    exact ⟨l, (Clause.stateOn_eq_unit state).1, Atoms.valueOf_assign_self made⟩
  | keep free d distinct same _ clauses stored state =>
    have nodup := List.Nodup.of_map _ distinct
    exact ⟨d, (ClauseStore.store_eq_ok stored).2.2.1, nodup, same, Clause.of_stateOn_unforced nodup state⟩

/-- A clause settles the search exactly if all of its literals are false, the store has room, and it is not passed
over as a tautology. -/
theorem unsatisfiable_iff (takes : c.Takes clause result after) :
    result = .ok .unsatisfiable ↔
      (∀ l ∈ clause, c.valueOf l = some false) ∧ clause.count .falsum ≤ 1 ∧
        (clause ≠ [] → c.clauses.given.size < UInt32.size) := by
  cases takes with
  | leaveOut clash =>
    refine iff_of_false nofun fun ⟨falsified, few, _⟩ => ?_
    exact clash (Clause.isClashFree_of_false falsified few)
  | empty none' =>
    subst none'
    simp
  | full free some' full =>
    exact iff_of_false nofun fun ⟨_, _, room⟩ => Nat.not_lt.mpr full (room some')
  | force free d distinct same key clauses stored l state atoms made =>
    refine iff_of_false nofun fun ⟨falsified, _⟩ => ?_
    obtain ⟨member, unset, _⟩ := Clause.stateOn_eq_unit state
    cases unset.symm.trans (falsified l ((same l).mp member))
  | refute free d distinct same key clauses stored state =>
    refine iff_of_true rfl ⟨fun l member => ?_, (Clause.isClashFree_iff.mp free).2, fun _ => ?_⟩
    · exact Clause.stateOn_eq_falsified.mp state l ((same l).mpr member)
    · rw [ClauseStore.store_given _ (ClauseStore.store_eq_ok stored).1] at stored
      split at stored
      · cases stored
      · exact Nat.lt_of_not_le ‹_›
  | keep free d distinct same key clauses stored state =>
    refine iff_of_false nofun fun ⟨falsified, _⟩ => ?_
    have isFalse : d.stateOn c.atoms.value = .falsified :=
      Clause.stateOn_eq_falsified.mpr fun l member => falsified l ((same l).mp member)
    rw [isFalse] at state
    cases state

theorem of_error {e : Error} (takes : c.Takes clause (.error e) after) :
    e = .clause .storageExhausted ∧ UInt32.size ≤ c.clauses.given.size := by
  cases takes with
  | full free some' full => exact ⟨rfl, full⟩

end Context.Takes

/-- What a clause comes to: its atoms are made known, and it is taken. -/
def Context.Answers (clause : Clause) (c : Context σ) (result : Except Error Answer) (after : Context σ) :
    Prop :=
  ∃ outcome mid, result = outcome.map .clause ∧ c.Widens mid ∧
    (∀ a, a < mid.atoms.count ↔ a < c.atoms.count ∨ ∃ l ∈ clause, a ≤ l.atom) ∧
    mid.Takes clause outcome after

variable [Theory σ]

theorem Command.addClause_ends {clause : Clause} {c : Context σ} (base : c.level = 0)
    (inRange : ∀ l ∈ clause, l.atom ≤ maxAtom) (room : c.atoms.count ≤ maxAtom + 1)
    (kept : Option Conflict) :
    ((Command.addClause clause).procedure kept).Ends c
      (fun _ => (∃ l ∈ clause, c.atoms.count ≤ l.atom) ∧ ¬c.CanDraw) (c.Answers clause) :=
  .bind (Procedure.addClause_ends base inRange room)
    (fun e _ ⟨mid, widens, known, takes⟩ => ⟨.error e, mid, rfl, widens, known, takes⟩)
    fun outcome _ ⟨mid, widens, known, takes⟩ => .pure ⟨.ok outcome, mid, rfl, widens, known, takes⟩

/-- A command that breaks nothing is taken. -/
theorem Session.exists_step_of_ends {s : Session σ} {command : Command σ} {broken : Fault → Prop}
    {post : Except Error Answer → Context σ → Prop}
    (ends : (command.procedure s.kept).Ends s.context broken post) (sound : ∀ cause, ¬broken cause) :
    ∃ result s', s.step command = .ok (result, s') ∧ post result s'.context := by
  obtain ⟨result, after, ran, outcome⟩ := (ends.imp_broken sound).returns
  exact ⟨result, ⟨after, command.keptAfter s.kept result⟩, by rw [Session.step, ran]; rfl, outcome⟩

namespace PublicRun

variable {settings : Settings} {events : List (Event σ)} {s : Session σ} {clause : Clause}

/-- A list of literals that is given at the base level, whatever it is but for literals out of range. It is
left out exactly if it holds in every valuation or has `falsum` twice. What is stored holds in the same
valuations, without repeated literals, and it has a true literal or two without a value afterwards. That
there is no solution is the answer exactly if every literal was false, unless `falsum` occurs twice or there
is no room. Only for want of room there is no answer, and only for want of a likelihood no end. -/
theorem addClause_keeps_meaning (run : PublicRun settings events s) (base : s.context.level = 0)
    (inRange : ∀ l ∈ clause, l.atom ≤ maxAtom) :
    (∀ result s', s.step (.addClause clause) = .ok (result, s') →
      (result = .ok (.clause .tautology) ↔ clause.IsValid ∨ 2 ≤ clause.count .falsum) ∧
      (∀ key, result = .ok (.clause (.added key)) → ∃ d, s'.context.clauses.get? key = some d ∧
        d.Nodup ∧ (∀ v, v topAtom = true → (d.Holds v ↔ clause.Holds v)) ∧
        ((∃ l ∈ d, s'.context.valueOf l = some true) ∨
          ∃ l ∈ d, ∃ m ∈ d, l ≠ m ∧ s'.context.valueOf l = none ∧ s'.context.valueOf m = none)) ∧
      (result = .ok (.clause .unsatisfiable) ↔
        (∀ l ∈ clause, s.context.valueOf l = some false) ∧ clause.count .falsum ≤ 1 ∧
          (clause ≠ [] → s.context.clauses.given.size < UInt32.size)) ∧
      ∀ e, result = .error e → e = .clause .storageExhausted ∧
        UInt32.size ≤ s.context.clauses.given.size) ∧
    (s.context.CanDraw ∨ (∀ l ∈ clause, s.context.valueOf l = some false) →
      ∃ result s', s.step (.addClause clause) = .ok (result, s')) := by
  have ends := Command.addClause_ends base inRange run.coherent.1.supports.atoms.room s.kept
  refine ⟨fun result s' taken => ?_, fun possible => ?_⟩
  · obtain ⟨outcome, mid, rfl, widens, _, takes⟩ := Session.step_of_ends ends taken
    have answer : ∀ o, outcome.map Answer.clause = .ok (.clause o) ↔ outcome = .ok o := by
      intro o
      cases outcome <;> simp [Except.map]
    refine ⟨(answer _).trans takes.tautology_iff, fun key added => ?_, ?_, fun e failed => ?_⟩
    · obtain rfl := (answer _).mp added
      obtain ⟨d, stored, distinct, same, undecided⟩ := takes.of_added
      exact ⟨d, stored, distinct, fun v _ => Clause.holds_congr same v, undecided⟩
    · rw [answer, takes.unsatisfiable_iff, widens.valueOf, widens.clauses]
    · cases outcome with
      | ok o => cases failed
      | error cause =>
        cases failed
        exact widens.clauses ▸ takes.of_error
  · have sound : ∀ cause : Fault, ¬((∃ l ∈ clause, s.context.atoms.count ≤ l.atom) ∧ ¬s.context.CanDraw) := by
      rintro _ ⟨⟨l, member, new⟩, unlikely⟩
      refine possible.elim unlikely fun falsified => ?_
      obtain ⟨given, assigned, _⟩ := Atoms.value_eq_some.mp (Literal.valueOn_eq_false.mp (falsified l member))
      exact Nat.not_lt.mpr new (Atoms.lt_count_of_assignment assigned)
    obtain ⟨result, s', taken, _⟩ := Session.exists_step_of_ends ends sound
    exact ⟨result, s', taken⟩

/-- Two occurrences of `falsum` are left out, though they are false in every valuation. -/
theorem leaves_out_two_falsum :
    ∃ s' : Session (AtMost ⊕ Reachability),
      PublicRun {} [] (Session.ofSettings {} : Session (AtMost ⊕ Reachability)) ∧
      (Session.ofSettings {}).step (.addClause [.falsum, .falsum]) = .ok (.ok (.clause .tautology), s') ∧
      (∀ l ∈ [Literal.falsum, .falsum], (Session.ofSettings {} : Session (AtMost ⊕ Reachability)).context.valueOf
        l = some false) ∧ ∀ v, v topAtom = true → ¬Clause.Holds v [.falsum, .falsum] := by
  have run : PublicRun {} [] (Session.ofSettings {} : Session (AtMost ⊕ Reachability)) := .start
  have falsified : ∀ l ∈ [Literal.falsum, .falsum],
      (Session.ofSettings {} : Session (AtMost ⊕ Reachability)).context.valueOf l = some false := by
    decide
  have inRange : ∀ l ∈ [Literal.falsum, .falsum], l.atom ≤ maxAtom := by decide
  obtain ⟨answers, returns⟩ := run.addClause_keeps_meaning rfl inRange
  obtain ⟨result, s', taken⟩ := returns (.inr falsified)
  obtain rfl := (answers result s' taken).1.mpr (.inr (by decide))
  refine ⟨s', run, taken, falsified, fun v top => ?_⟩
  rintro ⟨l, member, holds⟩
  obtain rfl : l = .falsum := by simpa using member
  rw [Literal.Holds, show Literal.falsum.atom = topAtom from rfl, top] at holds
  cases holds

end PublicRun

end SatModulo
