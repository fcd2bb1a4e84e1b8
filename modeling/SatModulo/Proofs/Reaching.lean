import SatModulo.Proofs.Families
import SatModulo.Proofs.ReliableConnectivity
import SatModulo.Proofs.Solutions
import SatModulo.Theories.RuleTable

/-!
# What reachability draws

A turn of the theory of reachability is sound, whatever atoms are known and observed. Its conflicts are false on
the trail, and hold in all valuations where the atom says whether a path of true edges connects. What it makes
true is a literal of the atom, and follows from the facts of its log in all of these (`Reachability.DrawsSoundly`).
A turn that ends without a conflict, after the theory was told of all values, leaves the atom with no value that
is against the paths (`Reachability.RespectsPaths`). So it is in every context that a run comes through
(`PublicRun.reaches_soundly`), if the atom is one that has literals.
-/
namespace SatModulo

namespace Reachability

variable {root t : Reachability} {heard : LevelStack Literal} {facts : List Literal} {s s' : Atoms}
  {l : Literal} {clause : Clause}

/-- How a turn of a theory that knows some facts goes from atoms to others: a conflict is false on the trail and
holds wherever the theory is satisfied, and what the turn makes true is on the atom of reachability, and holds
wherever the theory is satisfied and the facts do. -/
structure DrawsSoundly (root : Reachability) (facts : List Literal) (s : Atoms) (conflict : Option Clause)
    (after : Atoms) : Prop where
  falsified : ∀ clause, conflict = some clause →
    ∀ l ∈ clause, l.negate ∈ after.trail.literals ∧ after.valueOf l = some false
  entailed : ∀ clause, conflict = some clause → ∀ v, root.Models v → clause.Holds v
  follows : ∃ valued, after.trail.literals = s.trail.literals ++ valued ∧
    ∀ l ∈ valued, l.atom = root.reach ∧
      ∀ v, root.Models v → (∀ fact ∈ facts, fact.Holds v) → l.Holds v

/-- The atom of reachability is not false while a path of true edges connects, nor true while no path of edges
that are not false does. -/
structure RespectsPaths (root : Reachability) (s : Atoms) : Prop where
  notFalse : root.graph.Connects (fun a => s.value a == some true) root.source root.target →
    s.value root.reach ≠ some false
  notTrue : ¬root.graph.Connects (fun a => s.value a != some false) root.source root.target →
    s.value root.reach ≠ some true

theorem respectsPaths_of_unset (unset : s.value root.reach = none) : root.RespectsPaths s :=
  ⟨fun _ => by rw [unset]; exact nofun, fun _ => by rw [unset]; exact nofun⟩

theorem DrawsSoundly.silent (root : Reachability) (facts : List Literal) (s : Atoms) :
    root.DrawsSoundly facts s none s :=
  ⟨nofun, nofun, [], (List.append_nil _).symm, nofun⟩

/-- Where the atom has the value that facts force, it is not against the paths. -/
theorem Forces.respectsPaths (h : root.IsBuilt) (forces : root.Forces facts l clause)
    (values : ∀ a value, factValue facts a = some value → s.value a = some value)
    (valued : s.value root.reach = some l.polarity) : root.RespectsPaths s := by
  have proper : root.reach ≠ topAtom := h.proper _ (.head _)
  cases forces with
  | path found =>
    rw [Literal.polarity_on proper] at valued
    refine ⟨fun _ => by rw [valued]; exact nofun, fun apart => absurd ?_ apart⟩
    refine (Graph.isWalk_of_shortestPath h.wellFormed h.inside found).connects.mono fun e _ isTrue => ?_
    rw [values _ true (beq_iff_eq.mp isTrue)]
    rfl
  | cut none =>
    rw [Literal.polarity_on proper] at valued
    refine ⟨fun connects => absurd ?_ ((Graph.shortestPath_eq_none_iff h.wellFormed h.inside).mp none),
      fun _ => by rw [valued]; exact nofun⟩
    refine connects.mono fun e _ isTrue => bne_iff_ne.mpr fun isFalse => ?_
    rw [values _ false isFalse] at isTrue
    cases isTrue

/-- Where nothing follows from facts, and they tell all values, the atom has none that is against the paths. -/
theorem respectsPaths_of_nothing (h : root.IsBuilt) (told : ∀ a ∈ root.atoms, s.value a = factValue facts a)
    (nothing : root.consequence facts = .ok none) : root.RespectsPaths s := by
  have toldEdge : ∀ e ∈ root.graph.edges, s.value e.atom = factValue facts e.atom := fun e edge =>
    told _ (.tail _ (List.mem_map_of_mem edge))
  have connectsTrue : root.graph.Connects (fun a => s.value a == some true) root.source root.target →
      root.truePath facts ≠ none := fun connects none' =>
    (Graph.shortestPath_eq_none_iff h.wellFormed h.inside).mp none'
      (connects.mono fun e edge isTrue => by rwa [toldEdge e edge] at isTrue)
  have connectsPossible : root.possiblePath facts ≠ none →
      root.graph.Connects (fun a => s.value a != some false) root.source root.target := by
    intro some'
    by_contra apart
    refine some' ((Graph.shortestPath_eq_none_iff h.wellFormed h.inside).mpr fun connects => apart ?_)
    exact connects.mono fun e edge possible => by rwa [toldEdge e edge]
  have reachValue : s.value root.reach = factValue facts root.reach := told _ (.head _)
  unfold consequence at nothing
  dsimp only at nothing
  split at nothing
  · rename_i path found
    have possible : root.possiblePath facts ≠ none := fun none' => by
      rw [truePath_eq_none h none'] at found
      cases found
    split at nothing
    · rename_i isTrue
      rw [← reachValue] at isTrue
      exact ⟨fun _ => by rw [isTrue]; exact nofun, fun apart => absurd (connectsPossible possible) apart⟩
    · obtain ⟨_, _, no⟩ := Except.map_eq_ok nothing
      cases no
  · rename_i absent
    refine ⟨fun connects => absurd absent (connectsTrue connects), fun apart => ?_⟩
    split at nothing
    · rename_i path found
      exact absurd (connectsPossible (by rw [found]; exact nofun)) apart
    · split at nothing
      · rename_i isFalse
        rw [reachValue, isFalse]
        exact nofun
      · obtain ⟨_, _, no⟩ := Except.map_eq_ok nothing
        cases no

/-- What facts force holds where the theory is satisfied and they do. -/
theorem Forces.follows (h : root.IsBuilt) (areFacts : AreFacts facts) (forces : root.Forces facts l clause)
    {v : Atom → Bool} (models : root.Models v) (agrees : ∀ fact ∈ facts, fact.Holds v) : l.Holds v := by
  refine (forces.holds h areFacts models).of_others fun m member other => ?_
  have fact := forces.falsified h areFacts m member other
  have proper : m.atom ≠ topAtom := Literal.atom_negate m ▸ areFacts.proper _ fact
  exact Literal.not_holds_of_negate proper (agrees _ fact)

/-- What facts of the trail force is a conflict where it is false: they are against all other literals. -/
theorem Forces.conflict (h : root.IsBuilt) (areFacts : AreFacts facts) {rest : Clause}
    (forces : root.Forces facts l (l :: rest)) (coherent : s.Coherent)
    (onTrail : ∀ l ∈ facts, l ∈ s.trail.literals) (isFalse : l.negate ∈ s.trail.literals) :
    root.DrawsSoundly facts s (some (l :: rest)) s := by
  refine ⟨?_, ?_, [], (List.append_nil _).symm, nofun⟩
  · rintro _ ⟨⟩ m member
    have negated : m.negate ∈ s.trail.literals := by
      by_cases same : m = l
      · rwa [same]
      · exact onTrail _ (forces.falsified h areFacts m member same)
    have value := coherent.valueOf_negate negated
    rw [Literal.negate_negate] at value
    exact ⟨negated, value⟩
  · rintro _ ⟨⟩ v models
    exact forces.holds h areFacts models

/-! ### A look at the facts -/

section Examine

variable (h : root.IsBuilt) (inRange : root.reach ≤ maxAtom) (recalls : Recalls root heard t)
  (areFacts : AreFacts heard.entries) (coherent : s.Coherent)
  (onTrail : ∀ l ∈ heard.entries, l ∈ s.trail.literals)

include h inRange recalls areFacts coherent onTrail

/-- A look at facts of the trail ends and is sound. If all values were heard of and it found no conflict, the atom
has no value that is against the paths. -/
theorem examine_sound (skip : Bool) (i : Nat) : (t.examine skip).Returns i s fun outcome s' =>
    root.DrawsSoundly t.log.entries s outcome.1 s' ∧
      ((∀ a ∈ root.atoms, (s.value a).isSome → ∃ l ∈ heard.entries, l.atom = a) → outcome.1 = none →
        root.RespectsPaths s') := by
  have proper : root.reach ≠ topAtom := h.proper _ (.head _)
  have values : ∀ a value, factValue heard.entries a = some value → s.value a = some value := by
    intro a value known
    obtain ⟨l, fact, rfl, rfl⟩ := exists_of_factValue known
    exact Literal.valueOn_eq_true.mp (coherent.valueOf_of_mem (onTrail l fact))
  have unset (complete : ∀ a ∈ root.atoms, (s.value a).isSome → ∃ l ∈ heard.entries, l.atom = a) {a : Atom}
      (inRoot : a ∈ root.atoms) (unknown : factValue heard.entries a = none) : s.value a = none := by
    by_contra valued
    have known := isSome_factValue (complete a inRoot (Option.isSome_iff_ne_none.mpr valued))
    rw [unknown] at known
    cases known
  unfold examine
  dsimp only
  rw [recalls.consequence, recalls.entries]
  rcases consequence_cases h inRange areFacts with nothing | ⟨l, clause, drawn, forces, other⟩
  · rw [nothing]
    refine .done ⟨.silent .., fun complete _ => respectsPaths_of_nothing h (fun a inRoot => ?_) nothing⟩
    cases known : factValue heard.entries a with
    | none => exact unset complete inRoot known
    | some value => exact values a value known
  · obtain ⟨rest, rfl⟩ := forces.exists_cons
    have onReach : l.atom = root.reach := forces.atom_eq
    have conflict (isFalse : l.negate ∈ s.trail.literals) :
        root.DrawsSoundly heard.entries s (some (l :: rest)) s :=
      forces.conflict h areFacts coherent onTrail isFalse
    rw [drawn]
    change Turn.Returns (if _ then _ else _) i s _
    rw [recalls.reach]
    split
    · rename_i valued
      obtain ⟨value, known⟩ := Option.isSome_iff_exists.mp valued
      exact .done ⟨conflict (onTrail _ (forces.negate_mem areFacts other known)), nofun⟩
    · rename_i unknown
      replace unknown := Option.not_isSome_iff_eq_none.mp unknown
      split
      · exact .done ⟨.silent .., fun complete _ => respectsPaths_of_unset (unset complete (.head _) unknown)⟩
      · by_cases isKnown : l.atom < s.count
        · refine Turn.Returns.assign isKnown (fun s' made => .done ⟨⟨nofun, nofun, ?_⟩, fun _ _ => ?_⟩)
            (fun isTrue => .done ⟨.silent .., fun complete _ => ?_⟩) (fun isFalse => .done ⟨conflict ?_, nofun⟩)
          · refine ⟨[l], Atoms.literals_assign made, List.forall_mem_singleton.mpr ⟨onReach, ?_⟩⟩
            exact fun v models agrees => forces.follows h areFacts models agrees
          · refine forces.respectsPaths h (fun a value known => ?_) ?_
            · rw [Atoms.value_assign made]
              split
              · rename_i same
                rw [same, onReach, unknown] at known
                cases known
              · exact values a value known
            · rw [Atoms.value_assign made, if_pos onReach.symm]
          · exact respectsPaths_of_unset (unset complete (.head _) unknown)
          · exact (coherent.valueOf_eq_false (onReach ▸ proper)).mp isFalse
        · refine .assign_unknown isKnown (.done ⟨.silent .., fun _ _ => respectsPaths_of_unset ?_⟩)
          rw [← onReach, Atoms.value, Atoms.assignment, Array.getElem?_eq_none (Nat.not_lt.mp isKnown)]
          rfl

end Examine

end Reachability

section Family

variable {τ : Type} [Theory τ] {settings : Settings} {events : List (Event (τ ⊕ Reachability))}
  {s : Session (τ ⊕ Reachability)} {e : Event (τ ⊕ Reachability)} {root : Reachability} {i : Nat}

/-- Wherever a run comes through, a turn of a theory of reachability ends without an error and is sound: its
conflict is false on the trail and holds wherever the theory is satisfied, and what it makes true is on the atom of
reachability and follows from the facts of its log. If it ends without a conflict, the whole trail was handed over
and all atoms are observed, the atom is left with no value that is against the paths. -/
theorem PublicRun.reaches_soundly (run : PublicRun settings events s) (member : e ∈ events)
    (given : e.command = .addTheory (.inr root)) (registered : e.result = .ok (.theory i))
    (isBuilt : root.IsBuilt) (inRange : root.reach ≤ maxAtom) {c : Context (τ ⊕ Reachability)}
    (reached : Moves .any s.context c) {turn : τ ⊕ Reachability → Turn (Option Clause × (τ ⊕ Reachability))}
    {call : Nat → List Literal → Option Clause → Call} (kind : TurnKind turn call) :
    ∃ m t conflict c', c.theories.members[i]? = some m ∧ m.theory = .inr t ∧
      c.run (Procedure.takeTurn i turn call) = .ok (.ok (conflict.map (.theory i)), c') ∧
      root.DrawsSoundly t.log.entries c.atoms conflict c'.atoms ∧
      (conflict = none → m.head = c.atoms.trail.length → (∀ a ∈ root.atoms, m.observes a) →
        root.RespectsPaths c'.atoms) := by
  have h : c.Coherent := Moves.coherent reached run.coherent.1
  have told : c.Told := Moves.told reached run.coherent.1 run.told
  have built : Constraint.IsBuilt root := ⟨isBuilt, inRange⟩
  obtain ⟨m, t, found, isTheory, recalls⟩ := run.recalls_of_registers member given registered built reached
  have delivered := told.delivered i m found
  have coherent := h.supports.atoms
  have examined (skip : Bool) := Reachability.examine_sound isBuilt inRange recalls (delivered.areFacts coherent)
    coherent (fun l fact => delivered.subset fact) skip i
  obtain ⟨own, ownKind, takes⟩ := Procedure.memberTurn_inr kind (i := i)
  obtain ⟨⟨conflict, t'⟩, after, ran, sound, respects⟩ : (own t).Returns i c.atoms fun outcome s' =>
      root.DrawsSoundly t.log.entries c.atoms outcome.1 s' ∧
        ((∀ a ∈ root.atoms, (c.atoms.value a).isSome → ∃ l ∈ (c.theories.heard i).entries, l.atom = a) →
          outcome.1 = none → root.RespectsPaths s') := by
    cases ownKind with
    | propagate => exact examined true
    | solve => exact examined false
  obtain ⟨calls, taken⟩ := takes isTheory rfl ran
  obtain ⟨c', turned, rfl, _⟩ := Procedure.run_takeTurn found taken fun clause given l inside =>
    (sound.falsified clause given l inside).2
  refine ⟨m, t, conflict, c', found, isTheory, turned, sound, fun none' whole observed => respects ?_ none'⟩
  exact told.complete_of_head h found whole observed isBuilt.proper

end Family

/-- With parallel edges on one atom, a loop and an edge on the atom of reachability itself, a path of true edges
was found, and a further turn draws nothing. -/
theorem reaches_by_parallel_edges :
    ∃ (events : List (Event (RuleTable ⊕ Reachability))) (s : Session (RuleTable ⊕ Reachability))
      (root : Reachability), PublicRun {} events s ∧
      root = [⟨0, 1, 2⟩, ⟨0, 1, 2⟩, ⟨1, 1, 3⟩, ⟨1, 2, 3⟩, ⟨0, 2, 1⟩].foldl Reachability.addEdge
        (.ofNodes 3 0 2 1) ∧
      events.map (·.command) = [.freshLiterals 3, .addClause [⟨1⟩, ⟨2⟩], .addTheory (.inl {}),
        .addTheory (.inr root), .observe 1 1, .observe 1 2, .observe 1 3, .decideLiteral ⟨2⟩,
        .decideLiteral ⟨3⟩, .propagate] ∧
      s.context.atoms.trail.literals = [⟨2⟩, ⟨3⟩, ⟨1⟩] ∧
      ∃ facts c', s.context.run (Procedure.takeTurn 1 Theory.propagate .propagate) = .ok (.ok none, c') ∧
        root.DrawsSoundly facts s.context.atoms none c'.atoms ∧ root.RespectsPaths c'.atoms := by
  obtain ⟨events, s, run, commands, checked⟩ := PublicRun.of_run_any (σ := RuleTable ⊕ Reachability) {}
    [.freshLiterals 3, .addClause [⟨1⟩, ⟨2⟩], .addTheory (.inl {}),
      .addTheory (.inr ([⟨0, 1, 2⟩, ⟨0, 1, 2⟩, ⟨1, 1, 3⟩, ⟨1, 2, 3⟩, ⟨0, 2, 1⟩].foldl Reachability.addEdge
        (.ofNodes 3 0 2 1))),
      .observe 1 1, .observe 1 2, .observe 1 3, .decideLiteral ⟨2⟩, .decideLiteral ⟨3⟩, .propagate]
    (by simp [Command.IsPublic])
    (fun results s => decide (results = [.ok (.literals [⟨1⟩, ⟨2⟩, ⟨3⟩]), .ok (.clause (.added (.given 0))),
        .ok (.theory 0), .ok (.theory 1), .ok .done, .ok .done, .ok .done, .ok .done, .ok .done, .ok .fixpoint]) &&
      decide (s.context.atoms.trail.literals = [⟨2⟩, ⟨3⟩, ⟨1⟩]) &&
      (s.context.theories.members[1]?.any fun m => [1, 2, 3].all m.observes &&
        decide (m.head = s.context.atoms.trail.length)) &&
      (s.context.run (Procedure.takeTurn 1 Theory.propagate .propagate)).toOption.any
        fun (outcome, _) => decide (outcome = .ok none))
    (by decide +kernel)
  simp only [Bool.and_eq_true, decide_eq_true_eq, Option.any_eq_true, List.all_eq_true] at checked
  obtain ⟨⟨⟨answered, trail⟩, m, found, observed, whole⟩, ⟨outcome, c'⟩, ended, rfl⟩ := checked
  obtain ⟨e, member, given, registered⟩ : ∃ e ∈ events,
      e.command = .addTheory (.inr ([⟨0, 1, 2⟩, ⟨0, 1, 2⟩, ⟨1, 1, 3⟩, ⟨1, 2, 3⟩, ⟨0, 2, 1⟩].foldl
        Reachability.addEdge (.ofNodes 3 0 2 1))) ∧ e.result = .ok (.theory 1) :=
    Event.exists_of_mem_zip commands answered (by simp)
  obtain ⟨m', t, conflict, after, found', isTheory, ran, sound, respects⟩ :=
    run.reaches_soundly member given registered ⟨3, 0, 2, 1, .latestFirst, _, rfl, by decide⟩ (by decide) .refl
      .propagate
  obtain rfl : m' = m := Option.some.inj (found'.symm.trans found)
  obtain rfl : conflict = none := by
    rw [ran] at ended
    cases conflict with
    | none => rfl
    | some clause => cases ended
  refine ⟨events, s, _, run, rfl, commands, trail, _, after, ran, sound, respects rfl whole fun a inRoot => ?_⟩
  exact observed a (by revert a; decide)

/-- Without a bound on the atom of reachability there are runs with a turn that is not sound. The positive literal
of the atom `2 ^ 32 - 1` is read as the negative one of the atom `1`, so where that is true the empty path from the
source to itself is a conflict, which does not hold wherever the theory is satisfied. -/
theorem PublicRun.reaches_unsoundly_beyond_range :
    ¬∀ (settings : Settings) (events : List (Event (RuleTable ⊕ Reachability)))
      (s : Session (RuleTable ⊕ Reachability)) (e : Event (RuleTable ⊕ Reachability)) (root : Reachability)
      (i : Nat), PublicRun settings events s → e ∈ events → e.command = .addTheory (.inr root) →
      e.result = .ok (.theory i) → root.IsBuilt →
      ∃ m t conflict c', s.context.theories.members[i]? = some m ∧ m.theory = .inr t ∧
        s.context.run (Procedure.takeTurn i Theory.propagate .propagate) =
          .ok (.ok (conflict.map (.theory i)), c') ∧
        root.DrawsSoundly t.log.entries s.context.atoms conflict c'.atoms := by
  intro claimed
  obtain ⟨events, s, run, commands, checked⟩ := PublicRun.of_run_any (σ := RuleTable ⊕ Reachability) {}
    [.addClause [⟨1⟩], .addTheory (.inr (.ofNodes 1 0 0 4294967295))] (by simp [Command.IsPublic])
    (fun results s => decide (results = [.ok (.clause (.added (.given 0))), .ok (.theory 0)]) &&
      (s.context.run (Procedure.takeTurn 0 Theory.propagate .propagate)).toOption.any
        fun (outcome, _) => decide (outcome = .ok (some (.theory 0 [⟨-1⟩]))))
    (by decide +kernel)
  simp only [Bool.and_eq_true, decide_eq_true_eq, Option.any_eq_true] at checked
  obtain ⟨answered, ⟨outcome, after⟩, ended, rfl⟩ := checked
  obtain ⟨e, member, given, registered⟩ : ∃ e ∈ events,
      e.command = .addTheory (.inr (.ofNodes 1 0 0 4294967295)) ∧ e.result = .ok (.theory 0) :=
    Event.exists_of_mem_zip commands answered (by simp)
  obtain ⟨m, t, conflict, c', _, _, ran, sound⟩ :=
    claimed {} events s e _ 0 run member given registered ⟨1, 0, 0, 4294967295, .latestFirst, [], rfl, by decide⟩
  rw [ran] at ended
  cases conflict with
  | none => cases ended
  | some clause =>
    obtain rfl : clause = [⟨-1⟩] := by
      cases ended
      rfl
    have holds := sound.entailed _ rfl (fun _ => true) (iff_of_true rfl .refl)
    revert holds
    decide

end SatModulo
