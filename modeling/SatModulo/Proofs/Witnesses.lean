import SatModulo.Output
import SatModulo.Proofs.Solutions
import Mathlib.Data.List.Chain

/-!
# Witnesses

Theories write their witnesses from the facts that they were told of. When a search has answered that there
is a solution, all of them have been told of the whole trail (`Procedure.solve_delivers`), so that what a
theory recalls is what has a value: a witness of reachability is a path of true edges, or says that there is
none, and a witness of at most so many literals is the list of those that are true
(`PublicRun.witnesses_genuine`).
-/
namespace SatModulo

open Constraint

/-! ### What is delivered at the end of a search -/

namespace Procedure

variable {σ : Type} [Theory σ] {c : Context σ}

/-- Theories that are asked about a full valuation have been told of it, and still are when all agree. -/
theorem finalCheck_delivers : (finalCheck : Procedure σ FinalCheck).Ensures c fun result after =>
    result = .ok .satisfied → after.AllDelivered := by
  refine .bind deliverAll_leads (fun _ _ _ => nofun) ?_
  rintro ⟨⟩ told ⟨_, _, delivered⟩
  refine .get_bind (.bind (solveEach_leads _ _) (fun _ _ _ => nofun) ?_)
  rintro outcome solved ⟨reached, checked⟩
  split
  · have still : solved.AllDelivered :=
      Draws.allDelivered reached (by rw [(checked rfl).1]) delivered
    split
    · refine .bind checkSolved_leads (fun _ _ _ => nofun) fun _ after ⟨further, same, _⟩ => .pure fun _ => ?_
      exact Draws.allDelivered further (by rw [same]) still
    · exact .pure fun _ => still
  · rename_i other
    exact .pure fun same => absurd (Except.ok.inj same) other

theorem recoverFrom_delivers (conflict : Conflict) :
    (iterate.recoverFrom conflict : Procedure σ (Option Report)).Ensures c fun result after =>
      result = .ok (some .satisfiable) → after.phase = .satisfiable ∧ after.AllDelivered := by
  refine .bind_any (fun _ _ => nofun) fun recovery after => ?_
  cases recovery <;> exact .pure nofun

/-- A solution is found only after theories have been told of the whole trail. -/
theorem iterate_delivers : (iterate : Procedure σ (Option Report)).Ensures c fun result after =>
    result = .ok (some .satisfiable) → after.phase = .satisfiable ∧ after.AllDelivered := by
  refine .modify_bind (.get_bind ?_)
  split
  · exact .pure nofun
  refine .bind_any (fun _ _ => nofun) fun outcome propagated => ?_
  split
  · exact recoverFrom_delivers _
  · refine .get_bind (.ofFaulty_bind fun _ _ => .modify_bind (.bind_any (fun _ _ => nofun) ?_))
    intro decision decided
    split
    · exact .pure nofun
    · refine .bind finalCheck_delivers (fun _ _ _ => nofun) fun checked after delivered => ?_
      split
      · exact .modify_bind (.pure fun _ => ⟨rfl, delivered rfl⟩)
      · exact .pure nofun
      · exact recoverFrom_delivers _

theorem iterateWithin_delivers (fuel : Nat) : (iterateWithin fuel : Procedure σ Report).Ensures c
    fun result after => result = .ok .satisfiable → after.phase = .satisfiable ∧ after.AllDelivered := by
  induction fuel generalizing c with
  | zero => exact .pure nofun
  | succ fuel ih =>
    refine .bind iterate_delivers (fun _ _ _ => nofun) fun outcome after delivered => ?_
    cases outcome with
    | some report => exact .pure fun same => delivered (congrArg (Except.map some) same)
    | none => exact ih

/-- A search that answers that there is a solution has told every theory of the whole trail. -/
theorem solve_delivers : (solve : Procedure σ Report).Ensures c fun result after =>
    result = .ok .satisfiable → after.phase = .satisfiable ∧ after.AllDelivered := by
  refine .get_bind ?_
  split
  · exact .pure nofun
  · exact .bind_any (fun _ _ => nofun) fun _ _ => .modify_bind (.get_bind (iterateWithin_delivers _))

end Procedure

/-! ### Paths as sequences of nodes -/

/-- A walk visits nodes each of which is joined to the next, and ends at its target. -/
theorem Graph.IsWalk.nodes {g : Graph} {enabled : Atom → Bool} {source target : Nat} {path : List Edge}
    (walk : g.IsWalk enabled source path target) :
    (source :: path.map Edge.target).IsChain (g.Step enabled) ∧
      (source :: path.map Edge.target).getLast? = some target := by
  induction walk with
  | nil => exact ⟨.singleton source, rfl⟩
  | @concat path e _ member isEnabled ih =>
    obtain ⟨chain, ends⟩ := ih
    rw [List.map_append, ← List.cons_append]
    refine ⟨chain.append (.singleton _) fun x last y first => ?_, List.getLast?_concat⟩
    rw [ends] at last
    cases last
    cases first
    exact ⟨e, member, isEnabled, rfl, rfl⟩

def Reachability.pathText (nodes : List Nat) : String :=
  "path " ++ " ".intercalate (nodes.map toString) ++ "\n"

theorem Reachability.pathText_ne (nodes : List Nat) : pathText nodes ≠ "no path\n" := by
  intro same
  have first := congrArg (fun text : String => text.toList.head?) same
  simp [pathText] at first

/-! ### What a witness is to be -/

section Value

variable (value : Atom → Option Bool)

/-- A text shows whether the target is reached: it names the nodes of a path of true edges if the atom is
true, and says that there is no path exactly if the atom is false. -/
structure Reachability.IsWitness (t : Reachability) (text : String) : Prop where
  path : value t.reach = some true → ∃ nodes : List Nat, text = pathText nodes ∧
    nodes.head? = some t.source ∧ nodes.getLast? = some t.target ∧
    nodes.IsChain fun x y => ∃ e ∈ t.graph.edges, value e.atom = some true ∧ e.source = x ∧ e.target = y
  noPath : text = "no path\n" ↔ value t.reach = some false

/-- A text lists the true members, each of them once, and they are no more than the bound. -/
def AtMost.IsWitness (t : AtMost) (text : String) : Prop :=
  ∃ listed : List Literal, text = Clause.line listed ++ "\n" ∧ listed.Nodup ∧
    (∀ l, l ∈ listed ↔ l ∈ t.members ∧ l.valueOn value = some true) ∧ listed.length ≤ t.bound

/-- What a theory writes is a witness of its kind. -/
def IsWitness : AtMost ⊕ Reachability → String → Prop :=
  Sum.elim (AtMost.IsWitness value) (Reachability.IsWitness value)

end Value

/-! ### The theories that are told of everything -/

variable {σ : Type} {c : Context σ} {v : Atom → Bool}

/-- A theory that recalls all of its atoms with their values writes a witness. -/
theorem AtMost.Recalls.isWitness {root t : AtMost} {recalled : LevelStack Literal}
    (recalls : Recalls root recalled t) (areFacts : AreFacts recalled.entries)
    (values : Atom → Option Bool) (models : root.Models v)
    (facts : ∀ l ∈ root.members, l ∈ recalled.entries ↔ l.valueOn values = some true)
    (holds : ∀ l ∈ recalled.entries, l.Holds v) :
    root.IsWitness values (Theory.witness t) := by
  have listed : t.trueMembers t.log.entries = root.trueMembers recalled.entries := by
    rw [recalls.trueMembers, LevelLog.entries, recalls.log]
  refine ⟨root.trueMembers recalled.entries, by rw [← listed]; rfl, areFacts.nodup.filter _, fun l => ?_, ?_⟩
  · rw [mem_trueMembers, and_comm]
    exact and_congr_right fun member => facts l member
  · exact models.length_le (areFacts.nodup.filter _) (fun l member => (mem_trueMembers.mp member).2)
      fun l member => holds l (mem_trueMembers.mp member).1

/-- The nodes that are named are those of the path that the theory itself found. -/
theorem Reachability.Recalls.isWitness {root t : Reachability} {recalled : LevelStack Literal}
    (recalls : Recalls root recalled t) (isBuilt : root.IsBuilt) (values : Atom → Option Bool)
    (models : root.Models v) (given : ∀ a ∈ root.atoms, values a = some (v a))
    (facts : ∀ a ∈ root.atoms, factValue recalled.entries a = some (v a)) :
    root.IsWitness values (Theory.witness t) := by
  have onEdge : ∀ e ∈ root.graph.edges, e.atom ∈ root.atoms := fun e edge =>
    .tail _ (List.mem_map_of_mem edge)
  have same : t.truePath t.log.entries = root.graph.shortestPath
      (fun a => factValue recalled.entries a == some true) root.source root.target := by
    rw [truePath, recalls.entries, recalls.graph, recalls.source, recalls.target]
  have written : Theory.witness t = t.witnessText := rfl
  have reach := given root.reach (.head _)
  rw [witnessText, same, recalls.source] at written
  cases found : root.graph.shortestPath (fun a => factValue recalled.entries a == some true) root.source
      root.target with
  | some path =>
    have walk := Graph.isWalk_of_shortestPath isBuilt.wellFormed isBuilt.inside found
    obtain ⟨chain, ends⟩ := walk.nodes
    rw [found] at written
    have reached : v root.reach = true := models.mpr (walk.connects.mono fun e edge on => by
      simpa [facts _ (onEdge e edge)] using on)
    refine ⟨fun _ => ⟨_, written, rfl, ends, chain.imp fun x y => ?_⟩, ?_⟩
    · rintro ⟨e, edge, on, from', to'⟩
      exact ⟨e, edge, by simpa [facts _ (onEdge e edge), given _ (onEdge e edge)] using on, from', to'⟩
    · rw [reach, reached]
      exact iff_of_false (written ▸ pathText_ne _) (by decide)
  | none =>
    rw [found] at written
    have apart := (Graph.shortestPath_eq_none_iff isBuilt.wellFormed isBuilt.inside).mp found
    have unreached : v root.reach = false := by
      rw [← Bool.not_eq_true]
      exact fun reached => apart ((models.mp reached).mono fun e edge on => by
        simpa [facts _ (onEdge e edge)] using on)
    rw [unreached] at reach
    exact ⟨fun reached => absurd (reach.symm.trans reached) (by decide), iff_of_true written reach⟩

/-- A theory that has been told of a full valuation on its atoms, and is satisfied by it, writes a witness. -/
theorem Context.Told.isWitness {c : Context (AtMost ⊕ Reachability)} {v : Atom → Bool} (told : c.Told)
    (h : c.Coherent) (delivered : c.AllDelivered)
    (values : ∀ a < c.atoms.count, c.atoms.value a = some (v a)) {i : Nat} {root : AtMost ⊕ Reachability}
    {m : Member (AtMost ⊕ Reachability)} (isBuilt : IsBuilt root) (stems : c.theories.Stems i root m)
    (observes : ∀ a ∈ Constraint.atoms root, m.observes a) (models : Models v root) :
    IsWitness c.atoms.value root (Theory.witness m.theory) := by
  have proper : ∀ a ∈ Constraint.atoms root, a ≠ topAtom := LawfulConstraint.proper isBuilt
  have valued : ∀ a ∈ Constraint.atoms root, c.atoms.value a = some (v a) := fun a inRoot =>
    values a (told.known m (List.mem_of_getElem? stems.1) a (of_decide_eq_true (observes a inRoot)))
  have areFacts := (told.delivered i m stems.1).areFacts h.supports.atoms
  have holds : ∀ l ∈ (c.theories.heard i).entries, l.Holds v := fun l inHeard =>
    h.supports.atoms.holds_of_mem values ((told.mem_heard delivered stems.1).mp inHeard).1
  have recalls := stems.recalls isBuilt
  -- A theory stays of the kind that was registered.
  rcases root with root | root <;> cases theory : m.theory <;> rw [theory] at recalls
  case inl.inr | inr.inl => exact False.elim recalls
  case inl.inl t =>
    replace recalls : root.Recalls ((c.theories.heard i).filter root.keeps) t := recalls
    have kept : ((c.theories.heard i).filter root.keeps).entries.Sublist (c.theories.heard i).entries := by
      rw [LevelStack.entries_filter]
      exact List.filter_sublist
    refine recalls.isWitness (areFacts.sublist kept) _ models (fun l member => ?_) fun l inHeard =>
      holds l (kept.subset inHeard)
    have onMember : l.atom ∈ root.atoms := List.mem_map_of_mem member
    have isTrue := h.supports.atoms.valueOf_eq_true (proper _ onMember)
    rw [LevelStack.entries_filter, List.mem_filter, told.mem_heard delivered stems.1, ← isTrue]
    simp [Atoms.valueOf, AtMost.keeps, member, observes _ onMember]
  case inr.inr t =>
    replace recalls : root.Recalls (c.theories.heard i) t := recalls
    refine recalls.isWitness isBuilt.1 _ models valued fun a inRoot => ?_
    exact factValue_of_holds holds (told.complete h delivered stems.1 observes proper a inRoot
      (by rw [valued a inRoot]; rfl))

/-- Where a search has found every atom valued, every atom has a value. -/
theorem Context.SolvedFrom.isSome_value [Theory σ] {after : Context σ} (solved : c.SolvedFrom after) {a : Atom}
    (known : a < after.atoms.count) : (after.atoms.value a).isSome := by
  obtain ⟨full, _, _, none', same, _⟩ := solved
  rw [same] at known ⊢
  by_contra unset
  have unvalued := Atoms.mem_unvalued.mpr ⟨known, Option.not_isSome_iff_eq_none.mp unset⟩
  rw [none'] at unvalued
  cases unvalued

/-! ### Runs -/

namespace PublicRun

/-- At a solution every theory has been told of the whole trail. -/
theorem delivered_of_satisfiable [Theory σ] {settings : Settings} {events : List (Event σ)} {e : Event σ}
    {s : Session σ} (run : PublicRun settings (events ++ [e]) s) (searched : e.command = .solve)
    (found : e.result = .ok (.report .satisfiable)) :
    s.context.phase = .satisfiable ∧ s.context.AllDelivered := by
  obtain ⟨_, _, rfl⟩ := run.of_concat
  obtain ⟨_, taken, _⟩ := run.ran e (List.mem_append_right _ (.head _))
  have executed := (Session.step_eq_ok taken).1
  rw [searched, found] at executed
  refine Command.ensures_answer (f := .report) (q := fun result after =>
    result = .ok (.report .satisfiable) → after.phase = .satisfiable ∧ after.AllDelivered)
    (Procedure.solve_delivers.mono fun result after delivered same => delivered ?_) _ _ executed rfl
  cases result <;> cases same
  rfl

variable {settings : Settings} {events : List (Event (AtMost ⊕ Reachability))}
  {e : Event (AtMost ⊕ Reachability)} {s : Session (AtMost ⊕ Reachability)}

/-- A theory that was registered writes a witness once a search has answered that there is a solution. -/
theorem isWitness (run : PublicRun settings (events ++ [e]) s) (observed : AllObserved events)
    (searched : e.command = .solve) (found : e.result = .ok (.report .satisfiable))
    {r : Event (AtMost ⊕ Reachability)} (member : r ∈ events) {root : AtMost ⊕ Reachability} {i : Nat}
    (isBuilt : IsBuilt root) (given : r.command = .addTheory root) (registered : r.result = .ok (.theory i)) :
    ∃ m, s.context.theories.members[i]? = some m ∧
      IsWitness s.context.atoms.value root (Theory.witness m.theory) := by
  have solved := run.solvedFrom_of_satisfiable searched found
  obtain ⟨v, values⟩ : ∃ v : Atom → Bool, ∀ a < s.context.atoms.count, s.context.atoms.value a = some (v a) := by
    refine ⟨fun a => (s.context.atoms.value a).getD false, fun a known => ?_⟩
    obtain ⟨value, valued⟩ := Option.isSome_iff_exists.mp (solved.isSome_value known)
    simp only [valued, Option.getD_some]
  have models : Models v root := run.of_concat.1.models_of_solvedFrom observed solved values member isBuilt
    ⟨given, i, registered⟩
  obtain ⟨m, stems⟩ := run.stems_of_registers (List.mem_append_left _ member) given registered
  refine ⟨m, stems.1, run.told.isWitness run.coherent.1 (run.delivered_of_satisfiable searched found).2 values
    isBuilt stems ?_ models⟩
  refine run.observes_all stems.1 fun a inRoot => ?_
  obtain ⟨o, observer, observes⟩ := observed r member root i given registered a inRoot
  exact ⟨o, List.mem_append_left _ observer, observes⟩

/-- When a search answers that there is a solution, the witnesses are one text for each registered theory:
for reachability a path of true edges from the source to the target if the atom is true, and that there is
none exactly if it is false; for at most so many literals those that are true, each once, and no more than
the bound. -/
theorem witnesses_genuine (run : PublicRun settings (events ++ [e]) s)
    (built : ∀ r ∈ events, ∀ root, r.Registers root → IsBuilt root) (observed : AllObserved events)
    (searched : e.command = .solve) (found : e.result = .ok (.report .satisfiable)) :
    ∃ texts : List String, s.context.witnesses = .ok (String.join texts) ∧
      (∀ r ∈ events, ∀ root i, r.command = .addTheory root → r.result = .ok (.theory i) →
        ∃ text, texts[i]? = some text ∧ IsWitness s.context.atoms.value root text) ∧
      ∀ i < texts.length, ∃ r ∈ events, ∃ root, r.command = .addTheory root ∧ r.result = .ok (.theory i) := by
  refine ⟨s.context.theories.members.map fun m => Theory.witness m.theory, ?_, ?_, fun i inside => ?_⟩
  · exact if_pos (run.delivered_of_satisfiable searched found).1
  · intro r member root i given registered
    obtain ⟨m, isMember, isWitness⟩ := run.isWitness observed searched found member
      (built r member root ⟨given, i, registered⟩) given registered
    exact ⟨_, by rw [List.getElem?_map, isMember]; rfl, isWitness⟩
  · rw [List.length_map] at inside
    obtain ⟨r, member, root, given, registered⟩ := run.registered_of_lt inside
    refine ⟨r, (List.mem_append.mp member).resolve_right fun last => ?_, root, given, registered⟩
    rw [List.mem_singleton.mp last, searched] at given
    cases given

/-- A search that is begun after a decision against the first of two edges. -/
theorem witnesses_genuine_after_decision :
    ∃ (events : List (Event (AtMost ⊕ Reachability))) (e : Event (AtMost ⊕ Reachability))
      (s : Session (AtMost ⊕ Reachability)), PublicRun {} (events ++ [e]) s ∧
      events.map (·.command) = [.freshLiterals 4, .addClause [⟨1⟩],
        .addTheory (.inl (.ofMembers [⟨1⟩, ⟨2⟩] 1)),
        .addTheory (.inr (([⟨0, 1, 3⟩, ⟨1, 2, 4⟩] : List Edge).foldl Reachability.addEdge (.ofNodes 3 0 2 1))),
        .observe 0 1, .observe 0 2, .observe 1 1, .observe 1 3, .observe 1 4, .decideLiteral ⟨-3⟩] ∧
      e.command = .solve ∧ e.result = .ok (.report .satisfiable) ∧
      s.context.witnesses = .ok "1 0\npath 0 1 2\n" ∧
      ∃ texts, String.join texts = "1 0\npath 0 1 2\n" ∧
        (∃ text, texts[0]? = some text ∧
          IsWitness s.context.atoms.value (.inl (.ofMembers [⟨1⟩, ⟨2⟩] 1)) text) ∧
        ∃ text, texts[1]? = some text ∧ IsWitness s.context.atoms.value
          (.inr (([⟨0, 1, 3⟩, ⟨1, 2, 4⟩] : List Edge).foldl Reachability.addEdge (.ofNodes 3 0 2 1))) text := by
  obtain ⟨whole, s, run, given, checked⟩ := PublicRun.of_run_any {}
    (([.freshLiterals 4, .addClause [⟨1⟩], .addTheory (.inl (.ofMembers [⟨1⟩, ⟨2⟩] 1)),
      .addTheory (.inr (([⟨0, 1, 3⟩, ⟨1, 2, 4⟩] : List Edge).foldl Reachability.addEdge (.ofNodes 3 0 2 1))),
      .observe 0 1, .observe 0 2, .observe 1 1, .observe 1 3, .observe 1 4, .decideLiteral ⟨-3⟩] :
        List (Command (AtMost ⊕ Reachability))) ++ [.solve])
    (by simp [Command.IsPublic])
    (fun results s => decide (results = [.ok (.literals [⟨1⟩, ⟨2⟩, ⟨3⟩, ⟨4⟩]),
        .ok (.clause (.added (.given 0))), .ok (.theory 0), .ok (.theory 1), .ok .done, .ok .done, .ok .done,
        .ok .done, .ok .done, .ok .done] ++ [.ok (.report .satisfiable)]) &&
      decide (s.context.witnesses.toOption = some "1 0\npath 0 1 2\n"))
    (by decide +kernel)
  rw [Bool.and_eq_true, decide_eq_true_eq, decide_eq_true_eq] at checked
  obtain ⟨results, text⟩ := checked
  obtain ⟨events, last, rfl, commands, searched⟩ := List.map_eq_append_iff.mp given
  obtain ⟨e, rfl⟩ : ∃ e, last = [e] := List.length_eq_one_iff.mp (by
    rw [← List.length_map (f := (·.command)), searched]
    rfl)
  rw [List.map_append] at results
  obtain ⟨results, found⟩ := List.append_inj results (by simpa using congrArg List.length commands)
  rw [List.map_singleton, List.singleton_inj] at searched found
  have built : ∀ r ∈ events, ∀ root, r.Registers root → IsBuilt root := by
    intro r member root registers
    have given := registers.mem member commands
    simp only [List.mem_cons, reduceCtorEq, Command.addTheory.injEq, List.not_mem_nil, false_or, or_false]
      at given
    rcases given with rfl | rfl
    · exact ⟨[⟨1⟩, ⟨2⟩], 1, rfl, by decide⟩
    · exact ⟨⟨3, 0, 2, 1, .latestFirst, [⟨0, 1, 3⟩, ⟨1, 2, 4⟩], rfl, by decide⟩, by decide⟩
  have observed : AllObserved events := by
    refine allObserved_of_pairs (Event.pairs_eq_zip commands results) fun theory i added a inTheory => ?_
    simp only [List.zip_cons_cons, List.zip_nil_right, List.mem_cons, Prod.mk.injEq, reduceCtorEq,
      Command.addTheory.injEq, Except.ok.injEq, Answer.theory.injEq, List.not_mem_nil, false_and, false_or,
      or_false] at added
    rcases added with ⟨rfl, rfl⟩ | ⟨rfl, rfl⟩
    · have either : a = 1 ∨ a = 2 := List.mem_pair.mp inTheory
      rcases either with rfl | rfl <;> simp
    · replace inTheory : a ∈ [1, 3, 4] := inTheory
      have either : a = 1 ∨ a = 3 ∨ a = 4 := by simpa using inTheory
      rcases either with rfl | rfl | rfl <;> simp
  obtain ⟨texts, written, each, _⟩ := run.witnesses_genuine built observed searched found
  have registered : ∀ root i, (.addTheory root, .ok (.theory i)) ∈ events.map (fun e => (e.command, e.result)) →
      ∃ text, texts[i]? = some text ∧ IsWitness s.context.atoms.value root text := by
    intro root i member
    obtain ⟨r, inside, same⟩ := List.mem_map.mp member
    exact each r inside root i (congrArg Prod.fst same) (congrArg Prod.snd same)
  rw [Event.pairs_eq_zip commands results] at registered
  have joined : String.join texts = "1 0\npath 0 1 2\n" := by
    rw [written] at text
    exact Option.some.inj text
  exact ⟨events, e, s, run, commands, searched, found, joined ▸ written, texts, joined,
    registered _ 0 (by simp), registered _ 1 (by simp)⟩

end PublicRun

end SatModulo
