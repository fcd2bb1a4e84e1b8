import SatModulo.Proofs.Support

/-!
# What theories hear

The calls of an account that tell a theory of facts, replayed into a stack of levels. For each kind of
move, what it does to a member and what the member hears at it: consequences are drawn in silence
(`Member.Silent`) or the trail is handed over (`Member.Caught`), a return cuts what was heard
(`Member.Returned`), and a decision opens a level (`Member.Raised`).
-/
namespace SatModulo

variable {σ : Type}

namespace Call

def hear (heard : LevelStack Literal) : Call → LevelStack Literal
  | .openLevel => heard.openLevel
  | .backtrack level => heard.cutTo level
  | .enqueue l => heard.push l
  | _ => heard

def hearAll (heard : LevelStack Literal) (calls : List Call) : LevelStack Literal :=
  calls.foldl hear heard

/-- A call that tells nothing of facts. -/
def IsSilent (call : Call) : Prop := ∀ heard, call.hear heard = heard

def IsTurn : Call → Prop
  | .propagate .. | .solve .. => True
  | _ => False

variable {heard : LevelStack Literal}

@[simp] theorem hearAll_nil : hearAll heard [] = heard := rfl

@[simp] theorem hearAll_append (first second : List Call) :
    hearAll heard (first ++ second) = hearAll (hearAll heard first) second := by
  simp [hearAll]

theorem not_isSilent_enqueue (l : Literal) : ¬(Call.enqueue l).IsSilent := by
  intro silent
  have nothing : ({} : LevelStack Literal).push l = {} := silent {}
  cases nothing

theorem hearAll_silent {calls : List Call} (silent : ∀ call ∈ calls, call.IsSilent) :
    hearAll heard calls = heard := by
  induction calls with
  | nil => rfl
  | cons call rest ih =>
    rw [hearAll, List.foldl_cons, silent call (.head _)]
    exact ih fun other member => silent other (.tail _ member)

@[simp] theorem level_hearAll_enqueue (literals : List Literal) :
    (hearAll heard (literals.map .enqueue)).level = heard.level := by
  induction literals generalizing heard with
  | nil => rfl
  | cons l rest ih => exact @ih (heard.push l)

theorem entriesAt_hearAll_enqueue (literals : List Literal) (level : Nat) :
    (hearAll heard (literals.map .enqueue)).entriesAt level =
      if level = heard.level then heard.entriesAt level ++ literals else heard.entriesAt level := by
  induction literals generalizing heard with
  | nil => simp
  | cons l rest ih =>
    rw [List.map_cons, hearAll, List.foldl_cons, ← hearAll, ih]
    simp only [hear, LevelStack.level_push, LevelStack.entriesAt_push]
    split
    · simp
    · rfl

theorem entries_hearAll_enqueue (literals : List Literal) :
    (hearAll heard (literals.map .enqueue)).entries = heard.entries ++ literals := by
  induction literals generalizing heard with
  | nil => simp
  | cons l rest ih =>
    rw [List.map_cons, hearAll, List.foldl_cons, ← hearAll, ih]
    simp [hear]

theorem keepsTo_silent {level : Nat} {calls : List Call} (silent : ∀ call ∈ calls, call.IsSilent) :
    heard.KeepsTo level (hearAll heard calls) := by
  rw [hearAll_silent silent]
  exact .refl _ _

theorem keepsTo_enqueueAll {level : Nat} (literals : List Literal) :
    heard.KeepsTo level (hearAll heard (literals.map .enqueue)) := by
  induction literals generalizing heard with
  | nil => exact .refl _ _
  | cons l rest ih => exact (LevelStack.KeepsTo.push heard l).trans ih

end Call

namespace Member

variable [Theory σ]

/-- A member is called, and nothing that is kept of it changes but that it was prepared. -/
structure Silent (i : Nat) (m m' : Member σ) (own : List Call) : Prop where
  trace : Theory.Trace i m.theory own m'.theory
  kept : m' = { m with theory := m'.theory, preprocessed := m'.preprocessed }
  silent : ∀ call ∈ own, call.IsSilent

/-- A member is called in silence, not for its turn, and gives no clause. -/
structure Quiet (i : Nat) (m m' : Member σ) (own : List Call) : Prop extends Silent i m m' own where
  mute : ∀ call ∈ own, call.clause? = none
  idle : ∀ call ∈ own, ¬call.IsTurn

/-- A member is told what is pending of the trail. -/
structure Caught (literals : List Literal) (i : Nat) (m m' : Member σ) (own : List Call) : Prop where
  trace : Theory.Trace i m.theory own m'.theory
  kept : m' = { m with theory := m'.theory, head := literals.length }
  own : own = (m.pending literals).map .enqueue

/-- A member is taken back to a level, where the trail has the given length. -/
structure Returned (level length : Nat) (i : Nat) (m m' : Member σ) (own : List Call) : Prop where
  trace : Theory.Trace i m.theory own m'.theory
  kept : m' =
    { m with
      theory := m'.theory
      preprocessed := m'.preprocessed
      level := min level m.level
      head := min m.head length }
  heard : ∀ heard : LevelStack Literal, heard.level = m.level →
    Call.hearAll heard own = heard.cutTo level
  untold : ∀ l, .enqueue l ∉ own
  mute : ∀ call ∈ own, call.clause? = none
  idle : ∀ call ∈ own, ¬call.IsTurn

/-- A level is opened on a member. -/
structure Raised (i : Nat) (m m' : Member σ) (own : List Call) : Prop where
  trace : Theory.Trace i m.theory own m'.theory
  kept : m' = { m with theory := m'.theory, level := m.level + 1 }
  own : own = [.openLevel]

variable {i : Nat} {m m' : Member σ} {own : List Call}

theorem Silent.none (i : Nat) (m : Member σ) : Silent i m m [] := ⟨.nil _, rfl, by simp⟩

theorem Quiet.none (i : Nat) (m : Member σ) : Quiet i m m [] := ⟨.none i m, nofun, nofun⟩

theorem Quiet.trans {m'' : Member σ} {before after : List Call} (first : Quiet i m m' before)
    (second : Quiet i m' m'' after) : Quiet i m m'' (before ++ after) where
  trace := first.trace.append second.trace
  kept := by rw [second.kept, first.kept]
  silent := List.forall_mem_append.mpr ⟨first.silent, second.silent⟩
  mute := List.forall_mem_append.mpr ⟨first.mute, second.mute⟩
  idle := List.forall_mem_append.mpr ⟨first.idle, second.idle⟩

theorem quiet_preprocess {occurs : Literal → Bool} (success : m.preprocess occurs = .ok (m', own)) :
    Quiet i m m' own := by
  obtain ⟨trace, kept, calls⟩ := preprocess_eq_ok success
  refine ⟨⟨trace i, kept, fun call member => ?_⟩, fun call member => ?_, fun call member => ?_⟩
  · rcases calls call member with rfl | ⟨l, rfl⟩ <;> exact fun _ => rfl
  · rcases calls call member with rfl | ⟨l, rfl⟩ <;> rfl
  · rcases calls call member with rfl | ⟨l, rfl⟩ <;> exact id

theorem quiet_clearSatisfied (success : m.clearSatisfied = .ok (m', own)) : Quiet i m m' own := by
  obtain ⟨trace, kept, calls⟩ := clearSatisfied_eq_ok success
  have each : ∀ call ∈ own, call = .clearSatisfied := by
    intro call member
    rcases calls with rfl | rfl
    · cases member
    · exact List.mem_singleton.mp member
  refine ⟨⟨trace i, by rw [kept], fun call member => ?_⟩, fun call member => ?_, fun call member => ?_⟩
  · rw [each call member]
    exact fun _ => rfl
  · rw [each call member]
    rfl
  · rw [each call member]
    exact id

theorem caught_deliver {literals : List Literal} {count : Nat}
    (success : m.deliver literals = .ok (count, m', own)) : Caught literals i m m' own := by
  obtain ⟨theory, told, rfl, rfl⟩ := deliver_eq_ok success
  exact ⟨.enqueueAll told, rfl, rfl⟩

theorem returned_backtrack {level length : Nat} (success : m.backtrack level length = (m', own)) :
    Returned level length i m m' own := by
  simp only [backtrack] at success
  split at success
  · rename_i low
    cases success
    refine ⟨.single (.backtrack _ _), ?_, fun _ _ => rfl, by simp, by simp [Call.clause?],
      by simp [Call.IsTurn]⟩
    rw [Nat.min_eq_left (Nat.le_of_lt low)]
  · rename_i high
    cases success
    refine ⟨.nil _, ?_, fun heard same => ?_, nofun, nofun, nofun⟩
    · rw [Nat.min_eq_right (Nat.not_lt.mp high)]
    · exact (heard.cutTo_of_le level (by rw [same]; exact Nat.not_lt.mp high)).symm

/-- A turn is taken on the atoms by the theory itself; what is kept of the member stays. -/
theorem memberTurn_eq_ok {turn : σ → Turn (Option Clause × σ)}
    {call : Nat → List Literal → Option Clause → Call} {s s' : Atoms} {conflict : Option Clause}
    (success : Procedure.memberTurn i turn call s m = .ok ((conflict, s'), m', own)) :
    ∃ flushed, (flushed = m.theory ∨ flushed = Theory.flush s m.theory) ∧
      (turn flushed).run i s = .ok ((conflict, m'.theory), s') ∧ m' = { m with theory := m'.theory } ∧
      own = (if m.capabilities.deferredEnqueue then [.flush s.level s.trail.length] else []) ++
        [call s.level (s'.trail.literals.drop s.trail.length) conflict] ∧
      flushed = if m.capabilities.deferredEnqueue then Theory.flush s m.theory else m.theory := by
  obtain ⟨⟨⟨conflict', theory⟩, after⟩, ran, success⟩ := Except.bind_eq_ok success
  cases success
  refine ⟨_, ?_, ran, rfl, rfl, rfl⟩
  split
  · exact .inr rfl
  · exact .inl rfl

/-- A turn tells a theory nothing of the trail. -/
theorem silent_memberTurn {turn : σ → Turn (Option Clause × σ)}
    {call : Nat → List Literal → Option Clause → Call} {s s' : Atoms} {conflict : Option Clause}
    (kind : TurnKind turn call)
    (success : Procedure.memberTurn i turn call s m = .ok ((conflict, s'), m', own)) :
    Silent i m m' own := by
  obtain ⟨flushed, _, ran, kept, calls, flush⟩ := memberTurn_eq_ok success
  have last : Theory.Answers i flushed (call s.level (s'.trail.literals.drop s.trail.length) conflict)
      m'.theory := by
    cases kind
    · exact .propagate _ _ _ _ _ ran
    · exact .solve _ _ _ _ _ ran
  have silent : (call s.level (s'.trail.literals.drop s.trail.length) conflict).IsSilent := by
    cases kind <;> exact fun _ => rfl
  refine ⟨?_, ?_, ?_⟩
  · rw [calls]
    split at flush
    · rename_i deferred
      rw [if_pos deferred]
      rw [flush] at last
      exact .cons (.flush _ _) (.single last)
    · rename_i direct
      rw [if_neg direct]
      rw [flush] at last
      exact .single last
  · rw [kept]
  · rw [calls]
    intro other member
    rcases List.mem_append.mp member with flushes | turns
    · split at flushes
      · cases List.mem_singleton.mp flushes
        exact fun _ => rfl
      · cases flushes
    · cases List.mem_singleton.mp turns
      exact silent

end Member

namespace Registry

variable [Theory σ] {r r' : Registry σ}

theorem changes_deliverAll {t : Trail} (success : r.deliverAll t = .ok r') :
    Changes (Member.Caught t.literals) r r' ∧ r'.schedule = r.schedule ∧ r'.decisions = r.decisions := by
  obtain ⟨changes, schedule, decisions, _⟩ := changeAll_eq_ok success
  refine ⟨changes.mono fun i m m' own changed => ?_, schedule, decisions⟩
  obtain ⟨⟨count, n, calls⟩, delivered, same⟩ := Except.bind_eq_ok changed
  cases same
  exact Member.caught_deliver delivered

/-- Nothing is called when the trail is handed over but to tell of facts. -/
theorem deliverAll_calls {t : Trail} (success : r.deliverAll t = .ok r') :
    ∃ calls : List (Nat × Call), r'.calls = r.calls ++ calls ∧ ∀ call ∈ calls, ∃ l, call.2 = .enqueue l := by
  obtain ⟨calls, added, origin⟩ := changeAll_calls success
  refine ⟨calls, added, fun call member => ?_⟩
  obtain ⟨m, m', own, changed, inside⟩ := origin call member
  obtain ⟨⟨count, n, own'⟩, delivered, same⟩ := Except.bind_eq_ok changed
  cases same
  obtain ⟨_, _, _, rfl⟩ := Member.deliver_eq_ok delivered
  obtain ⟨l, _, told⟩ := List.mem_map.mp inside
  exact ⟨l, told.symm⟩

theorem changes_openLevel (success : r.openLevel = .ok r') :
    Changes Member.Raised r r' ∧ r'.schedule = r.schedule ∧ r'.decisions = r.decisions := by
  obtain ⟨changes, schedule, decisions, _⟩ := changeAll_eq_ok success
  refine ⟨changes.mono fun i m m' own changed => ?_, schedule, decisions⟩
  cases changed
  exact ⟨.single (.openLevel _), rfl, rfl⟩

theorem changes_preprocess {occurs : Literal → Bool} (success : r.preprocess occurs = .ok r') :
    Changes Member.Quiet r r' ∧ r'.schedule = r.schedule ∧ r'.decisions = r.decisions := by
  obtain ⟨changes, schedule, decisions, _⟩ := changeAll_eq_ok success
  exact ⟨changes.mono fun i m m' own changed => Member.quiet_preprocess changed, schedule, decisions⟩

theorem changes_clearSatisfied {t : Trail} {isNew : Bool}
    (success : r.clearSatisfied t = .ok (isNew, r')) :
    Changes Member.Quiet r r' ∧ r'.schedule = r.schedule ∧ r'.decisions = r.decisions := by
  unfold clearSatisfied at success
  split at success
  · cases success
    exact ⟨.refl Member.Quiet.none r, rfl, rfl⟩
  · obtain ⟨between, changed, same⟩ := Except.bind_eq_ok success
    cases same
    obtain ⟨changes, schedule, decisions, _⟩ := changeAll_eq_ok changed
    refine ⟨?_, schedule, decisions⟩
    have quiet := changes.mono fun i m m' own cleared => Member.quiet_clearSatisfied (i := i) cleared
    exact ⟨quiet.length, quiet.member, quiet.absent⟩

theorem changes_undecideAll {records : List DecisionRecord}
    (success : undecideAll records r = .ok r') :
    Changes Member.Quiet r r' ∧ r'.schedule = r.schedule := by
  induction records generalizing r with
  | nil =>
    cases success
    exact ⟨.refl Member.Quiet.none _, rfl⟩
  | cons d rest ih =>
    obtain ⟨⟨answer, between⟩, changed, success⟩ := Except.bind_eq_ok success
    obtain ⟨others, schedule⟩ := ih success
    cases answer with
    | none =>
      obtain ⟨_, rfl⟩ := changeAt_eq_none changed
      exact ⟨others, schedule⟩
    | some answer =>
      obtain ⟨m, m', own, found, undecided, rfl⟩ := changeAt_eq_ok changed
      cases undecided
      refine ⟨?_, schedule⟩
      have quiet : Member.Quiet d.theory m { m with theory := Theory.undecide d.literal m.theory }
          [.undecide d.literal] :=
        ⟨⟨.single (.undecide _ _), rfl, by simp [Call.IsSilent, Call.hear]⟩, by simp [Call.clause?],
          by simp [Call.IsTurn]⟩
      have one := changes_set found quiet Member.Quiet.none
      refine (one.trans others).mono fun i n n'' own effected => ?_
      obtain ⟨n', before, after, rfl, first, second⟩ := effected
      exact first.trans second

/-- On a return a theory hears which of its decisions are taken back, and then of the level. -/
theorem changes_retreat {level : Nat} {t : Trail} {retracted : Registry σ}
    (undecided : r.retractAbove level = .ok retracted) (taken : retracted.backtrack level t = .ok r') :
    Changes (Member.Returned level t.length) r r' ∧ r'.schedule = r.schedule := by
  obtain ⟨before, schedule⟩ := changes_undecideAll undecided
  obtain ⟨after, schedule', _⟩ := changeAll_eq_ok taken
  have first : Changes Member.Quiet r retracted := ⟨before.length, before.member, before.absent⟩
  refine ⟨(first.trans after).mono fun i m m'' own effected => ?_, schedule'.trans schedule⟩
  obtain ⟨m', early, late, rfl, quiet, changed⟩ := effected
  have returned := Member.returned_backtrack (i := i) (Except.ok.inj changed)
  refine ⟨quiet.trace.append returned.trace, ?_, fun heard same => ?_, fun l member => ?_,
    List.forall_mem_append.mpr ⟨quiet.mute, returned.mute⟩,
    List.forall_mem_append.mpr ⟨quiet.idle, returned.idle⟩⟩
  · rw [returned.kept, quiet.kept]
  · rw [Call.hearAll_append, Call.hearAll_silent quiet.silent]
    exact returned.heard heard (by rw [quiet.kept]; exact same)
  · rcases List.mem_append.mp member with early | late
    · exact Call.not_isSilent_enqueue l (quiet.silent _ early)
    · exact returned.untold l late

end Registry

namespace Draw

variable [Theory σ] {c c' : Context σ}

/-- Drawing consequences stores no clause, settles nothing and keeps the standings and decisions. -/
theorem frame (draw : Draw c c') :
    c'.clauses = c.clauses ∧ c'.phase = c.phase ∧
      c'.theories.schedule.standings.length = c.theories.schedule.standings.length := by
  cases draw with
  | adjust random counters schedule standings => exact ⟨rfl, rfl, standings⟩
  | units atoms step => exact ⟨rfl, rfl, rfl⟩
  | deliver theories told =>
    exact ⟨rfl, rfl, by rw [(Registry.changes_deliverAll told).2.1]⟩
  | turn i turn call kind conflict atoms theories taken =>
    obtain ⟨m, m', own, found, took, rfl⟩ := Registry.changeAt_eq_ok taken
    exact ⟨rfl, rfl, rfl⟩
  | preprocess theories prepared =>
    exact ⟨rfl, rfl, by rw [(Registry.changes_preprocess prepared).2.1]⟩
  | clearSatisfied isNew theories cleared =>
    exact ⟨rfl, rfl, by rw [(Registry.changes_clearSatisfied cleared).2.1]⟩
  | ask => exact ⟨rfl, rfl, rfl⟩
  | explain => exact ⟨rfl, rfl, rfl⟩

/-- Drawing consequences lets the trail grow. -/
theorem grows (draw : Draw c c') : Relation.ReflTransGen c.clauses.Grows c.atoms c'.atoms := by
  cases draw with
  | units atoms step => exact .single (.units step)
  | turn i turn call kind conflict atoms theories taken =>
    obtain ⟨m, m', own, found, took, rfl⟩ := Registry.changeAt_eq_ok taken
    obtain ⟨flushed, _, ran, _⟩ := Member.memberTurn_eq_ok took
    exact ((turn flushed).allows_any.run ran).2.lift id fun _ _ step => .conclude i step
  | _ => exact .refl

/-- While consequences are drawn, theories are told of the trail only when all of them are. -/
theorem silent_or_caught (draw : Draw c c') :
    Registry.Changes Member.Silent c.theories c'.theories ∨
      c'.atoms = c.atoms ∧
        Registry.Changes (Member.Caught c.atoms.trail.literals) c.theories c'.theories := by
  cases draw with
  | deliver theories told => exact .inr ⟨rfl, (Registry.changes_deliverAll told).1⟩
  | adjust random counters schedule standings =>
    have none := Registry.Changes.refl Member.Silent.none c.theories
    exact .inl ⟨none.length, none.member, none.absent⟩
  | units atoms step => exact .inl (.refl Member.Silent.none _)
  | turn i turn call kind conflict atoms theories taken =>
    obtain ⟨m, m', own, found, took, rfl⟩ := Registry.changeAt_eq_ok taken
    exact .inl (Registry.changes_set found (Member.silent_memberTurn kind took) Member.Silent.none)
  | preprocess theories prepared =>
    exact .inl ((Registry.changes_preprocess prepared).1.mono fun _ _ _ _ => Member.Quiet.toSilent)
  | clearSatisfied isNew theories cleared =>
    exact .inl ((Registry.changes_clearSatisfied cleared).1.mono fun _ _ _ _ => Member.Quiet.toSilent)
  | ask i m found call question theory answered =>
    refine .inl (Registry.changes_set found ⟨.single answered, rfl, ?_⟩ Member.Silent.none)
    intro other member
    cases List.mem_singleton.mp member
    cases call <;> first | exact question.elim | exact fun _ => rfl
  | explain i m found l marker onTrail reasoned reason theory answered =>
    refine .inl (Registry.changes_set found ⟨.single (.buildReason _ _ _ _ _ answered), rfl, ?_⟩
      Member.Silent.none)
    intro other member
    cases List.mem_singleton.mp member
    exact fun _ => rfl

end Draw

end SatModulo
