import SatModulo.Proofs.Coherence

/-!
# What theories have been told

A theory has heard, level by level, the literals on the trail that it observes, as far as the trail has
been handed over to it, and what has not been handed over is of the current level (`Member.Delivered`).
Every move keeps this: a level is opened only after the trail was handed over, and a return takes back
from a theory what it takes back from the trail (`Moves.told`).
-/
namespace SatModulo

theorem List.mem_drop_of_prefix {α : Type} {xs ys : List α} {a : α} {n : Nat} (distinct : xs.Nodup)
    (shorter : ys <+: xs) (late : a ∈ xs.drop n) (kept : a ∈ ys) : a ∈ ys.drop n := by
  obtain ⟨zs, rfl⟩ := shorter
  rw [List.drop_append, List.mem_append] at late
  refine late.resolve_right fun dropped => ?_
  exact (List.nodup_append.mp distinct).2.2 a kept a (List.mem_of_mem_drop dropped) rfl

theorem List.mem_take_of_prefix {α : Type} {xs ys : List α} {a : α} {n : Nat} (distinct : xs.Nodup)
    (shorter : ys <+: xs) (early : a ∈ xs.take n) (kept : a ∈ ys) : a ∈ ys.take n := by
  obtain ⟨zs, rfl⟩ := shorter
  rw [List.take_append, List.mem_append] at early
  refine early.resolve_right fun dropped => ?_
  exact (List.nodup_append.mp distinct).2.2 a kept a (List.mem_of_mem_take dropped) rfl

variable {σ : Type}

/-- What a theory has heard of facts. -/
def Registry.heard (r : Registry σ) (i : Nat) : LevelStack Literal := Call.hearAll {} (r.account i)

/-- A member has heard of the trail, with the given literals by level, what was handed over to it. -/
structure Member.Delivered (stack heard : LevelStack Literal) (m : Member σ) : Prop where
  level : m.level = stack.level
  heardLevel : heard.level = stack.level
  head : m.head ≤ stack.entries.length
  entries : ∀ level l, l ∈ heard.entriesAt level ↔
    l ∈ stack.entriesAt level ∧ l ∈ stack.entries.take m.head ∧ m.observes l.atom
  /-- What has not been handed over is of the current level. -/
  top : ∀ l ∈ stack.entries.drop m.head, l ∈ stack.entriesAt stack.level
  distinct : heard.entries.Nodup
  /-- Above the base level nothing is heard late. -/
  order : ∀ level, 0 < level → (heard.entriesAt level).Sublist (stack.entriesAt level)

namespace Member.Delivered

variable {stack heard : LevelStack Literal} {i : Nat} {m m' : Member σ} {own : List Call} {l : Literal}

theorem mem_entries (h : m.Delivered stack heard) :
    l ∈ heard.entries ↔ l ∈ stack.entries.take m.head ∧ m.observes l.atom := by
  rw [LevelStack.mem_entries_iff]
  constructor
  · rintro ⟨level, member⟩
    exact ((h.entries level l).mp member).2
  · rintro ⟨taken, observed⟩
    obtain ⟨level, member⟩ := (LevelStack.mem_entries_iff l).mp (List.mem_of_mem_take taken)
    exact ⟨level, (h.entries level l).mpr ⟨member, taken, observed⟩⟩

/-- What was heard is on the trail. -/
theorem subset (h : m.Delivered stack heard) (member : l ∈ heard.entries) : l ∈ stack.entries :=
  List.mem_of_mem_take (h.mem_entries.mp member).1

/-- Making a literal true leaves it to be handed over. -/
theorem push (h : m.Delivered stack heard) (new : l ∉ stack.entries) :
    m.Delivered (stack.push l) heard where
  level := h.level
  heardLevel := h.heardLevel
  head := by
    rw [LevelStack.entries_push, List.length_append]
    exact Nat.le_add_right_of_le h.head
  entries := by
    intro level k
    rw [h.entries, LevelStack.entries_push, List.take_append_of_le_length h.head,
      LevelStack.entriesAt_push]
    constructor
    · rintro ⟨entered, told⟩
      refine ⟨?_, told⟩
      split
      · exact List.mem_append_left _ entered
      · exact entered
    · rintro ⟨entered, taken, observed⟩
      refine ⟨?_, taken, observed⟩
      split at entered
      · refine (List.mem_append.mp entered).resolve_right fun same => new ?_
        rw [← List.mem_singleton.mp same]
        exact List.mem_of_mem_take taken
      · exact entered
  top := by
    intro k late
    rw [LevelStack.entries_push, List.drop_append_of_le_length h.head, List.mem_append] at late
    rw [LevelStack.level_push, LevelStack.entriesAt_push, if_pos rfl, List.mem_append]
    exact late.imp_left (h.top k)
  distinct := h.distinct
  order := by
    intro level above
    rw [LevelStack.entriesAt_push]
    split
    · exact (h.order level above).trans (List.sublist_append_left _ _)
    · exact h.order level above

/-- What was heard at the current level, and what is pending, stand in the order of the trail. -/
theorem sublist_append_pending (h : m.Delivered stack heard) (apart : stack.entries.Nodup)
    (above : 0 < stack.level) :
    (heard.entriesAt stack.level ++ m.pending stack.entries).Sublist (stack.entriesAt stack.level) := by
  obtain ⟨early, split⟩ := LevelStack.exists_entriesAt_eq_append apart h.top
  have ordered := h.order stack.level above
  rw [split] at ordered ⊢
  obtain ⟨first, second, whole, inEarly, inLate⟩ := List.sublist_append_iff.mp ordered
  have none' : second = [] := by
    refine List.eq_nil_iff_forall_not_mem.mpr fun k member => ?_
    have taken := ((h.entries _ k).mp (whole ▸ List.mem_append_right _ member)).2.1
    rw [← List.take_append_drop m.head stack.entries] at apart
    exact (List.nodup_append.mp apart).2.2 k taken k (inLate.subset member) rfl
  rw [whole, none', List.append_nil]
  exact inEarly.append List.filter_sublist

/-- A theory that is told at the current level of what it has not heard yet of the trail has then heard it. -/
theorem hears (h : m.Delivered stack heard) (apart : stack.entries.Nodup) {more : List Literal}
    (level : m'.level = m.level) (head : m'.head ≤ stack.entries.length)
    (told : ∀ k, k ∈ stack.entries.take m'.head ∧ m'.observes k.atom ↔
      (k ∈ stack.entries.take m.head ∧ m.observes k.atom) ∨ k ∈ more)
    (current : ∀ k ∈ more, k ∈ stack.entriesAt stack.level) (fresh : ∀ k ∈ more, k ∉ heard.entries)
    (once : more.Nodup) (top : ∀ k ∈ stack.entries.drop m'.head, k ∈ stack.entriesAt stack.level)
    (order : 0 < stack.level →
      (heard.entriesAt stack.level ++ more).Sublist (stack.entriesAt stack.level)) :
    m'.Delivered stack (Call.hearAll heard (more.map .enqueue)) where
  level := level.trans h.level
  heardLevel := (Call.level_hearAll_enqueue _).trans h.heardLevel
  head := head
  entries := by
    intro at' k
    rw [Call.entriesAt_hearAll_enqueue, h.heardLevel, told]
    split
    · rename_i same
      subst same
      rw [List.mem_append, h.entries, and_or_left]
      exact or_congr_right ⟨fun new => ⟨current k new, new⟩, And.right⟩
    · rename_i other
      rw [h.entries, and_or_left]
      refine (or_iff_left fun ⟨entered, new⟩ => ?_).symm
      exact other (LevelStack.level_unique apart entered (current k new))
  top := top
  distinct := by
    rw [Call.entries_hearAll_enqueue, List.nodup_append]
    refine ⟨h.distinct, once, ?_⟩
    rintro k old _ new rfl
    exact fresh k new old
  order := by
    intro at' above
    rw [Call.entriesAt_hearAll_enqueue, h.heardLevel]
    split
    · rename_i same
      subst same
      exact order above
    · exact h.order at' above

variable [Theory σ]

theorem silent (h : m.Delivered stack heard) (called : Silent i m m' own) :
    m'.Delivered stack (Call.hearAll heard own) := by
  rw [Call.hearAll_silent called.silent, called.kept]
  exact ⟨h.level, h.heardLevel, h.head, h.entries, h.top, h.distinct, h.order⟩

/-- Handing over tells the theory what it observes of the current level. -/
theorem caught (h : m.Delivered stack heard) (apart : stack.entries.Nodup)
    (told : Caught stack.entries i m m' own) : m'.Delivered stack (Call.hearAll heard own) := by
  have pending : ∀ k, k ∈ m.pending stack.entries ↔ k ∈ stack.entries.drop m.head ∧ m.observes k.atom :=
    fun k => List.mem_filter
  have split : ∀ k, k ∈ stack.entries ↔ k ∈ stack.entries.take m.head ∨ k ∈ stack.entries.drop m.head := by
    intro k
    rw [← List.mem_append, List.take_append_drop]
  rw [told.own, told.kept]
  refine h.hears apart rfl (Nat.le_refl _) (fun k => ?_) (fun k new => ?_) (fun k new old => ?_)
    ((apart.sublist (List.drop_sublist _ _)).filter _) (by simp) (h.sublist_append_pending apart)
  · rw [List.take_length, split, or_and_right, pending]
    rfl
  · exact h.top k ((pending k).mp new).1
  · rw [← List.take_append_drop m.head stack.entries] at apart
    exact (List.nodup_append.mp apart).2.2 k (h.mem_entries.mp old).1 k ((pending k).mp new).1 rfl

/-- A return takes back from a theory what it takes back from the trail. -/
theorem returned (h : m.Delivered stack heard) (apart : stack.entries.Nodup) {level : Nat}
    (low : level < stack.level)
    (taken : Returned level (stack.cutTo level).entries.length i m m' own) :
    m'.Delivered (stack.cutTo level) (Call.hearAll heard own) := by
  have shorter := stack.entries_cutTo_isPrefix level
  have length := LevelStack.level_cutTo stack level
  have levels : ∀ other, other ≤ level → ∀ k, k ∈ stack.entriesAt other →
      k ∈ (stack.cutTo level).entries := fun other le k entered =>
    (LevelStack.mem_cutTo_entries_iff level k).mpr ⟨other, le, entered⟩
  rw [taken.heard heard (h.heardLevel.trans h.level.symm), taken.kept]
  refine ⟨?_, ?_, Nat.min_le_right _ _, ?_, ?_, ?_, ?_⟩
  · rw [length, h.level]
  · rw [length, LevelStack.level_cutTo, h.heardLevel]
  · intro other k
    rw [LevelStack.entriesAt_cutTo, LevelStack.entriesAt_cutTo, ← List.take_take, List.take_length]
    split
    · rename_i le
      rw [h.entries]
      constructor
      · rintro ⟨entered, early, observed⟩
        exact ⟨entered, List.mem_take_of_prefix apart shorter early (levels other le k entered), observed⟩
      · rintro ⟨entered, early, observed⟩
        refine ⟨entered, ?_, observed⟩
        obtain ⟨rest, whole⟩ := shorter
        rw [← whole, List.take_append]
        exact List.mem_append_left _ early
    · simp
  · intro k late
    have kept := List.mem_of_mem_drop late
    have lateBefore : k ∈ stack.entries.drop m.head := by
      obtain ⟨rest, whole⟩ := shorter
      rcases Nat.le_total m.head (stack.cutTo level).entries.length with inside | beyond
      · rw [Nat.min_eq_left inside] at late
        rw [← whole, List.drop_append_of_le_length inside]
        exact List.mem_append_left _ late
      · rw [Nat.min_eq_right beyond, List.drop_length] at late
        cases late
    -- What was not handed over is of the level that was left, and was taken back.
    obtain ⟨other, le, entered⟩ := (LevelStack.mem_cutTo_entries_iff level k).mp kept
    have same := LevelStack.level_unique apart entered (h.top k lateBefore)
    omega
  · exact h.distinct.sublist (heard.entries_cutTo_isPrefix level).sublist
  · intro other above
    rw [LevelStack.entriesAt_cutTo, LevelStack.entriesAt_cutTo]
    split
    · exact h.order other above
    · exact .slnil

/-- A level is opened when everything has been handed over. -/
theorem raised (h : m.Delivered stack heard) (all : m.head = stack.entries.length)
    (called : Raised i m m' own) : m'.Delivered stack.openLevel (Call.hearAll heard own) := by
  rw [called.own, called.kept]
  change Delivered _ heard.openLevel _
  refine ⟨?_, ?_, ?_, fun level k => ?_, ?_, ?_, fun level above => ?_⟩
  · rw [LevelStack.level_openLevel, h.level]
  · rw [LevelStack.level_openLevel, LevelStack.level_openLevel, h.heardLevel]
  · rw [LevelStack.entries_openLevel]
    exact h.head
  · rw [LevelStack.entriesAt_openLevel, LevelStack.entriesAt_openLevel, LevelStack.entries_openLevel]
    exact h.entries level k
  · intro k late
    rw [LevelStack.entries_openLevel, all, List.drop_length] at late
    cases late
  · rw [LevelStack.entries_openLevel]
    exact h.distinct
  · rw [LevelStack.entriesAt_openLevel, LevelStack.entriesAt_openLevel]
    exact h.order level above

omit [Theory σ] in
/-- The literal of an atom that has been handed over, if there is one. -/
private theorem mem_late (apart : (stack.entries.map Literal.atom).Nodup) {a : Atom} {late : List Literal}
    (told : late = ((stack.entries.take m.head).find? fun l => l.atom == a).toList) (k : Literal) :
    k ∈ late ↔ k ∈ stack.entries.take m.head ∧ k.atom = a := by
  rw [told]
  cases found : (stack.entries.take m.head).find? fun l => l.atom == a with
  | none =>
    have none' := List.find?_eq_none.mp found
    refine ⟨fun member => (by cases member), fun ⟨early, same⟩ => ?_⟩
    exact absurd (beq_iff_eq.mpr same) (none' k early)
  | some l =>
    have early := List.mem_of_find?_eq_some found
    have onAtom : l.atom = a := by simpa using List.find?_some found
    rw [Option.toList_some, List.mem_singleton]
    constructor
    · rintro rfl
      exact ⟨early, onAtom⟩
    · rintro ⟨earlyK, same⟩
      exact List.inj_on_of_nodup_map apart (List.mem_of_mem_take earlyK) (List.mem_of_mem_take early)
        (same.trans onAtom.symm)

omit [Theory σ] in
/-- A theory that observes an atom late is told of its literal, if that was handed over. -/
theorem observe (h : m.Delivered stack heard) (apart : (stack.entries.map Literal.atom).Nodup)
    (base : stack.level = 0) {a : Atom} (new : ¬m.observes a) (theory : σ) {late : List Literal}
    (told : late = ((stack.entries.take m.head).find? fun l => l.atom == a).toList) :
    Delivered stack (Call.hearAll heard (late.map .enqueue))
      { m with theory, observed := insertAtom a m.observed } := by
  have isLate := mem_late apart told
  have observes : ∀ b, Member.observes { m with theory, observed := insertAtom a m.observed } b ↔
      b = a ∨ m.observes b := by
    intro b
    simp [Member.observes, mem_insertAtom]
  refine h.hears (apart.of_map _) rfl h.head (fun k => ?_) (fun k later => ?_) (fun k later old => ?_) ?_ h.top
    fun above => absurd base (Nat.ne_of_gt above)
  · rw [observes, isLate, and_or_left, or_comm]
  · exact LevelStack.mem_entriesAt_of_base base (List.mem_of_mem_take ((isLate k).mp later).1)
  · have observed := (h.mem_entries.mp old).2
    rw [((isLate k).mp later).2] at observed
    exact new observed
  · rw [told]
    cases (stack.entries.take m.head).find? fun l => l.atom == a <;> simp

omit [Theory σ] in
/-- A theory that is registered has nothing to hear of. -/
theorem registered (base : stack.level = 0) (theory : σ) (capabilities : Capabilities) :
    Delivered stack {} ({ theory, capabilities } : Member σ) := by
  have nothing : ∀ level, ({} : LevelStack Literal).entriesAt level = [] := by
    intro level
    rcases Nat.eq_zero_or_pos level with rfl | above
    · rfl
    · exact LevelStack.entriesAt_of_lt level above
  refine ⟨base.symm, base.symm, Nat.zero_le _, fun level k => ?_,
    fun k member => LevelStack.mem_entriesAt_of_base base member, List.nodup_nil, fun level _ => ?_⟩
  · simp [nothing]
  · rw [nothing]
    exact List.nil_sublist _

end Member.Delivered

namespace Registry

variable {r r' : Registry σ}

theorem heard_of_account {i : Nat} {own : List Call} (account : r'.account i = r.account i ++ own) :
    r'.heard i = Call.hearAll (r.heard i) own := by
  rw [heard, account, Call.hearAll_append, heard]

/-- Whether a theory is registered or refused, only the next index is called, and nothing is told. -/
theorem account_register [Theory σ] {theory : σ} {outcome : Except TheoryError Nat}
    (registered : r.register theory = (outcome, r')) (i : Nat) :
    r'.account i = r.account i ∨
      i = r.count ∧ r'.account i = r.account i ++ [.setIndex r.count] := by
  have appended : ∀ calls : List (Nat × Call), (calls = [] ∨ calls = [(r.count, .setIndex r.count)]) →
      r'.calls = r.calls ++ calls → r'.account i = r.account i ∨
        i = r.count ∧ r'.account i = r.account i ++ [.setIndex r.count] := by
    intro calls origin same
    rw [account, account, same, Array.toList_appendList, callsOf_append]
    rcases origin with rfl | rfl
    · exact .inl (List.append_nil _)
    · by_cases index : r.count = i
      · exact .inr ⟨index.symm, by simp [callsOf, index]⟩
      · exact .inl (by simp [callsOf, index])
  rcases register_eq registered with ⟨e, calls, _, rfl, origin⟩ | ⟨_, _, rfl⟩
  · exact appended calls origin rfl
  · exact appended _ (.inr rfl) rfl

theorem heard_register [Theory σ] {theory : σ} {outcome : Except TheoryError Nat}
    (registered : r.register theory = (outcome, r')) (i : Nat) : r'.heard i = r.heard i := by
  rcases account_register registered i with same | ⟨_, same⟩
  · rw [heard, same, heard]
  · rw [heard, same, Call.hearAll_append, heard]
    rfl

/-- Changes of members that keep what each has been told of keep it for all. -/
theorem Changes.delivered {effect : Nat → Member σ → Member σ → List Call → Prop}
    {stack stack' : LevelStack Literal} (changes : Changes effect r r')
    (before : ∀ i (m : Member σ), r.members[i]? = some m → m.Delivered stack (r.heard i))
    (keeps : ∀ i (m m' : Member σ) own, m ∈ r.members → effect i m m' own →
      m.Delivered stack (r.heard i) → m'.Delivered stack' (Call.hearAll (r.heard i) own)) :
    ∀ i (m' : Member σ), r'.members[i]? = some m' → m'.Delivered stack' (r'.heard i) := by
  intro i m' found'
  obtain ⟨m, own, found, account, effected⟩ := changes.of_getElem? found'
  rw [heard_of_account account]
  exact keeps i m m' own (List.mem_of_getElem? found) effected (before i m found)

end Registry

/-- Every theory has been told of the trail what was handed over to it. -/
structure Context.Told (c : Context σ) : Prop where
  delivered : ∀ i (m : Member σ), c.theories.members[i]? = some m →
    m.Delivered c.atoms.trail.stack (c.theories.heard i)
  /-- Of an index that is not used yet theories were told only when they were refused. -/
  unused : ∀ i, c.theories.members.length ≤ i → ∀ call ∈ c.theories.account i, ∃ j, call = .setIndex j
  known : ∀ m ∈ c.theories.members, ∀ a ∈ m.observed, a < c.atoms.count

theorem Member.Delivered.assigned {s s' : Atoms} {heard : LevelStack Literal} {m : Member σ}
    (delivered : m.Delivered s.trail.stack heard) (h : s.Coherent) {l : Literal} {reason : Reason}
    (made : s.assign l reason = .ok (.unset, s')) : m.Delivered s'.trail.stack heard := by
  obtain ⟨_, unvalued, _, trail, _⟩ := Atoms.assign_eq_unset made
  rw [trail]
  refine delivered.push fun member => ?_
  obtain ⟨level, reason, assigned⟩ := h.mem_literals_iff.mp member
  rw [unvalued] at assigned
  cases assigned

/-- What was handed over stays handed over while the trail only grows. -/
theorem Member.Delivered.growsAll {store : ClauseStore} {s s' : Atoms} {heard : LevelStack Literal}
    {m : Member σ} (delivered : m.Delivered s.trail.stack heard) (h : store.Supports s)
    (steps : Relation.ReflTransGen store.Grows s s') : m.Delivered s'.trail.stack heard := by
  induction steps with
  | refl => exact delivered
  | tail steps step ih =>
    have coherent := (h.growsAll steps).atoms
    cases step with
    | units step =>
      cases step with
      | force _ key clause l found forces made => exact ih.assigned coherent made
      | pass l next seen => exact ih
    | conclude i step =>
      obtain ⟨l, marker, _, made⟩ := step
      exact ih.assigned coherent made

theorem Context.Told.initial (settings : Settings) : (Context.ofSettings settings : Context σ).Told where
  delivered := by
    intro i m found
    simp [Context.ofSettings, Registry.ofSettings] at found
  unused := by
    intro i _ call member
    simp [Context.ofSettings, Registry.ofSettings, Registry.account, Registry.callsOf] at member
  known := by
    intro m member
    simp [Context.ofSettings, Registry.ofSettings] at member

/-- A move after which members are as told, observe what they did, and no atom is lost. -/
theorem Context.Told.changed {effect : Nat → Member σ → Member σ → List Call → Prop} {c c' : Context σ}
    (told : c.Told) (changes : Registry.Changes effect c.theories c'.theories)
    (keeps : ∀ i (m m' : Member σ) own, m ∈ c.theories.members → effect i m m' own →
      m.Delivered c.atoms.trail.stack (c.theories.heard i) →
        m'.Delivered c'.atoms.trail.stack (Call.hearAll (c.theories.heard i) own))
    (observed : ∀ i (m m' : Member σ) own, effect i m m' own → ∀ a ∈ m'.observed,
      a ∈ m.observed ∨ a < c'.atoms.count)
    (counted : c.atoms.count ≤ c'.atoms.count) : c'.Told where
  delivered := changes.delivered told.delivered keeps
  unused := by
    intro i beyond call member
    rw [changes.length] at beyond
    rw [changes.absent i beyond] at member
    exact told.unused i beyond call member
  known := by
    intro m' member a observes
    obtain ⟨i, m, own, found, effected⟩ := changes.of_mem member
    rcases observed i m m' own effected a observes with before | now
    · exact Nat.lt_of_lt_of_le (told.known m (List.mem_of_getElem? found) a before) counted
    · exact now

/-- Making a literal true changes nothing that theories were told. -/
theorem Context.Told.assign {c : Context σ} (told : c.Told) (h : c.atoms.Coherent) {l : Literal}
    {reason : Reason} {atoms : Atoms} (made : c.atoms.assign l reason = .ok (.unset, atoms)) :
    Context.Told { c with atoms } where
  delivered := fun i m found => (told.delivered i m found).assigned h made
  unused := told.unused
  known := fun m member a observed => by
    have before := told.known m member a observed
    rwa [← Atoms.count_assign made] at before

theorem ClauseStore.growsAll_count {store : ClauseStore} {s s' : Atoms}
    (steps : Relation.ReflTransGen store.Grows s s') : s'.count = s.count := by
  induction steps with
  | refl => rfl
  | tail _ step ih =>
    rw [← ih]
    cases step with
    | units step =>
      cases step with
      | force _ key clause l found forces made => exact Atoms.count_assign made
      | pass l next seen => rfl
    | conclude i step =>
      obtain ⟨l, marker, _, made⟩ := step
      exact Atoms.count_assign made

variable [Theory σ] {c c' : Context σ} {taking : Intake σ}

theorem Draw.told (draw : Draw c c') (h : c.Coherent) (told : c.Told) : c'.Told := by
  have counted := Nat.le_of_eq (ClauseStore.growsAll_count draw.grows).symm
  rcases draw.silent_or_caught with silent | ⟨same, caught⟩
  · refine told.changed silent (fun i m m' own _ called delivered => ?_)
      (fun i m m' own called a observed => .inl (by rw [called.kept] at observed; exact observed)) counted
    exact (delivered.growsAll h.supports draw.grows).silent called
  · refine told.changed caught (fun i m m' own _ called delivered => ?_)
      (fun i m m' own called a observed => .inl (by rw [called.kept] at observed; exact observed)) counted
    rw [same]
    exact delivered.caught h.supports.atoms.nodup called

/-- A return takes back the same of the trail and of every theory. -/
theorem Context.Told.returned (told : c.Told) (h : c.Coherent) {level : Nat} (low : level < c.level)
    {retracted theories : Registry σ} (undecided : c.theories.retractAbove level = .ok retracted)
    (taken : retracted.backtrack level (c.atoms.forgetAbove level).2.trail = .ok theories) :
    Context.Told { c with atoms := (c.atoms.forgetAbove level).2, theories } := by
  have stack : (c.atoms.forgetAbove level).2.trail.stack = c.atoms.trail.stack.cutTo level := by
    rw [Atoms.trail_forgetAbove, Trail.stack_cutTo]
  refine told.changed (Registry.changes_retreat undecided taken).1
    (fun i m m' own _ called delivered => ?_)
    (fun i m m' own called a observed => .inl (by rw [called.kept] at observed; exact observed)) ?_
  · rw [Trail.length, Trail.literals, stack] at called
    rw [stack]
    exact delivered.returned h.supports.atoms.nodup low called
  · exact Nat.le_of_eq (Atoms.count_forgetAbove _ _).symm

theorem Jump.told (jump : Jump c c') (h : c.Coherent) (told : c.Told) : c'.Told := by
  cases jump with
  | retreat level low retracted theories undecided taken => exact told.returned h low undecided taken
  | learn key l lower level clauses retracted theories atoms distinct falsified current low below tight
      entailed stored undecided taken made =>
    have returned := (told.returned h low undecided taken).assign (h.supports.atoms.forgetAbove level) made
    exact ⟨returned.delivered, returned.unused, returned.known⟩

theorem Decide.told (decide : Decide c c') (h : c.Coherent) (told : c.Told) : c'.Told := by
  cases decide with
  | decide l proposer theories atoms delivered opened made =>
    have raised : Context.Told { c with atoms := c.atoms.openLevel, theories } := by
      refine told.changed (Registry.changes_openLevel opened).1
        (fun i m m' own member called before => before.raised (delivered m member) called)
        (fun i m m' own called a observed => .inl ?_) (Nat.le_refl _)
      rw [called.kept] at observed
      exact observed
    have made := raised.assign h.supports.openLevel.atoms made
    cases proposer <;> exact ⟨made.delivered, made.unused, made.known⟩

/-- A theory that is registered or refused is told of no facts, and one that is registered has the next
index, which nothing was told before. -/
theorem Context.Told.registered (told : c.Told) (base : c.level = 0) {theory : σ}
    {outcome : Except TheoryError Nat} {theories : Registry σ}
    (registered : c.theories.register theory = (outcome, theories)) : Context.Told { c with theories } := by
  have heard := fun i => Registry.heard_register registered i
  have unused : ∀ i, c.theories.members.length ≤ i → ∀ call ∈ theories.account i, ∃ j, call = .setIndex j := by
    intro i beyond call member
    rcases Registry.account_register registered i with same | ⟨_, same⟩
    · rw [same] at member
      exact told.unused i beyond call member
    · rw [same, List.mem_append, List.mem_singleton] at member
      rcases member with old | rfl
      · exact told.unused i beyond call old
      · exact ⟨_, rfl⟩
  rcases Registry.register_eq registered with ⟨e, calls, _, same, _⟩ | ⟨_, _, same⟩
  · have members : theories.members = c.theories.members := by rw [same]
    refine ⟨fun i m found => ?_, fun i beyond => unused i (members ▸ beyond), ?_⟩
    · rw [heard]
      exact told.delivered i m (members ▸ found)
    · rw [members]
      exact told.known
  · have members := congrArg Registry.members same
    refine ⟨fun i m found => ?_, fun i beyond => unused i ?_, fun m member a observed => ?_⟩
    · rw [heard]
      rw [members, List.getElem?_append] at found
      split at found
      · exact told.delivered i m found
      · rename_i beyond
        rw [List.getElem?_singleton] at found
        split at found
        · cases found
          have silent : c.theories.heard i = {} := by
            refine Call.hearAll_silent fun call member => ?_
            obtain ⟨j, rfl⟩ := told.unused i (Nat.not_lt.mp beyond) call member
            exact fun _ => rfl
          rw [silent]
          exact .registered base _ _
        · cases found
    · rw [members, List.length_append] at beyond
      exact Nat.le_of_add_right_le beyond
    · rw [members, List.mem_append, List.mem_singleton] at member
      rcases member with old | rfl
      · exact told.known m old a observed
      · cases observed

omit [Theory σ] in
/-- A theory that observes another atom is told of what it missed, and no other theory of anything. -/
theorem Context.Told.observed (told : c.Told) (h : c.Coherent) (base : c.level = 0) {i : Nat} {a : Atom}
    (known : a < c.atoms.count) {m : Member σ} (found : c.theories.members[i]? = some m) (new : ¬m.observes a)
    (theory : σ) {own : List Literal}
    (late : own = ((c.atoms.trail.literals.take m.head).find? fun l => l.atom == a).toList) :
    Context.Told
      { c with
        theories := { c.theories with
          members := c.theories.members.set i { m with theory, observed := insertAtom a m.observed }
          calls := c.theories.calls ++ (own.map Call.enqueue).map (i, ·) } } := by
  let effect := fun j (n n' : Member σ) (own' : List Call) => (n' = n ∧ own' = []) ∨
    j = i ∧ n = m ∧ n' = { m with theory, observed := insertAtom a m.observed } ∧
      own' = own.map .enqueue
  have told' : effect i m { m with theory, observed := insertAtom a m.observed }
      (own.map .enqueue) := .inr ⟨rfl, rfl, rfl, rfl⟩
  have none : ∀ j n, effect j n n [] := fun _ _ => .inl ⟨rfl, rfl⟩
  have changes := Registry.changes_set found told' none
  refine told.changed changes (fun j n n' own' _ called delivered => ?_)
    (fun j n n' own' called b observed => ?_) (Nat.le_refl _)
  · rcases called with ⟨rfl, rfl⟩ | ⟨rfl, rfl, rfl, rfl⟩
    · exact delivered
    · exact delivered.observe h.supports.atoms.distinct base new theory late
  · rcases called with ⟨rfl, rfl⟩ | ⟨rfl, rfl, rfl, rfl⟩
    · exact .inl observed
    · rcases mem_insertAtom.mp observed with rfl | before
      · exact .inr known
      · exact .inl before

/-- A theory that is registered has heard of nothing, and one that comes to observe an atom late is told of its value.
-/
theorem Build.told (build : Build taking c c') (h : c.Coherent) (told : c.Told) : c'.Told := by
  cases build with
  | fresh previous a atoms success =>
    obtain ⟨_, counted, trail, _⟩ := Atoms.fresh_eq_ok success
    refine ⟨?_, told.unused, fun m member a observed => ?_⟩
    · rw [trail]
      exact told.delivered
    · exact Nat.lt_of_lt_of_le (told.known m member a observed) (by rw [counted]; omega)
  | give clause key clauses given base distinct known stored state =>
    exact ⟨told.delivered, told.unused, told.known⟩
  | giveUnit clause key clauses l atoms given base distinct known stored state made =>
    have made := told.assign h.supports.atoms made
    exact ⟨made.delivered, made.unused, made.known⟩
  | register theory outcome theories given base registered => exact told.registered base registered
  | observe i a base known m found new theory own inside late told' =>
    exact told.observed h base known found new theory late

theorem Moves.told (moves : Moves taking c c') (h : c.Coherent) (told : c.Told) : c'.Told := by
  induction moves with
  | refl => exact told
  | tail moves move ih =>
    have coherent := Moves.coherent moves h
    cases move with
    | draw move => exact move.told coherent ih
    | jump move => exact move.told coherent ih
    | decide allowed move => exact move.told coherent ih
    | build move => exact move.told coherent ih
    | settle phase before after => exact ⟨ih.delivered, ih.unused, ih.known⟩
    | configure settings given => exact ⟨ih.delivered, ih.unused, ih.known⟩

omit [Theory σ] in
/-- That there is no solution is no matter to what theories were told. -/
theorem Refute.told (refuted : Refute taking c c') (told : c.Told) : c'.Told := by
  obtain ⟨atoms, theories⟩ := refuted.frame
  constructor
  · rw [atoms, theories]
    exact told.delivered
  · rw [theories]
    exact told.unused
  · rw [atoms, theories]
    exact told.known

end SatModulo
