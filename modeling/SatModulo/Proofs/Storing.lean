import SatModulo.Proofs.Occurrences

/-!
# Sequences of requests to a store of clauses

Requests are made one after another, from a store without clauses on (`ClauseStore.after`). What was
accepted, in that order and each clause with the key it got (`ClauseStore.filed`), tells everything about
the store (`ClauseStore.Files`): the clauses of a kind stand under consecutive keys, and the keys of a
literal are listed in the order of storing, once for each occurrence (`ClauseStore.after_exact`).
-/
namespace SatModulo

namespace ClauseKey

def ofPosition (learnt : Bool) (n : Nat) : ClauseKey := if learnt then .learnt n else .given n

def isLearnt : ClauseKey → Bool
  | .given _ => false
  | .learnt _ => true

@[simp] theorem isLearnt_ofPosition (learnt : Bool) (n : Nat) : (ofPosition learnt n).isLearnt = learnt := by
  cases learnt <;> rfl

theorem exists_eq_ofPosition (key : ClauseKey) : ∃ learnt n, key = ofPosition learnt n := by
  cases key with
  | given n => exact ⟨false, n, rfl⟩
  | learnt n => exact ⟨true, n, rfl⟩

theorem ofPosition_inj {learnt : Bool} {m n : Nat} : ofPosition learnt m = ofPosition learnt n ↔ m = n := by
  cases learnt <;> simp [ofPosition]

end ClauseKey

namespace ClauseStore

/-- A clause to be stored, among those given or those learnt. -/
structure Request where
  clause : Clause
  learnt : Bool

def ofKind (s : ClauseStore) (learnt : Bool) : Array Clause := if learnt then s.learnt else s.given

def answer (s : ClauseStore) (r : Request) : Except ClauseError ClauseKey :=
  (s.put r.clause r.learnt).1

def serve (s : ClauseStore) (r : Request) : ClauseStore := (s.put r.clause r.learnt).2

def after (requests : List Request) : ClauseStore := requests.foldl serve {}

/-- The clauses of the requests that are accepted, in that order and with their keys. -/
def filed (s : ClauseStore) : List Request → List (ClauseKey × Clause)
  | [] => []
  | r :: rest =>
    match s.answer r with
    | .ok key => (key, r.clause) :: (s.serve r).filed rest
    | .error _ => (s.serve r).filed rest

variable {s s' : ClauseStore} {c : Clause} {learnt : Bool} {key : ClauseKey} {r : Request} {e : ClauseError}

/-! ### One request -/

theorem answer_eq_ok : s.answer r = .ok key ↔ s.store r.clause r.learnt = .ok (key, s.serve r) := by
  unfold answer serve store
  cases s.put r.clause r.learnt with
  | mk result next => cases result <;> simp [Except.map]

theorem serve_of_error (refused : s.answer r = .error e) : s.serve r = s := put_of_error refused

/-- A clause is refused for being empty, or else for want of room among those of its kind. -/
theorem answer_eq (s : ClauseStore) (r : Request) :
    s.answer r =
      if r.clause = [] then .error .emptyClause
      else if UInt32.size ≤ (s.ofKind r.learnt).size then .error .storageExhausted
      else .ok (.ofPosition r.learnt (s.ofKind r.learnt).size) := by
  obtain ⟨clause, learnt⟩ := r
  cases learnt
  all_goals
    simp only [answer, put, ofKind, ClauseKey.ofPosition, List.isEmpty_iff, Bool.false_eq_true, if_false,
      if_true]
    split
    · rfl
    · split <;> rfl

theorem answer_eq_error :
    s.answer r = .error e ↔ e = .emptyClause ∧ r.clause = [] ∨
      e = .storageExhausted ∧ r.clause ≠ [] ∧ UInt32.size ≤ (s.ofKind r.learnt).size := by
  rw [answer_eq]
  split
  · simp_all [eq_comm]
  · split <;> simp_all [eq_comm]

/-- A stored clause is the last one of its kind. -/
theorem ofKind_store (success : s.store c learnt = .ok (key, s')) (kind : Bool) :
    s'.ofKind kind = if kind = learnt then (s.ofKind kind).push c else s.ofKind kind := by
  rw [store_eq] at success
  cases learnt
  all_goals
    simp only [Bool.false_eq_true, if_false, if_true] at success
    split at success
    · cases success
    · split at success
      · cases success
      · cases success
        cases kind <;> rfl

theorem get?_ofPosition (s : ClauseStore) (learnt : Bool) (n : Nat) :
    s.get? (.ofPosition learnt n) = (s.ofKind learnt)[n]? := by
  cases learnt <;> rfl

theorem get_eq_ok : s.get key = .ok c ↔ s.get? key = some c := by
  unfold get
  cases s.get? key <;> simp

/-! ### What was accepted -/

/-- A store holds what was filed under its keys and nothing else, in the order of filing. -/
structure Files (s : ClauseStore) (entries : List (ClauseKey × Clause)) : Prop where
  kinds : ∀ learnt, entries.filter (fun entry => entry.1.isLearnt == learnt) =
    (s.ofKind learnt).toList.mapIdx fun n c => (.ofPosition learnt n, c)
  occurrences : ∀ l, s.occurrences l = entries.flatMap fun entry => List.replicate (entry.2.count l) entry.1

namespace Files

variable {entries : List (ClauseKey × Clause)}

theorem initial : Files {} [] where
  kinds learnt := by cases learnt <;> rfl
  occurrences _ := rfl

/-- A clause that is accepted is filed under the next key of its kind, last at each of its literals. -/
theorem serve_ok (files : s.Files entries) (accepted : s.answer r = .ok key) :
    (s.serve r).Files (entries ++ [(key, r.clause)]) where
  kinds kind := by
    have position : key = .ofPosition r.learnt (s.ofKind r.learnt).size := by
      rw [answer_eq] at accepted
      split at accepted
      · cases accepted
      · split at accepted <;> cases accepted
        rfl
    rw [List.filter_append, files.kinds kind, ofKind_store (answer_eq_ok.mp accepted) kind]
    by_cases same : kind = r.learnt
    · rw [if_pos same, Array.toList_push, List.mapIdx_append]
      simp [position, same]
    · have other : (key.isLearnt == kind) = false := by
        rw [position, ClauseKey.isLearnt_ofPosition]
        exact beq_false_of_ne (Ne.symm same)
      rw [if_neg same, List.filter_singleton, other, cond_false, List.append_nil]
  occurrences l := by
    obtain ⟨_, _, _, _, noted⟩ := store_eq_ok (answer_eq_ok.mp accepted)
    rw [noted l, files.occurrences l, List.flatMap_append, List.flatMap_singleton]

/-- The requests of a sequence are filed after what was there. -/
theorem serveAll (files : s.Files entries) (requests : List Request) :
    (requests.foldl serve s).Files (entries ++ s.filed requests) := by
  induction requests generalizing s entries with
  | nil => simpa [filed] using files
  | cons r rest ih =>
    rw [List.foldl_cons, filed]
    cases answered : s.answer r with
    | ok key => simpa using ih (files.serve_ok answered)
    | error e =>
      have same := serve_of_error answered
      rw [same]
      exact ih files

/-- A key has the clause under which it was filed, and no other. -/
theorem get?_iff (files : s.Files entries) (key : ClauseKey) (c : Clause) :
    s.get? key = some c ↔ (key, c) ∈ entries := by
  obtain ⟨learnt, n, rfl⟩ := key.exists_eq_ofPosition
  have sameKind : (ClauseKey.ofPosition learnt n, c) ∈ entries ↔
      (ClauseKey.ofPosition learnt n, c) ∈ entries.filter (fun entry => entry.1.isLearnt == learnt) := by
    simp [List.mem_filter]
  rw [sameKind, files.kinds learnt, get?_ofPosition, List.mem_mapIdx]
  simp only [Prod.mk.injEq, ClauseKey.ofPosition_inj]
  rw [Array.getElem?_eq_some_iff]
  constructor
  · rintro ⟨bound, found⟩
    exact ⟨n, by simpa using bound, rfl, by simpa using found⟩
  · rintro ⟨m, bound, rfl, found⟩
    exact ⟨by simpa using bound, by simpa using found⟩

/-- The keys of a kind are those of the first positions, in the order of the positions. -/
theorem keys (files : s.Files entries) (learnt : Bool) :
    (entries.map Prod.fst).filter (fun key => key.isLearnt == learnt) =
      (List.range (s.ofKind learnt).size).map (.ofPosition learnt) := by
  rw [List.filter_map, show ((fun key : ClauseKey => key.isLearnt == learnt) ∘ Prod.fst) =
    fun entry : ClauseKey × Clause => entry.1.isLearnt == learnt from rfl, files.kinds learnt]
  refine List.ext_getElem? fun n => ?_
  rw [List.getElem?_map, List.getElem?_mapIdx, List.getElem?_map]
  by_cases bound : n < (s.ofKind learnt).size
  · rw [List.getElem?_eq_getElem (by simpa using bound), List.getElem?_range bound]
    rfl
  · rw [List.getElem?_eq_none (by simpa using bound), List.getElem?_eq_none (by simpa using bound)]
    rfl

theorem size_ofKind (files : s.Files entries) (learnt : Bool) :
    (s.ofKind learnt).size = (entries.filter fun entry => entry.1.isLearnt == learnt).length := by
  rw [files.kinds learnt, List.length_mapIdx, Array.length_toList]

theorem occurs_iff (files : s.Files entries) (l : Literal) :
    s.occurs l = true ↔ ∃ c ∈ s.clauses, l ∈ c := by
  have listed : (∃ c ∈ s.clauses, l ∈ c) ↔ ∃ key c, s.get? key = some c ∧ l ∈ c := by
    simp only [clauses, List.mem_append, Array.mem_toList_iff, Array.mem_iff_getElem?]
    constructor
    · rintro ⟨c, ⟨n, found⟩ | ⟨n, found⟩, member⟩
      · exact ⟨.given n, c, found, member⟩
      · exact ⟨.learnt n, c, found, member⟩
    · rintro ⟨n | n, c, found, member⟩
      · exact ⟨c, .inl ⟨n, found⟩, member⟩
      · exact ⟨c, .inr ⟨n, found⟩, member⟩
  rw [listed, occurs, Bool.not_eq_true', List.isEmpty_eq_false_iff_exists_mem, files.occurrences l]
  simp only [List.mem_flatMap, List.mem_replicate, files.get?_iff]
  constructor
  · rintro ⟨_, ⟨key, c⟩, found, some', _⟩
    exact ⟨key, c, found, List.count_pos_iff.mp (Nat.pos_of_ne_zero some')⟩
  · rintro ⟨key, c, found, member⟩
    exact ⟨key, (key, c), found, Nat.ne_of_gt (List.count_pos_iff.mpr member), rfl⟩

end Files

theorem files_after (requests : List Request) : (after requests).Files (filed {} requests) :=
  Files.initial.serveAll requests

theorem filed_append (s : ClauseStore) (requests later : List Request) :
    s.filed (requests ++ later) = s.filed requests ++ (requests.foldl serve s).filed later := by
  induction requests generalizing s with
  | nil => rfl
  | cons r rest ih =>
    rw [List.cons_append, filed, filed, List.foldl_cons]
    split <;> simp [ih]

theorem after_append (requests later : List Request) :
    after (requests ++ later) = later.foldl serve (after requests) :=
  List.foldl_append ..

theorem get?_serve (found : s.get? key = some c) (r : Request) : (s.serve r).get? key = some c := by
  cases answered : s.answer r with
  | ok new => exact get?_store (answer_eq_ok.mp answered) found
  | error e => rwa [serve_of_error answered]

theorem get?_foldl_serve (found : s.get? key = some c) (requests : List Request) :
    (requests.foldl serve s).get? key = some c := by
  induction requests generalizing s with
  | nil => exact found
  | cons r rest ih => exact ih (get?_serve found r)

/-- Requests to store clauses, whatever they are. The store gives for each key the clause that was accepted
under it, now and after any later requests. The keys of a kind are consecutive, from `0` on. A request is
refused for the empty clause, and for want of room among those of its kind alone, and is then as if it had
not been made. Each literal lists the keys in the order of storing, each as often as the literal occurs in
its clause, so it occurs exactly if some clause contains it. -/
theorem after_exact (requests : List Request) :
    (∀ key c, (after requests).get key = .ok c ↔ (key, c) ∈ filed {} requests) ∧
    (∀ r key later, (after requests).answer r = .ok key →
      filed {} (requests ++ [r]) = filed {} requests ++ [(key, r.clause)] ∧
      (after (requests ++ r :: later)).get key = .ok r.clause) ∧
    (∀ learnt, ((filed {} requests).map Prod.fst).filter (fun key => key.isLearnt == learnt) =
      (List.range ((after requests).ofKind learnt).size).map (.ofPosition learnt)) ∧
    (∀ r e, (after requests).answer r = .error e ↔ e = .emptyClause ∧ r.clause = [] ∨
      e = .storageExhausted ∧ r.clause ≠ [] ∧
        UInt32.size ≤ ((filed {} requests).filter fun entry => entry.1.isLearnt == r.learnt).length) ∧
    (∀ r e later, (after requests).answer r = .error e →
      after (requests ++ r :: later) = after (requests ++ later)) ∧
    (∀ l, (after requests).occurrences l =
      (filed {} requests).flatMap fun entry => List.replicate (entry.2.count l) entry.1) ∧
    ∀ l, (after requests).occurs l = true ↔ ∃ c ∈ (after requests).clauses, l ∈ c := by
  have files := files_after requests
  refine ⟨fun key c => ?_, fun r key later accepted => ?_, files.keys, fun r e => ?_,
    fun r e later refused => ?_, files.occurrences, files.occurs_iff⟩
  · rw [get_eq_ok, files.get?_iff]
  · have stored : ((after requests).serve r).get? key = some r.clause :=
      (store_eq_ok (answer_eq_ok.mp accepted)).2.2.1
    refine ⟨?_, ?_⟩
    · rw [filed_append, ← after, filed, accepted]
      rfl
    · rw [get_eq_ok, after_append]
      exact get?_foldl_serve stored later
  · rw [answer_eq_error, files.size_ofKind]
  · rw [after_append, after_append, List.foldl_cons, serve_of_error refused]

/-- A literal that occurs twice lists its key twice, and a refused request uses up no key. -/
theorem after_exact_repeated :
    let requests : List Request := [⟨[⟨1⟩, ⟨1⟩, ⟨-2⟩], false⟩, ⟨[], true⟩, ⟨[⟨-2⟩], true⟩]
    (after requests).get (.learnt 0) = .ok [⟨-2⟩] ∧
      (after requests).occurrences ⟨1⟩ = [.given 0, .given 0] ∧
      (after requests).occurrences ⟨-2⟩ = [.given 0, .learnt 0] ∧ (after requests).occurrences ⟨2⟩ = [] := by
  intro requests
  obtain ⟨holds, _, _, _, _, listed, _⟩ := after_exact requests
  have entries : filed {} requests = [(.given 0, [⟨1⟩, ⟨1⟩, ⟨-2⟩]), (.learnt 0, [⟨-2⟩])] := by decide
  rw [holds, listed, listed, listed, entries]
  decide

end ClauseStore

end SatModulo
