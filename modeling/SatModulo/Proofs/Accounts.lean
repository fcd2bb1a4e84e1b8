import SatModulo.Theory.Registry
import Mathlib.Data.List.Forall2

/-!
# Accounts of theories

A registry keeps an account of every call. What a theory has become is what the calls of its account
have made of it: each operation of a registry appends to the account of a theory the calls that lead
from its state before to its state after (`Trace`).
-/
namespace SatModulo

variable {σ : Type}

namespace Except

/-- A value of a sequence comes from a value of its first part. -/
theorem bind_eq_ok {ε α β : Type} {x : Except ε α} {f : α → Except ε β} {b : β}
    (success : (x >>= f) = .ok b) : ∃ a, x = .ok a ∧ f a = .ok b := by
  cases x with
  | error e => cases success
  | ok a => exact ⟨a, rfl, success⟩

/-- The values of a sequence come from its elements, one from each. -/
theorem mapM_eq_ok {ε α β : Type} {f : α → Except ε β} {xs : List α} {ys : List β}
    (success : xs.mapM f = .ok ys) : List.Forall₂ (fun x y => f x = .ok y) xs ys := by
  induction xs generalizing ys with
  | nil =>
    cases success
    exact .nil
  | cons x rest ih =>
    rw [List.mapM_cons] at success
    obtain ⟨y, first, success⟩ := bind_eq_ok success
    obtain ⟨others, later, success⟩ := bind_eq_ok success
    cases success
    exact .cons first (ih later)

theorem mapM_of_ok {ε α β : Type} {f : α → Except ε β} {g : α → β} {xs : List α}
    (each : ∀ x ∈ xs, f x = .ok (g x)) : xs.mapM f = .ok (xs.map g) := by
  induction xs with
  | nil => rfl
  | cons x rest ih =>
    rw [List.forall_mem_cons] at each
    rw [List.mapM_cons, each.1, ih each.2]
    rfl

/-- The error of a sequence is that of one of its parts. -/
theorem bind_eq_error {ε α β : Type} {x : Except ε α} {f : α → Except ε β} {e : ε}
    (failed : (x >>= f) = .error e) : x = .error e ∨ ∃ a, x = .ok a ∧ f a = .error e := by
  cases x with
  | error cause =>
    cases failed
    exact .inl rfl
  | ok a => exact .inr ⟨a, rfl, failed⟩

theorem mapM_eq_error {ε α β : Type} {f : α → Except ε β} {xs : List α} {e : ε}
    (failed : xs.mapM f = .error e) : ∃ x ∈ xs, f x = .error e := by
  induction xs with
  | nil => cases failed
  | cons x rest ih =>
    rw [List.mapM_cons] at failed
    rcases bind_eq_error failed with here | ⟨y, _, failed⟩
    · exact ⟨x, .head _, here⟩
    · rcases bind_eq_error failed with later | ⟨others, _, failed⟩
      · obtain ⟨x', member, found⟩ := ih later
        exact ⟨x', .tail _ member, found⟩
      · cases failed

end Except

theorem mem_insertAtom {a b : Atom} {atoms : List Atom} :
    a ∈ insertAtom b atoms ↔ a = b ∨ a ∈ atoms := by
  induction atoms with
  | nil => simp [insertAtom]
  | cons c rest ih =>
    unfold insertAtom
    split
    · rw [List.mem_cons]
    · rw [List.mem_cons, ih, List.mem_cons]
      exact or_left_comm

/-- What a theory may become when it is called, as the theory of an index. -/
inductive Theory.Answers [Theory σ] (i : Nat) : σ → Call → σ → Prop
  | setIndex (t : σ) (j : Nat) : Answers i t (.setIndex j) (Theory.setIndex j t)
  | preprocess (t : σ) : Answers i t .preprocess (Theory.preprocess t)
  | noteOccurs (t : σ) (l : Literal) (occurs : Bool) :
    Answers i t (.noteOccurs l occurs) (Theory.noteOccurs l occurs t)
  | openLevel (t : σ) : Answers i t .openLevel (Theory.openLevel t)
  | backtrack (t : σ) (level : Nat) : Answers i t (.backtrack level) (Theory.backtrack level t)
  | enqueue (t t' : σ) (l : Literal) (success : Theory.enqueue l t = .ok t') :
    Answers i t (.enqueue l) t'
  | clearSatisfied (t t' : σ) (success : Theory.clearSatisfied t = .ok t') :
    Answers i t .clearSatisfied t'
  | undecide (t : σ) (l : Literal) : Answers i t (.undecide l) (Theory.undecide l t)
  | flush (t : σ) (s : Atoms) : Answers i t (.flush s.level s.trail.length) (Theory.flush s t)
  | propagate (t t' : σ) (s s' : Atoms) (conflict : Option Clause)
    (ran : (Theory.propagate t).run i s = .ok ((conflict, t'), s')) :
    Answers i t (.propagate s.level (s'.trail.literals.drop s.trail.length) conflict) t'
  | solve (t t' : σ) (s s' : Atoms) (conflict : Option Clause)
    (ran : (Theory.solve t).run i s = .ok ((conflict, t'), s')) :
    Answers i t (.solve s.level (s'.trail.literals.drop s.trail.length) conflict) t'
  | isSatisfied (t : σ) (answer : Bool) (answered : Theory.isSatisfied t = .ok answer) :
    Answers i t (.isSatisfied answer) t
  | decide (t t' : σ) (s : Atoms) (proposal : Option Proposal)
    (answered : Theory.decide s t = (proposal, t')) : Answers i t (.decide proposal) t'
  | buildReason (t t' : σ) (l : Literal) (marker : Marker) (reason : Clause)
    (answered : Theory.buildReason l marker t = .ok (reason, t')) :
    Answers i t (.buildReason l marker reason) t'
  | checkPropagated (t : σ) (s : Atoms) (answer : Bool)
    (answered : Theory.checkPropagated s t = .ok answer) : Answers i t (.checkPropagated answer) t
  | checkSolved (t : σ) (s : Atoms) : Answers i t (.checkSolved (Theory.checkSolved s t)) t

/-- What calls in turn may make of a theory. -/
inductive Theory.Trace [Theory σ] (i : Nat) : σ → List Call → σ → Prop
  | nil (t : σ) : Trace i t [] t
  | cons {t t' t'' : σ} {call : Call} {rest : List Call} (first : Theory.Answers i t call t')
    (others : Trace i t' rest t'') : Trace i t (call :: rest) t''

namespace Theory.Trace

variable [Theory σ] {i : Nat} {t t' t'' : σ}

theorem single {call : Call} (answered : Answers i t call t') : Trace i t [call] t' :=
  .cons answered (.nil _)

theorem append {first second : List Call} (before : Trace i t first t') (after : Trace i t' second t'') :
    Trace i t (first ++ second) t'' := by
  induction before with
  | nil => exact after
  | cons answered _ ih => exact .cons answered (ih after)

theorem enqueueAll {literals : List Literal}
    (success : literals.foldlM (fun s l => Theory.enqueue l s) t = .ok t') :
    Trace i t (literals.map .enqueue) t' := by
  induction literals generalizing t with
  | nil =>
    cases success
    exact .nil _
  | cons l rest ih =>
    rw [List.foldlM_cons] at success
    obtain ⟨between, first, others⟩ := Except.bind_eq_ok success
    exact .cons (.enqueue _ _ _ first) (ih others)

theorem noteAll (occurs : Literal → Bool) (literals : List Literal) (t : σ) :
    Trace i t (literals.map fun l => .noteOccurs l (occurs l))
      (literals.foldl (fun s l => Theory.noteOccurs l (occurs l) s) t) := by
  induction literals generalizing t with
  | nil => exact .nil _
  | cons l rest ih => exact .cons (.noteOccurs t l _) (ih _)

end Theory.Trace

namespace Registry

def callsOf (i : Nat) (calls : List (Nat × Call)) : List Call :=
  calls.filterMap fun entry => if entry.1 = i then some entry.2 else none

/-- The calls of one theory, oldest first. -/
def account (r : Registry σ) (i : Nat) : List Call := callsOf i r.calls.toList

@[simp] theorem callsOf_append (i : Nat) (first second : List (Nat × Call)) :
    callsOf i (first ++ second) = callsOf i first ++ callsOf i second := List.filterMap_append

theorem callsOf_own (i : Nat) (calls : List Call) : callsOf i (calls.map (i, ·)) = calls := by
  simp [callsOf]

theorem callsOf_other {i j : Nat} (other : j ≠ i) (calls : List Call) :
    callsOf i (calls.map (j, ·)) = [] := by
  simp [callsOf, other]

theorem mem_callsOf {i : Nat} {call : Call} {calls : List (Nat × Call)} :
    call ∈ callsOf i calls ↔ (i, call) ∈ calls := by
  simp only [callsOf, List.mem_filterMap, Prod.exists, Option.ite_none_right_eq_some,
    Option.some.injEq]
  constructor
  · rintro ⟨j, call', member, rfl, rfl⟩
    exact member
  · exact fun member => ⟨i, call, member, rfl, rfl⟩

theorem mem_account {r : Registry σ} {i : Nat} {call : Call} :
    call ∈ r.account i ↔ (i, call) ∈ r.calls.toList := mem_callsOf

/-- Calls of one theory are appended to its own account only. -/
theorem account_append_own (r : Registry σ) (members : List (Member σ)) (i j : Nat)
    (calls : List Call) :
    account { r with members, calls := r.calls ++ calls.map (i, ·) } j =
      r.account j ++ if j = i then calls else [] := by
  simp only [account, Array.toList_appendList, callsOf_append]
  split
  · rename_i same
    rw [same, callsOf_own]
  · rename_i other
    rw [callsOf_other (Ne.symm other)]

/-- Members change one by one: each becomes another by calls that are appended to its own account, and
the effect relates what it was, what it is and the calls. -/
structure Changes (effect : Nat → Member σ → Member σ → List Call → Prop) (r r' : Registry σ) :
    Prop where
  length : r'.members.length = r.members.length
  member : ∀ i m, r.members[i]? = some m → ∃ m' own, r'.members[i]? = some m' ∧
    r'.account i = r.account i ++ own ∧ effect i m m' own
  absent : ∀ i, r.members.length ≤ i → r'.account i = r.account i

namespace Changes

variable {effect effect' : Nat → Member σ → Member σ → List Call → Prop} {r r' r'' : Registry σ}

theorem mono_mem (changes : Changes effect r r')
    (weaker : ∀ i m m' own, r.members[i]? = some m → effect i m m' own → effect' i m m' own) :
    Changes effect' r r' where
  length := changes.length
  member := by
    intro i m found
    obtain ⟨m', own, found', account, effected⟩ := changes.member i m found
    exact ⟨m', own, found', account, weaker i m m' own found effected⟩
  absent := changes.absent

theorem mono (changes : Changes effect r r')
    (weaker : ∀ i m m' own, effect i m m' own → effect' i m m' own) : Changes effect' r r' :=
  changes.mono_mem fun i m m' own _ => weaker i m m' own

theorem refl (none : ∀ i m, effect i m m []) (r : Registry σ) : Changes effect r r where
  length := rfl
  member := fun i m found => ⟨m, [], found, (List.append_nil _).symm, none i m⟩
  absent := fun _ _ => rfl

/-- Two changes in turn: the calls of the second are appended to those of the first. -/
theorem trans (first : Changes effect r r') (second : Changes effect' r' r'') :
    Changes (fun i m m'' own => ∃ m' before after, own = before ++ after ∧ effect i m m' before ∧
      effect' i m' m'' after) r r'' where
  length := second.length.trans first.length
  member := by
    intro i m found
    obtain ⟨m', before, found', account, effected⟩ := first.member i m found
    obtain ⟨m'', after, found'', account', effected'⟩ := second.member i m' found'
    refine ⟨m'', before ++ after, found'', ?_, m', before, after, rfl, effected, effected'⟩
    rw [account', account, List.append_assoc]
  absent := by
    intro i beyond
    rw [second.absent i (by rw [first.length]; exact beyond), first.absent i beyond]

/-- What is known of a change in two ways is known together. -/
theorem both (first : Changes effect r r') (second : Changes effect' r r') :
    Changes (fun i m m' own => effect i m m' own ∧ effect' i m m' own) r r' where
  length := first.length
  member := by
    intro i m found
    obtain ⟨m', own, found', account, effected⟩ := first.member i m found
    obtain ⟨n, own', foundN, account', effected'⟩ := second.member i m found
    obtain rfl : m' = n := Option.some.inj (found'.symm.trans foundN)
    obtain rfl : own = own' := List.append_cancel_left (account.symm.trans account')
    exact ⟨m', own, found', account, effected, effected'⟩
  absent := first.absent

/-- Every member there is now was another before. -/
theorem of_getElem? (changes : Changes effect r r') {i : Nat} {m' : Member σ}
    (found' : r'.members[i]? = some m') : ∃ m own, r.members[i]? = some m ∧
      r'.account i = r.account i ++ own ∧ effect i m m' own := by
  have inside : i < r.members.length := by
    rw [← changes.length]
    exact (List.getElem?_eq_some_iff.mp found').1
  have found := List.getElem?_eq_getElem inside
  obtain ⟨n, own, foundN, account, effected⟩ := changes.member i _ found
  rw [found'] at foundN
  cases foundN
  exact ⟨_, own, found, account, effected⟩

theorem of_mem (changes : Changes effect r r') {m' : Member σ} (member : m' ∈ r'.members) :
    ∃ i m own, r.members[i]? = some m ∧ effect i m m' own := by
  obtain ⟨i, found'⟩ := List.mem_iff_getElem?.mp member
  obtain ⟨m, own, found, _, effected⟩ := changes.of_getElem? found'
  exact ⟨i, m, own, found, effected⟩

/-- What a theory was called with stays in its account. -/
theorem mem_account (changes : Changes effect r r') {i : Nat} {call : Call}
    (member : call ∈ r.account i) : call ∈ r'.account i := by
  rcases Nat.lt_or_ge i r.members.length with inside | beyond
  · obtain ⟨m', own, _, account, _⟩ := changes.member i _ (List.getElem?_eq_getElem inside)
    rw [account]
    exact List.mem_append_left _ member
  · rw [changes.absent i beyond]
    exact member

/-- The calls that were added to an account are those that changed a member. -/
theorem own (changes : Changes effect r r') {calls : List (Nat × Call)} (added : r'.calls = r.calls ++ calls)
    {i : Nat} {m : Member σ} (found : r.members[i]? = some m) :
    ∃ m', r'.members[i]? = some m' ∧ effect i m m' (callsOf i calls) := by
  obtain ⟨m', own, found', account, effected⟩ := changes.member i m found
  have same : r'.account i = r.account i ++ callsOf i calls := by
    rw [Registry.account, added, Array.toList_appendList, callsOf_append]
    rfl
  obtain rfl : own = callsOf i calls := List.append_cancel_left (account.symm.trans same)
  exact ⟨m', found', effected⟩

end Changes

/-- When members are changed in turn, each is changed alone, and the calls of its index are those of its own change.
-/
private theorem changeFrom_eq_ok {f : Member σ → Except Fault (Member σ × List Call)} {start : Nat}
    {members members' : List (Member σ)} {calls : List (Nat × Call)}
    (success : changeFrom f start members = .ok (members', calls)) :
    members'.length = members.length ∧
      (∀ j, j < start ∨ start + members.length ≤ j → callsOf j calls = []) ∧
      ∀ k m, members[k]? = some m → ∃ m' own, f m = .ok (m', own) ∧ members'[k]? = some m' ∧
        callsOf (start + k) calls = own := by
  induction members generalizing start members' calls with
  | nil =>
    cases success
    exact ⟨rfl, fun _ _ => rfl, fun k m found => by cases found⟩
  | cons m rest ih =>
    obtain ⟨⟨m', own⟩, changed, success⟩ := Except.bind_eq_ok success
    obtain ⟨⟨rest', later⟩, changedRest, success⟩ := Except.bind_eq_ok success
    cases success
    obtain ⟨length, outside, each⟩ := ih changedRest
    refine ⟨by simp [length], fun j apart => ?_, fun k n found => ?_⟩
    · rw [List.length_cons] at apart
      rw [callsOf_append, callsOf_other (by omega), outside j (by omega), List.nil_append]
    · cases k with
      | zero =>
        cases found
        refine ⟨m', own, changed, rfl, ?_⟩
        rw [Nat.add_zero, callsOf_append, callsOf_own, outside start (by omega),
          List.append_nil]
      | succ k =>
        obtain ⟨n', own', changedN, found', calls'⟩ := each k n found
        refine ⟨n', own', changedN, found', ?_⟩
        rw [callsOf_append, callsOf_other (by omega), List.nil_append, ← calls',
          show start + (k + 1) = start + 1 + k by omega]

variable {r r' : Registry σ}

/-- Each member becomes what the change makes of it, and its calls are appended to its account. -/
theorem changeAll_eq_ok {f : Member σ → Except Fault (Member σ × List Call)}
    (success : r.changeAll f = .ok r') :
    Changes (fun _ m m' own => f m = .ok (m', own)) r r' ∧ r'.schedule = r.schedule ∧
      r'.decisions = r.decisions ∧ r'.baseFacts = r.baseFacts := by
  obtain ⟨⟨members, calls⟩, changed, success⟩ := Except.bind_eq_ok success
  cases success
  obtain ⟨length, outside, each⟩ := changeFrom_eq_ok changed
  refine ⟨⟨length, fun i m found => ?_, fun i beyond => ?_⟩, rfl, rfl, rfl⟩
  · obtain ⟨m', own, changedM, found', calls'⟩ := each i m found
    refine ⟨m', own, found', ?_, changedM⟩
    rw [Nat.zero_add] at calls'
    simp only [account, Array.toList_appendList, callsOf_append, calls']
  · simp only [account, Array.toList_appendList, callsOf_append]
    rw [outside i (by omega), List.append_nil]

private theorem changeFrom_calls {f : Member σ → Except Fault (Member σ × List Call)} {start : Nat}
    {members members' : List (Member σ)} {calls : List (Nat × Call)}
    (success : changeFrom f start members = .ok (members', calls)) :
    ∀ call ∈ calls, ∃ m m' own, f m = .ok (m', own) ∧ call.2 ∈ own := by
  induction members generalizing start members' calls with
  | nil =>
    cases success
    nofun
  | cons m rest ih =>
    obtain ⟨⟨m', own⟩, changed, success⟩ := Except.bind_eq_ok success
    obtain ⟨⟨rest', later⟩, changedRest, success⟩ := Except.bind_eq_ok success
    cases success
    refine List.forall_mem_append.mpr ⟨List.forall_mem_map.mpr fun call member => ?_, ih changedRest⟩
    exact ⟨m, m', own, changed, member⟩

/-- The calls of a change of all members are those of the changes of members. -/
theorem changeAll_calls {f : Member σ → Except Fault (Member σ × List Call)}
    (success : r.changeAll f = .ok r') : ∃ calls : List (Nat × Call), r'.calls = r.calls ++ calls ∧
      ∀ call ∈ calls, ∃ m m' own, f m = .ok (m', own) ∧ call.2 ∈ own := by
  obtain ⟨⟨members, calls⟩, changed, success⟩ := Except.bind_eq_ok success
  cases success
  exact ⟨calls, rfl, changeFrom_calls changed⟩

private theorem changeFrom_eq_error {f : Member σ → Except Fault (Member σ × List Call)} {start : Nat}
    {members : List (Member σ)} {cause : Fault} (failed : changeFrom f start members = .error cause) :
    ∃ m ∈ members, f m = .error cause := by
  induction members generalizing start with
  | nil => cases failed
  | cons m rest ih =>
    rcases Except.bind_eq_error failed with here | ⟨_, _, failed⟩
    · exact ⟨m, .head _, here⟩
    · rcases Except.bind_eq_error failed with later | ⟨_, _, failed⟩
      · obtain ⟨n, member, found⟩ := ih later
        exact ⟨n, .tail _ member, found⟩
      · cases failed

/-- A fault of a change of all members is one of the change of some member. -/
theorem changeAll_eq_error {f : Member σ → Except Fault (Member σ × List Call)} {cause : Fault}
    (failed : r.changeAll f = .error cause) : ∃ m ∈ r.members, f m = .error cause := by
  rcases Except.bind_eq_error failed with here | ⟨_, _, failed⟩
  · exact changeFrom_eq_error here
  · cases failed

/-- One member becomes another by calls of its own; the others stay as they are. -/
theorem changes_setOne {effect : Nat → Member σ → Member σ → List Call → Prop} {i : Nat}
    {m m' : Member σ} {own : List Call} (found : r.members[i]? = some m) (effected : effect i m m' own)
    (none : ∀ j n, j ≠ i → effect j n n []) :
    Changes effect r { r with members := r.members.set i m', calls := r.calls ++ own.map (i, ·) } where
  length := by simp
  member := by
    intro j n foundJ
    by_cases same : j = i
    · subst same
      rw [found] at foundJ
      cases foundJ
      refine ⟨m', own, ?_, by rw [account_append_own, if_pos rfl], effected⟩
      rw [List.getElem?_set_self (List.getElem?_eq_some_iff.mp found).1]
    · refine ⟨n, [], ?_, by rw [account_append_own, if_neg same], none j n same⟩
      rw [List.getElem?_set_ne (Ne.symm same), foundJ]
  absent := by
    intro j beyond
    have inside := (List.getElem?_eq_some_iff.mp found).1
    rw [account_append_own, if_neg (by omega), List.append_nil]

theorem changes_set {effect : Nat → Member σ → Member σ → List Call → Prop} {i : Nat}
    {m m' : Member σ} {own : List Call} (found : r.members[i]? = some m) (effected : effect i m m' own)
    (none : ∀ j n, effect j n n []) :
    Changes effect r { r with members := r.members.set i m', calls := r.calls ++ own.map (i, ·) } :=
  changes_setOne found effected fun j n _ => none j n

/-- One member becomes what the change makes of it. -/
theorem changeAt_eq_ok {α : Type} {i : Nat}
    {f : Member σ → Except Fault (α × Member σ × List Call)} {a : α}
    (success : r.changeAt i f = .ok (some a, r')) :
    ∃ m m' own, r.members[i]? = some m ∧ f m = .ok (a, m', own) ∧
      r' = { r with members := r.members.set i m', calls := r.calls ++ own.map (i, ·) } := by
  unfold changeAt at success
  split at success
  · cases success
  · rename_i m found
    obtain ⟨⟨a', m', own⟩, changed, success⟩ := Except.bind_eq_ok success
    cases success
    exact ⟨m, m', own, found, changed, rfl⟩

/-- What changes a member changes the one of an index. -/
theorem changeAt_of_ok {α : Type} {i : Nat} {f : Member σ → Except Fault (α × Member σ × List Call)} {a : α}
    {m m' : Member σ} {own : List Call} (found : r.members[i]? = some m) (changed : f m = .ok (a, m', own)) :
    r.changeAt i f = .ok (some a,
      { r with members := r.members.set i m', calls := r.calls ++ own.map (i, ·) }) := by
  unfold changeAt
  rw [found]
  dsimp only
  rw [changed]
  rfl

/-- A member that is only asked stays as it is. -/
theorem set_self {r : Registry σ} {i : Nat} {m : Member σ} (found : r.members[i]? = some m)
    (calls : Array (Nat × Call)) : { r with members := r.members.set i m, calls } = { r with calls } := by
  obtain ⟨inside, rfl⟩ := List.getElem?_eq_some_iff.mp found
  rw [List.set_getElem_self]

/-- Only the account changes when a member is only asked. -/
theorem changeAt_of_asked {α : Type} {i : Nat} {f : Member σ → Except Fault (α × Member σ × List Call)} {a : α}
    {m : Member σ} {own : List Call} (found : r.members[i]? = some m) (asked : f m = .ok (a, m, own)) :
    r.changeAt i f = .ok (some a, { r with calls := r.calls ++ own.map (i, ·) }) := by
  rw [changeAt_of_ok found asked, set_self found]

/-- A fault of a change of one member is one of the change. -/
theorem changeAt_eq_error {α : Type} {i : Nat}
    {f : Member σ → Except Fault (α × Member σ × List Call)} {cause : Fault}
    (failed : r.changeAt i f = .error cause) : ∃ m, r.members[i]? = some m ∧ f m = .error cause := by
  unfold changeAt at failed
  split at failed
  · cases failed
  · rename_i m found
    rcases Except.bind_eq_error failed with here | ⟨_, _, failed⟩
    · exact ⟨m, found, here⟩
    · cases failed

theorem changeAt_eq_none {α : Type} {i : Nat}
    {f : Member σ → Except Fault (α × Member σ × List Call)}
    (success : r.changeAt i f = .ok (none, r')) : r.members[i]? = none ∧ r' = r := by
  unfold changeAt at success
  split at success
  · rename_i absent
    cases success
    exact ⟨absent, rfl⟩
  · obtain ⟨⟨a', m', own⟩, changed, success⟩ := Except.bind_eq_ok success
    cases success

theorem length_changeAt {α : Type} {i : Nat} {f : Member σ → Except Fault (α × Member σ × List Call)}
    {outcome : Option α} (success : r.changeAt i f = .ok (outcome, r')) :
    r'.members.length = r.members.length := by
  cases outcome with
  | none => rw [(changeAt_eq_none success).2]
  | some a =>
    obtain ⟨m, m', own, _, _, rfl⟩ := changeAt_eq_ok success
    exact List.length_set

end Registry

namespace Member

variable [Theory σ] {m m' : Member σ} {own : List Call}

theorem deliver_eq_ok {literals : List Literal} {count : Nat}
    (success : m.deliver literals = .ok (count, m', own)) :
    ∃ theory, (m.pending literals).foldlM (fun s l => Theory.enqueue l s) m.theory = .ok theory ∧
      m' = { m with theory, head := literals.length } ∧ own = (m.pending literals).map .enqueue := by
  obtain ⟨theory, told, success⟩ := Except.bind_eq_ok success
  cases success
  exact ⟨theory, told, rfl, rfl⟩

/-- Preparing a theory changes nothing that is kept of it but that it was prepared. -/
theorem preprocess_eq_ok {occurs : Literal → Bool} (success : m.preprocess occurs = .ok (m', own)) :
    (∀ i, Theory.Trace i m.theory own m'.theory) ∧
      m' = { m with theory := m'.theory, preprocessed := m'.preprocessed } ∧
      ∀ call ∈ own, call = .preprocess ∨ ∃ l, call = .noteOccurs l (occurs l) := by
  unfold preprocess at success
  split at success
  · cases success
    exact ⟨fun i => .nil _, rfl, by simp⟩
  · obtain ⟨literals, _, success⟩ := Except.bind_eq_ok success
    cases success
    refine ⟨fun i => .cons (.preprocess _) (.noteAll occurs literals _), rfl, ?_⟩
    simp only [List.mem_cons, List.mem_map]
    rintro call (rfl | ⟨l, _, rfl⟩)
    · exact .inl rfl
    · exact .inr ⟨l, rfl⟩

theorem clearSatisfied_eq_ok (success : m.clearSatisfied = .ok (m', own)) :
    (∀ i, Theory.Trace i m.theory own m'.theory) ∧ m' = { m with theory := m'.theory } ∧
      (own = [] ∨ own = [.clearSatisfied]) := by
  unfold clearSatisfied at success
  split at success
  · obtain ⟨theory, cleared, success⟩ := Except.bind_eq_ok success
    cases success
    exact ⟨fun i => .single (.clearSatisfied _ _ cleared), rfl, .inr rfl⟩
  · cases success
    exact ⟨fun i => .nil _, rfl, .inl rfl⟩

end Member

end SatModulo
