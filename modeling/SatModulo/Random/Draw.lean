import SatModulo.Fault
import SatModulo.Random.Generator

/-!
# Draws

A truth value with a given likelihood, and a choice from a list of unknown length. The choice keeps
the `i`-th element with likelihood `1 / i`, decided by tosses of a coin: a random word is used up one
bit at a time, and a fraction is compared with random binary digits as far as is needed.
-/
namespace SatModulo

namespace Generator

/-- True with likelihood `p`: a random number of 64 bits is compared with `p`, scaled. Likelihood one
needs no number. -/
def chance (p : Float) (g : Generator) : Except Fault (Bool × Generator) :=
  if 0.0 ≤ p ∧ p < 1.0 then
    let (word, g) := g.next64
    .ok (decide (word < (p * 18446744073709551616.0).toUInt64), g)
  else if p == 1.0 then .ok (true, g)
  else .error .notAProbability

end Generator

/-- A coin: random bits not yet used, from the most significant of 32 down, and the source of more. -/
structure Coin where
  chunk : Nat
  remaining : Nat
  source : Generator
  deriving DecidableEq, Repr

namespace Coin

/-- A coin without bits in store. -/
def ofGenerator (g : Generator) : Coin := ⟨0, 0, g⟩

def leadingZeros (width n : Nat) : Nat :=
  if n = 0 then width else width - (n.log2 + 1)

def drop (count : Nat) (c : Coin) : Coin :=
  { c with chunk := (c.chunk <<< count) % UInt32.size, remaining := c.remaining - count }

def refill (c : Coin) : Coin :=
  let (word, source) := c.source.next32
  ⟨word.toNat, 32, source⟩

/-- Whether the next `count` tosses from the store are all zeros; the first one ends the trial. If
the store holds fewer tosses, all of them zeros, the number of tosses still to make. -/
def stored (count : Nat) (c : Coin) : Except Nat (Bool × Coin) :=
  let zeros := leadingZeros 32 c.chunk
  if zeros < count then .ok (false, c.drop (zeros + 1))
  else if count ≤ c.remaining then .ok (true, c.drop count)
  else .error (count - c.remaining)

/-- Whether the next `count` tosses, at most 32, are all zeros. A fresh word is enough for what the
store lacks. -/
def toss (count : Nat) (c : Coin) : Bool × Coin :=
  match c.stored count with
  | .ok result => result
  | .error lacking =>
    match c.refill.stored lacking with
    | .ok result => result
    | .error _ => (true, c.refill)

/-- True with likelihood `n / d`. While `n` is far below `d` several tosses are made at once; near it
one toss at a time follows the binary digits of the fraction. -/
def ratioWithin : Nat → Nat → Nat → Coin → Bool × Coin
  | 0, _, _, c => (false, c)
  | fuel + 1, n, d, c =>
    if d ≤ n then (true, c)
    else
      let count := min 32 (max 1 (leadingZeros 64 n - (leadingZeros 64 d + 1)))
      match c.toss count with
      | (true, c) => ratioWithin fuel (n <<< count) d c
      | (false, c) =>
        if count = 1 then
          if n + n ≤ d then (false, c) else ratioWithin fuel (n + n - d) d c
        else (false, c)

/-- True with likelihood `n / d`. The bound exceeds the number of states of the coin and of the
fraction together, so a comparison that reached it would go on for ever. -/
def ratio (n d : Nat) (c : Coin) : Bool × Coin := ratioWithin (1 <<< 256) n d c

def oneOver (d : Nat) (c : Coin) : Bool × Coin :=
  match c.toss d.log2 with
  | (true, c) => c.ratio (1 <<< d.log2) d
  | (false, c) => (false, c)

/-- Runs through a list whose first element is the `position`-th, and keeps an element each time the
coin says so. -/
def sample {α : Type} : Nat → Option α → List α → Coin → Option α × Coin
  | _, kept, [], c => (kept, c)
  | position, kept, a :: rest, c =>
    match c.oneOver position with
    | (true, c) => sample (position + 1) (some a) rest c
    | (false, c) => sample (position + 1) kept rest c

end Coin

namespace Generator

/-- A random element of a list, `none` for the empty one. Each choice starts with a fresh coin, whose
unused bits are lost. -/
def choose {α : Type} (xs : List α) (g : Generator) : Option α × Generator :=
  let (kept, c) := Coin.sample 1 none xs (.ofGenerator g)
  (kept, c.source)

end Generator

/-! ### What is drawn -/

namespace Coin

variable {α : Type}

/-- Likelihood one is certain. -/
theorem oneOver_one (c : Coin) : (c.oneOver 1).1 = true := by
  have certain : ∀ c : Coin, (c.ratio 1 1).1 = true := by
    intro c
    obtain ⟨fuel, enough⟩ : ∃ fuel, 1 <<< 256 = fuel + 1 := ⟨(1 <<< 256) - 1, by decide⟩
    rw [ratio, enough, ratioWithin, if_pos (Nat.le_refl 1)]
  have tossed : (c.toss 0).1 = true := by simp [toss, stored]
  have none' : Nat.log2 1 = 0 := by decide
  unfold oneOver
  rw [none']
  split
  · exact certain _
  · rename_i other
    rw [other] at tossed
    cases tossed

/-- What is kept is one of the elements or was kept before; once something is kept, something is. -/
theorem sample_spec (position : Nat) (kept : Option α) (xs : List α) (c : Coin) :
    (∀ a, (sample position kept xs c).1 = some a → a ∈ xs ∨ kept = some a) ∧
      (kept.isSome → (sample position kept xs c).1.isSome) := by
  induction xs generalizing position kept c with
  | nil => exact ⟨fun a same => .inr same, id⟩
  | cons x rest ih =>
    unfold sample
    split
    · obtain ⟨from', stays⟩ := ih (position + 1) (some x) _
      refine ⟨fun a same => ?_, fun _ => stays rfl⟩
      rcases from' a same with later | here
      · exact .inl (.tail _ later)
      · cases here
        exact .inl (.head _)
    · obtain ⟨from', stays⟩ := ih (position + 1) kept _
      exact ⟨fun a same => (from' a same).imp_left (.tail _), stays⟩

end Coin

namespace Generator

/-- A choice is one of the elements, and there is one from a list that has any. -/
theorem choose_spec {α : Type} (xs : List α) (g : Generator) :
    (∀ a, (g.choose xs).1 = some a → a ∈ xs) ∧ ((g.choose xs).1 = none → xs = []) := by
  refine ⟨fun a same => ?_, fun none' => ?_⟩
  · exact ((Coin.sample_spec 1 none xs (.ofGenerator g)).1 a same).resolve_right (fun no => by cases no)
  · cases xs with
    | nil => rfl
    | cons x rest =>
      exfalso
      have first := Coin.oneOver_one (.ofGenerator g)
      change (Coin.sample 1 none (x :: rest) (.ofGenerator g)).1 = none at none'
      unfold Coin.sample at none'
      split at none'
      · have kept := (Coin.sample_spec 2 (some x) rest ‹_›).2 rfl
        rw [none'] at kept
        cases kept
      · rename_i tossed
        rw [tossed] at first
        cases first

/-- A number that can be drawn against: from zero up to one. -/
def IsLikelihood (p : Float) : Prop := (0.0 ≤ p ∧ p < 1.0) ∨ p == 1.0

instance (p : Float) : Decidable (IsLikelihood p) := inferInstanceAs (Decidable (_ ∨ _))

theorem IsLikelihood.exists_chance {p : Float} (valid : IsLikelihood p) (g : Generator) :
    ∃ outcome, g.chance p = .ok outcome := by
  unfold chance
  split
  · exact ⟨_, rfl⟩
  · rename_i outside
    rw [if_pos (valid.resolve_left outside)]
    exact ⟨_, rfl⟩

theorem chance_of_not {p : Float} (other : ¬IsLikelihood p) (g : Generator) :
    g.chance p = .error .notAProbability := by
  unfold chance
  rw [if_neg fun within => other (.inl within), if_neg fun one => other (.inr one)]

end Generator

end SatModulo
