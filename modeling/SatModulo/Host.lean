import SatModulo.Activity
import SatModulo.Literal
import SatModulo.Random.Draw

/-!
# Hosts

What a search does not decide itself: how truth values and atoms are drawn from the words of its generator, the
time that its iterations take, and what its machine makes of doubles where their definition leaves that open. Of
draws it is relied on that one with a likelihood has an outcome and any other is a fault, and that a choice is one
of the atoms there are. Of the clock and of these conventions nothing is. A host is a parameter of all that is
proved; searches run on one that draws as the generator does and on which no time passes.
-/
namespace SatModulo

/-- Ways to draw from a generator. -/
structure Sampler where
  /-- A truth value of a likelihood. -/
  chance : Float → Generator → Except Fault (Bool × Generator)
  /-- One of some atoms. -/
  choose : List Atom → Generator → Option Atom × Generator
  exists_chance : ∀ p g, Generator.IsLikelihood p → ∃ outcome, chance p g = .ok outcome
  chance_of_not : ∀ p g, ¬Generator.IsLikelihood p → chance p g = .error .notAProbability
  mem_of_choose : ∀ atoms g a, (choose atoms g).1 = some a → a ∈ atoms
  nil_of_choose : ∀ atoms g, (choose atoms g).1 = none → atoms = []

/-- Draws by comparing and tossing the bits of the words of the generator. -/
def Sampler.ofWords : Sampler where
  chance p g := g.chance p
  choose atoms g := g.choose atoms
  exists_chance _ g valid := valid.exists_chance g
  chance_of_not _ g other := Generator.chance_of_not other g
  mem_of_choose atoms g := (Generator.choose_spec atoms g).1
  nil_of_choose atoms g := (Generator.choose_spec atoms g).2

structure Host where
  sampler : Sampler := .ofWords
  /-- The time since the beginning of its search at which an iteration reads the clock, in nanoseconds. Iterations
  are counted over all searches of a context. -/
  clock : Nat → Nat := fun _ => 0
  conventions : Conventions := .usual

end SatModulo
