import SatModulo.Valuation

/-!
# Clauses

A clause is a disjunction of literals, kept as a list because the order of its literals shows in
answers. The module gives the state of a clause under a valuation, its normal form and its text.
-/
namespace SatModulo

/-- A disjunction of literals. -/
abbrev Clause := List Literal

/-- How far a clause is decided. -/
inductive ClauseState where
  /-- Every literal is false. -/
  | falsified
  /-- One occurrence of a literal has no value and every other is false. -/
  | unit (l : Literal)
  /-- Some literal is true, or two occurrences have no value. -/
  | unforced
  deriving DecidableEq, Repr

namespace Clause

/-- The state of a clause. A literal without a value that occurs twice leaves the clause unforced:
occurrences are counted, not literals. -/
def stateOn (value : Atom → Option Bool) : Clause → ClauseState
  | [] => .falsified
  | l :: rest =>
    match l.statusOn value with
    | .same => .unforced
    | .different => stateOn value rest
    | .unset =>
      match stateOn value rest with
      | .falsified => .unit l
      | _ => .unforced

def asserts (value : Atom → Option Bool) (c : Clause) : Option Literal :=
  match c.stateOn value with
  | .unit l => some l
  | _ => none

def falsifiedOn (value : Atom → Option Bool) (c : Clause) : Bool :=
  c.all fun l => l.statusOn value == .different

/-- The first occurrence of each literal, or `none` for a tautology. A literal is met with what was
kept so far, so the literal `0` clashes with its own second occurrence. -/
def normaliseFrom (kept : Clause) : Clause → Except Fault (Option Clause)
  | [] => .ok (some kept)
  | l :: rest => do
    let opposite ← l.negate?
    if opposite ∈ kept then return none
    else if l ∈ kept then normaliseFrom kept rest
    else normaliseFrom (kept ++ [l]) rest

/-- A clause without repeated literals and with the same meaning, or `none` for a tautology. -/
def normalise (c : Clause) : Except Fault (Option Clause) := normaliseFrom [] c

/-- Adds a literal at the end, unless the clause has it. -/
def addNew (c : Clause) (l : Literal) : Clause := if l ∈ c then c else c ++ [l]

/-- Adds literals at the end, each unless the clause has it by then. -/
def addAllNew (c : Clause) (literals : List Literal) : Clause := literals.foldl addNew c

def text (c : Clause) : String := " ".intercalate (c.map fun l => toString l.code)

/-- The text of a clause with the closing `0` of a DIMACS line. -/
def line (c : Clause) : String := if c.isEmpty then "0" else c.text ++ " 0"

end Clause

/-- The name of a stored clause: its position among the clauses that were given, or among those that
were learnt. -/
inductive ClauseKey where
  | given (position : Nat)
  | learnt (position : Nat)
  deriving DecidableEq, Repr

def ClauseKey.text : ClauseKey → String
  | .given n => "Original(" ++ toString n ++ ")"
  | .learnt n => "Addition(" ++ toString n ++ ")"

end SatModulo
