import SatModulo.Atoms
import SatModulo.Fault

/-!
# Turns

What a theory does when it has its turn: it may look at the atoms and make literals true, and ends with a
result. A turn is a tree of such steps, so all that a theory can do to the atoms is seen in `Turn.run`: a
literal becomes true only through `Atoms.assign`, with the theory as its reason. Theories assign literals
through this view in `SPEC_FULL.md`, line 61.
-/
namespace SatModulo

/-- The steps of a theory at its turn. -/
inductive Turn (α : Type) where
  | done (result : α)
  | fault (cause : Fault)
  /-- Looks at the atoms as they are now. -/
  | look (resume : Atoms → Turn α)
  /-- Asks for a literal to be made true, and goes on with the status it had. -/
  | assign (l : Literal) (marker : Marker) (resume : Except AtomError Status → Turn α)

namespace Turn

variable {α β : Type}

def andThen : Turn α → (α → Turn β) → Turn β
  | .done a, next => next a
  | .fault cause, _ => .fault cause
  | .look resume, next => .look fun s => (resume s).andThen next
  | .assign l marker resume, next => .assign l marker fun status => (resume status).andThen next

instance : Monad Turn where
  pure := .done
  bind := andThen

def atoms : Turn Atoms := .look .done

def makeTrue (l : Literal) (marker : Marker) : Turn (Except AtomError Status) := .assign l marker .done

def ofExcept : Except Fault α → Turn α
  | .ok a => .done a
  | .error cause => .fault cause

/-- Takes the turn of the theory of an index. -/
def run (theory : Nat) : Turn α → Atoms → Except Fault (α × Atoms)
  | .done a, s => .ok (a, s)
  | .fault cause, _ => .error cause
  | .look resume, s => (resume s).run theory s
  | .assign l marker resume, s =>
    match s.assign l (.theory theory marker) with
    | .ok (status, s) => (resume (.ok status)).run theory s
    | .error e => (resume (.error e)).run theory s

end Turn

end SatModulo
