import SatModulo.Theory.Basic

/-!
# Families of theories

Theories of two types are theories of the sum of the types: every question goes to the theory that is
there. Sums of sums give any finite family.
-/
namespace SatModulo

variable {σ τ : Type}

def Turn.inl (t : Turn (Option Clause × σ)) : Turn (Option Clause × (σ ⊕ τ)) :=
  t.andThen fun (conflict, s) => .done (conflict, .inl s)

def Turn.inr (t : Turn (Option Clause × τ)) : Turn (Option Clause × (σ ⊕ τ)) :=
  t.andThen fun (conflict, s) => .done (conflict, .inr s)

instance [Theory σ] [Theory τ] : Theory (σ ⊕ τ) where
  index? := Sum.elim Theory.index? Theory.index?
  setIndex i := Sum.map (Theory.setIndex i) (Theory.setIndex i)
  capabilities := Sum.elim Theory.capabilities Theory.capabilities
  preprocess := Sum.map Theory.preprocess Theory.preprocess
  noteOccurs l b := Sum.map (Theory.noteOccurs l b) (Theory.noteOccurs l b)
  openLevel := Sum.map Theory.openLevel Theory.openLevel
  backtrack level := Sum.map (Theory.backtrack level) (Theory.backtrack level)
  enqueue l
    | .inl s => (Theory.enqueue l s).map .inl
    | .inr s => (Theory.enqueue l s).map .inr
  flush atoms := Sum.map (Theory.flush atoms) (Theory.flush atoms)
  clearSatisfied
    | .inl s => (Theory.clearSatisfied s).map .inl
    | .inr s => (Theory.clearSatisfied s).map .inr
  propagate
    | .inl s => (Theory.propagate s).inl
    | .inr s => (Theory.propagate s).inr
  solve
    | .inl s => (Theory.solve s).inl
    | .inr s => (Theory.solve s).inr
  isSatisfied := Sum.elim Theory.isSatisfied Theory.isSatisfied
  decide atoms
    | .inl s => (Theory.decide atoms s).map id .inl
    | .inr s => (Theory.decide atoms s).map id .inr
  undecide l := Sum.map (Theory.undecide l) (Theory.undecide l)
  buildReason l marker
    | .inl s => (Theory.buildReason l marker s).map (Prod.map id .inl)
    | .inr s => (Theory.buildReason l marker s).map (Prod.map id .inr)
  statistics detail := Sum.elim (Theory.statistics detail) (Theory.statistics detail)
  solution := Sum.elim Theory.solution Theory.solution
  witness := Sum.elim Theory.witness Theory.witness
  checkPropagated atoms := Sum.elim (Theory.checkPropagated atoms) (Theory.checkPropagated atoms)
  checkSolved atoms := Sum.elim (Theory.checkSolved atoms) (Theory.checkSolved atoms)

end SatModulo
