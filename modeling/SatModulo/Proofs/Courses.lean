import SatModulo.Proofs.Coherence
import SatModulo.Proofs.Outcome
import SatModulo.Session

/-!
# Where procedures lead

Every operation is made of moves, however it ends. A procedure leads by steps of a kind to where it
ends, with a value that is as stated or with an error that tells of no conflict (`Procedure.Leads`).
The rules follow the parts of which procedures are made, as those of `Procedure.Ensures` do.
-/
namespace SatModulo

variable {σ α β ε : Type}

namespace Procedure

/-- Steps of a kind lead from the start to wherever the procedure ends. A value is as stated, and an
error tells of no conflict. -/
def Leads (r : Context σ → Context σ → Prop) (start : Context σ) (p : Procedure σ α) (c : Context σ)
    (post : α → Context σ → Prop) : Prop :=
  p.Ensures c fun result after => Relation.ReflTransGen r start after ∧
    match result with
    | .ok a => post a after
    | .error e => e.conflict? = none

namespace Leads

variable {r r' : Context σ → Context σ → Prop} {start c : Context σ} {p : Procedure σ α}
  {next : α → Procedure σ β} {mid mid' : α → Context σ → Prop} {post : β → Context σ → Prop}

theorem mono (leads : p.Leads r start c mid) (steps : ∀ a b, r a b → r' a b)
    (weaker : ∀ a after, mid a after → mid' a after) : p.Leads r' start c mid' := by
  refine Ensures.mono leads fun result after ⟨reached, outcome⟩ => ⟨reached.lift id steps, ?_⟩
  cases result with
  | error e => exact outcome
  | ok a => exact weaker a after outcome

theorem imp (leads : p.Leads r start c mid)
    (weaker : ∀ a after, Relation.ReflTransGen r start after → mid a after → mid' a after) :
    p.Leads r start c mid' := by
  refine Ensures.mono leads fun result after ⟨reached, outcome⟩ => ⟨reached, ?_⟩
  cases result with
  | error e => exact outcome
  | ok a => exact weaker a after reached outcome

/-- What a procedure leads to counts from every context before. -/
theorem call (first : p.Leads r c c mid) (reached : Relation.ReflTransGen r start c)
    (rest : ∀ a after, Relation.ReflTransGen r start after → mid a after →
      (next a).Leads r start after post) : (p >>= next).Leads r start c post := by
  refine Ensures.bind first ?_ ?_
  · rintro e after ⟨further, quiet⟩
    exact ⟨reached.trans further, quiet⟩
  · rintro a after ⟨further, held⟩
    exact rest a after (reached.trans further) held

theorem from_start (leads : p.Leads r c c mid) (reached : Relation.ReflTransGen r start c) :
    p.Leads r start c mid :=
  Ensures.mono leads fun _ _ outcome => ⟨reached.trans outcome.1, outcome.2⟩

theorem pure {a : α} (reached : Relation.ReflTransGen r start c) (holds : mid a c) :
    (Pure.pure a : Procedure σ α).Leads r start c mid :=
  Ensures.pure ⟨reached, holds⟩

theorem throw {e : Error} (reached : Relation.ReflTransGen r start c) (quiet : e.conflict? = none) :
    (MonadExcept.throw e : Procedure σ α).Leads r start c mid :=
  Ensures.throw ⟨reached, quiet⟩

theorem throw_bind {e : Error} (reached : Relation.ReflTransGen r start c)
    (quiet : e.conflict? = none) :
    ((MonadExcept.throw e : Procedure σ α) >>= next).Leads r start c post :=
  Ensures.throw_bind ⟨reached, quiet⟩

theorem get_bind {next : Context σ → Procedure σ β} (rest : (next c).Leads r start c post) :
    ((get : Procedure σ (Context σ)) >>= next).Leads r start c post :=
  rest

theorem modify {f : Context σ → Context σ} {mid : Unit → Context σ → Prop}
    (reached : Relation.ReflTransGen r start (f c)) (holds : mid () (f c)) :
    (modify f : Procedure σ Unit).Leads r start c mid :=
  Ensures.modify ⟨reached, holds⟩

theorem modify_bind {f : Context σ → Context σ} {next : Unit → Procedure σ β}
    (rest : (next ()).Leads r start (f c) post) :
    ((MonadState.modifyGet fun s => ((), f s) : Procedure σ Unit) >>= next).Leads r start c post :=
  rest

theorem fault {cause : Fault} : (Procedure.ofFaulty (.error cause) : Procedure σ α).Leads r start c mid :=
  Ensures.fault

theorem ofFaulty_bind {x : Except Fault α} (rest : ∀ a, x = .ok a → (next a).Leads r start c post) :
    (Procedure.ofFaulty x >>= next).Leads r start c post :=
  Ensures.ofFaulty_bind rest

theorem ofExcept_bind {wrap : ε → Error} {x : Except ε α} (reached : Relation.ReflTransGen r start c)
    (quiet : ∀ e, x = .error e → (wrap e).conflict? = none)
    (rest : ∀ a, x = .ok a → (next a).Leads r start c post) :
    (Procedure.ofExcept wrap x >>= next).Leads r start c post :=
  Ensures.ofExcept_bind (fun e failed => ⟨reached, quiet e failed⟩) rest

theorem ofExcept {wrap : ε → Error} {x : Except ε α} (reached : Relation.ReflTransGen r start c)
    (quiet : ∀ e, x = .error e → (wrap e).conflict? = none) (holds : ∀ a, x = .ok a → mid a c) :
    (Procedure.ofExcept wrap x).Leads r start c mid :=
  Ensures.ofExcept (fun e failed => ⟨reached, quiet e failed⟩) fun a found => ⟨reached, holds a found⟩

end Leads

end Procedure

end SatModulo
