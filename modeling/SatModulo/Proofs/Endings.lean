import SatModulo.Proofs.Outcome

/-!
# How procedures end

How a procedure ends on a context, faults included: with a result and a context after it, or with a fault
(`Procedure.Ends`). Where no fault is allowed, this says that the procedure comes to an end at all. The
rules are those of `Procedure.Ensures`, which speaks only of the ends that leave a context; what is known
from there can be added to what is known of the end (`Ends.ensuring`).
-/
namespace SatModulo

variable {σ α β ε : Type}

/-- A procedure ends with a result and a context that are as stated, or with a fault that is. -/
def Procedure.Ends (p : Procedure σ α) (c : Context σ) (broken : Fault → Prop)
    (post : Except Error α → Context σ → Prop) : Prop :=
  match c.run p with
  | .ok (result, after) => post result after
  | .error cause => broken cause

namespace Procedure.Ends

variable {c : Context σ} {p : Procedure σ α} {broken : Fault → Prop}

theorem mono {post post' : Except Error α → Context σ → Prop} (ends : p.Ends c broken post)
    (weaker : ∀ result after, post result after → post' result after) : p.Ends c broken post' := by
  unfold Ends at *
  split at ends
  · exact weaker _ _ ends
  · exact ends

theorem imp_broken {broken' : Fault → Prop} {post : Except Error α → Context σ → Prop}
    (ends : p.Ends c broken post) (weaker : ∀ cause, broken cause → broken' cause) :
    p.Ends c broken' post := by
  unfold Ends at *
  split at ends
  · exact ends
  · exact weaker _ ends

/-- What holds of every end that leaves a context holds of this one. -/
theorem ensuring {post post' : Except Error α → Context σ → Prop} (ends : p.Ends c broken post)
    (ensured : p.Ensures c post') :
    p.Ends c broken fun result after => post result after ∧ post' result after := by
  unfold Ends at *
  split
  · rename_i result after ran
    rw [ran] at ends
    exact ⟨ends, ensured result after ran⟩
  · rename_i cause ran
    rw [ran] at ends
    exact ends

/-- Without faults there is an end. -/
theorem returns {post : Except Error α → Context σ → Prop} (ends : p.Ends c (fun _ => False) post) :
    ∃ result after, c.run p = .ok (result, after) ∧ post result after := by
  unfold Ends at ends
  split at ends
  · rename_i result after ran
    exact ⟨result, after, ran, ends⟩
  · exact ends.elim

/-- One procedure after another ends if the first ends and what follows it does. -/
theorem bind {next : α → Procedure σ β} {m : Except Error α → Context σ → Prop}
    {post : Except Error β → Context σ → Prop} (first : p.Ends c broken m)
    (failed : ∀ e after, m (.error e) after → post (.error e) after)
    (rest : ∀ a after, m (.ok a) after → (next a).Ends after broken post) :
    (p >>= next).Ends c broken post := by
  unfold Ends at first ⊢
  rw [Ensures.run_bind]
  cases begun : c.run p with
  | error cause =>
    rw [begun] at first
    exact first
  | ok outcome =>
    obtain ⟨_ | a, between⟩ := outcome
    · rw [begun] at first
      exact failed _ _ first
    · rw [begun] at first
      exact rest a between first

theorem pure {a : α} {post : Except Error α → Context σ → Prop} (holds : post (.ok a) c) :
    (Pure.pure a : Procedure σ α).Ends c broken post :=
  holds

theorem throw {e : Error} {post : Except Error α → Context σ → Prop} (holds : post (.error e) c) :
    (MonadExcept.throw e : Procedure σ α).Ends c broken post :=
  holds

theorem throw_bind {e : Error} {next : α → Procedure σ β} {post : Except Error β → Context σ → Prop}
    (holds : post (.error e) c) :
    ((MonadExcept.throw e : Procedure σ α) >>= next).Ends c broken post :=
  holds

theorem get_bind {next : Context σ → Procedure σ β} {post : Except Error β → Context σ → Prop}
    (rest : (next c).Ends c broken post) :
    ((get : Procedure σ (Context σ)) >>= next).Ends c broken post :=
  rest

theorem modify {f : Context σ → Context σ} {post : Except Error Unit → Context σ → Prop}
    (holds : post (.ok ()) (f c)) : (modify f : Procedure σ Unit).Ends c broken post :=
  holds

theorem modify_bind {f : Context σ → Context σ} {next : Unit → Procedure σ β}
    {post : Except Error β → Context σ → Prop} (rest : (next ()).Ends (f c) broken post) :
    ((MonadState.modifyGet fun s => ((), f s) : Procedure σ Unit) >>= next).Ends c broken post :=
  rest

theorem ofFaulty_bind {x : Except Fault α} {next : α → Procedure σ β}
    {post : Except Error β → Context σ → Prop} (faulty : ∀ cause, x = .error cause → broken cause)
    (rest : ∀ a, x = .ok a → (next a).Ends c broken post) :
    (Procedure.ofFaulty x >>= next).Ends c broken post := by
  cases x with
  | error cause => exact faulty cause rfl
  | ok a => exact rest a rfl

theorem ofExcept_bind {wrap : ε → Error} {x : Except ε α} {next : α → Procedure σ β}
    {post : Except Error β → Context σ → Prop}
    (failed : ∀ e, x = .error e → post (.error (wrap e)) c)
    (rest : ∀ a, x = .ok a → (next a).Ends c broken post) :
    (Procedure.ofExcept wrap x >>= next).Ends c broken post := by
  cases x with
  | error e => exact throw_bind (failed e rfl)
  | ok a => exact rest a rfl

theorem ofExcept {wrap : ε → Error} {x : Except ε α} {post : Except Error α → Context σ → Prop}
    (failed : ∀ e, x = .error e → post (.error (wrap e)) c) (holds : ∀ a, x = .ok a → post (.ok a) c) :
    (Procedure.ofExcept wrap x).Ends c broken post := by
  cases x with
  | error e => exact throw (failed e rfl)
  | ok a => exact pure (holds a rfl)

end Procedure.Ends

end SatModulo
