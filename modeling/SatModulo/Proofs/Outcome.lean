import SatModulo.Context

/-!
# Outcomes of procedures

What holds of every way in which a procedure can end, with a value or with an error. A fault leaves no
context behind, so nothing is said of a run that ends in one. The rules follow the parts of which
procedures are made, so a statement about a procedure is taken apart along its text.
-/
namespace SatModulo

variable {σ α β ε : Type}

/-- Whatever a procedure comes to on a context, the result and the context after it are as stated. -/
def Procedure.Ensures (p : Procedure σ α) (c : Context σ)
    (post : Except Error α → Context σ → Prop) : Prop :=
  ∀ result after, c.run p = .ok (result, after) → post result after

namespace Procedure.Ensures

variable {c : Context σ}

theorem mono {p : Procedure σ α} {post q : Except Error α → Context σ → Prop}
    (holds : p.Ensures c post) (weaker : ∀ result after, post result after → q result after) :
    p.Ensures c q :=
  fun result after ran => weaker result after (holds result after ran)

theorem both {p : Procedure σ α} {post post' : Except Error α → Context σ → Prop}
    (first : p.Ensures c post) (second : p.Ensures c post') :
    p.Ensures c fun result after => post result after ∧ post' result after :=
  fun result after ran => ⟨first result after ran, second result after ran⟩

theorem run_bind (p : Procedure σ α) (next : α → Procedure σ β) (c : Context σ) :
    c.run (p >>= next) = (c.run p).bind fun (result, after) =>
      match result with
      | .ok a => after.run (next a)
      | .error e => .ok (.error e, after) := by
  simp only [Context.run, ExceptT.run_bind, StateT.run_bind]
  cases (ExceptT.run p).run c with
  | error cause => rfl
  | ok outcome => obtain ⟨_ | _, _⟩ := outcome <;> rfl

/-- What a procedure leads to after another: where the first fails nothing follows. -/
theorem bind {p : Procedure σ α} {next : α → Procedure σ β}
    {m : Except Error α → Context σ → Prop} {post : Except Error β → Context σ → Prop}
    (first : p.Ensures c m)
    (failed : ∀ e after, m (.error e) after → post (.error e) after)
    (rest : ∀ a after, m (.ok a) after → (next a).Ensures after post) :
    (p >>= next).Ensures c post := by
  intro result after ran
  rw [run_bind] at ran
  cases begun : c.run p with
  | error cause => rw [begun] at ran; cases ran
  | ok outcome =>
    obtain ⟨_ | a, between⟩ := outcome
    · rw [begun] at ran
      cases ran
      exact failed _ _ (first _ _ begun)
    · rw [begun] at ran
      exact rest a between (first _ _ begun) result after ran

/-- What follows holds whatever the first part comes to. -/
theorem bind_any {p : Procedure σ α} {next : α → Procedure σ β}
    {post : Except Error β → Context σ → Prop} (failed : ∀ e after, post (.error e) after)
    (rest : ∀ a after, (next a).Ensures after post) : (p >>= next).Ensures c post :=
  bind (m := fun _ _ => True) (fun _ _ _ => trivial) (fun e after _ => failed e after) fun a after _ => rest a after

theorem pure {a : α} {post : Except Error α → Context σ → Prop} (holds : post (.ok a) c) :
    (Pure.pure a : Procedure σ α).Ensures c post := by
  rintro result after ⟨⟩
  exact holds

theorem throw {e : Error} {post : Except Error α → Context σ → Prop} (holds : post (.error e) c) :
    (MonadExcept.throw e : Procedure σ α).Ensures c post := by
  rintro result after ⟨⟩
  exact holds

theorem throw_bind {e : Error} {next : α → Procedure σ β}
    {post : Except Error β → Context σ → Prop} (holds : post (.error e) c) :
    ((MonadExcept.throw e : Procedure σ α) >>= next).Ensures c post := by
  rintro result after ⟨⟩
  exact holds

/-- Reading the context gives it to what follows. -/
theorem get_bind {next : Context σ → Procedure σ β} {post : Except Error β → Context σ → Prop}
    (rest : (next c).Ensures c post) : ((get : Procedure σ (Context σ)) >>= next).Ensures c post :=
  rest

theorem modify {f : Context σ → Context σ} {post : Except Error Unit → Context σ → Prop}
    (holds : post (.ok ()) (f c)) : (modify f : Procedure σ Unit).Ensures c post := by
  rintro result after ⟨⟩
  exact holds

theorem modify_bind {f : Context σ → Context σ} {next : Unit → Procedure σ β}
    {post : Except Error β → Context σ → Prop} (rest : (next ()).Ensures (f c) post) :
    ((MonadState.modifyGet fun s => ((), f s) : Procedure σ Unit) >>= next).Ensures c post :=
  rest

theorem fault {cause : Fault} {post : Except Error α → Context σ → Prop} :
    (Procedure.ofFaulty (.error cause) : Procedure σ α).Ensures c post :=
  fun _ _ => nofun

theorem ofFaulty {x : Except Fault α} {post : Except Error α → Context σ → Prop}
    (holds : ∀ a, x = .ok a → post (.ok a) c) : (Procedure.ofFaulty x).Ensures c post := by
  intro result after ran
  cases x with
  | error cause => cases ran
  | ok a =>
    cases ran
    exact holds a rfl

theorem ofFaulty_bind {x : Except Fault α} {next : α → Procedure σ β}
    {post : Except Error β → Context σ → Prop}
    (rest : ∀ a, x = .ok a → (next a).Ensures c post) :
    (Procedure.ofFaulty x >>= next).Ensures c post := by
  intro result after ran
  cases x with
  | error cause => cases ran
  | ok a => exact rest a rfl result after ran

theorem ofExcept_bind {wrap : ε → Error} {x : Except ε α} {next : α → Procedure σ β}
    {post : Except Error β → Context σ → Prop}
    (failed : ∀ e, x = .error e → post (.error (wrap e)) c)
    (rest : ∀ a, x = .ok a → (next a).Ensures c post) :
    (Procedure.ofExcept wrap x >>= next).Ensures c post := by
  cases x with
  | error e => exact throw_bind (failed e rfl)
  | ok a => exact rest a rfl

theorem ofExcept {wrap : ε → Error} {x : Except ε α} {post : Except Error α → Context σ → Prop}
    (failed : ∀ e, x = .error e → post (.error (wrap e)) c) (holds : ∀ a, x = .ok a → post (.ok a) c) :
    (Procedure.ofExcept wrap x).Ensures c post := by
  cases x with
  | error e => exact throw (failed e rfl)
  | ok a => exact pure (holds a rfl)

theorem run_tryCatch (p : Procedure σ α) (handler : Error → Procedure σ α) (c : Context σ) :
    c.run (MonadExcept.tryCatch p handler) = (c.run p).bind fun (result, after) =>
      match result with
      | .ok a => .ok (.ok a, after)
      | .error e => after.run (handler e) := by
  change (c.run p >>= _) = _
  cases c.run p with
  | error cause => rfl
  | ok outcome => obtain ⟨_ | _, _⟩ := outcome <;> rfl

theorem tryCatch {p : Procedure σ α} {handler : Error → Procedure σ α}
    {mid post : Except Error α → Context σ → Prop} (first : p.Ensures c mid)
    (ended : ∀ a after, mid (.ok a) after → post (.ok a) after)
    (handled : ∀ e after, mid (.error e) after → (handler e).Ensures after post) :
    (MonadExcept.tryCatch p handler).Ensures c post := by
  intro result after ran
  rw [run_tryCatch] at ran
  cases begun : c.run p with
  | error cause => rw [begun] at ran; cases ran
  | ok outcome =>
    obtain ⟨_ | a, between⟩ := outcome
    · rw [begun] at ran
      exact handled _ between (first _ _ begun) result after ran
    · rw [begun] at ran
      cases ran
      exact ended _ _ (first _ _ begun)

end Procedure.Ensures

end SatModulo
