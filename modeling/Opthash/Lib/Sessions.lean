import Opthash.Lib.Exec

namespace Opthash.Sessions

open Exec

variable {ε σ M A R : Type}

/-- The answers of a model to a session of calls, and where they leave it. -/
def answers (step : M → A → R × M) : M → List A → List R × M
  | m, [] => ([], m)
  | m, a :: as => ((step m a).1 :: (answers step (step m a).2 as).1, (answers step (step m a).2 as).2)

def session (call : A → Exec ε σ R) : List A → Exec ε σ (List R)
  | [] => pure []
  | a :: as => do
    let r ← call a
    let rs ← session call as
    pure (r :: rs)

variable {call : A → Exec ε σ R} {step : M → A → R × M} {P : M → Prop}

theorem answers_preserves (hstep : ∀ m a, P m → P (step m a).2) {m : M} (h : P m) (as : List A) :
    P (answers step m as).2 := by
  induction as generalizing m with
  | nil => exact h
  | cons a as ih => exact ih (hstep m a h)

/-- Each call answers as the model does, or raises at a state that is `Fails`. -/
def Answers (call : A → Exec ε σ R) (step : M → A → R × M) (Rel : M → σ → Prop) (Fails : M → A → ε → σ → Prop) :
    Prop :=
  ∀ m a s, Rel m s → wp (call a) (fun r s' => r = (step m a).1 ∧ Rel (step m a).2 s') (Fails m a) s

theorem Answers.session {Rel : M → σ → Prop} {Fails : M → A → ε → σ → Prop} (h : Answers call step Rel Fails) {m : M}
    {s : σ} (hrel : Rel m s) (as : List A) :
    wp (session call as) (fun rs s' => rs = (answers step m as).1 ∧ Rel (answers step m as).2 s')
      (fun e s' => ∃ before a after, as = before ++ a :: after ∧ Fails (answers step m before).2 a e s') s := by
  induction as generalizing m s with
  | nil => exact ⟨rfl, hrel⟩
  | cons a as ih =>
    rw [Sessions.session, wp_bind]
    apply wp_mono (h m a s hrel)
    · rintro r s' ⟨hr, hrel'⟩
      rw [wp_bind]
      apply wp_mono (ih hrel')
      · rintro rs s'' ⟨hrs, hrel''⟩
        refine ⟨?_, hrel''⟩
        rw [hr, hrs]
        rfl
      · rintro e s'' ⟨before, a', after, has, hfails⟩
        refine ⟨a :: before, a', after, ?_, hfails⟩
        rw [has, List.cons_append]
    · intro e s' hfails
      exact ⟨[], a, as, rfl, hfails⟩

end Opthash.Sessions
