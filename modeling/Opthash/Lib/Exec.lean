import Mathlib.Data.List.Forall2
import Mathlib.Data.UInt
import Mathlib.Tactic.Common

namespace Opthash

/-- Computations over a state that outlives a raised exception. -/
def Exec (ε σ α : Type) : Type := σ → Except ε α × σ

namespace Exec

variable {ε σ τ α β : Type}

def bind (c : Exec ε σ α) (f : α → Exec ε σ β) : Exec ε σ β := fun s =>
  match c s with
  | (.ok a, t) => f a t
  | (.error e, t) => (.error e, t)

instance : Monad (Exec ε σ) where
  pure a := fun s => (.ok a, s)
  bind := bind

theorem pure_apply (a : α) (s : σ) : (pure a : Exec ε σ α) s = (.ok a, s) := rfl

theorem bind_apply (c : Exec ε σ α) (f : α → Exec ε σ β) (s : σ) :
    (c >>= f) s = match c s with
      | (.ok a, t) => f a t
      | (.error e, t) => (.error e, t) := rfl

instance : LawfulMonad (Exec ε σ) := LawfulMonad.mk' _
  (fun c => by
    funext s
    change (match c s with | (.ok a, t) => (.ok a, t) | (.error e, t) => (.error e, t)) = c s
    rcases c s with ⟨_ | _, _⟩ <;> rfl)
  (fun _ _ => rfl)
  (fun c f g => by
    funext s
    simp only [bind_apply]
    rcases c s with ⟨_ | _, _⟩ <;> rfl)

def raise (e : ε) : Exec ε σ α := fun s => (.error e, s)

def get : Exec ε σ σ := fun s => (.ok s, s)

def modify (f : σ → σ) : Exec ε σ Unit := fun s => (.ok (), f s)

def expect (e : ε) : Option α → Exec ε σ α
  | some a => pure a
  | none => raise e

def onFst (c : Exec ε σ α) : Exec ε (σ × τ) α := fun s =>
  ((c s.1).1, (c s.1).2, s.2)

def onSnd (c : Exec ε τ α) : Exec ε (σ × τ) α := fun s =>
  ((c s.2).1, s.1, (c s.2).2)

/-- Runs a computation on a part of the state, which keeps what a raised exception left in it. -/
def zoom (part : σ → τ) (put : τ → σ → σ) (c : Exec ε τ α) : Exec ε σ α := fun s =>
  ((c (part s)).1, put (c (part s)).2 s)

/-- Runs a computation with a local variable, which a raised exception discards. -/
def withLocal (t : τ) (c : Exec ε (τ × σ) α) : Exec ε σ (α × τ) := fun s =>
  match c (t, s) with
  | (.ok a, t, s) => (.ok (a, t), s)
  | (.error e, _, s) => (.error e, s)

/-- Runs `cleanup` when `c` raises, and raises `fatal` when `cleanup` raises too. -/
def guarded [DecidableEq ε] (fatal : ε) (c : Exec ε σ α) (cleanup : Exec ε σ Unit) :
    Exec ε σ α := fun s =>
  match c s with
  | (.ok a, t) => (.ok a, t)
  | (.error e, t) =>
    if e = fatal then (.error e, t)
    else match cleanup t with
      | (.ok _, u) => (.error e, u)
      | (.error _, u) => (.error fatal, u)

/-- Runs `c`, and returns `a` instead when it raises, unless what it raises is fatal. -/
def caught [DecidableEq ε] (fatal : ε) (a : α) (c : Exec ε σ α) : Exec ε σ α := fun s =>
  match c s with
  | (.ok a', t) => (.ok a', t)
  | (.error e, t) => if e = fatal then (.error e, t) else (.ok a, t)

/-- The weakest precondition for `Q` on return and `R` on a raised exception. -/
def wp (c : Exec ε σ α) (Q : α → σ → Prop) (R : ε → σ → Prop) (s : σ) : Prop :=
  match c s with
  | (.ok a, t) => Q a t
  | (.error e, t) => R e t

variable {c : Exec ε σ α} {Q Q' : α → σ → Prop} {R R' : ε → σ → Prop} {s : σ}

theorem wp_of_ok {a : α} {t : σ} (h : c s = (.ok a, t)) : wp c Q R s ↔ Q a t := by
  simp only [wp, h]

theorem wp_of_error {e : ε} {t : σ} (h : c s = (.error e, t)) : wp c Q R s ↔ R e t := by
  simp only [wp, h]

theorem wp_mono (h : wp c Q R s) (hq : ∀ a t, Q a t → Q' a t) (hr : ∀ e t, R e t → R' e t) :
    wp c Q' R' s := by
  unfold wp at *
  split <;> simp_all

theorem wp_and (h : wp c Q R s) (h' : wp c Q' R' s) :
    wp c (fun a t => Q a t ∧ Q' a t) (fun e t => R e t ∧ R' e t) s := by
  unfold wp at *
  split <;> simp_all

theorem wp_forall {ι : Type*} {Q : ι → α → σ → Prop} {R : ι → ε → σ → Prop} (h : ∀ i, wp c (Q i) (R i) s) :
    wp c (fun a t => ∀ i, Q i a t) (fun e t => ∀ i, R i e t) s := by
  unfold wp at *
  split <;> simp_all

theorem wp_self (c : Exec ε σ α) (s : σ) :
    wp c (fun a t => c s = (.ok a, t)) (fun e t => c s = (.error e, t)) s := by
  unfold wp
  split <;> assumption

@[simp] theorem wp_pure (a : α) : wp (pure a : Exec ε σ α) Q R s ↔ Q a s := Iff.rfl

@[simp] theorem wp_bind (c : Exec ε σ α) (f : α → Exec ε σ β) (Q : β → σ → Prop) :
    wp (c >>= f) Q R s ↔ wp c (fun a => wp (f a) Q R) R s := by
  simp only [wp, bind_apply]
  rcases c s with ⟨_ | _, _⟩ <;> rfl

@[simp] theorem wp_map (c : Exec ε σ α) (f : α → β) (Q : β → σ → Prop) :
    wp (f <$> c) Q R s ↔ wp c (fun a => Q (f a)) R s := by
  rw [map_eq_pure_bind, wp_bind]
  rfl

@[simp] theorem wp_raise (e : ε) : wp (raise e : Exec ε σ α) Q R s ↔ R e s := Iff.rfl

@[simp] theorem wp_get (Q : σ → σ → Prop) : wp (get : Exec ε σ σ) Q R s ↔ Q s s := Iff.rfl

@[simp] theorem wp_modify (f : σ → σ) (Q : Unit → σ → Prop) :
    wp (modify f : Exec ε σ Unit) Q R s ↔ Q () (f s) := Iff.rfl

theorem wp_expect (e : ε) (o : Option α) :
    wp (expect e o) Q R s ↔ (∀ a, o = some a → Q a s) ∧ (o = none → R e s) := by
  cases o <;> simp [expect]

@[simp] theorem wp_ite (p : Prop) [Decidable p] (c d : Exec ε σ α) :
    wp (if p then c else d) Q R s ↔ (p → wp c Q R s) ∧ (¬p → wp d Q R s) := by
  split <;> simp_all

@[simp] theorem wp_onFst (c : Exec ε σ α) (Q : α → σ × τ → Prop) (R : ε → σ × τ → Prop)
    (s : σ × τ) :
    wp (onFst c) Q R s ↔ wp c (fun a t => Q a (t, s.2)) (fun e t => R e (t, s.2)) s.1 := by
  simp only [wp, onFst]
  rcases c s.1 with ⟨_ | _, _⟩ <;> rfl

@[simp] theorem wp_onSnd (c : Exec ε τ α) (Q : α → σ × τ → Prop) (R : ε → σ × τ → Prop)
    (s : σ × τ) :
    wp (onSnd c) Q R s ↔ wp c (fun a t => Q a (s.1, t)) (fun e t => R e (s.1, t)) s.2 := by
  simp only [wp, onSnd]
  rcases c s.2 with ⟨_ | _, _⟩ <;> rfl

@[simp] theorem wp_zoom (part : σ → τ) (put : τ → σ → σ) (c : Exec ε τ α) :
    wp (zoom part put c) Q R s ↔
      wp c (fun a t => Q a (put t s)) (fun e t => R e (put t s)) (part s) := by
  simp only [wp, zoom]
  rcases c (part s) with ⟨_ | _, _⟩ <;> rfl

@[simp] theorem wp_withLocal (t : τ) (c : Exec ε (τ × σ) α) (Q : α × τ → σ → Prop) :
    wp (withLocal t c) Q R s ↔ wp c (fun a u => Q (a, u.1) u.2) (fun e u => R e u.2) (t, s) := by
  simp only [wp, withLocal]
  rcases c (t, s) with ⟨_ | _, _, _⟩ <;> rfl

theorem wp_guarded [DecidableEq ε] (fatal : ε) (c : Exec ε σ α) (cleanup : Exec ε σ Unit) :
    wp (guarded fatal c cleanup) Q R s ↔
      wp c Q (fun e t => if e = fatal then R e t
        else wp cleanup (fun _ u => R e u) (fun _ u => R fatal u) t) s := by
  simp only [wp, guarded]
  rcases c s with ⟨e | _, t⟩
  · by_cases he : e = fatal
    · simp [he]
    · simp only [he, ↓reduceIte]
      rcases cleanup t with ⟨_ | _, _⟩ <;> rfl
  · rfl

theorem wp_caught [DecidableEq ε] (fatal : ε) (a : α) (c : Exec ε σ α) :
    wp (caught fatal a c) Q R s ↔ wp c Q (fun e t => if e = fatal then R e t else Q a t) s := by
  simp only [wp, caught]
  rcases c s with ⟨e | _, t⟩
  · by_cases he : e = fatal
    · simp [he]
    · simp [he]
  · rfl

section Loops

variable {β : Type} {f : α → β → Exec ε σ α} {Q : α → σ → Prop}

theorem wp_forM {c : β → Exec ε σ Unit} {Q : Unit → σ → Prop} (I : List β → σ → Prop)
    (step : ∀ b rest s, I (b :: rest) s → wp (c b) (fun _ s' => I rest s') R s)
    (done : ∀ s, I [] s → Q () s) {l : List β} {s : σ} (h : I l s) : wp (l.forM c) Q R s := by
  induction l generalizing s with
  | nil => exact done s h
  | cons b l ih =>
    rw [List.forM_eq_forM, List.forM_cons, wp_bind]
    exact wp_mono (step b l s h) (fun _ _ h' => ih h') (fun _ _ => id)

end Loops

def Yields (c : Exec ε σ α) (a : α) : Prop := ∃ s t, c s = (.ok a, t)

/-- From every state `c` returns `a`, or raises within `R`. -/
def Returns (c : Exec ε σ α) (a : α) (R : ε → Prop) : Prop :=
  ∀ s, wp c (fun b _ => b = a) (fun e _ => R e) s

theorem returns_pure (a : α) (R : ε → Prop) : Returns (pure a : Exec ε σ α) a R :=
  fun _ => rfl

theorem Returns.bind {a : α} {b : β} {f : α → Exec ε σ β} {R : ε → Prop}
    (h : Returns c a R) (hf : Returns (f a) b R) : Returns (c >>= f) b R := by
  intro s
  rw [wp_bind]
  refine wp_mono (h s) ?_ (fun _ _ => id)
  rintro _ t rfl
  exact hf t

end Exec

section Except

theorem ok_bind {ε α β : Type} (a : α) (f : α → Except ε β) : ((.ok a : Except ε α) >>= f) = f a := rfl

theorem bind_ok {ε α β : Type} {c : Except ε α} {f : α → Except ε β} {b : β}
    (h : (c >>= f) = .ok b) : ∃ a, c = .ok a ∧ f a = .ok b := by
  cases c with
  | error e => cases h
  | ok a => exact ⟨a, rfl, h⟩

theorem mapM_ok {ε α β : Type} {f : α → Except ε β} {P : α → β → Prop} {l : List α}
    (h : ∀ a ∈ l, ∃ b, f a = .ok b ∧ P a b) : ∃ bs, l.mapM f = .ok bs ∧ List.Forall₂ P l bs := by
  induction l with
  | nil => exact ⟨[], rfl, .nil⟩
  | cons a l ih =>
    obtain ⟨b, hb, hP⟩ := h a (List.mem_cons_self ..)
    obtain ⟨bs, hbs, hPs⟩ := ih fun a' ha' => h a' (List.mem_cons_of_mem _ ha')
    refine ⟨b :: bs, ?_, .cons hP hPs⟩
    rw [List.mapM_cons, hb, hbs]
    rfl

end Except

end Opthash
