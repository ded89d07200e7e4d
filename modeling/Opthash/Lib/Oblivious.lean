import Opthash.Lib.Exec

namespace Opthash.Exec

variable {ε σ τ α β : Type}

/-- What `c` does with the first component of the state does not depend on the second: runs that both return what
`P` admits agree, and where `q` holds so do all runs. -/
structure Oblivious (q : Prop) (P : α → Prop) (c : Exec ε (σ × τ) α) : Prop where
  returned : ∀ {s t t' a a' x x'}, c (s, t) = (.ok a, x) → c (s, t') = (.ok a', x') → P a → P a' →
    a = a' ∧ x.1 = x'.1
  outcome : q → ∀ s t t', (c (s, t)).1 = (c (s, t')).1 ∧ (c (s, t)).2.1 = (c (s, t')).2.1

namespace Oblivious

variable {q : Prop} {P : α → Prop} {P' : β → Prop} {c : Exec ε (σ × τ) α}

theorem of_eq (h : ∀ s t t', (c (s, t)).1 = (c (s, t')).1 ∧ (c (s, t)).2.1 = (c (s, t')).2.1) : Oblivious q P c := by
  refine ⟨fun {s t t' a a' x x'} hx hx' _ _ => ?_, fun _ => h⟩
  have hsame := h s t t'
  rw [hx, hx'] at hsame
  exact ⟨Except.ok.inj hsame.1, hsame.2⟩

theorem pure (a : α) : Oblivious q P (pure a : Exec ε (σ × τ) α) := of_eq fun _ _ _ => ⟨rfl, rfl⟩

theorem raise (e : ε) : Oblivious q P (raise e : Exec ε (σ × τ) α) := of_eq fun _ _ _ => ⟨rfl, rfl⟩

theorem expect (e : ε) (o : Option α) : Oblivious q P (expect e o : Exec ε (σ × τ) α) := by
  cases o with
  | none => exact raise e
  | some a => exact pure a

theorem modify {P : Unit → Prop} {f : σ × τ → σ × τ} (h : ∀ s t t', (f (s, t)).1 = (f (s, t')).1) :
    Oblivious q P (modify f : Exec ε (σ × τ) Unit) := of_eq fun s t t' => ⟨rfl, h s t t'⟩

theorem onFst (c : Exec ε σ α) : Oblivious q P (onFst c : Exec ε (σ × τ) α) := of_eq fun _ _ _ => ⟨rfl, rfl⟩

theorem bind {f : α → Exec ε (σ × τ) β} (hc : Oblivious q P c) (hf : ∀ a, Oblivious q P' (f a))
    (hbad : ∀ a, ¬P a → ∀ s b x, f a s = (.ok b, x) → ¬P' b) : Oblivious q P' (c >>= f) := by
  constructor
  · intro s t t' b b' x x' hx hx' hb hb'
    rw [bind_apply] at hx hx'
    rcases h : c (s, t) with ⟨e | a, s₁, t₁⟩
    · rw [h] at hx
      cases hx
    rcases h' : c (s, t') with ⟨e | a', s₂, t₂⟩
    · rw [h'] at hx'
      cases hx'
    rw [h] at hx
    rw [h'] at hx'
    have ha : P a := by_contra fun ha => hbad a ha _ _ _ hx hb
    have ha' : P a' := by_contra fun ha' => hbad a' ha' _ _ _ hx' hb'
    obtain ⟨rfl, hs⟩ := hc.returned h h' ha ha'
    obtain rfl : s₁ = s₂ := hs
    exact (hf a).returned hx hx' hb hb'
  · intro hq s t t'
    obtain ⟨hresult, hstate⟩ := hc.outcome hq s t t'
    simp only [bind_apply]
    rcases h : c (s, t) with ⟨r, s₁, t₁⟩
    rcases h' : c (s, t') with ⟨r', s₂, t₂⟩
    rw [h, h'] at hresult hstate
    obtain rfl : r = r' := hresult
    obtain rfl : s₁ = s₂ := hstate
    cases r with
    | error e => exact ⟨rfl, rfl⟩
    | ok a => exact (hf a).outcome hq s₁ t₁ t₂

theorem seq {f : α → Exec ε (σ × τ) β} (hc : Oblivious q (fun _ => True) c) (hf : ∀ a, Oblivious q P' (f a)) :
    Oblivious q P' (c >>= f) :=
  hc.bind hf fun _ h => absurd trivial h

theorem get_bind {f : σ × τ → Exec ε (σ × τ) β} (hsame : ∀ s t t', f (s, t) = f (s, t'))
    (hf : ∀ s, Oblivious q P' (f s)) : Oblivious q P' (get >>= f) := by
  constructor
  · intro s t t' b b' x x' hx hx'
    have hx' : f (s, t) (s, t') = (.ok b', x') := by
      rw [hsame s t t']
      exact hx'
    exact (hf (s, t)).returned hx hx'
  · intro hq s t t'
    have houtcome := (hf (s, t)).outcome hq s t t'
    rw [show (get >>= f) (s, t) = f (s, t) (s, t) from rfl,
      show (get >>= f) (s, t') = f (s, t) (s, t') from congrFun (hsame s t' t) _]
    exact houtcome

theorem ite {p : Prop} [Decidable p] {d : Exec ε (σ × τ) α} (hc : p → Oblivious q P c) (hd : ¬p → Oblivious q P d) :
    Oblivious q P (if p then c else d) := by
  by_cases h : p
  · rw [if_pos h]
    exact hc h
  · rw [if_neg h]
    exact hd h

theorem guarded [DecidableEq ε] {fatal : ε} {cleanup : Exec ε (σ × τ) Unit} (hc : Oblivious q P c)
    (hcleanup : Oblivious q (fun _ => True) cleanup) : Oblivious q P (guarded fatal c cleanup) := by
  have hok : ∀ {s a x}, Exec.guarded fatal c cleanup s = (.ok a, x) → c s = (.ok a, x) := by
    intro s a x h
    unfold Exec.guarded at h
    rcases hs : c s with ⟨e | a', s₁⟩
    · rw [hs] at h
      dsimp only at h
      by_cases he : e = fatal
      · rw [if_pos he] at h
        cases h
      · rw [if_neg he] at h
        rcases hd : cleanup s₁ with ⟨_ | _, _⟩ <;> rw [hd] at h <;> cases h
    · rw [hs] at h
      exact h
  refine ⟨fun hx hx' => hc.returned (hok hx) (hok hx'), fun hq s t t' => ?_⟩
  obtain ⟨hresult, hstate⟩ := hc.outcome hq s t t'
  unfold Exec.guarded
  rcases h : c (s, t) with ⟨r, s₁, t₁⟩
  rcases h' : c (s, t') with ⟨r', s₂, t₂⟩
  rw [h, h'] at hresult hstate
  obtain rfl : r = r' := hresult
  obtain rfl : s₁ = s₂ := hstate
  cases r with
  | ok a => exact ⟨rfl, rfl⟩
  | error e =>
    dsimp only
    by_cases he : e = fatal
    · rw [if_pos he, if_pos he]
      exact ⟨rfl, rfl⟩
    · rw [if_neg he, if_neg he]
      obtain ⟨hresult, hstate⟩ := hcleanup.outcome hq s₁ t₁ t₂
      rcases hd : cleanup (s₁, t₁) with ⟨r, s₃, t₃⟩
      rcases hd' : cleanup (s₁, t₂) with ⟨r', s₄, t₄⟩
      rw [hd, hd'] at hresult hstate
      obtain rfl : r = r' := hresult
      obtain rfl : s₃ = s₄ := hstate
      cases r <;> exact ⟨rfl, rfl⟩

theorem foldlM {f : α → β → Exec ε (σ × τ) α} (hf : ∀ a b, Oblivious q (fun _ => True) (f a b)) (l : List β) (a : α) :
    Oblivious q (fun _ => True) (l.foldlM f a) := by
  induction l generalizing a with
  | nil => exact pure a
  | cons b l ih =>
    rw [List.foldlM_cons]
    exact (hf a b).seq ih

theorem onSnd {d : Exec ε τ α} (a : α) (hd : ∀ t, wp d (fun b _ => b = a) (fun _ _ => False) t) :
    Oblivious q P (onSnd d : Exec ε (σ × τ) α) := by
  have hrun : ∀ t, (d t).1 = .ok a := by
    intro t
    have h := hd t
    unfold wp at h
    rcases hdt : d t with ⟨e | b, t'⟩
    · rw [hdt] at h
      cases h
    · rw [hdt] at h
      exact congrArg Except.ok h
  exact of_eq fun s t t' => ⟨(hrun t).trans (hrun t').symm, rfl⟩

end Oblivious

end Opthash.Exec
