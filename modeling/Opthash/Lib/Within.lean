import Opthash.Lib.Exec

namespace Opthash.Exec

variable {ε σ τ α β : Type}

/-- From a state with `I` the computation ends in one, and what it raises meets `E`. -/
def Within (E : ε → Prop) (I : σ → Prop) (c : Exec ε σ α) : Prop :=
  ∀ s, I s → wp c (fun _ => I) (fun e s' => E e ∧ I s') s

namespace Within

variable {E : ε → Prop} {I : σ → Prop} {c : Exec ε σ α}

theorem pure (a : α) : Within E I (pure a : Exec ε σ α) := fun _ h => h

theorem raise {e : ε} (he : E e) : Within E I (raise e : Exec ε σ α) := fun _ h => ⟨he, h⟩

theorem expect {e : ε} (he : E e) (o : Option α) : Within E I (expect e o : Exec ε σ α) := by
  cases o with
  | none => exact raise he
  | some a => exact pure a

theorem modify {f : σ → σ} (h : ∀ s, I s → I (f s)) : Within E I (modify f : Exec ε σ Unit) := h

theorem bind {f : α → Exec ε σ β} (hc : Within E I c) (hf : ∀ a, Within E I (f a)) : Within E I (c >>= f) := by
  intro s hs
  rw [wp_bind]
  exact wp_mono (hc s hs) (fun a s' hs' => hf a s' hs') (fun _ _ => id)

theorem map (f : α → β) (hc : Within E I c) : Within E I (f <$> c) := by
  intro s hs
  rw [wp_map]
  exact hc s hs

theorem get_bind {f : σ → Exec ε σ β} (hf : ∀ s, I s → Within E I (f s)) : Within E I (get >>= f) :=
  fun s hs => hf s hs s hs

theorem ite {p : Prop} [Decidable p] {d : Exec ε σ α} (hc : p → Within E I c) (hd : ¬p → Within E I d) :
    Within E I (if p then c else d) := by
  by_cases h : p
  · rw [if_pos h]
    exact hc h
  · rw [if_neg h]
    exact hd h

theorem onFst {I : σ × τ → Prop} (hc : ∀ t, Within E (fun s => I (s, t)) c) : Within E I (onFst c) := by
  intro s hs
  rw [wp_onFst]
  exact hc s.2 s.1 hs

theorem onSnd {I : σ × τ → Prop} {c : Exec ε τ α} (hc : ∀ s, Within E (fun t => I (s, t)) c) : Within E I (onSnd c) := by
  intro s hs
  rw [wp_onSnd]
  exact hc s.1 s.2 hs

theorem withLocal {t : τ} {c : Exec ε (τ × σ) α} (hc : Within E (fun s => I s.2) c) : Within E I (withLocal t c) := by
  intro s hs
  rw [wp_withLocal]
  exact hc (t, s) hs

theorem guarded [DecidableEq ε] {fatal : ε} {cleanup : Exec ε σ Unit} (hc : Within E I c)
    (hcleanup : Within (fun _ => E fatal) I cleanup) : Within E I (guarded fatal c cleanup) := by
  intro s hs
  rw [wp_guarded]
  refine wp_mono (hc s hs) (fun _ _ => id) ?_
  rintro e s' ⟨he, hs'⟩
  by_cases hfatal : e = fatal
  · rw [if_pos hfatal]
    exact ⟨he, hs'⟩
  · rw [if_neg hfatal]
    exact wp_mono (hcleanup s' hs') (fun _ _ h => ⟨he, h⟩) (fun _ _ => id)

theorem foldlM {f : α → β → Exec ε σ α} (hf : ∀ a b, Within E I (f a b)) (l : List β) (a : α) :
    Within E I (l.foldlM f a) := by
  induction l generalizing a with
  | nil => exact pure a
  | cons b l ih =>
    rw [List.foldlM_cons]
    exact (hf a b).bind ih

theorem forM {f : α → Exec ε σ Unit} (hf : ∀ a, Within E I (f a)) (l : List α) : Within E I (l.forM f) := by
  induction l with
  | nil => exact pure ()
  | cons a l ih =>
    rw [List.forM_eq_forM, List.forM_cons]
    exact (hf a).bind fun _ => ih

theorem mono {E' : ε → Prop} (h : Within E I c) (he : ∀ e, E e → E' e) : Within E' I c :=
  fun s hs => wp_mono (h s hs) (fun _ _ => id) fun e _ h => ⟨he e h.1, h.2⟩

theorem steady (h : ∀ s s', I s → I s') : Within (fun _ => True) I c :=
  fun s hs => wp_mono (wp_self c s) (fun _ s' _ => h s s' hs) (fun _ s' _ => ⟨trivial, h s s' hs⟩)

theorem aside {c : Exec ε τ α} (hc : Within E (fun _ => True) c) : Within E (fun s : σ × τ => I s.1) (Exec.onSnd c) :=
  .onSnd fun _ t hs => wp_mono (hc t trivial) (fun _ _ _ => hs) fun _ _ h => ⟨h.1, hs⟩

theorem beside (c : Exec ε τ α) : Within (fun _ => True) (fun s : σ × τ => I s.1) (Exec.onSnd c) :=
  aside (.steady fun _ _ => id)

theorem raise_bind {e : ε} {f : α → Exec ε σ β} (he : E e) : Within E I (Exec.raise e >>= f) := fun _ h => ⟨he, h⟩

theorem pure_bind {a : α} {f : α → Exec ε σ β} (h : Within E I (f a)) : Within E I (Pure.pure a >>= f) := h

end Within

end Opthash.Exec
