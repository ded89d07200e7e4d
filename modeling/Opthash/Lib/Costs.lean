import Opthash.Lib.Probing

namespace Opthash.Exec

variable {ε σ α β : Type}

/-- From a state with `I` the computation raises the measure `m` by `n` at most, whether it returns or raises. -/
def Costs (I : σ → Prop) (m : σ → Nat) (n : Nat) (c : Exec ε σ α) : Prop :=
  ∀ s, I s → wp c (fun _ s' => I s' ∧ m s' ≤ m s + n) (fun _ s' => m s' ≤ m s + n) s

namespace Costs

variable {I : σ → Prop} {m : σ → Nat} {n k : Nat} {c : Exec ε σ α}

theorem pure (a : α) : Costs I m n (pure a : Exec ε σ α) := fun s h => ⟨h, Nat.le_add_right (m s) n⟩

theorem raise (e : ε) : Costs I m n (raise e : Exec ε σ α) := fun s _ => Nat.le_add_right (m s) n

theorem expect (e : ε) (o : Option α) : Costs I m n (expect e o : Exec ε σ α) := by
  cases o with
  | none => exact raise e
  | some a => exact pure a

theorem mono (h : Costs I m n c) (hle : n ≤ k) : Costs I m k c := by
  intro s hs
  apply wp_mono (h s hs)
  · rintro a s' ⟨hs', hcost⟩
    exact ⟨hs', Nat.le_trans hcost (Nat.add_le_add_left hle _)⟩
  · intro e s' hcost
    exact Nat.le_trans hcost (Nat.add_le_add_left hle _)

theorem bind {f : α → Exec ε σ β} (hc : Costs I m n c) (hf : ∀ a, Costs I m k (f a)) : Costs I m (n + k) (c >>= f) := by
  intro s hs
  rw [wp_bind]
  apply wp_mono (hc s hs)
  · rintro a s' ⟨hs', hcost⟩
    apply wp_mono (hf a s' hs')
    · rintro b s'' ⟨hs'', hcost'⟩
      exact ⟨hs'', by omega⟩
    · intro e s'' hcost'
      omega
  · intro e s' hcost
    omega

theorem bind_free {f : α → Exec ε σ β} (hc : Costs I m n c) (hf : ∀ a, Costs I m 0 (f a)) : Costs I m n (c >>= f) :=
  hc.bind hf

theorem map (f : α → β) (hc : Costs I m n c) : Costs I m n (f <$> c) := by
  intro s hs
  rw [wp_map]
  exact hc s hs

theorem get_bind {f : σ → Exec ε σ β} (hf : ∀ s, I s → Costs I m n (f s)) : Costs I m n (get >>= f) :=
  fun s hs => hf s hs s hs

theorem ite {p : Prop} [Decidable p] {d : Exec ε σ α} (hc : p → Costs I m n c) (hd : ¬p → Costs I m n d) :
    Costs I m n (if p then c else d) := by
  by_cases h : p
  · rw [if_pos h]
    exact hc h
  · rw [if_neg h]
    exact hd h

end Costs

end Opthash.Exec

namespace Opthash.Probing

open Exec

variable {ε σ L : Type} {I : σ → Prop} {m : σ → Nat} {kind : L → Kind} {inspect : L → Exec ε σ Bool}

theorem costs_search (hinspect : ∀ l, Costs I m 1 (inspect l)) (w : List (Option L)) (reuse : Option L) :
    Costs I m (w.countP fun o => o.any fun l => kind l = .candidate) (search kind inspect w reuse) := by
  induction w generalizing reuse with
  | nil => exact .pure _
  | cons o w ih =>
    cases o with
    | none => exact .pure _
    | some l =>
      rw [search]
      cases hkind : kind l with
      | empty => exact .pure _
      | deleted =>
        rw [List.countP_cons_of_neg (by simp [hkind])]
        exact ih _
      | candidate =>
        rw [List.countP_cons_of_pos (by simp [hkind]), Nat.add_comm]
        apply (hinspect l).bind
        intro answer
        cases answer with
        | true => exact .pure _
        | false => exact ih reuse
      | other =>
        rw [List.countP_cons_of_neg (by simp [hkind])]
        exact ih _

end Opthash.Probing
