import Opthash.Lib.References

namespace Opthash.FiniteMap

variable {K V : Type} {eqv : K → K → Bool} {m m' items : List (K × V)} {k : K} {v : V}

def puts (eqv : K → K → Bool) (items m : List (K × V)) : List (K × V) :=
  items.foldl (fun m e => put eqv e.1 e.2 m) m

theorem put_congr (h : Equality eqv) (hd : Distinct eqv m) (hperm : m'.Perm m) (k : K) (v : V) :
    (put eqv k v m').Perm (put eqv k v m) := by
  rw [put, put, find_perm h hd hperm k]
  split
  · exact update_congr hperm k _
  · exact hperm.cons _

theorem distinct_put (hd : Distinct eqv m) (k : K) (v : V) : Distinct eqv (put eqv k v m) := by
  rw [put]
  split
  · exact distinct_update hd
  · rename_i hfind
    exact distinct_put_absent hd (Option.not_isSome_iff_eq_none.mp hfind)

theorem puts_congr (h : Equality eqv) (hd : Distinct eqv m) (hperm : m'.Perm m) (items : List (K × V)) :
    (puts eqv items m').Perm (puts eqv items m) := by
  induction items generalizing m m' with
  | nil => exact hperm
  | cons e items ih => exact ih (distinct_put hd e.1 e.2) (put_congr h hd hperm e.1 e.2)

theorem distinct_puts (hd : Distinct eqv m) (items : List (K × V)) : Distinct eqv (puts eqv items m) := by
  induction items generalizing m with
  | nil => exact hd
  | cons e items ih => exact ih (distinct_put hd e.1 e.2)

theorem length_put_le (k : K) (v : V) (m : List (K × V)) : (put eqv k v m).length ≤ m.length + 1 := by
  rw [put]
  split
  · rw [update, List.length_map]
    exact Nat.le_succ _
  · exact Nat.le_refl _

theorem length_puts_le (items m : List (K × V)) : (puts eqv items m).length ≤ m.length + items.length := by
  induction items generalizing m with
  | nil => exact Nat.le_refl _
  | cons e items ih =>
    have hput := @length_put_le _ _ eqv e.1 e.2 m
    have hrest := ih (put eqv e.1 e.2 m)
    rw [puts, List.foldl_cons, ← puts, List.length_cons]
    omega

theorem find_put (h : Equality eqv) (k k' : K) (v : V) (m : List (K × V)) :
    (find eqv k' (put eqv k v m)).map Prod.snd = if eqv k' k then some v else (find eqv k' m).map Prod.snd := by
  have hsame : ∀ e : K × V, eqv k' k = true → eqv k e.1 = eqv k' e.1 := by
    intro e hk
    rw [Bool.eq_iff_iff]
    exact ⟨fun he => h.trans _ _ _ hk he, fun he => h.trans _ _ _ (h.symm _ _ hk) he⟩
  cases hfind : find eqv k m with
  | none =>
    rw [put_of_find_none hfind, find, List.find?_cons]
    by_cases hk : eqv k' k = true
    · simp [hk]
    · rw [if_neg hk]
      simp only [hk]
      rfl
  | some e =>
    have he : eqv k e.1 := List.find?_some (p := fun e : K × V => eqv k e.1) hfind
    rw [put_of_find_some hfind, find_update]
    by_cases hk : eqv k' k = true
    · have hfind' : find eqv k' m = some e := by
        rw [← hfind, find, find]
        congr 1
        funext e'
        exact (hsame e' hk).symm
      simp [hfind', hk, he]
    · rw [if_neg hk, Option.map_map]
      cases hfind' : find eqv k' m with
      | none => rfl
      | some e' =>
        have he' : eqv k' e'.1 := List.find?_some (p := fun e : K × V => eqv k' e.1) hfind'
        have hne : ¬eqv k e'.1 = true := fun hke => hk (h.trans _ _ _ he' (h.symm _ _ hke))
        simp [hne]

theorem find_puts (h : Equality eqv) (k : K) (items m : List (K × V)) :
    (find eqv k (puts eqv items m)).map Prod.snd =
      ((find eqv k items.reverse).map Prod.snd).or ((find eqv k m).map Prod.snd) := by
  induction items generalizing m with
  | nil => rfl
  | cons e items ih =>
    rw [puts, List.foldl_cons, ← puts, ih, find_put h, List.reverse_cons]
    have happend : find eqv k (items.reverse ++ [e]) =
        (find eqv k items.reverse).or (if eqv k e.1 then some e else none) := by
      rw [find, List.find?_append, ← find, List.find?_singleton]
    rw [happend]
    cases find eqv k items.reverse with
    | none => split <;> rfl
    | some e' => rfl

theorem puts_distinct (h : Equality eqv) (hd : Distinct eqv (items ++ m)) : (puts eqv items m).Perm (items ++ m) := by
  induction items generalizing m with
  | nil => exact .refl _
  | cons e items ih =>
    have hrest : (e :: (items ++ m)).Perm (items ++ e :: m) := List.perm_middle.symm
    have hd' : Distinct eqv (items ++ e :: m) := hd.perm h hrest.symm
    have hfind : find eqv e.1 m = none := by
      apply find_eq_none.mpr
      intro e' he'
      exact (distinct_cons.mp hd).1 e' (List.mem_append_right _ he')
    rw [puts, List.foldl_cons, ← puts, put_of_find_none hfind]
    exact (ih hd').trans hrest.symm

end Opthash.FiniteMap
