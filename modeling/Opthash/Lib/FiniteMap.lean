import Mathlib.Data.List.Pairwise
import Mathlib.Data.List.Perm.Subperm
import Mathlib.Data.UInt

namespace Opthash.FiniteMap

variable {K V : Type} (eqv : K → K → Bool)

structure Equality : Prop where
  refl : ∀ k, eqv k k
  symm : ∀ k k', eqv k k' → eqv k' k
  trans : ∀ k k' k'', eqv k k' → eqv k' k'' → eqv k k''

/-- No two entries have equal keys. A finite map is a list of such entries, in any order. -/
def Distinct (m : List (K × V)) : Prop := (m.map Prod.fst).Pairwise fun k k' => eqv k k' = false

def find (k : K) (m : List (K × V)) : Option (K × V) := m.find? fun e => eqv k e.1

/-- The entry of an equal key keeps its key and gets another value. -/
def update (k : K) (f : V → V) (m : List (K × V)) : List (K × V) :=
  m.map fun e => if eqv k e.1 then (e.1, f e.2) else e

def erase (k : K) (m : List (K × V)) : List (K × V) := m.filter fun e => !eqv k e.1

def put (k : K) (v : V) (m : List (K × V)) : List (K × V) :=
  if (find eqv k m).isSome then update eqv k (fun _ => v) m else (k, v) :: m

variable {eqv} {m m' rest : List (K × V)} {k : K} {v : V} {e : K × V}

theorem Equality.swap (h : Equality eqv) (k k' : K) : eqv k k' = eqv k' k :=
  Bool.eq_iff_iff.mpr ⟨h.symm k k', h.symm k' k⟩

theorem Distinct.of_subperm (h : Equality eqv) (hd : Distinct eqv m)
    (hsub : (m'.map Prod.fst).Subperm (m.map Prod.fst)) : Distinct eqv m' := by
  obtain ⟨l, hperm, hl⟩ := hsub
  refine (hperm.pairwise_iff ?_).mp (List.Pairwise.sublist hl hd)
  intro k k' hk
  rw [← hk]
  exact h.swap k' k

theorem Distinct.perm (h : Equality eqv) (hd : Distinct eqv m) (hperm : m'.Perm m) : Distinct eqv m' :=
  hd.of_subperm h (hperm.map Prod.fst).subperm

theorem distinct_cons : Distinct eqv (e :: m) ↔ (∀ e' ∈ m, eqv e.1 e'.1 = false) ∧ Distinct eqv m := by
  simp only [Distinct, List.map_cons, List.pairwise_cons, List.mem_map, forall_exists_index, and_imp,
    forall_apply_eq_imp_iff₂]

theorem exists_of_forall₂ {α β : Type} {H : α → β → Prop} {as : List α} {bs : List β} (hall : List.Forall₂ H as bs)
    {a : α} (ha : a ∈ as) : ∃ b ∈ bs, H a b := by
  induction hall with
  | nil => cases ha
  | cons hhead _ ih =>
    rcases List.mem_cons.mp ha with rfl | ha
    · exact ⟨_, List.mem_cons_self .., hhead⟩
    · obtain ⟨b, hb, hH⟩ := ih ha
      exact ⟨b, List.mem_cons_of_mem _ hb, hH⟩

theorem Distinct.apart (hd : Distinct eqv (m ++ m')) (he : e ∈ m) {e' : K × V} (he' : e' ∈ m') :
    eqv e.1 e'.1 = false := by
  rw [Distinct, List.map_append, List.pairwise_append] at hd
  exact hd.2.2 _ (List.mem_map_of_mem he) _ (List.mem_map_of_mem he')

theorem find_eq_none : find eqv k m = none ↔ ∀ e ∈ m, eqv k e.1 = false := by
  simp only [find, List.find?_eq_none, Bool.not_eq_true]

theorem Distinct.unique (h : Equality eqv) (hd : Distinct eqv m) {e' : K × V} (he : e ∈ m) (he' : e' ∈ m)
    (hk : eqv k e.1) (hk' : eqv k e'.1) : e = e' := by
  induction m with
  | nil => cases he
  | cons f m ih =>
    obtain ⟨hf, hm⟩ := distinct_cons.mp hd
    have hcross : ∀ g ∈ m, eqv k f.1 → eqv k g.1 → False := by
      intro g hg hkf hkg
      have := h.trans _ _ _ (h.symm _ _ hkf) hkg
      rw [hf g hg] at this
      cases this
    rcases List.mem_cons.mp he with rfl | hem
    · rcases List.mem_cons.mp he' with rfl | hem'
      · rfl
      · exact (hcross e' hem' hk hk').elim
    · rcases List.mem_cons.mp he' with rfl | hem'
      · exact (hcross e hem hk' hk).elim
      · exact ih hm hem hem'

theorem Distinct.place_unique {L : Type} {H : L → K × V → Prop} {ls : List L} (h : Equality eqv) (hd : Distinct eqv m)
    (hall : List.Forall₂ H ls m) (hH : ∀ l e e', H l e → H l e' → e = e') {l l' : L} {e' : K × V} (hl : l ∈ ls)
    (hl' : l' ∈ ls) (he : H l e) (he' : H l' e') (hk : eqv k e.1) (hk' : eqv k e'.1) : l = l' := by
  induction hall with
  | nil => cases hl
  | cons hhead hrest ih =>
    rename_i l₀ e₀ ls m
    obtain ⟨hne, hm⟩ := distinct_cons.mp hd
    have hcross : ∀ l₁ ∈ ls, ∀ e₁, H l₁ e₁ → eqv k e₁.1 → eqv k e₀.1 → False := by
      intro l₁ hl₁ e₁ he₁ hk₁ hk₀
      obtain ⟨e₂, he₂, hH₂⟩ := exists_of_forall₂ hrest hl₁
      have := h.trans _ _ _ (h.symm _ _ hk₀) hk₁
      rw [hH l₁ e₁ e₂ he₁ hH₂, hne e₂ he₂] at this
      cases this
    rcases List.mem_cons.mp hl with rfl | hin
    · rcases List.mem_cons.mp hl' with rfl | hin'
      · rfl
      · exact (hcross l' hin' e' he' hk' (hH _ _ _ he hhead ▸ hk)).elim
    · rcases List.mem_cons.mp hl' with rfl | hin'
      · exact (hcross l hin e he hk (hH _ _ _ he' hhead ▸ hk')).elim
      · exact ih hm hin hin'

theorem find_eq_some (h : Equality eqv) (hd : Distinct eqv m) (he : e ∈ m) (hk : eqv k e.1) : find eqv k m = some e := by
  cases hfind : find eqv k m with
  | none =>
    have := find_eq_none.mp hfind e he
    rw [hk] at this
    cases this
  | some e' =>
    have hk' := List.find?_some hfind
    rw [hd.unique h (List.mem_of_find?_eq_some hfind) he hk' hk]

theorem update_of_ne (hne : ∀ e ∈ m, eqv k e.1 = false) (f : V → V) : update eqv k f m = m := by
  refine (List.map_congr_left fun e he => ?_).trans (List.map_id m)
  rw [hne e he]
  rfl

theorem others_ne (h : Equality eqv) (hd : Distinct eqv m) (hperm : m.Perm (e :: rest)) (hk : eqv k e.1) :
    ∀ e' ∈ rest, eqv k e'.1 = false := by
  intro e' he'
  have hne := (distinct_cons.mp (hd.perm h hperm.symm)).1 e' he'
  by_contra hk'
  have := h.trans _ _ _ (h.symm _ _ hk) (by simpa using hk')
  rw [hne] at this
  cases this

theorem update_perm (h : Equality eqv) (hd : Distinct eqv m) (hperm : m.Perm (e :: rest)) (hk : eqv k e.1) (f : V → V) :
    (update eqv k f m).Perm ((e.1, f e.2) :: rest) := by
  have hrest := update_of_ne (others_ne h hd hperm hk) f
  have := hperm.map fun e => if eqv k e.1 then (e.1, f e.2) else e
  rw [List.map_cons, if_pos hk] at this
  rw [update] at hrest
  rwa [hrest] at this

theorem erase_perm (h : Equality eqv) (hd : Distinct eqv m) (hperm : m.Perm (e :: rest)) (hk : eqv k e.1) :
    (erase eqv k m).Perm rest := by
  have hrest : rest.filter (fun e => !eqv k e.1) = rest := by
    refine List.filter_eq_self.mpr fun e' he' => ?_
    rw [others_ne h hd hperm hk e' he']
    rfl
  have := hperm.filter fun e => !eqv k e.1
  rw [List.filter_cons_of_neg (by rw [hk]; exact Bool.false_ne_true), hrest] at this
  exact this

theorem erase_of_find_none (hfind : find eqv k m = none) : erase eqv k m = m := by
  refine List.filter_eq_self.mpr fun e he => ?_
  rw [find_eq_none.mp hfind e he]
  rfl

theorem put_of_find_some (hfind : find eqv k m = some e) : put eqv k v m = update eqv k (fun _ => v) m := by
  rw [put, hfind]
  rfl

theorem put_of_find_none (hfind : find eqv k m = none) : put eqv k v m = (k, v) :: m := by
  rw [put, hfind]
  rfl

theorem distinct_put_absent (hd : Distinct eqv m) (hfind : find eqv k m = none) : Distinct eqv ((k, v) :: m) :=
  distinct_cons.mpr ⟨find_eq_none.mp hfind, hd⟩

theorem find_perm (h : Equality eqv) (hd : Distinct eqv m) (hperm : m'.Perm m) (k : K) :
    find eqv k m' = find eqv k m := by
  cases hfind : find eqv k m' with
  | none =>
    refine (find_eq_none.mpr fun e he => ?_).symm
    exact find_eq_none.mp hfind e (hperm.mem_iff.mpr he)
  | some e =>
    have hk : eqv k e.1 := List.find?_some (p := fun e : K × V => eqv k e.1) hfind
    exact (find_eq_some h hd (hperm.mem_iff.mp (List.mem_of_find?_eq_some hfind)) hk).symm

end Opthash.FiniteMap
