import Opthash.Lib.FiniteMap
import Opthash.Shell.Runs

namespace Opthash

open FiniteMap

namespace Predicate

variable {K V : Type} (f : Predicate K V)

/-- The entries the predicate answers yes to, with the values it leaves. -/
def retained : List (K × V) → List (K × V) → List (K × V)
  | _, [] => []
  | seen, e :: es =>
    if (f seen e).2 = some true then (e.1, (f seen e).1) :: retained (seen ++ [e]) es
    else retained (seen ++ [e]) es

variable {f}

theorem extract_not (hf : f.Answering) (seen es : List (K × V)) {n : Nat} (hn : es.length ≤ n) :
    (f.not.extract seen es n).2 = f.retained seen es := by
  induction es generalizing seen n with
  | nil => cases n <;> rfl
  | cons e es ih =>
    obtain ⟨n, rfl⟩ : ∃ m, n = m + 1 := ⟨n - 1, by rw [List.length_cons] at hn; omega⟩
    rw [List.length_cons] at hn
    obtain ⟨answer, hanswer⟩ := Option.isSome_iff_exists.mp (hf seen e)
    have hnot : (f.not seen e).2 = some (!answer) := by rw [Predicate.not, hanswer]; rfl
    cases answer with
    | true =>
      simp only [extract, hnot, retained, hanswer, Bool.not_true, Option.some.injEq, Bool.false_eq_true, if_false, if_true]
      rw [ih (seen ++ [e]) (by omega)]
      rfl
    | false =>
      simp only [extract, hnot, retained, hanswer, Bool.not_false, Option.some.injEq, Bool.false_eq_true, if_false, if_true]
      exact ih (seen ++ [e]) (by omega)

theorem keys_extract (pred : Predicate K V) (seen es : List (K × V)) (n : Nat) :
    ((pred.extract seen es n).2.map Prod.fst).Sublist (es.map Prod.fst) := by
  induction es generalizing seen n with
  | nil => cases n <;> exact .slnil
  | cons e es ih =>
    cases n with
    | zero => exact .refl _
    | succ n =>
      rw [extract]
      split
      · exact (ih _ _).cons _
      · exact (ih _ _).cons_cons _

theorem keys_retained (seen es : List (K × V)) : ((f.retained seen es).map Prod.fst).Sublist (es.map Prod.fst) := by
  induction es generalizing seen with
  | nil => exact .slnil
  | cons e es ih =>
    rw [retained]
    split
    · exact (ih _).cons_cons _
    · exact (ih _).cons _

end Predicate

namespace User

variable {W K V : Type} (u : User W K V)

structure Lawful (hash : K → UInt64) (eqv : K → K → Bool) : Prop where
  equality : Equality eqv
  hashes : ∀ k x, u.Hashes k x ↔ x = hash k
  answers : ∀ q k answer, u.Answers q k answer → answer = eqv q k
  congr : ∀ k k', eqv k k' → hash k = hash k'

structure Copying (eqv : K → K → Bool) (copyKey : K → K) (copyValue : V → V) : Prop where
  keys : ∀ k k', Exec.Yields (u.cloneKey k) k' → k' = copyKey k
  values : ∀ v v', Exec.Yields (u.cloneValue v) v' → v' = copyValue v
  same : ∀ k, eqv k (copyKey k)

variable {u} {hash : K → UInt64} {eqv : K → K → Bool}

theorem Lawful.deterministic (h : u.Lawful hash eqv) : u.Deterministic := fun k _ _ hx hy =>
  ((h.hashes k _).mp hx).trans ((h.hashes k _).mp hy).symm

theorem Lawful.clonesHash (h : u.Lawful hash eqv) {copyKey : K → K} {copyValue : V → V}
    (hcopy : u.Copying eqv copyKey copyValue) : u.ClonesHash := by
  intro k k' x hk hx
  rw [h.hashes] at hx ⊢
  rw [hx, hcopy.keys k k' hk]
  exact h.congr _ _ (hcopy.same k)

theorem Copying.copied {copyKey : K → K} {copyValue : V → V} (hcopy : u.Copying eqv copyKey copyValue)
    {es es' : List (K × V)} (h : List.Forall₂ u.Clones es es') : es' = es.map fun e => (copyKey e.1, copyValue e.2) := by
  induction h with
  | nil => rfl
  | cons hhead _ ih =>
    rw [List.map_cons, ← ih]
    exact congrArg (· :: _) (Prod.ext (hcopy.keys _ _ hhead.1) (hcopy.values _ _ hhead.2))

end User

namespace Op

variable {K V : Type} (eqv : K → K → Bool) (copyKey : K → K) (copyValue : V → V)

/-- What a call does to a finite map and what it returns; `m` lists the map in the order of iteration. -/
def apply : Op K V → List (K × V) → List (K × V) × Ret K V
  | .insert key value, m => (put eqv key value m, .value ((find eqv key m).map Prod.snd))
  | .get key, m => (m, .value ((find eqv key m).map Prod.snd))
  | .containsKey key, m => (m, .found (find eqv key m).isSome)
  | .getMut key f, m => (update eqv key f m, .value ((find eqv key m).map Prod.snd))
  | .removeEntry key, m => (erase eqv key m, .entry (find eqv key m))
  | .remove key, m => (erase eqv key m, .value ((find eqv key m).map Prod.snd))
  | .entryOrInsert key default, m => match find eqv key m with
    | some e => (m, .shown e.2)
    | none => ((key, default) :: m, .shown default)
  | .tryInsert key value, m => match find eqv key m with
    | some e => (m, .tried (.error e))
    | none => ((key, value) :: m, .tried (.ok value))
  | .getOrInsertWith key value make, m => match find eqv key m with
    | some e => (m, .key e.1)
    | none => match make with
      | some made => ((made, value) :: m, .key made)
      | none => (m, .unit)
  | .retain f, m => (f.retained [] m, .unit)
  | .extractIf pred n, m => ((pred.extract [] m n).2, .entries (pred.extract [] m n).1)
  | .drain n, m => ([], .entries (m.take n))
  | .leakExtractIf pred n, m => ((pred.extract [] m n).2, .entries (pred.extract [] m n).1)
  | .leakDrain n, m => (m.drop n, .entries (m.take n))
  | .clear, _ => ([], .unit)
  | .reserve _, m => (m, .unit)
  | .tryReserve _, m => (m, .reserved (.ok ()))
  | .shrinkTo _, m => (m, .unit)
  | .clone, m => (m.map fun e => (copyKey e.1, copyValue e.2), .unit)
  | .iter, m => (m, .entries m)
  | .len, m => (m, .count m.length)

/-- A call of a finite map; only `try_reserve` may refuse. -/
def Meets (op : Op K V) (m : List (K × V)) (r : Ret K V) (m' : List (K × V)) : Prop :=
  (m', r) = op.apply eqv copyKey copyValue m ∨ ∃ additional e, op = .tryReserve additional ∧ r = .reserved (.error e) ∧ m' = m

/-- The closure of `get_or_insert_with` makes a key equal to the query, no closure panics, and nothing is forgotten. -/
def Plain (op : Op K V) : Prop :=
  op.Returning ∧ ¬op.Leaks ∧ ∀ key value made, op = .getOrInsertWith key value (some made) → eqv key made

variable {eqv copyKey copyValue} {op : Op K V} {m m' : List (K × V)} {r : Ret K V}

theorem distinct_apply (h : Equality eqv) (hcopy : ∀ k, eqv k (copyKey k)) (hplain : op.Plain eqv)
    (hd : Distinct eqv m) : Distinct eqv (op.apply eqv copyKey copyValue m).1 := by
  have hsub : ∀ {m' : List (K × V)}, (m'.map Prod.fst).Sublist (m.map Prod.fst) → Distinct eqv m' :=
    fun hm => hd.of_subperm h hm.subperm
  have hupdate : ∀ key f, Distinct eqv (update eqv key f m) := by
    intro key f
    have hkeys : (update eqv key f m).map Prod.fst = m.map Prod.fst := by
      rw [update, List.map_map]
      refine List.map_congr_left fun e _ => ?_
      rw [Function.comp_apply]
      split <;> rfl
    exact hsub (hkeys ▸ .refl _)
  have hnil : Distinct eqv ([] : List (K × V)) := List.Pairwise.nil
  cases op with
  | insert key value =>
    rw [show (apply eqv copyKey copyValue (.insert key value) m).1 = put eqv key value m from rfl]
    cases hfind : find eqv key m with
    | none => exact (put_of_find_none (v := value) hfind).symm ▸ distinct_put_absent hd hfind
    | some e => exact (put_of_find_some (v := value) hfind).symm ▸ hupdate key _
  | get key => exact hd
  | containsKey key => exact hd
  | getMut key f => exact hupdate key f
  | removeEntry key => exact hsub (List.filter_sublist.map Prod.fst)
  | remove key => exact hsub (List.filter_sublist.map Prod.fst)
  | entryOrInsert key default =>
    rw [apply]
    split
    · exact hd
    next hnone => exact distinct_put_absent hd hnone
  | tryInsert key value =>
    rw [apply]
    split
    · exact hd
    next hnone => exact distinct_put_absent hd hnone
  | getOrInsertWith key value make =>
    simp only [apply]
    split
    · exact hd
    next hnone =>
      cases make with
      | none => exact hd
      | some made =>
        have hsame := hplain.2.2 key value made rfl
        refine distinct_put_absent hd (find_eq_none.mpr fun e he => ?_)
        by_contra hmade
        have := h.trans _ _ _ hsame (by simpa using hmade)
        rw [find_eq_none.mp hnone e he] at this
        cases this
  | retain f => exact hsub (Predicate.keys_retained [] m)
  | extractIf pred n => exact hsub (Predicate.keys_extract pred [] m n)
  | drain n => exact hnil
  | leakExtractIf pred n => exact hsub (Predicate.keys_extract pred [] m n)
  | leakDrain n => exact hsub ((List.drop_sublist n m).map Prod.fst)
  | clear => exact hnil
  | reserve additional => exact hd
  | tryReserve additional => exact hd
  | shrinkTo minCapacity => exact hd
  | clone =>
    rw [apply, Distinct, List.map_map, List.pairwise_map]
    rw [Distinct, List.pairwise_map] at hd
    refine hd.imp fun {e e'} hne => ?_
    rw [Function.comp_apply, Function.comp_apply]
    by_contra hk
    have hk := h.trans _ _ _ (hcopy e.1) (by simpa using hk)
    have := h.trans _ _ _ hk (h.symm _ _ (hcopy e'.1))
    rw [hne] at this
    cases this
  | iter => exact hd
  | len => exact hd

theorem Meets.distinct (h : Equality eqv) (hcopy : ∀ k, eqv k (copyKey k)) (hplain : op.Plain eqv)
    (hd : Distinct eqv m) (hm : op.Meets eqv copyKey copyValue m r m') : Distinct eqv m' := by
  rcases hm with heq | ⟨additional, e, -, -, rfl⟩
  · rw [show m' = (op.apply eqv copyKey copyValue m).1 from congrArg Prod.fst heq]
    exact distinct_apply h hcopy hplain hd
  · exact hd

end Op

inductive MapRuns {K V : Type} (eqv : K → K → Bool) (copyKey : K → K) (copyValue : V → V) :
    List (K × V) → List (Op K V) → List (Ret K V) → List (K × V) → Prop
  | nil {m m' : List (K × V)} (h : m.Perm m') : MapRuns eqv copyKey copyValue m [] [] m'
  | cons {m l l' m' : List (K × V)} {op : Op K V} {ops : List (Op K V)} {r : Ret K V} {rs : List (Ret K V)}
      (h : l.Perm m) (hop : op.Meets eqv copyKey copyValue l r l') (hrest : MapRuns eqv copyKey copyValue l' ops rs m') :
      MapRuns eqv copyKey copyValue m (op :: ops) (r :: rs) m'

end Opthash
