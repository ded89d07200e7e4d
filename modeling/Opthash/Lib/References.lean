import Opthash.Lib.FiniteMap

namespace Opthash.FiniteMap

variable {K V S : Type} {eqv : K → K → Bool} {m : List (K × V)} {keys : List K}

/-- A use of references to the values of some keys: a read through the `i`th one, which also gives the key, or a write. -/
inductive Access (V : Type)
  | read (i : Nat)
  | write (i : Nat) (v : V)
  deriving DecidableEq

namespace Access

def onCells (cells : List (Option (K × V))) : Access V → List (Option (K × V)) × Option (K × V)
  | read i => (cells, cells[i]?.join)
  | write i v => (cells.modify i fun cell => cell.map fun e => (e.1, v), none)

/-- The references as names in the finite map: each use looks its key up again. -/
def onMap (eqv : K → K → Bool) (keys : List K) (m : List (K × V)) : Access V → List (K × V) × Option (K × V)
  | read i => (m, keys[i]?.bind fun key => find eqv key m)
  | write i v => (keys[i]?.elim m fun key => update eqv key (fun _ => v) m, none)

def all (use : S → Access V → S × Option (K × V)) : S → List (Access V) → S × List (Option (K × V))
  | s, [] => (s, [])
  | s, access :: accesses =>
    ((all use (use s access).1 accesses).1, (use s access).2 :: (all use (use s access).1 accesses).2)

end Access

/-- No entry has the key of two of the keys. -/
def Separate (eqv : K → K → Bool) (m : List (K × V)) (keys : List K) : Prop :=
  keys.Pairwise fun k k' => ∀ e ∈ m, eqv k e.1 → eqv k' e.1 = false

theorem map_fst_update (k : K) (f : V → V) : (update eqv k f m).map Prod.fst = m.map Prod.fst := by
  rw [update, List.map_map]
  apply List.map_congr_left
  intro e _
  simp only [Function.comp_apply]
  split <;> rfl

theorem distinct_update {k : K} {f : V → V} (hd : Distinct eqv m) : Distinct eqv (update eqv k f m) := by
  rw [Distinct, map_fst_update]
  exact hd

theorem separate_update {k : K} {f : V → V} (h : Separate eqv m keys) : Separate eqv (update eqv k f m) keys := by
  apply h.imp
  intro k₁ k₂ hapart e he
  have hmem : e.1 ∈ (update eqv k f m).map Prod.fst := List.mem_map_of_mem he
  rw [map_fst_update] at hmem
  obtain ⟨e', he', hfst⟩ := List.mem_map.mp hmem
  rw [← hfst]
  exact hapart e' he'

theorem find_update (k k' : K) (f : V → V) :
    find eqv k' (update eqv k f m) = (find eqv k' m).map fun e => if eqv k e.1 then (e.1, f e.2) else e := by
  rw [find, update, List.find?_map, find]
  congr 2
  funext e
  simp only [Function.comp_apply]
  split <;> rfl

theorem Separate.apart {i j : Nat} {k k' : K} (h : Separate eqv m keys) (hi : keys[i]? = some k)
    (hj : keys[j]? = some k') (hne : i ≠ j) {e : K × V} (he : e ∈ m) (hk' : eqv k' e.1) : eqv k e.1 = false := by
  obtain ⟨hilt, rfl⟩ := List.getElem?_eq_some_iff.mp hi
  obtain ⟨hjlt, rfl⟩ := List.getElem?_eq_some_iff.mp hj
  rcases Nat.lt_or_gt_of_ne hne with hlt | hgt
  · by_contra hk
    rw [List.pairwise_iff_getElem.mp h i j hilt hjlt hlt e he (by simpa using hk)] at hk'
    cases hk'
  · exact List.pairwise_iff_getElem.mp h j i hjlt hilt hgt e he hk'

theorem map_find_update {i : Nat} {key : K} (v : V) (hseparate : Separate eqv m keys) (hkey : keys[i]? = some key) :
    (keys.map fun k => find eqv k (update eqv key (fun _ => v) m)) =
      (keys.map fun k => find eqv k m).modify i fun cell => cell.map fun e => (e.1, v) := by
  apply List.ext_getElem?
  intro j
  rw [List.getElem?_modify, List.getElem?_map, List.getElem?_map]
  cases hj : keys[j]? with
  | none => simp
  | some k =>
    rw [Option.map_some, Option.map_some, find_update]
    cases hfind : find eqv k m with
    | none => simp
    | some e =>
      have hk : eqv k e.1 := List.find?_some (p := fun e : K × V => eqv k e.1) hfind
      by_cases hij : i = j
      · subst hij
        obtain rfl : key = k := Option.some.inj (hkey.symm.trans hj)
        simp [hk]
      · have hapart := hseparate.apart hkey hj hij (List.mem_of_find?_eq_some hfind) hk
        simp [hij, hapart]

theorem update_congr {m' : List (K × V)} (hperm : m'.Perm m) (k : K) (f : V → V) :
    (update eqv k f m').Perm (update eqv k f m) := hperm.map _

theorem onMap_congr {m' : List (K × V)} (keys : List K) (h : Equality eqv) (hd : Distinct eqv m) (hperm : m'.Perm m)
    (access : Access V) :
    (access.onMap eqv keys m').2 = (access.onMap eqv keys m).2 ∧
      (access.onMap eqv keys m').1.Perm (access.onMap eqv keys m).1 := by
  cases access with
  | read i =>
    refine ⟨?_, hperm⟩
    rw [Access.onMap, Access.onMap]
    cases keys[i]? with
    | none => rfl
    | some key => exact find_perm h hd hperm key
  | write i v =>
    refine ⟨rfl, ?_⟩
    rw [Access.onMap, Access.onMap]
    cases keys[i]? with
    | none => exact hperm
    | some key =>
      change (update eqv key (fun _ => v) m').Perm (update eqv key (fun _ => v) m)
      exact update_congr hperm key _

theorem distinct_onMap (hd : Distinct eqv m) (access : Access V) : Distinct eqv (access.onMap eqv keys m).1 := by
  cases access with
  | read i => exact hd
  | write i v =>
    rw [Access.onMap]
    cases keys[i]? with
    | none => exact hd
    | some key => exact @distinct_update _ _ _ _ key (fun _ => v) hd

theorem onMap_eq_onCells (hseparate : Separate eqv m keys) (access : Access V) :
    (access.onMap eqv keys m).2 = (access.onCells (keys.map fun k => find eqv k m)).2 ∧
      (keys.map fun k => find eqv k (access.onMap eqv keys m).1) = (access.onCells (keys.map fun k => find eqv k m)).1 ∧
      Separate eqv (access.onMap eqv keys m).1 keys := by
  cases access with
  | read i =>
    refine ⟨?_, rfl, hseparate⟩
    rw [Access.onMap, Access.onCells, List.getElem?_map]
    cases keys[i]? <;> rfl
  | write i v =>
    rw [Access.onMap, Access.onCells]
    cases hkey : keys[i]? with
    | none =>
      refine ⟨rfl, ?_, hseparate⟩
      have hlength : keys.length ≤ i := List.getElem?_eq_none_iff.mp hkey
      exact (List.modify_eq_self (by simpa using hlength)).symm
    | some key =>
      have hrest : Separate eqv (update eqv key (fun _ => v) m) keys := separate_update hseparate
      exact ⟨rfl, map_find_update v hseparate hkey, hrest⟩

/-- References to separate keys are cells of their own. -/
theorem all_onMap_eq_onCells (hseparate : Separate eqv m keys) (accesses : List (Access V)) :
    (Access.all (Access.onMap eqv keys) m accesses).2 =
        (Access.all Access.onCells (keys.map fun k => find eqv k m) accesses).2 ∧
      (keys.map fun k => find eqv k (Access.all (Access.onMap eqv keys) m accesses).1) =
        (Access.all Access.onCells (keys.map fun k => find eqv k m) accesses).1 := by
  induction accesses generalizing m with
  | nil => exact ⟨rfl, rfl⟩
  | cons access accesses ih =>
    obtain ⟨hread, hcells, hrest⟩ := onMap_eq_onCells hseparate access
    obtain ⟨hreads, hlast⟩ := ih hrest
    rw [Access.all, Access.all, hread, hreads, hlast, hcells]
    exact ⟨rfl, rfl⟩

end Opthash.FiniteMap
