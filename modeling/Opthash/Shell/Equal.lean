import Opthash.Equal
import Opthash.Lib.Alike
import Opthash.Shell.Refinement
import Opthash.Shell.Scripts

namespace Opthash.HashMap

open Exec FiniteMap

variable {W K V : Type} {b b' : TableBackend W K V} {R : Reading b.Table b.Location b.Vacant b.Scan K V}
  {R' : Reading b'.Table b'.Location b'.Vacant b'.Scan K V} {u u' : User W K V} {hash hash' : K → UInt64}
  {eqv : K → K → Bool} {same : V → V → Bool} {eqValue : V → V → Exec Unit W Bool} {t : b.Table} {t' : b'.Table}
  {w : World W K V}

/-- The comparison of values that the caller brings answers `same`, wherever it returns. -/
def Compares (eqValue : V → V → Exec Unit W Bool) (same : V → V → Bool) : Prop :=
  ∀ v v' answer, Exec.Yields (eqValue v v') answer → answer = same v v'

def EqPanic (u' : User W K V) (eqValue : V → V → Exec Unit W Bool) (t : b.Table) (t' : b'.Table) (p : Panic)
    (s : b.Table × b'.Table × World W K V) : Prop :=
  p = .user ∧ ¬(u'.Calm ∧ ∀ v v', User.Total (eqValue v v')) ∧ s.1 = t ∧ s.2.1 = t'

section Compared

variable (hc : Contract R u) (hc' : Contract R' u') (hl' : u'.Lawful hash' eqv) (hs' : Stores R' u' eqv t')
  (hsame : Compares eqValue same)
include hc' hl' hs'

omit hc hc' hl' hs' in
theorem wp_eqValue (hsame : Compares eqValue same) (v v' : V) :
    wp (onSnd (onSnd (World.call (eqValue v v'))) : Exec Panic (b.Table × b'.Table × World W K V) Bool)
      (fun answer s => answer = same v v' ∧ s.1 = t ∧ s.2.1 = t')
      (fun p s => p = .user ∧ ¬User.Total (eqValue v v') ∧ s.1 = t ∧ s.2.1 = t') (t, t', w) := by
  rw [wp_onSnd, wp_onSnd, World.wp_call]
  apply wp_mono (wp_self (eqValue v v') w.code)
  · intro answer code hrun
    exact ⟨hsame v v' answer ⟨_, _, hrun⟩, rfl, rfl⟩
  · intro _ code hrun
    refine ⟨rfl, fun htotal => ?_, rfl, rfl⟩
    exact (wp_of_error hrun).mp (htotal w.code)

theorem wp_get_other (key : K) :
    wp (onSnd (get b' u' key) : Exec Panic (b.Table × b'.Table × World W K V) (Option V))
      (fun found s => found = (find eqv key (R'.entries t')).map Prod.snd ∧ s.1 = t ∧ s.2.1 = t')
      (EqPanic u' eqValue t t') (t, t', w) := by
  rw [wp_onSnd]
  apply wp_mono (wp_getValue hc' hs'.wf key)
  · rintro (_ | v) s ⟨ht, -, hfound, hmiss⟩
    · rw [(hmiss rfl).find hc' hl' hs']
      exact ⟨rfl, rfl, ht⟩
    · obtain ⟨e, hmatched, rfl⟩ := hfound v rfl
      rw [hmatched.find hl' hs']
      exact ⟨rfl, rfl, ht⟩
  · rintro p s ⟨hp, ht, -⟩
    exact ⟨hp.1, fun h => hp.2 h.1, rfl, ht⟩

include hc hsame in
theorem wp_allMatch (hw : R.Wf t) {fuel : Nat} {scan : b.Scan} {locs : List b.Location} {es : List (K × V)}
    (hscan : R.Scanning t scan locs) (hholds : List.Forall₂ (R.Holds t) locs es) (hfuel : locs.length < fuel) :
    wp (allMatch b b' u' eqValue fuel scan)
      (fun r s => (r = true ↔ ∀ e ∈ es, Matches eqv same (R'.entries t') e) ∧ s.1 = t ∧ s.2.1 = t')
      (EqPanic u' eqValue t t') (t, t', w) := by
  induction fuel generalizing scan locs es w with
  | zero => exact absurd hfuel (Nat.not_lt_zero _)
  | succ fuel ih =>
    rw [allMatch, wp_bind, wp_get]
    dsimp only
    cases hholds with
    | nil =>
      obtain ⟨scan', hnext, -⟩ := hc.scanNext_nil hw hscan
      rw [hnext]
      exact ⟨by simp, rfl, rfl⟩
    | @cons loc e locs es he hrest =>
      obtain ⟨scan', hnext, hlater⟩ := hc.scanNext_cons hw hscan
      rw [hnext]
      dsimp only
      rw [wp_bind, hc.slotRef he, expect, wp_pure, wp_bind]
      apply wp_mono (wp_get_other hc' hl' hs' e.1) _ (fun _ _ => id)
      rintro found ⟨t₁, t₁', w₁⟩ ⟨hfound, ht, ht'⟩
      obtain rfl : t₁ = t := ht
      obtain rfl : t₁' = t' := ht'
      cases hfind : find eqv e.1 (R'.entries t₁') with
      | none =>
        rw [hfound, hfind]
        refine ⟨iff_of_false Bool.false_ne_true fun hall => ?_, rfl, rfl⟩
        obtain ⟨e', he', -⟩ := hall e (List.mem_cons_self ..)
        rw [hfind] at he'
        cases he'
      | some e' =>
        have hmatches : Matches eqv same (R'.entries t₁') e ↔ same e.2 e'.2 = true := by
          rw [Matches, hfind]
          simp
        rw [hfound, hfind]
        dsimp only [Option.map_some]
        rw [wp_bind]
        apply wp_mono (wp_eqValue hsame e.2 e'.2)
        · rintro answer ⟨t₂, t₂', w₂⟩ ⟨hanswer, ht, ht'⟩
          obtain rfl : t₂ = t₁ := ht
          obtain rfl : t₂' = t₁' := ht'
          rw [List.forall_mem_cons, hmatches, ← hanswer, wp_ite]
          constructor
          · intro htrue
            apply wp_mono (ih (hlater _ hw (hc.undisturbed_refl loc)) hrest (Nat.lt_of_succ_lt_succ hfuel)) _
              (fun _ _ => id)
            rintro r s ⟨hr, hstill⟩
            exact ⟨hr.trans (and_iff_right htrue).symm, hstill⟩
          · intro hfalse
            exact ⟨iff_of_false Bool.false_ne_true fun h => hfalse h.1, rfl, rfl⟩
        · rintro p s ⟨hp, htotal, ht, ht'⟩
          exact ⟨hp, fun h => htotal (h.2 _ _), ht, ht'⟩

end Compared

theorem wp_eq (hc : Contract R u) (hc' : Contract R' u') (hl' : u'.Lawful hash' eqv) (hr : Represents R u eqv t)
    (hr' : Represents R' u' eqv t') (hsame : Compares eqValue same) :
    wp (eq b b' u' eqValue)
      (fun r s => (r = true ↔ Alike eqv same (R.entries t) (R'.entries t')) ∧ s.1 = t ∧ s.2.1 = t')
      (EqPanic u' eqValue t t') (t, t', w) := by
  have halike : Alike eqv same (R.entries t) (R'.entries t') ↔ (R.entries t).length = (R'.entries t').length ∧
      ∀ e ∈ R.entries t, Matches eqv same (R'.entries t') e := alike_iff hl'.equality hr.distinct hr'.distinct
  rw [eq, wp_bind, wp_get]
  dsimp only
  rw [hc.len_eq, hc.len hr.counted, hc'.len_eq, hc'.len hr'.counted, halike, wp_ite]
  constructor
  · intro hlength
    obtain ⟨locs, es, hscan, -, hholds, hentries, hshort⟩ := hc.scan hr.wf
    rw [and_iff_right hlength, hentries]
    exact wp_allMatch hc hc' hl' hr'.toStores hsame hr.wf hscan hholds (Nat.lt_succ_of_le hshort)
  · intro hlength
    exact ⟨iff_of_false Bool.false_ne_true fun h => hlength h.1, rfl, rfl⟩

end Opthash.HashMap
