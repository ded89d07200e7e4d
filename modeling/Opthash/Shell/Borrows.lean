import Opthash.Borrows
import Opthash.Shell.Disjoint
import Opthash.Shell.Iterators

namespace Opthash.HashMap

open Exec Lending Sessions

variable {W K V : Type} {b : TableBackend W K V} {R : Reading b.Table b.Location b.Vacant b.Scan K V} {u : User W K V}
  {t t₀ : b.Table} {w : World W K V} {l : Loan K V}

/-- A scan does not see the values. -/
def ValueBlind (R : Reading b.Table b.Location b.Vacant b.Scan K V) : Prop :=
  ∀ {t scan locs loc e} (v : V), R.Wf t → R.Holds t loc e → R.Scanning t scan locs →
    R.Scanning (b.writeValue loc e.1 v t) scan locs

/-- The iterator and the references to what it has yielded are a loan of the table's entries. -/
structure Lends (R : Reading b.Table b.Location b.Vacant b.Scan K V) (u : User W K V) (t₀ : b.Table) (w : World W K V)
    (l : Loan K V) (s : List b.Location × IterMut b × b.Table × World W K V) : Prop where
  steady : R.Steady u t₀ s.2.2.1
  visits : ∃ locs, R.Scanning s.2.2.1 s.2.1.scan locs ∧ (s.1 ++ locs).Nodup ∧ locs.length ≤ b.totalSlots s.2.2.1 ∧
    List.Forall₂ (R.Holds s.2.2.1) s.1 l.lent ∧ List.Forall₂ (R.Holds s.2.2.1) locs l.rest
  entries : (R.entries s.2.2.1).Perm (l.lent ++ l.rest)
  remaining : s.2.1.remaining = l.remaining
  covered : l.rest.length ≤ l.remaining
  world : s.2.2.2 = w

theorem wp_iterFrom (hc : Contract R u) (hw : R.Wf t) {fuel : Nat} {scan : b.Scan} {locs : List b.Location}
    {es : List (K × V)} (hscan : R.Scanning t scan locs) (hholds : List.Forall₂ (R.Holds t) locs es)
    (hfuel : locs.length < fuel) :
    wp (iterFrom b fuel scan) (fun r s => r = es ∧ s = (t, w)) (fun _ _ => False) (t, w) := by
  induction fuel generalizing scan locs es with
  | zero => exact absurd hfuel (Nat.not_lt_zero _)
  | succ fuel ih =>
    rw [iterFrom, wp_bind, wp_get]
    dsimp only
    cases hholds with
    | nil =>
      obtain ⟨scan', hnext, -⟩ := hc.scanNext_nil hw hscan
      rw [hnext]
      exact ⟨rfl, rfl⟩
    | @cons loc e locs es he hrest =>
      obtain ⟨scan', hnext, hlater⟩ := hc.scanNext_cons hw hscan
      rw [hnext]
      dsimp only
      rw [wp_bind, wp_slotEntry hc he, wp_bind]
      apply wp_mono (ih (hlater t hw (hc.undisturbed_refl loc)) hrest (Nat.lt_of_succ_lt_succ hfuel)) _ (fun _ _ => id)
      rintro r s ⟨rfl, rfl⟩
      exact ⟨rfl, rfl⟩

theorem Underway.view (hc : Contract R u) {kept es : List (K × V)} {i : Iter b} (h : Underway R kept es t i.scan) :
    wp (i.view b) (fun r s => r = es ∧ s = (t, w)) (fun _ _ => False) (t, w) := by
  obtain ⟨locs, hscan, -, hshort, hholds⟩ := h.visits
  rw [Iter.view, wp_bind, wp_get]
  exact wp_iterFrom hc h.wf hscan hholds (Nat.lt_succ_of_le hshort)

theorem forall₂_modify {α β : Type} {S S' : α → β → Prop} {xs : List α} {ys : List β} {x : α} {i : Nat} {f : β → β}
    (h : List.Forall₂ S xs ys) (hnodup : xs.Nodup) (hx : xs[i]? = some x) (hsame : ∀ y, S x y → S' x (f y))
    (hothers : ∀ x' y, x' ≠ x → S x' y → S' x' y) : List.Forall₂ S' xs (ys.modify i f) := by
  induction h generalizing i with
  | nil => cases hx
  | @cons x' y xs ys hhead hrest ih =>
    obtain ⟨hnot, hnodup⟩ := List.nodup_cons.mp hnodup
    cases i with
    | zero =>
      obtain rfl := Option.some.inj hx
      have happart : ∀ x'' ∈ xs, x'' ≠ x' := fun _ hmem heq => hnot (heq ▸ hmem)
      have hlater := (List.forall₂_and_left _ _).mpr ⟨happart, hrest⟩
      exact .cons (hsame y hhead) (hlater.imp fun x'' y'' h => hothers x'' y'' h.1 h.2)
    | succ i =>
      have hne : x' ≠ x := by
        rintro rfl
        exact hnot (List.mem_of_getElem? hx)
      exact .cons (hothers x' y hne hhead) (ih hnodup hx)

section Lent

variable {lent : List b.Location} {i : IterMut b}

theorem lends_start (hc : Contract R u) (hw : R.Wf t) :
    Lends R u t w ⟨[], R.entries t, b.len t⟩ ([], iterMut b t, t, w) := by
  obtain ⟨locs, es, hscan, hnodup, hholds, hentries, hshort⟩ := hc.scan hw
  refine ⟨.refl hw, ⟨locs, hscan, hnodup, hshort, .nil, ?_⟩, .refl _, rfl, ?_, rfl⟩
  · rwa [hentries]
  · rw [hc.len_eq]
    exact hc.len_le hw

theorem wp_lend_next (hc : Contract R u) (h : Lends R u t₀ w l (lent, i, t, w)) :
    wp (useIterMut b (.look .next)) (fun r s => r = (l.look .next).1 ∧ Lends R u t₀ w (l.look .next).2 s)
      (fun _ _ => False) (lent, i, t, w) := by
  obtain ⟨hsteady, ⟨locs, hscan, hnodup, hshort, hlent, hholds⟩, hentries, hremaining, hcovered, -⟩ := h
  obtain ⟨given, rest, n⟩ := l
  have hw : R.Wf t := hsteady.wf
  rw [useIterMut, wp_bind, wp_onSnd, IterMut.next, wp_bind, wp_get]
  dsimp only at *
  cases hholds with
  | nil =>
    obtain ⟨scan', hnext, hscan'⟩ := hc.scanNext_nil hw hscan
    rw [hnext]
    exact ⟨rfl, hsteady, ⟨[], hscan', hnodup, hshort, hlent, .nil⟩, hentries, hremaining, hcovered, rfl⟩
  | @cons loc e locs es he hrest =>
    obtain ⟨scan', hnext, hlater⟩ := hc.scanNext_cons hw hscan
    rw [hnext]
    dsimp only
    rw [wp_bind, wp_modify, wp_pure, wp_bind, wp_modify, wp_bind, wp_onSnd, wp_onSnd, wp_slotEntry hc he]
    have hpos : 0 < n := Nat.lt_of_lt_of_le (Nat.succ_pos _) hcovered
    have hscan' : R.Scanning t scan' locs := hlater t hw (hc.undisturbed_refl loc)
    refine ⟨rfl, hsteady, ⟨locs, hscan', ?_, Nat.le_of_succ_le hshort, ?_, hrest⟩, ?_, ?_, ?_, rfl⟩
    · rwa [List.append_assoc]
    · exact List.rel_append hlent (.cons he .nil)
    · rwa [Loan.look, List.append_assoc]
    · rw [hremaining, wrappingDec_of_pos hpos]
      rfl
    · exact Nat.le_sub_one_of_lt hcovered

theorem wp_lend_view (hc : Contract R u) (h : Lends R u t₀ w l (lent, i, t, w)) :
    wp (useIterMut b (.look .view)) (fun r s => r = (l.look .view).1 ∧ Lends R u t₀ w (l.look .view).2 s)
      (fun _ _ => False) (lent, i, t, w) := by
  obtain ⟨locs, hscan, hnodup, hshort, -, hholds⟩ := h.visits
  have hunderway : Underway R l.lent l.rest t i.scan :=
    ⟨h.steady.wf, ⟨locs, hscan, hnodup.of_append_right, hshort, hholds⟩, h.entries⟩
  rw [useIterMut, wp_bind, wp_get]
  dsimp only
  rw [wp_map, wp_onSnd, wp_onSnd]
  apply wp_mono (hunderway.view hc) _ (fun _ _ h => h)
  rintro r s ⟨rfl, rfl⟩
  exact ⟨rfl, h⟩

theorem wp_lend_read (hc : Contract R u) (h : Lends R u t₀ w l (lent, i, t, w)) (j : Nat) :
    wp (useIterMut b (.read j)) (fun r s => r = (l.use (.read j)).1 ∧ Lends R u t₀ w (l.use (.read j)).2 s)
      (fun _ _ => False) (lent, i, t, w) := by
  obtain ⟨-, -, -, -, hlent, -⟩ := h.visits
  rw [useIterMut, wp_bind, wp_get, Loan.use]
  dsimp only
  rcases getElem?_of_forall₂ hlent j with ⟨hloc, hentry⟩ | ⟨loc, e, hloc, hentry, he⟩
  · rw [hloc, hentry]
    exact ⟨rfl, h⟩
  · rw [hloc, hentry]
    dsimp only
    rw [wp_map, wp_onSnd, wp_onSnd, wp_slotEntry hc he]
    exact ⟨rfl, h⟩

theorem wp_lend_replace (hc : Contract R u) (hblind : ValueBlind R) (h : Lends R u t₀ w l (lent, i, t, w)) (j : Nat)
    (v : V) :
    wp (useIterMut b (.replace j v)) (fun r s => r = (l.use (.replace j v)).1 ∧ Lends R u t₀ w (l.use (.replace j v)).2 s)
      (fun _ _ => False) (lent, i, t, w) := by
  obtain ⟨hsteady, ⟨locs, hscan, hnodup, hshort, hlent, hholds⟩, hentries, hremaining, hcovered, -⟩ := h
  have hw : R.Wf t := hsteady.wf
  rw [useIterMut, wp_bind, wp_get, Loan.use]
  dsimp only at *
  rcases getElem?_of_forall₂ hlent j with ⟨hloc, hentry⟩ | ⟨loc, e, hloc, hentry, he⟩
  · rw [hloc, hentry, List.modify_eq_self (List.getElem?_eq_none_iff.mp hentry)]
    exact ⟨rfl, hsteady, ⟨locs, hscan, hnodup, hshort, hlent, hholds⟩, hentries, hremaining, hcovered, rfl⟩
  · obtain ⟨hsteady', ⟨others, hbefore, hafter⟩, hholds', hundisturbed⟩ := hc.writeValue v hw he
    have hunlent : loc ∉ locs := fun hmem =>
      (List.nodup_append.mp hnodup).2.2 loc (List.mem_of_getElem? hloc) loc hmem rfl
    rw [hloc, hentry]
    dsimp only
    rw [wp_bind, wp_onSnd, wp_onSnd, wp_slotEntry hc he, wp_bind, wp_modify, wp_pure]
    refine ⟨rfl, hsteady.trans hsteady', ⟨locs, hblind v hw he hscan, hnodup, ?_, ?_, ?_⟩, ?_, hremaining, hcovered, rfl⟩
    · rwa [hc.totalSlots hundisturbed]
    · apply forall₂_modify hlent hnodup.of_append_left hloc
      · intro e' he'
        obtain rfl := holds_unique hc he he'
        exact hholds'
      · exact fun loc' e' hne he' => hc.undisturbed hundisturbed hne he'
    · exact holds_later hc hundisturbed hunlent hholds
    · obtain ⟨given, hgiven, hgiven'⟩ := perm_modify hentry fun e => (e.1, v)
      have hothers : others.Perm (given ++ l.rest) :=
        (hbefore.symm.trans (hentries.trans (hgiven.append_right _))).cons_inv
      exact hafter.trans ((hothers.cons _).trans (hgiven'.symm.append_right _))

end Lent

theorem answers_useIterMut (hc : Contract R u) (hblind : ValueBlind R) :
    Answers (useIterMut b) Loan.use (Lends R u t₀ w) fun _ _ _ _ => False := by
  rintro l a ⟨lent, i, t, w'⟩ h
  obtain rfl : w' = w := h.world
  cases a with
  | look a =>
    cases a with
    | next => exact wp_lend_next hc h
    | view => exact wp_lend_view hc h
    | len => exact ⟨congrArg Shown.count h.remaining, h⟩
  | read j => exact wp_lend_read hc h j
  | replace j v => exact wp_lend_replace hc hblind h j v

/-- What was shown of a loan of the entries of `t`, which leaves them in `t'`. -/
structure Returned (R : Reading b.Table b.Location b.Vacant b.Scan K V) (u : User W K V) (t t' : b.Table)
    (uses : List (Use V)) (shown : List (Shown K V)) (l : Loan K V) : Prop where
  answers : (shown, l) = answers Loan.use ⟨[], R.entries t, b.len t⟩ uses
  entries : (R.entries t').Perm (l.lent ++ l.rest)
  keys : (l.lent ++ l.rest).map Prod.fst = (R.entries t).map Prod.fst
  rest : l.rest = (R.entries t).drop (Loan.nexts uses)
  remaining : R.Counted t → l.remaining = l.rest.length
  steady : R.Steady u t t'

theorem wp_withIterMut (hc : Contract R u) (hblind : ValueBlind R) (hw : R.Wf t) (uses : List (Use V)) :
    wp (withIterMut b uses) (fun shown s => (∃ l, Returned R u t s.1 uses shown l) ∧ s.2 = w) (fun _ _ => False)
      (t, w) := by
  rw [withIterMut, wp_bind, wp_get]
  dsimp only
  rw [wp_bind, wp_withLocal, wp_bind, wp_withLocal]
  apply wp_mono ((answers_useIterMut hc hblind).session (lends_start (w := w) hc hw) uses)
  · rintro shown ⟨lent, i, t', w'⟩ ⟨hshown, hlends⟩
    let start : Loan K V := ⟨[], R.entries t, b.len t⟩
    refine ⟨⟨(answers Loan.use start uses).2, ?_, hlends.entries, ?_, Loan.rest_answers start uses, ?_, hlends.steady⟩,
      hlends.world⟩
    · rw [hshown]
    · have hkeys := answers_preserves (P := fun l : Loan K V =>
        (l.lent ++ l.rest).map Prod.fst = (R.entries t).map Prod.fst)
        (fun l a h => (Loan.map_fst_use l a).trans h) (m := start) rfl uses
      exact hkeys
    · intro hcounted
      have hstart : start.remaining = start.rest.length := (hc.len_eq t).trans (hc.len hcounted)
      exact answers_preserves (P := fun l : Loan K V => l.remaining = l.rest.length)
        (fun l a h => Loan.remaining_use h a) hstart uses
  · rintro p s ⟨-, -, -, -, hfalse⟩
    exact hfalse

/-- An iterator that moves its entries out; what it has yielded is the caller's. -/
structure Empties (R : Reading b.Table b.Location b.Vacant b.Scan K V) (w : World W K V) (l : Loan K V) (t : b.Table)
    (scan : b.Scan) (remaining : Nat) (w' : World W K V) : Prop where
  underway : Underway R [] l.rest t scan
  remaining : remaining = l.remaining
  covered : l.rest.length ≤ l.remaining
  world : w' = w

theorem empties_start (hc : Contract R u) (hw : R.Wf t) :
    Empties R w ⟨[], R.entries t, b.len t⟩ t (b.scan t) (b.len t) w := by
  refine ⟨underway_scan hc hw, rfl, ?_, rfl⟩
  rw [hc.len_eq]
  exact hc.len_le hw

theorem answers_lookDrain (hc : Contract R u) :
    Answers (lookDrain b) Loan.look (fun l s => Empties R w l s.2.1 s.1.scan s.1.remaining s.2.2)
      fun _ _ _ _ => False := by
  rintro ⟨given, rest, n⟩ a ⟨⟨scan, remaining⟩, t, w'⟩ ⟨hunderway, hremaining, hcovered, hworld⟩
  obtain rfl : w' = w := hworld
  dsimp only at *
  cases a with
  | next =>
    rw [lookDrain, wp_map, Drain.next, wp_bind, IterMut.next, wp_bind, wp_get]
    dsimp only
    cases rest with
    | nil =>
      obtain ⟨scan', hnext, hunderway'⟩ := hunderway.step_nil hc
      rw [hnext]
      exact ⟨rfl, hunderway', hremaining, hcovered, rfl⟩
    | cons e es =>
      obtain ⟨loc, scan', hnext, he, -, hunderway'⟩ := hunderway.step_cons hc
      rw [hnext]
      dsimp only
      rw [wp_bind, wp_modify, wp_pure]
      dsimp only
      rw [wp_bind, wp_onSnd, wp_slotEntry hc he, wp_bind, wp_modify, wp_pure]
      refine ⟨rfl, hunderway', ?_, Nat.le_sub_one_of_lt hcovered, rfl⟩
      have hpos : 0 < n := Nat.lt_of_lt_of_le (Nat.succ_pos _) hcovered
      change wrappingDec usizeMax remaining = n - 1
      rw [hremaining, wrappingDec_of_pos hpos]
  | view =>
    rw [lookDrain, wp_bind, wp_get]
    dsimp only
    rw [wp_map, wp_onSnd]
    apply wp_mono (hunderway.view hc) _ (fun _ _ h => h)
    rintro r s ⟨rfl, rfl⟩
    exact ⟨rfl, hunderway, hremaining, hcovered, rfl⟩
  | len => exact ⟨congrArg Shown.count hremaining, hunderway, hremaining, hcovered, rfl⟩

theorem answers_lookIntoIter (hc : Contract R u) :
    Answers (lookIntoIter b) Loan.look (fun l s => Empties R w l s.1.table s.1.scan s.1.remaining s.2)
      fun _ _ _ _ => False := by
  rintro ⟨given, rest, n⟩ a ⟨i, w'⟩ ⟨hunderway, hremaining, hcovered, hworld⟩
  obtain rfl : w' = w := hworld
  dsimp only at *
  cases a with
  | next =>
    rw [lookIntoIter, wp_map]
    apply wp_mono (wp_intoIter_next hc hunderway) _ (fun _ _ h => h)
    rintro r s ⟨rfl, hunderway', hw', hcount⟩
    cases rest with
    | nil => exact ⟨rfl, hunderway', hcount.trans hremaining, hcovered, hw'⟩
    | cons e es =>
      refine ⟨rfl, hunderway', ?_, Nat.le_sub_one_of_lt hcovered, hw'⟩
      have hpos : 0 < n := Nat.lt_of_lt_of_le (Nat.succ_pos _) hcovered
      rw [hcount, if_neg (List.cons_ne_nil e es), hremaining, wrappingDec_of_pos hpos]
      rfl
  | view =>
    rw [lookIntoIter, wp_bind, wp_get]
    dsimp only
    rw [wp_map, wp_zoom]
    apply wp_mono (Underway.view (i := ⟨i.scan, i.remaining⟩) hc hunderway) _ (fun _ _ h => h)
    rintro r s ⟨rfl, rfl⟩
    exact ⟨rfl, hunderway, hremaining, hcovered, rfl⟩
  | len => exact ⟨congrArg Shown.count hremaining, hunderway, hremaining, hcovered, rfl⟩

end Opthash.HashMap
