import Opthash.Chronicle
import Opthash.Shell.Histories
import Opthash.Shell.Invariance

namespace Opthash

def Since (v : EpochView) (e : EpochState) : Prop :=
  ∃ k, e.view = (List.replicate k Beat.boundary).foldl EpochView.after v

theorem Since.refl (e : EpochState) : Since e.view e := ⟨0, rfl⟩

theorem Since.same {v : EpochView} {e e' : EpochState} (h : Since v e) (he : e'.view = e.view) : Since v e' :=
  h.imp fun _ hk => he.trans hk

theorem Since.boundary {v : EpochView} {e e' : EpochState} (h : Since v e) (he : e'.view = e.view.after .boundary) :
    Since v e' := by
  obtain ⟨k, hk⟩ := h
  refine ⟨k + 1, ?_⟩
  rw [he, hk, List.replicate_succ', List.foldl_append]
  rfl

namespace HashMap

open Exec Ledger

variable {W K V α : Type} {b : TableBackend W K V} {R : Reading b.Table b.Location b.Vacant b.Scan K V} {u : User W K V}
  {epoch : b.Table → EpochState} {t t' t'' : b.Table} {w : World W K V}

/-- What the methods of a backend do to the epoch of their table. -/
structure Dated (R : Reading b.Table b.Location b.Vacant b.Scan K V) (u : User W K V) (epoch : b.Table → EpochState) :
    Prop where
  keeping : ∀ v, Keeping R u (fun _ => True) Room.any fun t => Since v (epoch t)
  writeValue : ∀ loc k v t, epoch (b.writeValue loc k v t) = epoch t
  extractFinish : ∀ loc t, epoch (b.extractFinish loc t) = (epoch t).noteDelete
  tombstoneSlot : ∀ loc t, epoch (b.tombstoneSlot loc t) = epoch t
  remove : ∀ loc t w,
    wp (b.remove loc) (fun _ s => Since (epoch t).noteDelete.view (epoch s.1)) (fun _ _ => True) (t, w)
  clear : ∀ t w, wp b.clear (fun _ s => epoch s.1 = (epoch t).start .clear) (fun _ _ => True) (t, w)
  wipeAll : ∀ t, epoch (b.wipeAll t) = (epoch t).start .clear

/-- The beats of a call tell what became of the epoch and of the entries. They come in this order: what the call
deletes, the epochs that it starts, and the key it inserts, if it deletes none. -/
structure Account (epoch : b.Table → EpochState) (t t' : b.Table) (beats : List Beat) : Prop where
  order : ∃ deletes boundaries inserts, beats = callBeats deletes boundaries inserts ∧ (deletes = 0 ∨ inserts = 0)
  view : (epoch t').view = beats.foldl EpochView.after (epoch t).view
  len : b.len t' + beats.count .delete = b.len t + beats.count .insert

theorem Account.apart {beats : List Beat} (h : Account epoch t t' beats) : .insert ∉ beats ∨ .delete ∉ beats := by
  obtain ⟨d, k, i, rfl, rfl | rfl⟩ := h.order
  · exact .inr (List.count_eq_zero.mp (count_delete_callBeats 0 k i))
  · exact .inl (List.count_eq_zero.mp (count_insert_callBeats d k 0))

theorem Account.of_grown (hsince : Since (epoch t).view (epoch t')) (hle : b.len t ≤ b.len t') :
    ∃ beats, Account epoch t t' beats := by
  obtain ⟨k, hk⟩ := hsince
  refine ⟨_, ⟨0, k, b.len t' - b.len t, rfl, .inl rfl⟩, ?_, ?_⟩
  · rw [EpochView.foldl_callBeats, hk]
    rfl
  · rw [count_delete_callBeats, count_insert_callBeats]
    omega

/-- What a call has deleted, and the epochs it started after that. -/
structure Trimmed (R : Reading b.Table b.Location b.Vacant b.Scan K V) (epoch : b.Table → EpochState)
    (deletes boundaries : Nat) (t t' : b.Table) : Prop where
  wf : R.Wf t'
  counted : R.Counted t'
  view : (epoch t').view = (List.replicate boundaries Beat.boundary).foldl EpochView.after
    ((List.replicate deletes Beat.delete).foldl EpochView.after (epoch t).view)
  len : b.len t' + deletes = b.len t

theorem Trimmed.account {d k : Nat} (h : Trimmed R epoch d k t t') : ∃ beats, Account epoch t t' beats := by
  refine ⟨_, ⟨d, k, 0, rfl, .inr rfl⟩, ?_, ?_⟩
  · rw [EpochView.foldl_callBeats, h.view]
  · rw [count_delete_callBeats, count_insert_callBeats]
    exact h.len

theorem Trimmed.refl (hw : R.Wf t) (hcounted : R.Counted t) : Trimmed R epoch 0 0 t t := ⟨hw, hcounted, rfl, rfl⟩

theorem Account.of_emptied (hw : R.Wf t') (hcounted : R.Counted t') (hepoch : epoch t' = (epoch t).start .clear)
    (hlen : b.len t' = 0) : ∃ beats, Account epoch t t' beats := by
  have htrimmed : Trimmed R epoch (b.len t) 1 t t' := by
    refine ⟨hw, hcounted, ?_, ?_⟩
    · rw [hepoch, EpochState.view_start]
      exact (EpochView.foldl_deletes_boundary _ _).symm
    · rw [hlen, Nat.zero_add]
  exact htrimmed.account

section Sweeps

variable {κ : K ⊕ V → Nat} {pred : Predicate K V} {t₀ : b.Table} {w₀ : World W K V} {kept es : List (K × V)}
  {locs : List b.Location} {x : ExtractScan b.Scan K V} {e : K × V} {loc : b.Location} (hc : Contract R u)
  (hd : Dated R u epoch)
include hc

theorem len_entries (h : R.Counted t) : b.len t = (R.entries t).length := (hc.len_eq t).trans (hc.len h)

include hd

theorem Trimmed.write {d : Nat} (h : Trimmed R epoch d 0 t₀ t) (he : R.Holds t loc e) (v : V) :
    Trimmed R epoch d 0 t₀ (b.writeValue loc e.1 v t) ∧ R.Holds (b.writeValue loc e.1 v t) loc (e.1, v) := by
  obtain ⟨hsteady, ⟨rest, hbefore, hafter⟩, hholds, -⟩ := hc.writeValue v h.wf he
  have hcounted := hsteady.counted h.counted
  have hlen : b.len (b.writeValue loc e.1 v t) = b.len t := by
    rw [len_entries hc h.counted, len_entries hc hcounted, hbefore.length_eq, hafter.length_eq]
    rfl
  refine ⟨⟨hsteady.wf, hcounted, ?_, ?_⟩, hholds⟩
  · rw [hd.writeValue]
    exact h.view
  · rw [hlen]
    exact h.len

theorem Trimmed.extract {d : Nat} (h : Trimmed R epoch d 0 t₀ t) (he : R.Holds t loc e) :
    Trimmed R epoch (d + 1) 0 t₀ (b.extractFinish loc t) := by
  obtain ⟨hkeeps, -, hperm, -⟩ := hc.extractFinish h.wf he
  have hcounted := hkeeps.counted h.counted
  have hlen : b.len t = b.len (b.extractFinish loc t) + 1 := by
    rw [len_entries hc h.counted, len_entries hc hcounted, hperm.length_eq]
    rfl
  refine ⟨hkeeps.wf, hcounted, ?_, ?_⟩
  · rw [hd.extractFinish, EpochState.view_noteDelete, h.view, List.replicate_succ', List.foldl_append]
    rfl
  · have := h.len
    omega

theorem trimmed_finish {d : Nat} (h : Trimmed R epoch d 0 t₀ t) :
    wp b.finishDeferredRemovals (fun _ s => ∃ k, Trimmed R epoch d k t₀ s.1) (fun _ _ => True) (t, w) := by
  have hsince := (hd.keeping (epoch t).view).finishDeferredRemovals (t, w) (.refl _)
  refine wp_mono (wp_and (hc.finishDeferredRemovals h.wf w) hsince) ?_ (fun _ _ _ => trivial)
  rintro _ s ⟨⟨hmended, -⟩, k, hk⟩
  have hcounted := hmended.keeps.counted h.counted
  refine ⟨k, hmended.keeps.wf, hcounted, ?_, ?_⟩
  · rw [hk, h.view]
    rfl
  · rw [len_entries hc hcounted, hmended.entries.length_eq, ← len_entries hc h.counted]
    exact h.len

/-- Where a sweep stands between two of its searches: it starts no epoch before it finishes. -/
def Stands (R : Reading b.Table b.Location b.Vacant b.Scan K V) (epoch : b.Table → EpochState) (t₀ : b.Table)
    (x : ExtractScan b.Scan K V) (t : b.Table) : Prop :=
  ∃ deletes boundaries, Trimmed R epoch deletes boundaries t₀ t ∧ (x.finished = false → boundaries = 0)

omit hc hd in
theorem Trimmed.stands {d : Nat} (h : Trimmed R epoch d 0 t₀ t) : Stands R epoch t₀ x t := ⟨d, 0, h, fun _ => rfl⟩

omit hc hd in
theorem Stands.unfinished (h : Stands R epoch t₀ x t) (hx : x.finished = false) : ∃ d, Trimmed R epoch d 0 t₀ t := by
  obtain ⟨d, k, htrimmed, hk⟩ := h
  cases hk hx
  exact ⟨d, htrimmed⟩

theorem stands_nextMatchingFrom {d : Nat} (h : Sweeping R u κ pred t₀ w₀ 0 kept locs es x t w)
    (ht : Trimmed R epoch d 0 t₀ t) (fuel : Nat) :
    wp (nextMatchingFrom b pred fuel) (fun _ s => Stands R epoch t₀ s.1 s.2.1) (fun _ _ => True) (x, t, w) := by
  induction fuel generalizing kept locs es x t with
  | zero => exact ht.stands
  | succ fuel ih =>
    rw [nextMatchingFrom, wp_bind, wp_get]
    dsimp only
    cases locs with
    | nil =>
      obtain ⟨scan', hscan, -⟩ := hc.scanNext_nil h.keeps.wf h.scanning
      rw [hscan]
      dsimp only
      rw [wp_bind, wp_modify, wp_bind, wp_onSnd]
      refine wp_mono (trimmed_finish hc hd ht) ?_ (fun _ _ _ => trivial)
      rintro _ s ⟨k, hs⟩
      exact ⟨d, k, hs, fun hx => by cases hx⟩
    | cons loc locs =>
      cases es with
      | nil => cases h.holds
      | cons e es =>
        obtain ⟨scan', hscan, hrefuse, -⟩ := h.visit hc
        have he := holds_cons h.holds
        obtain ⟨hwritten, hholds⟩ := ht.write hc hd he (pred x.seen e).1
        rw [hscan]
        dsimp only
        rw [wp_bind, wp_modify, wp_bind, wp_onSnd, wp_slotEntry hc he]
        dsimp only
        rw [wp_bind, wp_modify, wp_bind, wp_expect]
        refine ⟨fun matched _ => ?_, fun _ => trivial⟩
        cases matched with
        | true =>
          rw [if_pos rfl, wp_bind, wp_modify]
          exact (hwritten.extract hc hd hholds).stands
        | false =>
          rw [if_neg Bool.false_ne_true]
          exact ih hrefuse hwritten

theorem stands_nextMatching {d : Nat} (h : Sweeping R u κ pred t₀ w₀ 0 kept locs es x t w)
    (ht : Trimmed R epoch d 0 t₀ t) :
    wp (nextMatching b pred)
      (fun r s => match r with
        | some e => s.2.2 = w ∧ (∃ d, Trimmed R epoch d 0 t₀ s.2.1) ∧
            ∃ kept locs es, Sweeping R u κ pred t₀ w₀ (weighEntry κ e) kept locs es s.1 s.2.1 s.2.2
        | none => Stands R epoch t₀ s.1 s.2.1 ∧ s.1.finished = true) (fun _ _ => True) (x, t, w) := by
  rw [nextMatching_unfinished h]
  refine wp_mono (wp_and (stands_nextMatchingFrom hc hd h ht _)
    (wp_nextMatchingFrom (J := fun _ => True) hc h trivial h.fuel)) ?_ (fun _ _ _ => trivial)
  rintro (_ | e) s ⟨hstands, hr⟩
  · exact ⟨hstands, hr.1⟩
  · obtain ⟨hworld, passed, locs', rest, hsweeping, -⟩ := hr
    exact ⟨hworld, hstands.unfinished hsweeping.unfinished, _, _, _, hsweeping⟩

theorem stands_yieldMatching {d : Nat} (h : Sweeping R u κ pred t₀ w₀ 0 kept locs es x t w)
    (ht : Trimmed R epoch d 0 t₀ t) (n : Nat) :
    wp (yieldMatching b pred n) (fun _ s => Stands R epoch t₀ s.1 s.2.1) (fun _ _ => True) (x, t, w) := by
  induction n generalizing d kept locs es x t w with
  | zero => exact ht.stands
  | succ n ih =>
    rw [yieldMatching, wp_bind]
    refine wp_mono (stands_nextMatching hc hd h ht) ?_ (fun _ _ => id)
    rintro (_ | e) ⟨x', t', w'⟩ hr
    · obtain ⟨hstands, hfinished⟩ := hr
      refine wp_mono (wp_yieldMatching_finished hfinished n) ?_ (fun _ _ => id)
      rintro _ _ ⟨-, rfl⟩
      exact hstands
    · obtain ⟨rfl, ⟨d', ht'⟩, kept', locs', es', hsweeping⟩ := hr
      rw [wp_bind, wp_onSnd, wp_onSnd]
      refine wp_mono (wp_handEntry (κ := κ) e) ?_ (fun _ _ _ => trivial)
      rintro _ w₁ ⟨hdropped, -⟩
      rw [wp_bind]
      exact wp_mono (ih (hsweeping.paid hdropped) ht') (fun _ _ => id) (fun _ _ => id)

theorem stands_dropMatching {d : Nat} (h : Sweeping R u κ pred t₀ w₀ 0 kept locs es x t w)
    (ht : Trimmed R epoch d 0 t₀ t) (fuel : Nat) :
    wp (dropMatching b u pred fuel) (fun _ s => Stands R epoch t₀ s.1 s.2.1) (fun _ _ => True) (x, t, w) := by
  induction fuel generalizing d kept locs es x t w with
  | zero => exact ht.stands
  | succ fuel ih =>
    rw [dropMatching, wp_bind]
    refine wp_mono (stands_nextMatching hc hd h ht) ?_ (fun _ _ => id)
    rintro (_ | e) ⟨x', t', w'⟩ hr
    · exact hr.1
    · obtain ⟨rfl, ⟨d', ht'⟩, kept', locs', es', hsweeping⟩ := hr
      rw [wp_bind, wp_onSnd, wp_onSnd]
      refine wp_mono (User.wp_dropEntry (κ := κ) e w') ?_ (fun _ _ _ => trivial)
      exact fun _ w₁ hdropped => ih (hsweeping.paid hdropped) ht'

theorem account_withExtractScan {body : Exec Panic (ExtractScan b.Scan K V × b.Table × World W K V) α}
    (hbody : wp body (fun _ s => Stands R epoch t₀ s.1 s.2.1) (fun _ _ => True) (⟨b.scan t₀, false, []⟩, t₀, w₀)) :
    wp (withExtractScan b body) (fun _ s => ∃ beats, Account epoch t₀ s.1 beats) (fun _ _ => True) (t₀, w₀) := by
  rw [withExtractScan, wp_bind, wp_get]
  dsimp only
  rw [wp_bind, wp_withLocal, wp_bind, wp_guarded]
  refine wp_mono hbody ?_ ?_
  · rintro a ⟨x, t, w⟩ ht
    rw [wp_bind, dropExtractScan, wp_bind, wp_get]
    dsimp only
    rw [wp_ite]
    refine ⟨fun _ => ?_, fun hx => ?_⟩
    · obtain ⟨d, k, htrimmed, -⟩ := ht
      exact htrimmed.account
    · obtain ⟨d, htrimmed⟩ := ht.unfinished (Bool.eq_false_iff.mpr hx)
      rw [wp_onSnd]
      refine wp_mono (trimmed_finish hc hd htrimmed) ?_ (fun _ _ _ => trivial)
      rintro _ s ⟨k, hs⟩
      exact hs.account
  · intro p s _
    split
    · trivial
    · exact wp_mono (wp_self _ s) (fun _ _ _ => trivial) (fun _ _ _ => trivial)

end Sweeps

theorem account_beside {s : b.Table × World W K V} (c : Exec Panic (World W K V) Unit) (a : α)
    (h : ∃ beats, Account epoch t s.1 beats) :
    wp (do
      onSnd c
      pure a : Step b α) (fun _ s => ∃ beats, Account epoch t s.1 beats) (fun _ _ => True) s := by
  rw [wp_bind, wp_onSnd]
  exact wp_mono (wp_self c s.2) (fun _ _ _ => h) (fun _ _ _ => trivial)

section Calls

variable (hc : Contract R u) (hd : Dated R u epoch) (hw : R.Wf t) (hcounted : R.Counted t)
include hc hd hw hcounted

theorem account_removeEntry (key : K) :
    wp (removeEntry b u key) (fun _ s => ∃ beats, Account epoch t s.1 beats) (fun _ _ => True) (t, w) := by
  have hepoch : wp (removeEntry b u key)
      (fun r s => match r with
        | some _ => Since (epoch t).noteDelete.view (epoch s.1)
        | none => s.1 = t) (fun _ _ => True) (t, w) := by
    rw [removeEntry, wp_bind]
    refine wp_mono (wp_findLocation_any hc hw key) ?_ (fun _ _ _ => trivial)
    rintro (_ | loc) ⟨t', w'⟩ ⟨ht, -⟩
    · exact ht
    · obtain rfl : t' = t := ht
      dsimp only
      rw [wp_map]
      exact hd.remove loc t' w'
  have hremove := wp_removeEntry (κ := fun _ => 0) (w := w) hc (J := fun _ => True) (fun _ _ _ _ => trivial) hw key
    fun _ _ _ => trivial
  refine wp_mono (wp_and hepoch hremove) ?_ (fun _ _ _ => trivial)
  rintro (_ | e) ⟨t', w'⟩ ⟨hsince, -, hremoved, -⟩
  · obtain rfl : t' = t := hsince
    exact (Trimmed.refl hw hcounted).account
  · have hremoved := hremoved e rfl
    have hcounted' := hremoved.steady.counted hcounted
    obtain ⟨k, hk⟩ := hsince
    have htrimmed : Trimmed R epoch 1 k t t' := by
      refine ⟨hremoved.steady.wf, hcounted', ?_, ?_⟩
      · rw [hk, EpochState.view_noteDelete]
        rfl
      · rw [len_entries hc hcounted, len_entries hc hcounted', hremoved.entries.length_eq]
        rfl
    exact htrimmed.account

theorem account_remove (key : K) :
    wp (remove b u key) (fun _ s => ∃ beats, Account epoch t s.1 beats) (fun _ _ => True) (t, w) := by
  rw [remove, wp_bind]
  refine wp_mono (account_removeEntry hc hd hw hcounted key) ?_ (fun _ _ => id)
  rintro (_ | e) s hs
  · exact hs
  · exact account_beside _ _ hs

omit hcounted in
theorem account_drain (n : Nat) :
    wp (drain b u n) (fun _ s => ∃ beats, Account epoch t s.1 beats) (fun _ _ => True) (t, w) := by
  have hepoch := within_drain (I := fun t' => epoch t' = epoch t) (u := u) Panic.tolerates_any
    (fun loc _ h => (hd.tombstoneSlot loc _).trans h) n
    (J := fun t' => epoch t' = (epoch t).start .clear) (fun h => (hd.wipeAll _).trans (by rw [h])) rfl (w := w)
  refine wp_mono (wp_and hepoch (wp_drain (κ := fun _ => 0) hc hw n)) ?_ (fun _ _ _ => trivial)
  rintro _ s ⟨hs, -, hemptied, -⟩
  refine Account.of_emptied hemptied.wf hemptied.counted hs ?_
  rw [len_entries hc hemptied.counted, hemptied.entries]
  rfl

end Calls

/-- Every call that returns has its account, unless it forgets an iterator. -/
theorem wp_step_account (hc : Contract R u) (hd : Dated R u epoch) (hw : R.Wf t) (hcounted : R.Counted t) {op : Op K V}
    (hleaks : ¬op.Leaks) :
    wp (step b u op) (fun _ s => ∃ beats, Account epoch t s.1 beats) (fun _ _ => True) (t, w) := by
  have htrimmed : Trimmed R epoch 0 0 t t := .refl hw hcounted
  by_cases hdeletes : op.Deletes
  · cases op with
    | removeEntry key =>
      rw [step, wp_bind]
      exact wp_mono (account_removeEntry hc hd hw hcounted key) (fun _ s hs => account_beside _ _ hs) (fun _ _ => id)
    | remove key =>
      rw [step, wp_bind]
      exact wp_mono (account_remove hc hd hw hcounted key) (fun _ s hs => account_beside _ _ hs) (fun _ _ => id)
    | retain f =>
      obtain ⟨locs, -, -, hs⟩ := sweeping_scan (κ := fun _ => 0) f.not hc hw w
      rw [step, wp_map, retain, wp_bind, wp_get]
      exact account_withExtractScan hc hd (stands_dropMatching hc hd hs htrimmed _)
    | extractIf pred n =>
      obtain ⟨locs, -, -, hs⟩ := sweeping_scan (κ := fun _ => 0) pred hc hw w
      rw [step, wp_map, extractIf]
      exact account_withExtractScan hc hd (stands_yieldMatching hc hd hs htrimmed n)
    | drain n =>
      rw [step, wp_map]
      exact account_drain hc hd hw n
    | clear =>
      rw [step, wp_map]
      refine wp_mono (wp_and (hd.clear t w) (hc.clear hw (fun _ => 0) w)) ?_ (fun _ _ _ => trivial)
      rintro _ s ⟨hs, hsteady, hnil, -⟩
      refine Account.of_emptied hsteady.wf (hsteady.counted hcounted) hs ?_
      rw [len_entries hc (hsteady.counted hcounted), hnil]
      rfl
    | leakExtractIf pred n => exact absurd trivial hleaks
    | leakDrain n => exact absurd trivial hleaks
    | _ => exact absurd hdeletes id
  · have hkeeping : wp (step b u op) (fun _ s => Since (epoch t).view (epoch s.1))
        (fun _ s => True ∧ Since (epoch t).view (epoch s.1)) (t, w) :=
      upheld_keeping (hd.keeping _) hw (.refl _) hc (Room.affords_any _ _ op) hdeletes
    have hdone := wp_step (κ := fun _ => 0) (w := w) hc hw op
    refine wp_mono (wp_and hkeeping (wp_and hdone (wp_step_rekeyed hc hw op))) ?_ (fun _ _ _ => trivial)
    rintro r s ⟨hsince, hdone, hrekeyed⟩
    refine Account.of_grown hsince ?_
    rw [len_entries hc hcounted, len_entries hc (hdone.counted (undrained_of_not_leaks hleaks _) hcounted)]
    exact hrekeyed.length_le hdeletes

inductive Chronicle (b : TableBackend W K V) (u : User W K V) (epoch : b.Table → EpochState) :
    b.Table × World W K V → List Beat → b.Table × World W K V → Prop
  | refl (s : b.Table × World W K V) : Chronicle b u epoch s [] s
  | beside {s : b.Table × World W K V} {beats : List Beat} {t : b.Table} {w : World W K V} (w' : World W K V)
      (h : Chronicle b u epoch s beats (t, w)) : Chronicle b u epoch s beats (t, w')
  | call {s s' s'' : b.Table × World W K V} {beats more : List Beat} {op : Op K V} {r : Ret K V}
      (h : Chronicle b u epoch s beats s') (hstep : step b u op s' = (.ok r, s''))
      (haccount : Account epoch s'.1 s''.1 more) : Chronicle b u epoch s (beats ++ more) s''

def Tidy (e : Event b) : Prop := ¬e.2.1.Leaks ∧ ∃ r, e.2.2 = .ok r

theorem Runs.chronicle {s s' : b.Table × World W K V} (hc : Contract R u) (hd : Dated R u epoch) (h : Runs b u Tidy s s')
    (hw : R.Wf s.1) (hcounted : R.Counted s.1) :
    ∃ beats, Chronicle b u epoch s beats s' ∧ R.Wf s'.1 ∧ R.Counted s'.1 := by
  induction h with
  | refl => exact ⟨[], .refl _, hw, hcounted⟩
  | beside w' _ ih =>
    obtain ⟨beats, hchronicle, hrest⟩ := ih
    exact ⟨beats, hchronicle.beside w', hrest⟩
  | @call s' s'' op r _ hstep hallow hne ih =>
    obtain ⟨beats, hchronicle, hw', hcounted'⟩ := ih
    obtain ⟨hleaks, r, rfl⟩ := hallow
    obtain ⟨more, haccount⟩ := (wp_of_ok hstep).mp (wp_step_account (w := s'.2) hc hd hw' hcounted' hleaks)
    have hdone := done_of_step (κ := fun _ => 0) hc hw' hstep
    exact ⟨_, hchronicle.call hstep haccount, hdone.wf, hdone.counted (undrained_of_not_leaks hleaks _) hcounted'⟩

theorem Chronicle.shown {s s' : b.Table × World W K V} {beats : List Beat} {c : Tally} (h : Chronicle b u epoch s beats s')
    (hs : c.Shown (b.len s.1) (epoch s.1).view) : (beats.foldl Tally.after c).Shown (b.len s'.1) (epoch s'.1).view := by
  induction h with
  | refl => exact hs
  | beside _ _ ih => exact ih
  | call _ _ haccount ih =>
    rw [List.foldl_append, haccount.view]
    exact ih.foldl haccount.len haccount.apart

theorem Chronicle.view {s s' : b.Table × World W K V} {beats : List Beat} (h : Chronicle b u epoch s beats s') :
    (epoch s'.1).view = beats.foldl EpochView.after (epoch s.1).view := by
  induction h with
  | refl => rfl
  | beside _ _ ih => exact ih
  | call _ _ haccount ih => rw [List.foldl_append, haccount.view, ih]

structure Recounted (epoch : EpochState) (entries : Nat) (beats : List Beat) : Prop where
  distinctInsertions : (epoch.snapshot entries).distinctInsertions = saturatingUsize
    ((beats.foldl Tally.after .initial).present + (beats.foldl Tally.after .initial).inserted)
  hadDelete : (epoch.snapshot entries).hadDelete = true ↔ 0 < (beats.foldl Tally.after .initial).deleted
  generation : (epoch.snapshot entries).generation = min (beats.count .boundary) u32Max

theorem Runs.recounted {s s' : b.Table × World W K V} (hc : Contract R u) (hd : Dated R u epoch) (hfresh : Fresh R u s.1)
    (hepoch : epoch s.1 = .initial) (h : Runs b u Tidy s s') :
    ∃ beats, Chronicle b u epoch s beats s' ∧ Recounted (epoch s'.1) (b.len s'.1) beats := by
  obtain ⟨beats, hchronicle, -⟩ := h.chronicle hc hd hfresh.wf hfresh.counted
  have hlen : b.len s.1 = 0 := by
    rw [len_entries hc hfresh.counted, hfresh.entries]
    rfl
  have hshown := hchronicle.shown (c := .initial) (by rw [hlen, hepoch]; exact Tally.shown_initial)
  refine ⟨beats, hchronicle, hshown.snapshot.1, hshown.snapshot.2, ?_⟩
  have hview := hchronicle.view
  rw [hepoch] at hview
  have hgeneration := congrArg EpochView.generation hview
  rw [EpochView.generation_foldl _ _ (EpochState.generation_view_le _)] at hgeneration
  refine hgeneration.trans ?_
  change min (0 + _) _ = _
  rw [Nat.zero_add]

end HashMap

end Opthash
