import Opthash.Shell.Owners

namespace Opthash

open Exec Ledger Weights

variable {W K V τ : Type} {b : TableBackend W K V} {u : User W K V} {κ : K ⊕ V → Nat} {name : K ⊕ V → τ}

namespace Op

variable {op : Op K V} {s : b.Table × World W K V}

theorem total_supply (hmakes : ∀ key value make, op ≠ .getOrInsertWith key value make) :
    total κ (op.supply b u s) = op.supplies κ := by
  cases op with
  | getOrInsertWith key value make => exact absurd rfl (hmakes key value make)
  | insert => simp [supply, supplies, weighEntry]
  | entryOrInsert => simp [supply, supplies, weighEntry]
  | tryInsert => simp [supply, supplies, weighEntry]
  | _ => rfl

theorem Names.conserves (h : op.Names name) (hκ : ∀ x y, name x = name y → κ x = κ y)
    (hmakes : ∀ key value make, op ≠ .getOrInsertWith key value make) : op.Conserves κ := by
  cases op with
  | getOrInsertWith key value make => exact absurd rfl (hmakes key value make)
  | getMut => exact fun v => hκ _ _ (h v)
  | retain => exact fun seen e => hκ _ _ (h seen e)
  | extractIf => exact fun seen e => hκ _ _ (h seen e)
  | leakExtractIf => exact fun seen e => hκ _ _ (h seen e)
  | _ => trivial

end Op

namespace HashMap

variable {R : Reading b.Table b.Location b.Vacant b.Scan K V} {t t' : b.Table} {w w' : World W K V}
  {es : List (K × V)} {scan : b.Scan}

theorem wp_makes_accounts (hc : Contract R u) (hw : R.Wf t) (key : K) (value : V) (make : Option K) :
    wp (step b u (.getOrInsertWith key value make))
      (fun _ s => Accounts u κ (weighEntries κ (R.entries t)) w (weighEntries κ (R.entries s.1)) s.2
        (total κ ((Op.getOrInsertWith key value make).supply b u (t, w))))
      (fun p s => p ≠ .abort → Accounts u κ (weighEntries κ (R.entries t)) w (weighEntries κ (R.entries s.1)) s.2
        (total κ ((Op.getOrInsertWith key value make).supply b u (t, w)))) (t, w) := by
  rw [step, wp_map, getOrInsertWith, wp_bind]
  apply User.wp_cleanup (u := u)
  · exact fun _ _ hne => absurd rfl hne
  · apply wp_mono (wp_and (wp_searchOrMake hc hw key make) (wp_self (searchOrMake b u key make) (t, w)))
    · rintro (loc | ⟨made, vacant⟩) ⟨t', w'⟩ ⟨⟨ht, hl, hs⟩, hrun⟩
      · obtain rfl : t' = t := ht
        obtain ⟨e, he, -⟩ := hs
        have hgiven : total κ ((Op.getOrInsertWith key value make).supply b u (t', w)) = κ (.inr value) := by
          simp [Op.supply, hrun]
        rw [hgiven]
        dsimp only
        rw [wp_bind, wp_onSnd]
        apply wp_mono (User.wp_dropV (κ := κ) value w')
        · intro _ w₁ hd
          dsimp only
          rw [wp_bind, wp_slotEntry hc he]
          exact .of_dropped (dropped_of_ledger hl hd) rfl
        · rintro p w₁ ⟨-, hd⟩ _
          exact .of_dropped (dropped_of_ledger hl hd) rfl
      · obtain rfl : t' = t := ht
        obtain ⟨-, hs⟩ := hs
        have hgiven : total κ ((Op.getOrInsertWith key value make).supply b u (t', w)) = weighEntry κ (made, value) := by
          simp [Op.supply, hrun, weighEntry]
        rw [hgiven]
        have hinsert := wp_insertSearched (κ := κ) (w := w') hc hw made value hs
        have hpanic : ∀ p s, NotPlaced R u κ t' made value w' p s → p ≠ .abort →
            Accounts u κ (weighEntries κ (R.entries t')) w (weighEntries κ (R.entries s.1)) s.2
              (weighEntry κ (made, value)) := by
          rintro p ⟨t'', w''⟩ ⟨-, hrest⟩ hne
          obtain ⟨hstretched, hd⟩ := hrest hne
          apply Accounts.of_dropped (dropped_of_ledger hl hd)
          rw [weighEntries_perm hstretched.entries]
        rw [wp_bind] at hinsert
        dsimp only
        rw [wp_bind]
        apply wp_mono hinsert ?_ hpanic
        intro loc s hloc
        rw [wp_bind]
        apply wp_mono hloc ?_ hpanic
        rintro e ⟨t'', w''⟩ ⟨rfl, hadmitted, hl'⟩
        obtain ⟨x, -, -, hadded⟩ := hadmitted.added
        apply Accounts.of_ledger (hl'.trans hl)
        rw [weighEntries_perm hadded.entries, weighEntries_cons, Nat.add_comm]
    · rintro p ⟨t', w'⟩ ⟨⟨hp, ht, hl⟩, hrun⟩
      obtain rfl : t' = t := ht
      have hgiven : total κ ((Op.getOrInsertWith key value make).supply b u (t', w)) = κ (.inr value) := by
        simp [Op.supply, hrun]
      have hne : p ≠ .abort := by
        rcases hp with hp | ⟨rfl, -⟩
        · exact hp.ne_abort
        · exact Panic.noConfusion
      refine ⟨fun he => absurd he hne, fun _ => ?_⟩
      rw [wp_onSnd, hgiven]
      apply wp_mono (User.wp_dropV (κ := κ) value w') ?_ (fun _ _ h => h.1.2)
      intro _ w₁ hd _
      exact .of_dropped (dropped_of_ledger hl hd) rfl

theorem Balanced.accounts {n : Nat} (h : Balanced R u κ n (t, w) (t', w')) :
    Accounts u κ (weighEntries κ (R.entries t)) w (weighEntries κ (R.entries t')) w' n := ⟨h.le, h.eq⟩

theorem accounts_of_step (hc : Contract R u) (hκ : ∀ x y, name x = name y → κ x = κ y) {op : Op K V}
    {r : Except Panic (Ret K V)} (hw : R.Wf t) (hstep : step b u op (t, w) = (r, (t', w')))
    (habort : r ≠ .error .abort) (hnames : op.Names name) :
    Accounts u κ (weighEntries κ (R.entries t)) w (weighEntries κ (R.entries t')) w'
      (total κ (op.supply b u (t, w))) := by
  by_cases hmakes : ∃ key value make, op = .getOrInsertWith key value make
  · obtain ⟨key, value, make, rfl⟩ := hmakes
    have hwp := wp_makes_accounts (κ := κ) (w := w) hc hw key value make
    cases r with
    | ok r => exact (wp_of_ok hstep).mp hwp
    | error p => exact (wp_of_error hstep).mp hwp fun hp => habort (hp ▸ rfl)
  · have hmakes : ∀ key value make, op ≠ .getOrInsertWith key value make :=
      fun key value make h => hmakes ⟨key, value, make, h⟩
    have hconserves := hnames.conserves hκ hmakes
    rw [Op.total_supply hmakes]
    cases r with
    | ok r => exact ((done_of_step (s := (t, w)) hc hw hstep).balance hconserves).accounts
    | error p => exact ((remains_of_step (s := (t, w)) hc hw hstep habort).balance hconserves).accounts

section Iterators

variable {pred : Predicate K V} {kept : List (K × V)} {x x' : ExtractScan b.Scan K V}

theorem Underway.weight {t : b.Table} (h : Underway R kept es t scan) :
    weighEntries κ (R.entries t) = weighEntries κ (kept ++ es) := weighEntries_perm h.entries

theorem accounts_yield {r : Except Panic (Option (K × V))} {before after m : Nat} (hd : User.Dropped κ m w w')
    (h : after + m + yielded κ r = before) : Accounts u κ before w after (w'.yield r) 0 :=
  .of_dropped (hd.trans (dropped_yield w' r)) (by omega)

theorem next_keeps (hc : Contract R u) {i i' : IntoIter b} {r : Except Panic (Option (K × V))}
    (h : Underway R [] es i.table i.scan) (hlen : es.length ≤ i.remaining)
    (hnext : IntoIter.next b (i, w) = (r, (i', w'))) :
    r = .ok es.head? ∧ Underway R [] es.tail i'.table i'.scan ∧ es.tail.length ≤ i'.remaining ∧ w' = w := by
  have hwp := wp_intoIter_next (w := w) hc h
  cases r with
  | error p => exact ((wp_of_error hnext).mp hwp).elim
  | ok r =>
    obtain ⟨rfl, hunderway, rfl, hremaining⟩ := (wp_of_ok hnext).mp hwp
    refine ⟨rfl, hunderway, ?_, rfl⟩
    dsimp only at hremaining
    rw [hremaining]
    cases es with
    | nil => exact Nat.zero_le _
    | cons e es =>
      rw [List.length_cons] at hlen
      rw [if_neg (List.cons_ne_nil e es), wrappingDec_of_pos (by omega), List.tail_cons]
      omega

theorem nextDrained_keeps (hc : Contract R u) {scan' : b.Scan} {r : Except Panic (Option (K × V))}
    (h : Underway R [] es t scan) (hnext : drainNext b (scan, t, w) = (r, (scan', t', w'))) :
    r = .ok es.head? ∧ Underway R [] es.tail t' scan' ∧ w' = w := by
  have hwp := wp_drainNext (w := w) hc h
  cases r with
  | error p => exact ((wp_of_error hnext).mp hwp).elim
  | ok r =>
    obtain ⟨rfl, hunderway, rfl⟩ := (wp_of_ok hnext).mp hwp
    exact ⟨rfl, hunderway, rfl⟩

theorem accounts_head {t t' : b.Table} {scan scan' : b.Scan} (h : Underway R [] es t scan)
    (h' : Underway R [] es.tail t' scan') :
    Accounts u κ (weighEntries κ (R.entries t)) w (weighEntries κ (R.entries t')) (w.yield (.ok es.head?)) 0 := by
  apply accounts_yield (Gains.refl _)
  rw [h.weight, h'.weight]
  cases es with
  | nil => rfl
  | cons e es =>
    simp only [List.nil_append, List.tail_cons, List.head?_cons, weighEntries_cons, yielded]
    omega

theorem endDrain_keeps (hc : Contract R u) {scan' : b.Scan} {r : Except Panic Unit} (h : Underway R [] es t scan)
    (hdrop : dropDrain b u (scan, t, w) = (r, (scan', t', w'))) (habort : r ≠ .error .abort) :
    R.Wf t' ∧ Accounts u κ (weighEntries κ (R.entries t)) w (weighEntries κ (R.entries t')) w' 0 := by
  suffices hwp : wp (dropDrain b u)
      (fun _ s => R.Wf s.2.1 ∧ Accounts u κ (weighEntries κ (R.entries t)) w (weighEntries κ (R.entries s.2.1)) s.2.2 0)
      (fun p s => p ≠ .abort → R.Wf s.2.1 ∧
        Accounts u κ (weighEntries κ (R.entries t)) w (weighEntries κ (R.entries s.2.1)) s.2.2 0) (scan, t, w) by
    cases r with
    | ok r => exact (wp_of_ok hdrop).mp hwp
    | error p => exact (wp_of_error hdrop).mp hwp fun hp => habort (hp ▸ rfl)
  rw [dropDrain, wp_bind, wp_get]
  dsimp only
  rw [wp_bind]
  apply wp_mono (wp_dropDrained_underway (κ := κ) hc h (Nat.lt_succ_of_le h.length_le))
  · rintro _ ⟨scan'', t'', w''⟩ ⟨hend, hd⟩
    obtain ⟨hwf, -, -, -, hentries⟩ := hc.wipeAll hend.wf
    refine ⟨hwf, .of_dropped hd ?_⟩
    rw [hentries, h.weight, List.nil_append, weighEntries_nil]
    omega
  · rintro p ⟨scan'', t'', w''⟩ hrest hne
    obtain ⟨taken, es', rfl, hend, hd⟩ := hrest hne
    refine ⟨hend.wf, .of_dropped hd ?_⟩
    rw [hend.weight, h.weight, List.nil_append, List.nil_append, weighEntries_append]
    omega

theorem Sweeping.accounts {t₀ : b.Table} {w₀ : World W K V} {owed : Nat} {locs : List b.Location}
    (h : Sweeping R u κ pred t₀ w₀ owed kept locs es x t w) (hp : pred.Preserves κ) :
    Accounts u κ (weighEntries κ (R.entries t₀)) w₀ (weighEntries κ (R.entries t) + owed) w 0 := by
  have hgone := h.gone hp
  have hmade := h.made
  rw [h.underway.weight]
  constructor
  · omega
  · intro _
    omega

theorem Accounts.yield {before after : Nat} {w₀ : World W K V} {e : K × V}
    (h : Accounts u κ before w₀ (after + weighEntry κ e) w 0) : Accounts u κ before w₀ after (w.yield (.ok (some e))) 0 := by
  have hd := dropped_yield (κ := κ) w (.ok (some e))
  have hgone := hd.gone
  have hmade := hd.made
  rw [yielded] at hgone
  constructor
  · have hle := h.le
    omega
  · intro hneeds
    have heq := h.eq hneeds
    omega

theorem Pruned.accounts {t₀ final : b.Table} {w₀ : World W K V} (h : Pruned R u κ pred t₀ w₀ kept final w)
    (hp : pred.Preserves κ) (hperm : (R.entries t').Perm (R.entries final)) (hl : w'.ledger = w.ledger) :
    Accounts u κ (weighEntries κ (R.entries t₀)) w₀ (weighEntries κ (R.entries t')) w' 0 :=
  (((h.balanced hp).perm hperm).of_world hl).accounts

theorem nextMatching_keeps (hc : Contract R u) (hp : pred.Preserves κ) (hw : R.Wf t)
    (h : x.finished = false → ∃ kept es, Underway R kept es t x.scan) {r : Except Panic (Option (K × V))}
    (hnext : nextMatching b pred (x, t, w) = (r, (x', t', w'))) :
    R.Wf t' ∧ (x'.finished = false → ∃ kept es, Underway R kept es t' x'.scan) ∧
      Accounts u κ (weighEntries κ (R.entries t)) w (weighEntries κ (R.entries t')) (w'.yield r) 0 := by
  suffices hwp : wp (nextMatching b pred)
      (fun r s => R.Wf s.2.1 ∧ (s.1.finished = false → ∃ kept es, Underway R kept es s.2.1 s.1.scan) ∧
        Accounts u κ (weighEntries κ (R.entries t)) w (weighEntries κ (R.entries s.2.1)) (s.2.2.yield (.ok r)) 0)
      (fun _ s => R.Wf s.2.1 ∧ (s.1.finished = false → ∃ kept es, Underway R kept es s.2.1 s.1.scan) ∧
        Accounts u κ (weighEntries κ (R.entries t)) w (weighEntries κ (R.entries s.2.1)) s.2.2 0) (x, t, w) by
    cases r with
    | ok r => exact (wp_of_ok hnext).mp hwp
    | error p => exact (wp_of_error hnext).mp hwp
  cases hfin : x.finished with
  | true =>
    apply wp_nextMatching_finished hfin
    refine ⟨hw, fun hunfinished => ?_, .of_ledger rfl rfl⟩
    rw [hfin] at hunfinished
    cases hunfinished
  | false =>
    obtain ⟨kept, es, hunderway⟩ := h hfin
    obtain ⟨locs, hsweeping⟩ := hunderway.sweeping (u := u) (κ := κ) (w := w) pred x.seen
    have hx : (⟨x.scan, false, x.seen⟩ : ExtractScan b.Scan K V) = x := by rw [← hfin]
    rw [hx] at hsweeping
    rw [nextMatching_unfinished hsweeping]
    apply wp_mono (wp_nextMatchingFrom (J := fun _ => True) hc hsweeping trivial hsweeping.fuel)
    · rintro (_ | e) ⟨x'', t'', w''⟩ hr
      · obtain ⟨hfin', passed, final, ⟨w₁, hpruned, hl, hmended⟩, -⟩ := hr
        refine ⟨hmended.keeps.wf, fun hunfinished => ?_, hpruned.accounts hp hmended.entries hl⟩
        rw [hfin'] at hunfinished
        cases hunfinished
      · obtain ⟨-, passed, locs', rest, hlater, -⟩ := hr
        exact ⟨hlater.keeps.wf, fun _ => ⟨_, _, hlater.underway⟩, (hlater.accounts hp).yield⟩
    · rintro p ⟨x'', t'', w''⟩ (⟨-, -, kept', locs', es', hlater⟩ | ⟨hfin', final, ⟨-, hpanic⟩, -⟩)
      · exact ⟨hlater.keeps.wf, fun _ => ⟨_, _, hlater.underway⟩, hlater.accounts hp⟩
      · obtain ⟨kept', w₁, hpruned, -, hl, hunsettled⟩ := hpanic
        refine ⟨hunsettled.wf, fun hunfinished => ?_, hpruned.accounts hp hunsettled.entries hl⟩
        rw [hfin'] at hunfinished
        cases hunfinished

theorem endExtractIf_keeps (hc : Contract R u) (hw : R.Wf t) {r : Except Panic Unit}
    (hdrop : dropExtractScan b (x, t, w) = (r, (x', t', w'))) :
    R.Wf t' ∧ Accounts u κ (weighEntries κ (R.entries t)) w (weighEntries κ (R.entries t')) w' 0 := by
  suffices hwp : wp (dropExtractScan b)
      (fun _ s => R.Wf s.2.1 ∧ (R.entries s.2.1).Perm (R.entries t) ∧ s.2.2.ledger = w.ledger)
      (fun _ s => R.Wf s.2.1 ∧ (R.entries s.2.1).Perm (R.entries t) ∧ s.2.2.ledger = w.ledger) (x, t, w) by
    obtain ⟨hwf, hperm, hl⟩ : R.Wf t' ∧ (R.entries t').Perm (R.entries t) ∧ w'.ledger = w.ledger := by
      cases r with
      | ok r => exact (wp_of_ok hdrop).mp hwp
      | error p => exact (wp_of_error hdrop).mp hwp
    exact ⟨hwf, .of_ledger hl (weighEntries_perm hperm)⟩
  rw [dropExtractScan, wp_bind, wp_get]
  dsimp only
  rw [wp_ite]
  constructor
  · exact fun _ => ⟨hw, .refl _, rfl⟩
  · intro _
    rw [wp_onSnd]
    apply wp_mono (hc.finishDeferredRemovals hw w)
    · exact fun _ s h => ⟨h.1.keeps.wf, h.1.entries, h.2.2⟩
    · exact fun p s h => ⟨h.2.1.wf, h.2.1.entries, h.2.2.2⟩

end Iterators

theorem accounts_of_drop (hc : Contract R u) (hw : R.Wf t) {r : Except Panic Unit} (hdrop : b.dropTable t w = (r, w'))
    (habort : r ≠ .error .abort) : Accounts u κ (weighEntries κ (R.entries t)) w 0 w' 0 := by
  have hwp := hc.dropTable hw κ w
  cases r with
  | ok r => exact .of_drained ((wp_of_ok hdrop).mp hwp) (Nat.zero_add _)
  | error p =>
    obtain ⟨-, hrest⟩ := (wp_of_error hdrop).mp hwp
    exact .of_drained (hrest fun hp => habort (hp ▸ rfl)) (Nat.zero_add _)

variable {o : Owner b} {os owners : List (Owner b)} {more supplied : List (K ⊕ V)}

theorem accounts_cons {o' : Owner b} (h : Accounts u κ (weighEntries κ (R.entries o.table)) w
    (weighEntries κ (R.entries o'.table)) w' (total κ more)) :
    Accounts u κ (total κ (held R [o])) w (total κ (held R [o'])) w' (total κ more) := by
  simpa using h

/-- Whatever is done with an owner, the owners in its place are well-formed and account for what it had. -/
theorem Moves.keeps (hc : Contract R u) (hκ : ∀ x y, name x = name y → κ x = κ y) (h : Moves u name o w os w' more)
    (ho : o.Wf R name) :
    (∀ o' ∈ os, o'.Wf R name) ∧ Accounts u κ (total κ (held R [o])) w (total κ (held R os)) w' (total κ more) := by
  cases h with
  | @call t t' w w' op r hstep habort hnames =>
    have hwf := wf_of_step (s := (t, w)) hc ho hstep habort
    exact ⟨List.forall_mem_singleton.mpr hwf, accounts_cons (accounts_of_step hc hκ ho hstep habort hnames)⟩
  | @cloned t t' w w' hclone =>
    obtain ⟨hwf, -, -, -, -, -, hgone, hmade⟩ := (wp_of_ok hclone).mp (hc.cloneTable ho κ w)
    refine ⟨?_, ?_⟩
    · intro o' ho'
      simp only [List.mem_cons, List.not_mem_nil, or_false] at ho'
      rcases ho' with rfl | rfl
      · exact ho
      · exact hwf
    · simp only [total_held_cons, total_held_nil, Owner.table]
      constructor
      · rw [total_nil]
        omega
      · intro _
        rw [total_nil]
        omega
  | @cloneUnwound t w w' p hclone habort =>
    obtain ⟨-, hrest⟩ := (wp_of_error hclone).mp (hc.cloneTable ho κ w)
    obtain ⟨made, hmade, hle, heq⟩ := hrest habort
    refine ⟨List.forall_mem_singleton.mpr ho, accounts_cons (o := .map t) ⟨?_, fun hneeds => ?_⟩⟩
    · rw [total_nil]
      omega
    · have heq := heq hneeds
      rw [total_nil]
      omega
  | @consume t w =>
    have hlen := hc.len_le ho
    rw [← hc.len_eq] at hlen
    exact ⟨List.forall_mem_singleton.mpr ⟨_, underway_scan hc ho, hlen⟩, accounts_cons (o := .map t) (.of_ledger rfl rfl)⟩
  | next hnext habort =>
    obtain ⟨es, hunderway, hlen⟩ := ho
    obtain ⟨rfl, hunderway', hlen', rfl⟩ := next_keeps hc hunderway hlen hnext
    exact ⟨List.forall_mem_singleton.mpr ⟨_, hunderway', hlen'⟩, accounts_cons (accounts_head hunderway hunderway')⟩
  | @drain t w =>
    exact ⟨List.forall_mem_singleton.mpr ⟨_, underway_scan hc ho⟩, accounts_cons (o := .map t) (.of_ledger rfl rfl)⟩
  | nextDrained hnext habort =>
    obtain ⟨es, hunderway⟩ := ho
    obtain ⟨rfl, hunderway', rfl⟩ := nextDrained_keeps hc hunderway hnext
    exact ⟨List.forall_mem_singleton.mpr ⟨_, hunderway'⟩, accounts_cons (accounts_head hunderway hunderway')⟩
  | endDrain hdrop habort =>
    obtain ⟨es, hunderway⟩ := ho
    obtain ⟨hwf, haccounts⟩ := endDrain_keeps hc hunderway hdrop habort
    exact ⟨List.forall_mem_singleton.mpr hwf, accounts_cons haccounts⟩
  | leakDrain =>
    obtain ⟨es, hunderway⟩ := ho
    exact ⟨List.forall_mem_singleton.mpr hunderway.wf, accounts_cons (.of_ledger rfl rfl)⟩
  | @extractIf t w pred hnames =>
    have hwf : (Owner.extractIf pred ⟨b.scan t, false, []⟩ t).Wf R name :=
      ⟨ho, hnames, fun _ => ⟨[], _, underway_scan hc ho⟩⟩
    exact ⟨List.forall_mem_singleton.mpr hwf, accounts_cons (o := .map t) (.of_ledger rfl rfl)⟩
  | nextMatching hnext habort =>
    obtain ⟨hwf, hnames, hunderway⟩ := ho
    obtain ⟨hwf', hunderway', haccounts⟩ :=
      nextMatching_keeps (κ := κ) hc (fun seen e => hκ _ _ (hnames seen e)) hwf hunderway hnext
    exact ⟨List.forall_mem_singleton.mpr ⟨hwf', hnames, hunderway'⟩, accounts_cons haccounts⟩
  | endExtractIf hdrop habort =>
    obtain ⟨hwf, haccounts⟩ := endExtractIf_keeps (κ := κ) hc ho.1 hdrop
    exact ⟨List.forall_mem_singleton.mpr hwf, accounts_cons haccounts⟩
  | leakExtractIf => exact ⟨List.forall_mem_singleton.mpr ho.1, accounts_cons (.of_ledger rfl rfl)⟩
  | @drop t w w' r hdrop habort =>
    refine ⟨fun _ h => absurd h List.not_mem_nil, ?_⟩
    simpa [Owner.table] using accounts_of_drop hc ho hdrop habort
  | @dropIter i w w' r hdrop habort =>
    obtain ⟨es, hunderway, -⟩ := ho
    refine ⟨fun _ h => absurd h List.not_mem_nil, ?_⟩
    simpa [Owner.table] using accounts_of_drop hc hunderway.wf hdrop habort

structure Accounted (u : User W K V) (κ : K ⊕ V → Nat) (R : Reading b.Table b.Location b.Vacant b.Scan K V)
    (owners : List (Owner b)) (w : World W K V) (supplied : List (K ⊕ V)) : Prop where
  le : w.ledger.gone κ + total κ (held R owners) ≤ w.ledger.made κ + total κ supplied
  eq : u.needsDrop = true → w.ledger.gone κ + total κ (held R owners) = w.ledger.made κ + total κ supplied

theorem Program.keeps (hc : Contract R u) (hκ : ∀ x y, name x = name y → κ x = κ y) {initial : b.Table → Prop}
    (hinitial : ∀ t, initial t → R.Wf t ∧ R.entries t = []) (h : Program u initial name owners w supplied) :
    (∀ o ∈ owners, o.Wf R name) ∧ Accounted u κ R owners w supplied := by
  induction h with
  | start code => exact ⟨fun _ h => absurd h List.not_mem_nil, Nat.le_refl 0, fun _ => rfl⟩
  | beside code _ ih => exact ⟨ih.1, ih.2.le, ih.2.eq⟩
  | @create owners w supplied t ht _ ih =>
    obtain ⟨hwf, hentries⟩ := hinitial t ht
    refine ⟨List.forall_mem_cons.mpr ⟨hwf, ih.1⟩, ?_⟩
    have hheld : total κ (held R (.map t :: owners)) = total κ (held R owners) := by
      simp [Owner.table, hentries]
    constructor
    · rw [hheld]
      exact ih.2.le
    · rw [hheld]
      exact ih.2.eq
  | @act before after os o w w' supplied more _ hmoves ih =>
    obtain ⟨hwf, haccounted⟩ := ih
    have ho : o.Wf R name := hwf o (List.mem_append_right _ (List.mem_cons_self ..))
    obtain ⟨hos, haccounts⟩ := hmoves.keeps hc hκ ho
    have hheld : total κ (held R (before ++ o :: after)) =
        total κ (held R before) + total κ (held R [o]) + total κ (held R after) := by
      simp
      omega
    refine ⟨?_, ?_, fun hneeds => ?_⟩
    · intro o' ho'
      simp only [List.mem_append] at ho'
      rcases ho' with (ho' | ho') | ho'
      · exact hwf o' (List.mem_append_left _ ho')
      · exact hos o' ho'
      · exact hwf o' (List.mem_append_right _ (List.mem_cons_of_mem _ ho'))
    · have hle := haccounted.le
      have hle' := haccounts.le
      rw [hheld] at hle
      rw [total_held_append, total_held_append, total_append]
      omega
    · have heq := haccounted.eq hneeds
      have heq' := haccounts.eq hneeds
      rw [hheld] at heq
      rw [total_held_append, total_held_append, total_append]
      omega

end HashMap

end Opthash
