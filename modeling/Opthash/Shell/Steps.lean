import Opthash.Shell.Effects

namespace Opthash.HashMap

open Exec Ledger

variable {W K V : Type} {b : TableBackend W K V} {R : Reading b.Table b.Location b.Vacant b.Scan K V} {u : User W K V}
  {κ : K ⊕ V → Nat} {t t' : b.Table} {w w' : World W K V}

section Keys

theorem wp_handValue (old : Option V) {Q : Unit → World W K V → Prop} {Z : Panic → World W K V → Prop}
    (h : ∀ w', User.Dropped κ (old.elim 0 fun v => κ (.inr v)) w w' → Q () w') :
    wp (old.elim (pure ()) handV : Exec Panic (World W K V) Unit) Q Z w := by
  cases old with
  | none => exact h w (Gains.refl _)
  | some v =>
    refine h _ ⟨?_, rfl⟩
    simp only [World.logHanded, gone, weigh_cons, Option.elim_some]
    omega

theorem Replaced.weigh {key : K} {value old : V} (h : R.Replaced u t t' key value old) :
    weighEntries κ (R.entries t') + κ (.inr old) = weighEntries κ (R.entries t) + κ (.inr value) := by
  obtain ⟨k', rest, -, hbefore, hafter⟩ := h.entries
  rw [weighEntries_perm hbefore, weighEntries_perm hafter, weighEntries_cons, weighEntries_cons, weighEntry, weighEntry]
  dsimp only
  omega

theorem Done.admitted {op : Op K V} {query key : K} {value : V} (hinserts : op.Inserts)
    (hhash : op.Consistent u → ∀ x, u.Hashes query x → u.Hashes key x)
    (hsupplies : op.Conserves κ → op.supplies κ = weighEntry κ (key, value))
    (h : Admitted R u t t' query key value) (hl : w'.ledger = w.ledger) : Done R u κ op (t, w) (t', w') := by
  obtain ⟨x, hx, -, hadded⟩ := h.added
  exact {
    wf := hadded.wf
    counted := fun _ => hadded.counted
    settled := fun _ => hadded.settled
    sound := fun hconsistent hs => hadded.sound hs (hhash hconsistent x hx)
    limits := .stretched hinserts hadded.grows.below fun hfull => Nat.le_of_lt (hadded.grows.reached hfull)
    balance := fun hc => by
      refine .of_ledger hl ?_
      rw [hsupplies hc, weighEntries_perm hadded.entries, weighEntries_cons, Nat.add_comm] }

theorem wp_step_insert (hc : Contract R u) (hw : R.Wf t) (key : K) (value : V) :
    wp (step b u (.insert key value)) (fun _ s => Done R u κ (.insert key value) (t, w) s)
      (Failed R u κ (.insert key value) (t, w)) (t, w) := by
  rw [step, wp_bind]
  refine wp_mono (wp_insert (κ := κ) hc hw key value) ?_ ?_
  · rintro old ⟨t', w'⟩ ⟨hreplaced, hadded⟩
    rw [wp_bind, wp_onSnd]
    apply wp_handValue (κ := κ)
    intro w'' hd
    rw [wp_pure]
    cases old with
    | some old =>
      obtain ⟨hreplaced, hdropped⟩ := hreplaced old rfl
      refine .steady hreplaced.keeps fun _ => .of_dropped (Gains.trans hdropped hd) ?_
      have hweigh := Replaced.weigh (κ := κ) hreplaced
      simp only [Op.supplies, weighEntry, Option.elim_some] at hweigh ⊢
      omega
    | none =>
      obtain ⟨x, hx, hrefuted, hadded, hl⟩ := hadded rfl
      refine {
        wf := hadded.wf
        counted := fun _ => hadded.counted
        settled := fun _ => hadded.settled
        sound := fun _ hs => hadded.sound hs hx
        limits := .stretched trivial hadded.grows.below fun hfull => Nat.le_of_lt (hadded.grows.reached hfull)
        balance := fun _ => .of_dropped (dropped_of_ledger hl hd) ?_ }
      rw [weighEntries_perm hadded.entries, weighEntries_cons, Op.supplies, Option.elim_none]
      omega
  · rintro p ⟨t', w'⟩ ⟨hp, -, hrest⟩
    refine ⟨hp.mono .inl, fun hne => ?_⟩
    rcases hrest hne with ⟨hsame, hd⟩ | ⟨old, hreplaced, hd⟩
    · exact .stretched trivial hsame fun _ => .dropped_all hsame.entries hd
    · refine .steady hreplaced.keeps fun _ => .of_dropped hd ?_
      have hweigh := Replaced.weigh (κ := κ) hreplaced
      simp only [Op.supplies, weighEntry] at hweigh ⊢
      omega

theorem wp_step_get (hc : Contract R u) (hw : R.Wf t) (key : K) :
    wp (step b u (.get key)) (fun _ s => Done R u κ (.get key) (t, w) s) (Failed R u κ (.get key) (t, w)) (t, w) := by
  rw [step, wp_map]
  refine wp_mono (wp_getValue hc hw key) ?_ (fun _ _ h => .looked hw rfl h)
  rintro _ ⟨t', w'⟩ ⟨ht, hl, -⟩
  obtain rfl : t' = t := ht
  exact .looked hw hl rfl

theorem wp_step_containsKey (hc : Contract R u) (hw : R.Wf t) (key : K) :
    wp (step b u (.containsKey key)) (fun _ s => Done R u κ (.containsKey key) (t, w) s)
      (Failed R u κ (.containsKey key) (t, w)) (t, w) := by
  rw [step, wp_map]
  refine wp_mono (wp_containsKey hc hw key) ?_ (fun _ _ h => .looked hw rfl h)
  rintro _ ⟨t', w'⟩ ⟨ht, hl, -⟩
  obtain rfl : t' = t := ht
  exact .looked hw hl rfl

theorem wp_step_getMut (hc : Contract R u) (hw : R.Wf t) (key : K) (f : V → V) :
    wp (step b u (.getMut key f)) (fun _ s => Done R u κ (.getMut key f) (t, w) s)
      (Failed R u κ (.getMut key f) (t, w)) (t, w) := by
  rw [step, wp_map]
  refine wp_mono (wp_getMut hc hw key f) ?_ (fun _ _ h => .looked hw rfl h)
  rintro (_ | old) ⟨t', w'⟩ ⟨hl, hmutated, hmiss⟩
  · obtain rfl : t' = t := (hmiss rfl).1
    exact .looked hw hl rfl
  · obtain ⟨hsteady, k, rest, -, hbefore, hafter⟩ := hmutated old rfl
    refine .steady hsteady fun hconserves => .of_ledger hl ?_
    rw [weighEntries_perm hbefore, weighEntries_perm hafter, weighEntries_cons, weighEntries_cons, weighEntry, weighEntry,
      hconserves old]
    rfl

theorem Removed.weigh {key : K} {e : K × V} (h : Removed R u t t' key e) :
    weighEntries κ (R.entries t') + weighEntry κ e = weighEntries κ (R.entries t) := by
  rw [weighEntries_perm h.entries, weighEntries_cons, Nat.add_comm]

theorem Remains.removed {op : Op K V} {key : K} {J : W → Prop} {p : Panic} {s : b.Table × World W K V}
    (hdeletes : op.Deletes) (hsupplies : op.supplies κ = 0)
    (hsteadfast : op.Steadfast R u t w.code → ∀ loc e, R.Holds t loc e → u.Answers key e.1 true →
      R.RefreshesAfter t loc → ∀ code, J code → u.CalmFor ((R.entries t).length - 1) code)
    (hw : R.Wf t) (h : RemovePanic R u κ t w J key p s) (hne : p ≠ .abort) : Remains R u κ op (t, w) s := by
  obtain ⟨t', w'⟩ := s
  rcases h.2 hne with ⟨ht, hl⟩ | ⟨loc, e, code, he, hans, hj, ⟨hperm, t₁, hkeeps, hcapacity, hperm₁, hunsettled⟩, hd⟩
  · obtain rfl : t' = t := ht
    exact .steady (.refl hw) fun _ => .of_ledger hl (by rw [hsupplies]; rfl)
  · exact {
      wf := hunsettled.wf
      counted := fun _ hcounted => hunsettled.counted (hkeeps.counted hcounted)
      settled := fun hn => absurd hdeletes hn
      sound := fun _ hs hsound => by
        refine (hunsettled.sound (hkeeps.sound hsound)).resolve_right ?_
        rintro ⟨hq, hrefreshes, hcalm⟩
        have hlen := hperm₁.length_eq
        rw [List.length_cons] at hlen
        have := hsteadfast (hs hq) loc e he hans hrefreshes code hj
        rw [hlen, Nat.add_sub_cancel] at this
        exact hcalm this
      limits := .kept (hunsettled.capacity.trans hcapacity)
      balance := fun _ => .of_dropped hd (by
        have hweight := weighEntries_perm (κ := κ) hperm
        rw [weighEntries_cons] at hweight
        dsimp only at hweight
        rw [hsupplies]
        omega) }

theorem unfailing_next {n : Nat} (key : K) (h : u.Unfailing n w.code) (x : UInt64) (code : W)
    (hrun : u.hashOne key w.code = (.ok x, code)) : u.Unfailing (n - 1) code := by
  cases n with
  | zero => trivial
  | succ n => exact h.next hrun

/-- If the hasher lasts for the table when a removal starts, it lasts for a refresh the removal leaves to do. -/
def Lasts (R : Reading b.Table b.Location b.Vacant b.Scan K V) (u : User W K V) (t : b.Table) (w : World W K V)
    (code : W) : Prop := u.Unfailing (R.entries t).length w.code → u.Unfailing ((R.entries t).length - 1) code

theorem Lasts.eqStable : u.EqStable (Lasts R u t w) := fun q k c h hcalm => User.Unfailing.eqStable _ q k c (h hcalm)

theorem Lasts.hashed (key : K) (x : UInt64) (code : W) (hrun : u.hashOne key w.code = (.ok x, code)) :
    Lasts R u t w code := fun hcalm => unfailing_next key hcalm x code hrun

theorem Done.removed {op : Op K V} {key : K} {e : K × V} (hconserves : op.supplies κ = 0) (h : Removed R u t t' key e)
    (hd : User.Dropped κ (weighEntry κ e) w w') : Done R u κ op (t, w) (t', w') := by
  refine .steady h.steady fun _ => .of_dropped hd ?_
  rw [hconserves, Removed.weigh h]
  rfl

theorem wp_step_removeEntry (hc : Contract R u) (hw : R.Wf t) (key : K) :
    wp (step b u (.removeEntry key)) (fun _ s => Done R u κ (.removeEntry key) (t, w) s)
      (Failed R u κ (.removeEntry key) (t, w)) (t, w) := by
  rw [step, wp_bind]
  refine wp_mono (wp_removeEntry (κ := κ) hc Lasts.eqStable hw key (Lasts.hashed (R := R) (t := t) key)) ?_ ?_
  · rintro (_ | e) ⟨t', w'⟩ ⟨hl, hremoved, hmiss⟩
    · obtain rfl : t' = t := (hmiss rfl).1
      exact .looked hw hl rfl
    · rw [wp_bind, wp_onSnd]
      refine wp_mono (wp_handEntry (κ := κ) e) ?_ (fun _ _ h => h.elim)
      rintro _ w'' ⟨hd, -⟩
      exact .removed rfl (hremoved e rfl) (dropped_of_ledger hl hd)
  · intro p s hpanic
    refine ⟨hpanic.1.mono .inl, fun hne => .removed trivial rfl ?_ hw hpanic hne⟩
    exact fun hsteadfast loc e he hans hrefreshes code hlasts => (hlasts (hsteadfast loc e he hans hrefreshes)).calmFor

theorem wp_step_remove (hc : Contract R u) (hw : R.Wf t) (key : K) :
    wp (step b u (.remove key)) (fun _ s => Done R u κ (.remove key) (t, w) s)
      (Failed R u κ (.remove key) (t, w)) (t, w) := by
  rw [step, wp_bind]
  refine wp_mono (wp_remove (κ := κ) hc Lasts.eqStable hw key (Lasts.hashed (R := R) (t := t) key)) ?_ ?_
  · rintro old ⟨t', w'⟩ ⟨hremoved, hmiss⟩
    rw [wp_bind, wp_onSnd]
    apply wp_handValue (κ := κ)
    intro w'' hd
    rw [wp_pure]
    cases old with
    | none =>
      obtain ⟨ht, hl, -⟩ := hmiss rfl
      obtain rfl : t' = t := ht
      refine .steady (.refl hw) fun _ => .of_dropped (dropped_of_ledger hl hd) rfl
    | some v =>
      obtain ⟨k, hremoved, hd'⟩ := hremoved v rfl
      exact .removed rfl hremoved (Gains.trans hd' hd)
  · rintro p ⟨t', w'⟩ (hpanic | ⟨hp, hrest⟩)
    · refine ⟨hpanic.1.mono .inl, fun hne => .removed trivial rfl ?_ hw hpanic hne⟩
      exact fun hsteadfast loc e he hans hrefreshes code hlasts => (hlasts (hsteadfast loc e he hans hrefreshes)).calmFor
    · refine ⟨hp.blamed.mono .inl, fun hne => ?_⟩
      obtain ⟨e, hremoved, hd⟩ := hrest hne
      refine .steady hremoved.steady fun _ => .of_dropped hd ?_
      rw [Removed.weigh hremoved]
      rfl

end Keys

section Entries

theorem wp_step_entryOrInsert (hc : Contract R u) (hw : R.Wf t) (key : K) (default : V) :
    wp (step b u (.entryOrInsert key default)) (fun _ s => Done R u κ (.entryOrInsert key default) (t, w) s)
      (Failed R u κ (.entryOrInsert key default) (t, w)) (t, w) := by
  rw [step, wp_map]
  refine wp_mono (wp_entryOrInsert (κ := κ) hc hw key default) ?_ (fun _ _ h => .notPlaced trivial rfl h)
  rintro _ ⟨t', w'⟩ (⟨e, -, -, ht, hd⟩ | ⟨-, hadmitted, hl⟩)
  · obtain rfl : t' = t := ht
    exact .steady (.refl hw) fun _ => .of_dropped hd rfl
  · exact .admitted trivial (fun _ _ => id) (fun _ => rfl) hadmitted hl

theorem wp_step_tryInsert (hc : Contract R u) (hw : R.Wf t) (key : K) (value : V) :
    wp (step b u (.tryInsert key value)) (fun _ s => Done R u κ (.tryInsert key value) (t, w) s)
      (Failed R u κ (.tryInsert key value) (t, w)) (t, w) := by
  rw [step, wp_bind]
  refine wp_mono (wp_tryInsert (κ := κ) hc hw key value) ?_ (fun _ _ h => .notPlaced trivial rfl h)
  rintro (e | shown) ⟨t', w'⟩ hr
  · obtain ⟨-, ht, hd⟩ := hr
    obtain rfl : t' = t := ht
    rw [wp_bind, wp_onSnd]
    have hhand := wp_handValue (κ := κ) (w := w') (some value)
      (Q := fun _ s => Done R u κ (.tryInsert key value) (t', w) (t', s))
      (Z := fun _ _ => False) fun w'' hd' => .steady (.refl hw) fun _ => .of_dropped (Gains.trans hd hd') rfl
    exact wp_mono hhand (fun _ _ => id) fun _ _ h => h.elim
  · obtain ⟨-, hadmitted, hl⟩ := hr
    rw [wp_bind, wp_onSnd]
    exact .admitted trivial (fun _ _ => id) (fun _ => rfl) hadmitted hl

theorem wp_step_getOrInsertWith (hc : Contract R u) (hw : R.Wf t) (key : K) (value : V) (make : Option K) :
    wp (step b u (.getOrInsertWith key value make)) (fun _ s => Done R u κ (.getOrInsertWith key value make) (t, w) s)
      (Failed R u κ (.getOrInsertWith key value make) (t, w)) (t, w) := by
  rw [step, wp_map]
  refine wp_mono (wp_getOrInsertWith (κ := κ) hc hw key value make) ?_ ?_
  · rintro shown ⟨t', w'⟩ (⟨e, -, -, ht, -⟩ | ⟨rfl, hadmitted, hl⟩)
    · obtain rfl : t' = t := ht
      exact .steady (.refl hw) False.elim
    · exact .admitted trivial (fun h => h) False.elim hadmitted hl
  · rintro p ⟨t', w'⟩ ⟨hp, hrest⟩
    refine ⟨hp.mono ?_, fun hne => .stretched trivial (hrest hne).1 False.elim⟩
    rintro (hcalm | hnone)
    · exact .inl hcalm
    · exact .inr fun hreturning => hreturning hnone

end Entries

section Sweeps

variable {pred : Predicate K V} {kept : List (K × V)} {final : b.Table}

theorem Pruned.balanced {t₁ : b.Table} (h : Pruned R u κ pred t w kept t₁ w') (hp : pred.Preserves κ) :
    Balanced R u κ 0 (t, w) (t₁, w') := by
  have hgone := h.gone hp
  have hmade := h.made
  have hweight := weighEntries_perm (κ := κ) h.entries
  refine ⟨?_, fun _ => ?_⟩
  all_goals
    dsimp only
    omega

theorem Balanced.of_world {n : Nat} {w'' : World W K V} (h : Balanced R u κ n (t, w) (t', w'))
    (hl : w''.ledger = w'.ledger) : Balanced R u κ n (t, w) (t', w'') := by
  refine ⟨?_, fun hneeds => ?_⟩
  · dsimp only
    rw [hl]
    exact h.le
  · dsimp only
    rw [hl]
    exact h.eq hneeds

theorem Finished.balanced {s : b.Table × World W K V} (h : Finished R u κ pred t w kept final s) (hp : pred.Preserves κ) :
    Balanced R u κ 0 (t, w) s := by
  obtain ⟨w₁, hpruned, hl, hmended⟩ := h
  exact ((hpruned.balanced hp).perm hmended.entries).of_world hl

theorem Finished.steady {s : b.Table × World W K V} (h : Finished R u κ pred t w kept final s) : R.Steady u t s.1 := by
  obtain ⟨w₁, hpruned, -, hmended⟩ := h
  exact ⟨hpruned.keeps.trans hmended.keeps, hmended.capacity.trans hpruned.capacity, fun _ _ => hmended.settled⟩

theorem Done.finished {op : Op K V} {s : b.Table × World W K V} (hsupplies : op.supplies κ = 0)
    (hconserves : op.Conserves κ → pred.Preserves κ) (h : Finished R u κ pred t w kept final s) :
    Done R u κ op (t, w) s :=
  .steady h.steady fun hc => by
    rw [hsupplies]
    exact h.balanced (hconserves hc)

theorem Remains.finishPanic {op : Op K V} {J : W → Prop} {p : Panic} {s : b.Table × World W K V}
    (hsupplies : op.supplies κ = 0) (hdeletes : op.Deletes) (hconserves : op.Conserves κ → pred.Preserves κ)
    (hsteadfast : op.Steadfast R u t w.code → R.RefreshesDeferred final → ∀ code, J code →
      u.CalmFor (R.entries final).length code)
    (h : FinishPanic R u κ pred t w J final p s) : Remains R u κ op (t, w) s := by
  obtain ⟨-, kept, w₁, hpruned, hj, hl, hunsettled⟩ := h
  exact {
    wf := hunsettled.wf
    counted := fun _ hcounted => hunsettled.counted (hpruned.keeps.counted hcounted)
    settled := fun hn => absurd hdeletes hn
    sound := fun _ hs hsound => by
      refine (hunsettled.sound (hpruned.keeps.sound hsound)).resolve_right ?_
      rintro ⟨hq, hrefreshes, hcalm⟩
      exact hcalm (hsteadfast (hs hq) hrefreshes w₁.code hj)
    limits := .kept (hunsettled.capacity.trans hpruned.capacity)
    balance := fun hc => by
      rw [hsupplies]
      exact ((hpruned.balanced (hconserves hc)).perm hunsettled.entries).of_world hl }

theorem Failed.sweepPanic {op : Op K V} {J : W → Prop} {p : Panic} {s : b.Table × World W K V}
    (hsupplies : op.supplies κ = 0) (hdeletes : op.Deletes) (hconserves : op.Conserves κ → pred.Preserves κ)
    (hreturning : op.Returning → pred.Answering)
    (hsteadfast : op.Steadfast R u t w.code → R.RefreshesDeferred final → ∀ code, J code →
      u.CalmFor (R.entries final).length code)
    (h : SweepPanic R u κ pred t w J final p s) : Failed R u κ op (t, w) p s := by
  obtain ⟨hp, hrest⟩ := h
  refine ⟨hp.mono (Or.imp_right fun hn hr => hn (hreturning hr)), fun hne => ?_⟩
  rcases hrest hne with ⟨kept, t₁, hfinished⟩ | hpanic
  · refine .steady hfinished.steady fun hc => ?_
    rw [hsupplies]
    exact hfinished.balanced (hconserves hc)
  · exact .finishPanic hsupplies hdeletes hconserves hsteadfast hpanic

/-- If the hasher lasts for the swept table when a sweep starts, it lasts for a refresh the sweep leaves to do. -/
def LastsFor (R : Reading b.Table b.Location b.Vacant b.Scan K V) (u : User W K V) (final : b.Table) (w : World W K V)
    (code : W) : Prop := u.Unfailing (R.entries final).length w.code → u.Unfailing (R.entries final).length code

theorem LastsFor.dropStable : u.DropStable (LastsFor R u final w) :=
  ⟨fun k c h hcalm => (User.Unfailing.dropStable _).1 k c (h hcalm),
    fun v c h hcalm => (User.Unfailing.dropStable _).2 v c (h hcalm)⟩

theorem Predicate.not_answering {f : Predicate K V} (h : f.Answering) : f.not.Answering := by
  intro seen e
  simpa [Predicate.not] using h seen e

theorem wp_step_retain (hc : Contract R u) (hw : R.Wf t) (f : Predicate K V) :
    wp (step b u (.retain f)) (fun _ s => Done R u κ (.retain f) (t, w) s) (Failed R u κ (.retain f) (t, w)) (t, w) := by
  have hpreserves : (Op.retain f).Conserves κ → f.not.Preserves κ := fun hc => hc
  have hanswering : (Op.retain f : Op K V).Returning → f.not.Answering := Predicate.not_answering
  rw [step, wp_map]
  refine wp_mono (wp_retain (κ := κ) (J := LastsFor R u (retained b f t) w) hc LastsFor.dropStable hw id f) ?_ ?_
  · exact fun _ s h => .finished rfl hpreserves h
  · exact fun p s h => .sweepPanic rfl trivial hpreserves hanswering (fun hs hr code hj => (hj (hs hr)).calmFor) h

theorem wp_step_extractIf (hc : Contract R u) (hw : R.Wf t) (pred : Predicate K V) (n : Nat) :
    wp (step b u (.extractIf pred n)) (fun _ s => Done R u κ (.extractIf pred n) (t, w) s)
      (Failed R u κ (.extractIf pred n) (t, w)) (t, w) := by
  rw [step, wp_map]
  refine wp_mono (wp_extractIf (κ := κ) (J := LastsFor R u (extracted b pred n t) w) hc hw id n) ?_ ?_
  · exact fun _ s h => .finished rfl (fun hc => hc) h.2
  · intro p s h
    exact .sweepPanic rfl trivial (fun hc => hc) (fun h => h) (fun hs hr code hj => (hj (hs hr)).calmFor) h

theorem wp_step_leakExtractIf (hc : Contract R u) (hw : R.Wf t) (pred : Predicate K V) (n : Nat) :
    wp (step b u (.leakExtractIf pred n)) (fun _ s => Done R u κ (.leakExtractIf pred n) (t, w) s)
      (Failed R u κ (.leakExtractIf pred n) (t, w)) (t, w) := by
  have hpruned : ∀ {kept : List (K × V)} {s : b.Table × World W K V}, Pruned R u κ pred t w kept s.1 s.2 →
      R.Keeps u t s.1 ∧ R.capacity s.1 = R.capacity t ∧
        (pred.Preserves κ → Balanced R u κ 0 (t, w) s) := fun h => ⟨h.keeps, h.capacity, h.balanced⟩
  rw [step, wp_map]
  refine wp_mono (wp_leakExtractIf (κ := κ) (J := LastsFor R u (extracted b pred n t) w) hc hw id n) ?_ ?_
  · rintro _ s ⟨-, hfinished | hleft⟩
    · exact .finished rfl (fun hc => hc) hfinished
    · obtain ⟨hkeeps, hcapacity, hbalance⟩ := hpruned hleft
      exact {
        wf := hkeeps.wf
        counted := fun _ => hkeeps.counted
        settled := fun hn => absurd trivial hn
        sound := fun _ => hkeeps.sound
        limits := .kept hcapacity
        balance := hbalance }
  · rintro p s ⟨hp, hrest⟩
    refine ⟨hp, fun hne => ?_⟩
    rcases hrest hne with ⟨kept, hleft⟩ | hpanic
    · obtain ⟨hkeeps, hcapacity, hbalance⟩ := hpruned hleft
      exact {
        wf := hkeeps.wf
        counted := fun _ => hkeeps.counted
        settled := fun hn => absurd trivial hn
        sound := fun _ _ => hkeeps.sound
        limits := .kept hcapacity
        balance := hbalance }
    · exact .finishPanic rfl trivial (fun hc => hc) (fun hs hr code hj => (hj (hs hr)).calmFor) hpanic

end Sweeps

section Drains

variable {locs : List b.Location} {es : List (K × V)} {scan : b.Scan}

theorem Draining.balanced (h : Draining R u κ t w 0 locs es scan t' w') : Balanced R u κ 0 (t, w) (t', w') := by
  have hgone := h.gone
  have hmade := h.made
  have hweight := weighEntries_perm (κ := κ) h.entries
  refine ⟨?_, fun _ => ?_⟩
  all_goals
    dsimp only
    omega

theorem wp_step_drain (hc : Contract R u) (hw : R.Wf t) (n : Nat) :
    wp (step b u (.drain n)) (fun _ s => Done R u κ (.drain n) (t, w) s) (Failed R u κ (.drain n) (t, w)) (t, w) := by
  rw [step, wp_map]
  refine wp_mono (wp_drain (κ := κ) hc hw n) ?_ ?_
  · rintro _ ⟨t', w'⟩ ⟨-, hemptied, hd⟩
    exact {
      wf := hemptied.wf
      counted := fun _ _ => hemptied.counted
      settled := fun _ _ _ => hemptied.settled
      sound := fun _ _ => hemptied.sound _
      limits := .kept hemptied.capacity
      balance := fun _ => .of_dropped hd (by rw [hemptied.entries]; exact Nat.zero_add _) }
  · rintro p ⟨t', w'⟩ ⟨hp, hloud, hrest⟩
    refine ⟨hp.blamed.mono .inl, fun hne => ?_⟩
    obtain ⟨locs, es, scan, -, hdraining⟩ := hrest hne
    exact {
      wf := hdraining.wf
      counted := fun hquiet => absurd hquiet hloud
      settled := fun hn => absurd trivial hn
      sound := fun _ _ => hdraining.sound
      limits := .kept hdraining.capacity
      balance := fun _ => hdraining.balanced }

theorem wp_step_leakDrain (hc : Contract R u) (hw : R.Wf t) (n : Nat) :
    wp (step b u (.leakDrain n)) (fun _ s => Done R u κ (.leakDrain n) (t, w) s)
      (Failed R u κ (.leakDrain n) (t, w)) (t, w) := by
  rw [step, wp_map]
  refine wp_mono (wp_leakDrain (κ := κ) hc hw n) ?_ (fun _ _ h => h.elim)
  rintro _ ⟨t', w'⟩ ⟨-, locs, scan, hdraining⟩
  have hsame : n = 0 ∨ R.entries t = [] → t' = t := by
    rintro (rfl | hnil)
    · exact hdraining.untouched rfl
    · exact hdraining.untouched (by rw [hnil, List.drop_nil])
  exact {
    wf := hdraining.wf
    counted := fun hn hcounted => hsame hn ▸ hcounted
    settled := fun hn => absurd trivial hn
    sound := fun _ => hdraining.sound
    limits := .kept hdraining.capacity
    balance := fun _ => hdraining.balanced }

end Drains

section Whole

theorem Balanced.drained {n : Nat} (hd : Drained u κ n w w')
    (h : weighEntries κ (R.entries t') + n = weighEntries κ (R.entries t)) : Balanced R u κ 0 (t, w) (t', w') := by
  have hle := hd.le
  have hmade := hd.made
  refine ⟨?_, fun hneeds => ?_⟩
  · dsimp only
    omega
  · have heq := hd.eq hneeds
    dsimp only
    omega

theorem wp_step_clear (hc : Contract R u) (hw : R.Wf t) :
    wp (step b u .clear) (fun _ s => Done R u κ .clear (t, w) s) (Failed R u κ .clear (t, w)) (t, w) := by
  rw [step, wp_map]
  refine wp_mono (hc.clear hw κ w) ?_ ?_
  · rintro _ ⟨t', w'⟩ ⟨hsteady, hnil, -, hd⟩
    dsimp only at hsteady hnil hd
    exact .steady hsteady fun _ => .drained hd (by rw [hnil, weighEntries_nil, Nat.zero_add])
  · rintro p ⟨t', w'⟩ ⟨hp, hrest⟩
    refine ⟨hp.blamed.mono .inl, fun hne => ?_⟩
    obtain ⟨hkeeps, hcapacity, taken, hperm, hd⟩ := hrest hne
    have hweight := weighEntries_perm (κ := κ) hperm
    rw [weighEntries_append] at hweight
    dsimp only at hweight
    exact {
      wf := hkeeps.wf
      counted := fun _ => hkeeps.counted
      settled := fun hn => absurd trivial hn
      sound := fun _ _ => hkeeps.sound
      limits := .kept hcapacity
      balance := fun _ => .of_dropped hd (by rw [hweight]; exact Nat.add_comm ..) }

theorem Done.rearranged {op : Op K V} (hlimits : Limits R op t t') (hsupplies : op.supplies κ = 0)
    (h : R.Reordered u t t') (hl : w'.ledger = w.ledger) : Done R u κ op (t, w) (t', w') where
  wf := h.keeps.wf
  counted := fun _ => h.keeps.counted
  settled := fun _ => h.settled
  sound := fun _ => h.keeps.sound
  limits := hlimits
  balance := fun _ => .of_ledger hl (by rw [hsupplies, weighEntries_perm h.entries]; rfl)

theorem Remains.unchanged {op : Op K V} {s : b.Table × World W K V} (hsupplies : op.supplies κ = 0) (hw : R.Wf t)
    (h : s.1 = t ∧ s.2.ledger = w.ledger) : Remains R u κ op (t, w) s := by
  obtain ⟨t', w'⟩ := s
  obtain ⟨ht, hl⟩ := h
  obtain rfl : t' = t := ht
  exact .steady (.refl hw) fun _ => .of_ledger hl (by rw [hsupplies]; rfl)

theorem wp_step_reserve (hc : Contract R u) (hw : R.Wf t) (additional : Nat) :
    wp (step b u (.reserve additional)) (fun _ s => Done R u κ (.reserve additional) (t, w) s)
      (Failed R u κ (.reserve additional) (t, w)) (t, w) := by
  rw [step, wp_map]
  refine wp_mono (wp_reserve hc hw additional) ?_ ?_
  · rintro _ ⟨t', w'⟩ (⟨ht, rfl, -⟩ | ⟨hrose, hr, hl⟩)
    · obtain rfl : t' = t := ht
      exact .rearranged (.kept rfl) rfl (.refl hw) rfl
    · exact .rearranged (.raised trivial hrose) rfl hr.reordered hl
  · exact fun p s h => ⟨h.1.blamed.mono .inl, fun _ => .unchanged rfl hw h.2⟩

theorem wp_step_tryReserve (hc : Contract R u) (hw : R.Wf t) (additional : Nat) :
    wp (step b u (.tryReserve additional)) (fun _ s => Done R u κ (.tryReserve additional) (t, w) s)
      (Failed R u κ (.tryReserve additional) (t, w)) (t, w) := by
  rw [step, wp_map]
  refine wp_mono (wp_tryReserve hc hw additional) ?_ ?_
  · rintro (_ | _) ⟨t', w'⟩ hr
    · obtain ⟨ht, hl⟩ := hr
      obtain rfl : t' = t := ht
      exact .rearranged (.kept rfl) rfl (.refl hw) hl
    · rcases hr with ⟨ht, rfl, -⟩ | ⟨hrose, hr, hl⟩
      · obtain rfl : t' = t := ht
        exact .rearranged (.kept rfl) rfl (.refl hw) rfl
      · exact .rearranged (.raised trivial hrose) rfl hr.reordered hl
  · exact fun p s h => ⟨h.1.blamed.mono .inl, fun _ => .unchanged rfl hw h.2⟩

theorem wp_step_shrinkTo (hc : Contract R u) (hw : R.Wf t) (minCapacity : Nat) :
    wp (step b u (.shrinkTo minCapacity)) (fun _ s => Done R u κ (.shrinkTo minCapacity) (t, w) s)
      (Failed R u κ (.shrinkTo minCapacity) (t, w)) (t, w) := by
  rw [step, wp_map]
  refine wp_mono (hc.shrinkTo hw minCapacity w) ?_ ?_
  · exact fun _ s h => .rearranged (.shrunk trivial) rfl ⟨h.1, fun _ => h.2.1⟩ h.2.2
  · exact fun p s h => ⟨h.1.blamed.mono .inl, fun _ => .unchanged rfl hw h.2⟩

theorem Cloned.balanced (hmade : w'.ledger.made κ = w.ledger.made κ + weighEntries κ (R.entries t'))
    (hle : w'.ledger.gone κ ≤ w.ledger.gone κ + weighEntries κ (R.entries t))
    (heq : u.needsDrop = true → w'.ledger.gone κ = w.ledger.gone κ + weighEntries κ (R.entries t)) :
    Balanced R u κ 0 (t, w) (t', w') := by
  refine ⟨?_, fun hneeds => ?_⟩
  · dsimp only
    omega
  · have := heq hneeds
    dsimp only
    omega

theorem wp_step_clone (hc : Contract R u) (hw : R.Wf t) :
    wp (step b u .clone) (fun _ s => Done R u κ .clone (t, w) s) (Failed R u κ .clone (t, w)) (t, w) := by
  rw [step, wp_map]
  refine wp_mono (wp_clone (κ := κ) hc hw) ?_ ?_
  · rintro _ ⟨t', w'⟩ ⟨hcloned, hmade, hle, heq⟩
    exact {
      wf := hcloned.wf
      counted := fun _ => hcloned.counted
      settled := fun _ _ => hcloned.settled
      sound := fun hhash hs => hcloned.sound hs hhash
      limits := .kept hcloned.capacity
      balance := fun _ => Cloned.balanced hmade hle heq }
  · rintro p ⟨t', w'⟩ ⟨hp, hrest⟩
    refine ⟨hp.mono .inl, fun hne => ?_⟩
    rcases hrest hne with ⟨ht, made, hmade, hle, heq⟩ | ⟨hcloned, hmade, hle, heq⟩
    · obtain rfl : t' = t := ht
      refine .steady (.refl hw) fun _ => ⟨?_, fun hneeds => ?_⟩
      · dsimp only [Op.supplies] at *
        omega
      · have := heq hneeds
        dsimp only [Op.supplies] at *
        omega
    · exact {
        wf := hcloned.wf
        counted := fun _ => hcloned.counted
        settled := fun _ _ => hcloned.settled
        sound := fun hhash _ hs => hcloned.sound hs hhash
        limits := .kept hcloned.capacity
        balance := fun _ => Cloned.balanced hmade hle heq }

theorem wp_step_iter (hc : Contract R u) (hw : R.Wf t) :
    wp (step b u .iter) (fun _ s => Done R u κ .iter (t, w) s) (Failed R u κ .iter (t, w)) (t, w) := by
  rw [step, wp_map]
  refine wp_mono (wp_iter hc hw) ?_ (fun _ _ h => h.elim)
  rintro _ s ⟨-, rfl⟩
  exact .looked hw rfl rfl

end Whole

theorem wp_step (hc : Contract R u) (hw : R.Wf t) (op : Op K V) :
    wp (step b u op) (fun _ s => Done R u κ op (t, w) s) (Failed R u κ op (t, w)) (t, w) := by
  cases op with
  | insert key value => exact wp_step_insert hc hw key value
  | get key => exact wp_step_get hc hw key
  | containsKey key => exact wp_step_containsKey hc hw key
  | getMut key f => exact wp_step_getMut hc hw key f
  | removeEntry key => exact wp_step_removeEntry hc hw key
  | remove key => exact wp_step_remove hc hw key
  | entryOrInsert key default => exact wp_step_entryOrInsert hc hw key default
  | tryInsert key value => exact wp_step_tryInsert hc hw key value
  | getOrInsertWith key value make => exact wp_step_getOrInsertWith hc hw key value make
  | retain f => exact wp_step_retain hc hw f
  | extractIf pred n => exact wp_step_extractIf hc hw pred n
  | drain n => exact wp_step_drain hc hw n
  | leakExtractIf pred n => exact wp_step_leakExtractIf hc hw pred n
  | leakDrain n => exact wp_step_leakDrain hc hw n
  | clear => exact wp_step_clear hc hw
  | reserve additional => exact wp_step_reserve hc hw additional
  | tryReserve additional => exact wp_step_tryReserve hc hw additional
  | shrinkTo minCapacity => exact wp_step_shrinkTo hc hw minCapacity
  | clone => exact wp_step_clone hc hw
  | iter => exact wp_step_iter hc hw
  | len => exact .looked hw rfl rfl

end Opthash.HashMap
