import Mathlib.Data.List.Perm.Subperm
import Opthash.Shell.Keys

namespace Opthash

namespace Predicate

variable {K V : Type} (pred : Predicate K V)

/-- The entries that match, up to `n` of them, and the entries left, from the pairs seen before on. -/
def extract : List (K × V) → List (K × V) → Nat → List (K × V) × List (K × V)
  | _, [], _ => ([], [])
  | _, e :: es, 0 => ([], e :: es)
  | seen, e :: es, n + 1 =>
    if (pred seen e).2 = some true then
      ((e.1, (pred seen e).1) :: (extract (seen ++ [e]) es n).1, (extract (seen ++ [e]) es n).2)
    else ((extract (seen ++ [e]) es (n + 1)).1, (e.1, (pred seen e).1) :: (extract (seen ++ [e]) es (n + 1)).2)

def Answering : Prop := ∀ seen e, (pred seen e).2.isSome

def Preserves (κ : K ⊕ V → Nat) : Prop := ∀ seen e, κ (.inr (pred seen e).1) = κ (.inr e.2)

end Predicate

namespace User

variable {W K V : Type} (u : User W K V)

def DropStable (J : W → Prop) : Prop := (∀ k c, J c → J (u.dropKey k c).2) ∧ ∀ v c, J c → J (u.dropValue v c).2

end User

namespace HashMap

open Exec Ledger

variable {W K V : Type} {b : TableBackend W K V}

section Definitions

variable (b)

def enumerate (t : b.Table) : Nat → b.Scan → List b.Location
  | 0, _ => []
  | fuel + 1, scan => match b.scanNext t scan with
    | (none, _) => []
    | (some loc, scan) => loc :: enumerate t fuel scan

/-- The table after the predicate was asked at each location, up to `n` matches. -/
def swept (pred : Predicate K V) : List (K × V) → List b.Location → Nat → b.Table → b.Table
  | _, [], _, t => t
  | _, _ :: _, 0, t => t
  | seen, loc :: locs, n + 1, t => match b.slotRef t loc with
    | none => t
    | some e =>
      let t' := b.writeValue loc e.1 (pred seen e).1 t
      if (pred seen e).2 = some true then swept pred (seen ++ [e]) locs n (b.extractFinish loc t')
      else swept pred (seen ++ [e]) locs (n + 1) t'

end Definitions

variable {R : Reading b.Table b.Location b.Vacant b.Scan K V} {u : User W K V} {κ : K ⊕ V → Nat}
  {pred : Predicate K V} {t₀ : b.Table} {w₀ : World W K V}

/-- A sweep in progress: the entries kept so far, and the locations and entries it has not come to. The entry
it has just taken out weighs `owed`. -/
structure Sweeping (R : Reading b.Table b.Location b.Vacant b.Scan K V) (u : User W K V) (κ : K ⊕ V → Nat)
    (pred : Predicate K V) (t₀ : b.Table) (w₀ : World W K V) (owed : Nat) (kept : List (K × V))
    (locs : List b.Location) (es : List (K × V)) (x : ExtractScan b.Scan K V) (t : b.Table) (w : World W K V) :
    Prop where
  keeps : R.Keeps u t₀ t
  capacity : R.capacity t = R.capacity t₀
  totalSlots : b.totalSlots t = b.totalSlots t₀
  unfinished : x.finished = false
  scanning : R.Scanning t x.scan locs
  nodup : locs.Nodup
  short : locs.length ≤ b.totalSlots t₀
  holds : List.Forall₂ (R.Holds t) locs es
  entries : (R.entries t).Perm (kept ++ es)
  keys : ((kept ++ es).map Prod.fst).Subperm ((R.entries t₀).map Prod.fst)
  gone : pred.Preserves κ →
    w.ledger.gone κ + weighEntries κ (kept ++ es) + owed = w₀.ledger.gone κ + weighEntries κ (R.entries t₀)
  made : w.ledger.made κ = w₀.ledger.made κ

structure Pruned (R : Reading b.Table b.Location b.Vacant b.Scan K V) (u : User W K V) (κ : K ⊕ V → Nat)
    (pred : Predicate K V) (t₀ : b.Table) (w₀ : World W K V) (kept : List (K × V)) (t : b.Table) (w : World W K V) :
    Prop where
  keeps : R.Keeps u t₀ t
  capacity : R.capacity t = R.capacity t₀
  entries : (R.entries t).Perm kept
  keys : (kept.map Prod.fst).Subperm ((R.entries t₀).map Prod.fst)
  gone : pred.Preserves κ →
    w.ledger.gone κ + weighEntries κ kept = w₀.ledger.gone κ + weighEntries κ (R.entries t₀)
  made : w.ledger.made κ = w₀.ledger.made κ

theorem Sweeping.pruned {kept es : List (K × V)} {locs : List b.Location} {x : ExtractScan b.Scan K V} {t : b.Table}
    {w : World W K V} (h : Sweeping R u κ pred t₀ w₀ 0 kept locs es x t w) :
    Pruned R u κ pred t₀ w₀ (kept ++ es) t w :=
  ⟨h.keeps, h.capacity, h.entries, h.keys, fun hp => h.gone hp, h.made⟩

section Visit

variable {kept es : List (K × V)} {loc : b.Location} {locs : List b.Location} {e : K × V}
  {x : ExtractScan b.Scan K V} {t : b.Table} {w : World W K V}

theorem holds_cons (h : List.Forall₂ (R.Holds t) (loc :: locs) (e :: es)) : R.Holds t loc e := by
  cases h
  assumption

theorem holds_later (hc : Contract R u) {t' : b.Table} (hdisturb : R.Undisturbed t loc t') (hloc : loc ∉ locs)
    (h : List.Forall₂ (R.Holds t) locs es) : List.Forall₂ (R.Holds t') locs es := by
  induction h with
  | nil => exact .nil
  | @cons loc' e' locs es he _ ih =>
    have hne : loc' ≠ loc := fun h => hloc (h ▸ List.mem_cons_self ..)
    exact .cons (hc.undisturbed hdisturb hne he) (ih fun h => hloc (List.mem_cons_of_mem _ h))

theorem Sweeping.visit (hc : Contract R u) (h : Sweeping R u κ pred t₀ w₀ 0 kept (loc :: locs) (e :: es) x t w) :
    ∃ scan', b.scanNext t x.scan = (some loc, scan') ∧
      Sweeping R u κ pred t₀ w₀ 0 (kept ++ [(e.1, (pred x.seen e).1)]) locs es
        { x with scan := scan', seen := x.seen ++ [e] } (b.writeValue loc e.1 (pred x.seen e).1 t) w ∧
      Sweeping R u κ pred t₀ w₀ (weighEntry κ (e.1, (pred x.seen e).1)) kept locs es
        { x with scan := scan', seen := x.seen ++ [e] }
        (b.extractFinish loc (b.writeValue loc e.1 (pred x.seen e).1 t)) w := by
  have he := holds_cons h.holds
  obtain ⟨hloc, hnodup⟩ := List.nodup_cons.mp h.nodup
  have hlater : List.Forall₂ (R.Holds t) locs es := (List.forall₂_cons.mp h.holds).2
  obtain ⟨scan', hscan, hnext⟩ := hc.scanNext_cons h.keeps.wf h.scanning
  obtain ⟨hsteady, ⟨rest, hbefore, hafter⟩, hholds, hundisturbed⟩ :=
    hc.writeValue (pred x.seen e).1 h.keeps.wf he
  have hw' := hsteady.wf
  obtain ⟨hkeeps, hcapacity, hperm, hundisturbed'⟩ := hc.extractFinish hw' hholds
  have hrest : rest.Perm (kept ++ es) := by
    have := hbefore.symm.trans h.entries
    exact (this.trans List.perm_middle).cons_inv
  have hwritten : (R.entries (b.writeValue loc e.1 (pred x.seen e).1 t)).Perm
      (kept ++ [(e.1, (pred x.seen e).1)] ++ es) := by
    rw [List.append_assoc]
    exact (hafter.trans (hrest.cons _)).trans List.perm_middle.symm
  have hkeys : ((kept ++ e :: es).map Prod.fst) = ((kept ++ [(e.1, (pred x.seen e).1)] ++ es).map Prod.fst) := by simp
  have hweight : pred.Preserves κ → weighEntry κ (e.1, (pred x.seen e).1) = weighEntry κ e := fun hp => by
    rw [weighEntry, weighEntry, hp]
  refine ⟨scan', hscan, ?_, ?_⟩
  · exact {
      keeps := h.keeps.trans hsteady.toKeeps
      capacity := hsteady.capacity.trans h.capacity
      totalSlots := (hc.totalSlots hundisturbed).trans h.totalSlots
      unfinished := h.unfinished
      scanning := hnext _ hw' hundisturbed
      nodup := hnodup
      short := Nat.le_of_succ_le h.short
      holds := holds_later hc hundisturbed hloc hlater
      entries := hwritten
      keys := hkeys ▸ h.keys
      gone := fun hp => by
        have hgone := h.gone hp
        simp only [weighEntries_append, weighEntries_cons, weighEntries_nil, hweight hp] at hgone ⊢
        omega
      made := h.made }
  · have hboth := hc.undisturbed_trans hundisturbed hundisturbed'
    exact {
      keeps := (h.keeps.trans hsteady.toKeeps).trans hkeeps
      capacity := hcapacity.trans (hsteady.capacity.trans h.capacity)
      totalSlots := (hc.totalSlots hboth).trans h.totalSlots
      unfinished := h.unfinished
      scanning := hnext _ hkeeps.wf hboth
      nodup := hnodup
      short := Nat.le_of_succ_le h.short
      holds := holds_later hc hboth hloc hlater
      entries := by
        have htaken := hperm.symm.trans hwritten
        rw [List.append_assoc] at htaken
        exact (htaken.trans List.perm_middle).cons_inv
      keys := by
        refine List.Subperm.trans (List.Sublist.subperm ?_) h.keys
        exact ((List.sublist_cons_self e es).append_left kept).map Prod.fst
      gone := fun hp => by
        have hgone := h.gone hp
        simp only [weighEntries_append, weighEntries_cons, hweight hp] at hgone ⊢
        omega
      made := h.made }

end Visit


section Next

variable {J : W → Prop} {kept es : List (K × V)} {locs : List b.Location} {x : ExtractScan b.Scan K V} {t : b.Table}
  {w : World W K V} {n : Nat}

def FinishPanic (R : Reading b.Table b.Location b.Vacant b.Scan K V) (u : User W K V) (κ : K ⊕ V → Nat)
    (pred : Predicate K V) (t₀ : b.Table) (w₀ : World W K V) (J : W → Prop) (final : b.Table) (p : Panic)
    (s : b.Table × World W K V) : Prop :=
  Halted u p ∧ ∃ kept w, Pruned R u κ pred t₀ w₀ kept final w ∧ J w.code ∧ s.2.ledger = w.ledger ∧
    R.Unsettled u final s.1 w.code (R.RefreshesDeferred final)

def Finished (R : Reading b.Table b.Location b.Vacant b.Scan K V) (u : User W K V) (κ : K ⊕ V → Nat)
    (pred : Predicate K V) (t₀ : b.Table) (w₀ : World W K V) (kept : List (K × V)) (final : b.Table)
    (s : b.Table × World W K V) : Prop :=
  ∃ w, Pruned R u κ pred t₀ w₀ kept final w ∧ s.2.ledger = w.ledger ∧ R.Mended u final s.1

theorem wp_finish (hc : Contract R u) (h : Pruned R u κ pred t₀ w₀ kept t w) (hj : J w.code) :
    wp b.finishDeferredRemovals (fun _ s => Finished R u κ pred t₀ w₀ kept t s)
      (FinishPanic R u κ pred t₀ w₀ J t) (t, w) := by
  refine wp_mono (hc.finishDeferredRemovals h.keeps.wf w) ?_ ?_
  · exact fun _ s ⟨hmended, _, hl⟩ => ⟨w, h, hl, hmended⟩
  · exact fun p s ⟨hp, hunsettled, _, hl⟩ => ⟨hp, kept, w, h, hj, hl, hunsettled⟩

/-- The predicate panicked on an entry, which keeps the value it was given. -/
def Refusal (R : Reading b.Table b.Location b.Vacant b.Scan K V) (u : User W K V) (κ : K ⊕ V → Nat)
    (pred : Predicate K V) (t₀ : b.Table) (w₀ : World W K V) (p : Panic)
    (s : ExtractScan b.Scan K V × b.Table × World W K V) : Prop :=
  p = .user ∧ ¬pred.Answering ∧ ∃ kept locs es, Sweeping R u κ pred t₀ w₀ 0 kept locs es s.1 s.2.1 s.2.2

theorem wp_nextMatchingFrom (hc : Contract R u) (h : Sweeping R u κ pred t₀ w₀ 0 kept locs es x t w) (hj : J w.code)
    {fuel : Nat} (hfuel : locs.length < fuel) :
    wp (nextMatchingFrom b pred fuel)
      (fun r s => match r with
        | some e => s.2.2 = w ∧ ∃ passed locs' rest,
            Sweeping R u κ pred t₀ w₀ (weighEntry κ e) (kept ++ passed) locs' rest s.1 s.2.1 s.2.2 ∧
            locs'.length < locs.length ∧
            (∀ n, pred.extract x.seen es (n + 1) =
              (e :: (pred.extract s.1.seen rest n).1, passed ++ (pred.extract s.1.seen rest n).2)) ∧
            ∀ n, swept b pred x.seen locs (n + 1) t = swept b pred s.1.seen locs' n s.2.1
        | none => s.1.finished = true ∧ ∃ passed final, Finished R u κ pred t₀ w₀ (kept ++ passed) final s.2 ∧
            (∀ n, pred.extract x.seen es (n + 1) = ([], passed)) ∧ ∀ n, swept b pred x.seen locs (n + 1) t = final)
      (fun p s => Refusal R u κ pred t₀ w₀ p s ∨
        s.1.finished = true ∧ ∃ final, FinishPanic R u κ pred t₀ w₀ J final p s.2 ∧
          ∀ n, swept b pred x.seen locs (n + 1) t = final) (x, t, w) := by
  induction fuel generalizing kept locs es x t with
  | zero => omega
  | succ fuel ih =>
    rw [nextMatchingFrom, wp_bind, wp_get]
    dsimp only
    cases locs with
    | nil =>
      obtain rfl : es = [] := List.forall₂_nil_left_iff.mp h.holds
      obtain ⟨scan', hscan, -⟩ := hc.scanNext_nil h.keeps.wf h.scanning
      have hpruned := h.pruned
      rw [List.append_nil] at hpruned
      rw [hscan]
      dsimp only
      rw [wp_bind, wp_modify, wp_bind, wp_onSnd]
      refine wp_mono (wp_finish hc hpruned hj) ?_ ?_
      · intro _ s hs
        exact ⟨rfl, [], t, by rwa [List.append_nil], fun _ => rfl, fun _ => rfl⟩
      · exact fun p s hs => .inr ⟨rfl, t, hs, fun _ => rfl⟩
    | cons loc locs =>
      cases es with
      | nil => cases h.holds
      | cons e es =>
        obtain ⟨scan', hscan, hrefuse, htake⟩ := h.visit hc
        have he := holds_cons h.holds
        have href := hc.slotRef he
        rw [hscan]
        dsimp only
        rw [wp_bind, wp_modify, wp_bind, wp_onSnd, wp_slotEntry hc he]
        dsimp only
        rw [wp_bind, wp_modify, wp_bind, wp_expect]
        refine ⟨fun matched hmatched => ?_, fun hnone => .inl ⟨rfl, fun hans => ?_, _, _, _, hrefuse⟩⟩
        · cases matched with
          | true =>
            rw [if_pos rfl, wp_bind, wp_modify]
            refine ⟨rfl, [], locs, es, by rwa [List.append_nil], Nat.lt_succ_self _, fun n => ?_, fun n => ?_⟩
            · simp only [Predicate.extract, hmatched, if_true, List.nil_append]
            · simp only [swept, href, hmatched, if_true]
          | false =>
            rw [if_neg Bool.false_ne_true]
            have hskip : (pred x.seen e).2 ≠ some true := by simp [hmatched]
            have hlater := ih (x := { x with scan := scan', seen := x.seen ++ [e] }) hrefuse
              (Nat.lt_of_succ_lt_succ hfuel)
            refine wp_mono hlater ?_ ?_
            · rintro (_ | e') s hr
              · obtain ⟨hfin, passed, final, hfinished, hextract, hswept⟩ := hr
                refine ⟨hfin, (e.1, (pred x.seen e).1) :: passed, final, ?_, fun n => ?_, fun n => ?_⟩
                · rwa [List.append_assoc] at hfinished
                · simp only [Predicate.extract, hskip, if_false, hextract n]
                · simp only [swept, href, hskip, if_false, hswept n]
              · obtain ⟨hworld, passed, locs', rest, hsweeping, hshort, hextract, hswept⟩ := hr
                refine ⟨hworld, (e.1, (pred x.seen e).1) :: passed, locs', rest, ?_, Nat.lt_succ_of_lt hshort,
                  fun n => ?_, fun n => ?_⟩
                · rwa [List.append_assoc] at hsweeping
                · simp only [Predicate.extract, hskip, if_false, hextract n, List.cons_append]
                · simp only [swept, href, hskip, if_false, hswept n]
            · rintro p s (hrefusal | ⟨hfin, final, hpanic, hswept⟩)
              · exact .inl hrefusal
              · refine .inr ⟨hfin, final, hpanic, fun n => ?_⟩
                simp only [swept, href, hskip, if_false, hswept n]
        · have := hans x.seen e
          rw [hnone] at this
          cases this

/-- Where a sweep asked `n` times stands, from the entries `es` at `locs` on. -/
inductive Halfway (R : Reading b.Table b.Location b.Vacant b.Scan K V) (u : User W K V) (κ : K ⊕ V → Nat)
    (pred : Predicate K V) (t₀ : b.Table) (w₀ : World W K V) (J : W → Prop) (kept left : List (K × V))
    (final : b.Table) : ExtractScan b.Scan K V × b.Table × World W K V → Prop
  | asking {passed : List (K × V)} {locs' : List b.Location} {rest : List (K × V)} {x : ExtractScan b.Scan K V}
      {w : World W K V} (sweeping : Sweeping R u κ pred t₀ w₀ 0 (kept ++ passed) locs' rest x final w)
      (code : J w.code) (rest : left = passed ++ rest) :
      Halfway R u κ pred t₀ w₀ J kept left final (x, final, w)
  | done {x : ExtractScan b.Scan K V} {s : b.Table × World W K V} (finished : x.finished = true)
      (settled : Finished R u κ pred t₀ w₀ (kept ++ left) final s) :
      Halfway R u κ pred t₀ w₀ J kept left final (x, s)

/-- How a sweep unwinds: in the predicate, in a destructor, or in the settling of its deletes. -/
inductive Torn (R : Reading b.Table b.Location b.Vacant b.Scan K V) (u : User W K V) (κ : K ⊕ V → Nat)
    (pred : Predicate K V) (t₀ : b.Table) (w₀ : World W K V) (J : W → Prop) (final : b.Table) (p : Panic) :
    ExtractScan b.Scan K V × b.Table × World W K V → Prop
  | asking {kept : List (K × V)} {locs : List b.Location} {es : List (K × V)} {x : ExtractScan b.Scan K V}
      {t : b.Table} {w : World W K V} (user : p = .user ∨ p = .abort) (cause : ¬u.Calm ∨ ¬pred.Answering)
      (sweeping : p ≠ .abort → Sweeping R u κ pred t₀ w₀ 0 kept locs es x t w) :
      Torn R u κ pred t₀ w₀ J final p (x, t, w)
  | settling {x : ExtractScan b.Scan K V} {s : b.Table × World W K V} (finished : x.finished = true)
      (panic : FinishPanic R u κ pred t₀ w₀ J final p s) : Torn R u κ pred t₀ w₀ J final p (x, s)

theorem wp_nextMatching_finished (hfin : x.finished = true)
    {Q : Option (K × V) → ExtractScan b.Scan K V × b.Table × World W K V → Prop}
    {Z : Panic → ExtractScan b.Scan K V × b.Table × World W K V → Prop} (hQ : Q none (x, t, w)) :
    wp (nextMatching b pred) Q Z (x, t, w) := by
  rw [nextMatching, wp_bind, wp_get]
  dsimp only
  rwa [if_pos hfin, wp_pure]

theorem nextMatching_unfinished (h : Sweeping R u κ pred t₀ w₀ 0 kept locs es x t w)
    {Q : Option (K × V) → ExtractScan b.Scan K V × b.Table × World W K V → Prop}
    {Z : Panic → ExtractScan b.Scan K V × b.Table × World W K V → Prop} :
    wp (nextMatching b pred) Q Z (x, t, w) ↔
      wp (nextMatchingFrom b pred (b.totalSlots t + 1)) Q Z (x, t, w) := by
  rw [nextMatching, wp_bind, wp_get]
  dsimp only
  rw [h.unfinished, if_neg Bool.false_ne_true]

theorem Sweeping.fuel (h : Sweeping R u κ pred t₀ w₀ 0 kept locs es x t w) : locs.length < b.totalSlots t + 1 := by
  rw [h.totalSlots]
  exact Nat.lt_succ_of_le h.short

theorem Sweeping.paid {owed : Nat} {w' : World W K V} (h : Sweeping R u κ pred t₀ w₀ owed kept locs es x t w)
    (hd : User.Dropped κ owed w w') : Sweeping R u κ pred t₀ w₀ 0 kept locs es x t w' :=
  { h with
    gone := fun hp => by
      have hgone := h.gone hp
      rw [hd.gone]
      omega
    made := hd.made.trans h.made }

theorem wp_handEntry (e : K × V) :
    wp (handEntry e) (fun _ w' => User.Dropped κ (weighEntry κ e) w w' ∧ w'.code = w.code) (fun _ _ => False) w := by
  simp only [handEntry, handK, handV, wp_bind, wp_modify]
  refine ⟨⟨?_, rfl⟩, rfl⟩
  simp only [World.logHanded, gone, weigh_cons, weighEntry]
  omega

theorem extract_zero (seen es : List (K × V)) : pred.extract seen es 0 = ([], es) := by
  cases es <;> rfl

theorem swept_zero (seen : List (K × V)) (locs : List b.Location) (t : b.Table) : swept b pred seen locs 0 t = t := by
  cases locs <;> rfl

theorem wp_yieldMatching_finished (hfin : x.finished = true) (n : Nat)
    {Z : Panic → ExtractScan b.Scan K V × b.Table × World W K V → Prop} :
    wp (yieldMatching b pred n) (fun r s => r = [] ∧ s = (x, t, w)) Z (x, t, w) := by
  induction n with
  | zero => exact ⟨rfl, rfl⟩
  | succ n ih =>
    rw [yieldMatching, wp_bind]
    exact wp_nextMatching_finished hfin ih

theorem wp_yieldMatching (hc : Contract R u) (h : Sweeping R u κ pred t₀ w₀ 0 kept locs es x t w) (hj : J w.code)
    (n : Nat) :
    wp (yieldMatching b pred n)
      (fun taken s => taken = (pred.extract x.seen es n).1 ∧
        Halfway R u κ pred t₀ w₀ J kept (pred.extract x.seen es n).2 (swept b pred x.seen locs n t) s)
      (fun p s => Torn R u κ pred t₀ w₀ J (swept b pred x.seen locs n t) p s) (x, t, w) := by
  induction n generalizing kept locs es x t w with
  | zero =>
    rw [extract_zero, swept_zero]
    have hall : Sweeping R u κ pred t₀ w₀ 0 (kept ++ []) locs es x t w := by rwa [List.append_nil]
    exact ⟨rfl, .asking hall hj rfl⟩
  | succ n ih =>
    rw [yieldMatching, wp_bind, nextMatching_unfinished h]
    refine wp_mono (wp_nextMatchingFrom hc h hj h.fuel) ?_ ?_
    · rintro (_ | e) ⟨x', t', w'⟩ hr
      · obtain ⟨hfin, passed, final, hfinished, hextract, hswept⟩ := hr
        refine wp_mono (wp_yieldMatching_finished hfin n) ?_ (fun _ _ => id)
        rintro _ _ ⟨rfl, rfl⟩
        rw [hextract n, hswept n]
        exact ⟨rfl, .done hfin hfinished⟩
      · obtain ⟨rfl, passed, locs', rest, hsweeping, -, hextract, hswept⟩ := hr
        dsimp only at hsweeping hextract hswept ⊢
        rw [hextract n, hswept n, wp_bind, wp_onSnd, wp_onSnd]
        refine wp_mono (wp_handEntry (κ := κ) e) ?_ (fun _ _ h => h.elim)
        rintro _ w₁ ⟨hd, hcode⟩
        rw [wp_bind]
        refine wp_mono (ih (hsweeping.paid hd) (hcode ▸ hj)) ?_ (fun _ _ => id)
        rintro taken s ⟨rfl, hhalf⟩
        rw [wp_pure]
        refine ⟨rfl, ?_⟩
        cases hhalf with
        | asking hs hcode hrest =>
          rw [List.append_assoc] at hs
          exact .asking hs hcode (by rw [hrest, List.append_assoc])
        | done hfin hsettled =>
          refine Halfway.done hfin ?_
          rwa [← List.append_assoc]
    · rintro p s (⟨rfl, hans, kept', locs', es', hs⟩ | ⟨hfin, final, hpanic, hswept⟩)
      · exact .asking (.inl rfl) (.inr hans) fun _ => hs
      · rw [hswept n]
        exact .settling hfin hpanic

theorem wp_dropEntry_stable (hJ : u.DropStable J) (e : K × V) (hj : J w.code) :
    wp (u.dropEntry e) (fun _ w' => J w'.code) (fun _ _ => True) w := by
  have hk : ∀ w : World W K V, J w.code → wp (u.dropK e.1) (fun _ w' => J w'.code) (fun _ w' => J w'.code) w := by
    intro w hj
    rw [User.dropK, wp_bind, wp_modify, World.wp_call]
    have := hJ.1 e.1 w.code hj
    unfold wp
    dsimp only [World.logDropped]
    split <;> rename_i hrun <;> rwa [hrun] at this
  have hv : ∀ w : World W K V, J w.code → wp (u.dropV e.2) (fun _ w' => J w'.code) (fun _ w' => J w'.code) w := by
    intro w hj
    rw [User.dropV, wp_bind, wp_modify, World.wp_call]
    have := hJ.2 e.2 w.code hj
    unfold wp
    dsimp only [World.logDropped]
    split <;> rename_i hrun <;> rwa [hrun] at this
  rw [User.dropEntry, wp_bind, wp_guarded]
  refine wp_mono (hk w hj) (fun _ w' hj' => wp_mono (hv w' hj') (fun _ _ => id) fun _ _ _ => trivial) ?_
  intro p w' hj'
  split
  · trivial
  · exact wp_mono (hv w' hj') (fun _ _ _ => trivial) fun _ _ _ => trivial

theorem wp_dropMatching (hc : Contract R u) (hJ : u.DropStable J)
    (h : Sweeping R u κ pred t₀ w₀ 0 kept locs es x t w) (hj : J w.code) {fuel : Nat} (hfuel : locs.length < fuel) :
    wp (dropMatching b u pred fuel)
      (fun _ s => Halfway R u κ pred t₀ w₀ J kept (pred.extract x.seen es fuel).2
        (swept b pred x.seen locs fuel t) s)
      (fun p s => Torn R u κ pred t₀ w₀ J (swept b pred x.seen locs fuel t) p s) (x, t, w) := by
  induction fuel generalizing kept locs es x t w with
  | zero => omega
  | succ fuel ih =>
    rw [dropMatching, wp_bind, nextMatching_unfinished h]
    refine wp_mono (wp_nextMatchingFrom hc h hj h.fuel) ?_ ?_
    · rintro (_ | e) ⟨x', t', w'⟩ hr
      · obtain ⟨hfin, passed, final, hfinished, hextract, hswept⟩ := hr
        rw [hextract fuel, hswept fuel]
        exact .done hfin hfinished
      · obtain ⟨rfl, passed, locs', rest, hsweeping, hshort, hextract, hswept⟩ := hr
        dsimp only at hsweeping hextract hswept hj ⊢
        rw [hextract fuel, hswept fuel, wp_bind, wp_onSnd, wp_onSnd]
        refine wp_mono (wp_and (User.wp_dropEntry (κ := κ) e w') (wp_dropEntry_stable hJ e hj)) ?_ ?_
        · rintro _ w₁ ⟨hd, hcode⟩
          refine wp_mono (ih (hsweeping.paid hd) hcode (by omega)) ?_ (fun _ _ => id)
          intro _ s hhalf
          cases hhalf with
          | asking hs hcode hrest =>
            rw [List.append_assoc] at hs
            exact .asking hs hcode (by rw [hrest, List.append_assoc])
          | done hfin hsettled =>
            refine .done hfin ?_
            rwa [← List.append_assoc]
        · rintro p w₁ ⟨⟨hp, hd⟩, -⟩
          exact .asking hp.1 (.inl hp.2) fun hne => hsweeping.paid (hd hne)
    · rintro p s (⟨rfl, hans, kept', locs', es', hs⟩ | ⟨hfin, final, hpanic, hswept⟩)
      · exact .asking (.inl rfl) (.inr hans) fun _ => hs
      · rw [hswept fuel]
        exact .settling hfin hpanic

def SweepPanic (R : Reading b.Table b.Location b.Vacant b.Scan K V) (u : User W K V) (κ : K ⊕ V → Nat)
    (pred : Predicate K V) (t₀ : b.Table) (w₀ : World W K V) (J : W → Prop) (final : b.Table) (p : Panic)
    (s : b.Table × World W K V) : Prop :=
  p.Blamed (¬u.Calm ∨ ¬pred.Answering) ∧ (p ≠ .abort →
    (∃ kept t₁, Finished R u κ pred t₀ w₀ kept t₁ s) ∨ FinishPanic R u κ pred t₀ w₀ J final p s)

theorem wp_withExtractScan (hc : Contract R u) {α : Type}
    {body : Exec Panic (ExtractScan b.Scan K V × b.Table × World W K V) α} {T : α → Prop} {left : List (K × V)}
    {final : b.Table}
    (hbody : wp body (fun a s => T a ∧ Halfway R u κ pred t₀ w₀ J [] left final s)
      (fun p s => Torn R u κ pred t₀ w₀ J final p s) (⟨b.scan t₀, false, []⟩, t₀, w₀)) :
    wp (withExtractScan b body)
      (fun a s => T a ∧ Finished R u κ pred t₀ w₀ left final s) (SweepPanic R u κ pred t₀ w₀ J final) (t₀, w₀) := by
  rw [withExtractScan, wp_bind, wp_get]
  dsimp only
  rw [wp_bind, wp_withLocal, wp_bind, wp_guarded]
  refine wp_mono hbody ?_ ?_
  · rintro a _ ⟨ha, ⟨hs, hcode, hrest⟩ | ⟨hfin, hsettled⟩⟩
    · have hpruned := hs.pruned
      rw [List.nil_append, ← hrest] at hpruned
      rw [wp_bind, dropExtractScan, wp_bind, wp_get]
      dsimp only
      rw [hs.unfinished, if_neg Bool.false_ne_true, wp_onSnd]
      refine wp_mono (wp_finish hc hpruned hcode) (fun _ s h => ⟨ha, h⟩) ?_
      exact fun p s h => ⟨h.1.blamed.mono .inl, fun _ => .inr h⟩
    · rw [wp_bind, dropExtractScan, wp_bind, wp_get]
      dsimp only
      rw [hfin, if_pos rfl]
      rw [List.nil_append] at hsettled
      exact ⟨ha, hsettled⟩
  · rintro p _ (⟨huser, hcause, hs⟩ | ⟨hfin, hpanic⟩)
    · split
      · rename_i he
        rw [he]
        exact ⟨.abort hcause, fun hne => absurd rfl hne⟩
      · rename_i hne
        obtain rfl := huser.resolve_right hne
        rw [dropExtractScan, wp_bind, wp_get]
        dsimp only
        rw [(hs hne).unfinished, if_neg Bool.false_ne_true, wp_onSnd]
        refine wp_mono (wp_finish hc (J := fun _ => True) (hs hne).pruned trivial) ?_ ?_
        · exact fun _ s h => ⟨.user hcause, fun _ => .inl ⟨_, _, h⟩⟩
        · exact fun _ _ _ => ⟨.abort hcause, fun hne => absurd rfl hne⟩
    · rw [if_neg hpanic.1.ne_abort, dropExtractScan, wp_bind, wp_get]
      dsimp only
      rw [hfin, if_pos rfl]
      exact ⟨hpanic.1.blamed.mono .inl, fun _ => .inr hpanic⟩

theorem scan_enumerate (hc : Contract R u) (hw : R.Wf t₀) :
    ∃ locs, locs = enumerate b t₀ (b.totalSlots t₀ + 1) (b.scan t₀) ∧ R.Scanning t₀ (b.scan t₀) locs ∧ locs.Nodup ∧
      List.Forall₂ (R.Holds t₀) locs (R.entries t₀) ∧ locs.length ≤ b.totalSlots t₀ := by
  obtain ⟨locs, es, hscan, hnodup, hholds, rfl, hshort⟩ := hc.scan hw
  have henumerate : ∀ {fuel scan locs}, R.Scanning t₀ scan locs → locs.length < fuel →
      locs = enumerate b t₀ fuel scan := by
    intro fuel
    induction fuel with
    | zero => exact fun _ h => absurd h (Nat.not_lt_zero _)
    | succ fuel ih =>
      intro scan locs hs hfuel
      cases locs with
      | nil =>
        obtain ⟨scan', hnext, -⟩ := hc.scanNext_nil hw hs
        rw [enumerate, hnext]
      | cons loc locs =>
        obtain ⟨scan', hnext, hrest⟩ := hc.scanNext_cons hw hs
        rw [enumerate, hnext]
        dsimp only
        rw [← ih (hrest t₀ hw (hc.undisturbed_refl loc)) (Nat.lt_of_succ_lt_succ hfuel)]
  exact ⟨locs, henumerate hscan (Nat.lt_succ_of_le hshort), hscan, hnodup, hholds, hshort⟩

theorem sweeping_scan (pred : Predicate K V) (hc : Contract R u) (hw : R.Wf t₀) (w : World W K V) :
    ∃ locs, locs = enumerate b t₀ (b.totalSlots t₀ + 1) (b.scan t₀) ∧ locs.length ≤ b.totalSlots t₀ ∧
      Sweeping R u κ pred t₀ w 0 [] locs (R.entries t₀) ⟨b.scan t₀, false, []⟩ t₀ w := by
  obtain ⟨locs, hlocs, hscan, hnodup, hholds, hshort⟩ := scan_enumerate hc hw
  refine ⟨locs, hlocs, hshort, ?_⟩
  exact {
    keeps := .refl hw
    capacity := rfl
    totalSlots := rfl
    unfinished := rfl
    scanning := hscan
    nodup := hnodup
    short := hshort
    holds := hholds
    entries := .refl _
    keys := .refl _
    gone := fun _ => rfl
    made := rfl }

def extracted (b : TableBackend W K V) (pred : Predicate K V) (n : Nat) (t : b.Table) : b.Table :=
  swept b pred [] (enumerate b t (b.totalSlots t + 1) (b.scan t)) n t

theorem wp_extractIf (hc : Contract R u) (hw : R.Wf t₀) (hj : J w₀.code) (n : Nat) :
    wp (extractIf b pred n)
      (fun taken s => taken = (pred.extract [] (R.entries t₀) n).1 ∧
        Finished R u κ pred t₀ w₀ (pred.extract [] (R.entries t₀) n).2 (extracted b pred n t₀) s)
      (SweepPanic R u κ pred t₀ w₀ J (extracted b pred n t₀)) (t₀, w₀) := by
  obtain ⟨locs, rfl, -, hs⟩ := sweeping_scan (κ := κ) pred hc hw w₀
  exact wp_withExtractScan (T := fun taken => taken = (pred.extract [] (R.entries t₀) n).1) hc
    (wp_yieldMatching hc hs hj n)

def retained (b : TableBackend W K V) (f : Predicate K V) (t : b.Table) : b.Table :=
  extracted b f.not (b.totalSlots t + 1) t

theorem wp_retain (hc : Contract R u) (hJ : u.DropStable J) (hw : R.Wf t₀) (hj : J w₀.code) (f : Predicate K V) :
    wp (retain b u f)
      (fun _ s => Finished R u κ f.not t₀ w₀ (f.not.extract [] (R.entries t₀) (b.totalSlots t₀ + 1)).2
        (retained b f t₀) s)
      (SweepPanic R u κ f.not t₀ w₀ J (retained b f t₀)) (t₀, w₀) := by
  obtain ⟨locs, hlocs, hshort, hs⟩ := sweeping_scan (κ := κ) f.not hc hw w₀
  subst hlocs
  rw [retain, wp_bind, wp_get]
  dsimp only
  have hbody := wp_dropMatching hc hJ hs hj (Nat.lt_succ_of_le hshort)
  refine wp_mono (wp_withExtractScan (T := fun _ => True) hc
    (wp_mono hbody (fun _ _ h => ⟨trivial, h⟩) fun _ _ => id)) (fun _ _ h => h.2) (fun _ _ => id)

theorem wp_leakExtractIf (hc : Contract R u) (hw : R.Wf t₀) (hj : J w₀.code) (n : Nat) :
    wp (leakExtractIf b pred n)
      (fun taken s => taken = (pred.extract [] (R.entries t₀) n).1 ∧
        (Finished R u κ pred t₀ w₀ (pred.extract [] (R.entries t₀) n).2 (extracted b pred n t₀) s ∨
          Pruned R u κ pred t₀ w₀ (pred.extract [] (R.entries t₀) n).2 s.1 s.2))
      (fun p s => p.Blamed (¬u.Calm ∨ ¬pred.Answering) ∧ (p ≠ .abort →
        (∃ kept, Pruned R u κ pred t₀ w₀ kept s.1 s.2) ∨ FinishPanic R u κ pred t₀ w₀ J (extracted b pred n t₀) p s))
      (t₀, w₀) := by
  obtain ⟨locs, rfl, -, hs⟩ := sweeping_scan (κ := κ) pred hc hw w₀
  rw [leakExtractIf, wp_bind, wp_get]
  dsimp only
  rw [wp_bind, wp_withLocal]
  refine wp_mono (wp_yieldMatching hc hs hj n) ?_ ?_
  · rintro taken _ ⟨rfl, ⟨hsweeping, -, hrest⟩ | ⟨-, hsettled⟩⟩
    · have hpruned := hsweeping.pruned
      rw [List.nil_append, ← hrest] at hpruned
      exact ⟨rfl, .inr hpruned⟩
    · exact ⟨rfl, .inl hsettled⟩
  · rintro p _ (⟨huser, hcause, hsweeping⟩ | ⟨-, hpanic⟩)
    · refine ⟨?_, fun hne => .inl ⟨_, (hsweeping hne).pruned⟩⟩
      rcases huser with rfl | rfl
      · exact .user hcause
      · exact .abort hcause
    · exact ⟨hpanic.1.blamed.mono .inl, fun _ => .inr hpanic⟩

end Next

end HashMap

end Opthash
