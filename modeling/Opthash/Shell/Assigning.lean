import Opthash.Shell.Retaining

namespace Opthash.HashSet

open Exec FiniteMap FiniteSet HashMap

variable {W T : Type} {b : Side → TableBackend W T Unit} {u : Side → User W T Unit}
  {R : (side : Side) → Reading (b side).Table (b side).Location (b side).Vacant (b side).Scan T Unit}
  {hash : Side → T → UInt64} {eqv : T → T → Bool} {copyKey : T → T} {copyValue : Unit → Unit} {ts : Sets b}
  {w : World W T Unit} {side : Side} {g : Prop → Prop} {Z : Panic → Sets b × World W T Unit → Prop}

/-- What an operator makes of the set on a side, and of its elements. -/
structure Assigned (R : (side : Side) → Reading (b side).Table (b side).Location (b side).Vacant (b side).Scan T Unit)
    (u : Side → User W T Unit) (eqv : T → T → Bool) (side : Side) (g : Prop → Prop) (values : Set T) (ts ts' : Sets b) :
    Prop where
  other : ts' side.other = ts side.other
  proper : Proper (R side) (u side) eqv (ts' side)
  changed : Changed g values (contents R eqv ts side) (contents R eqv ts' side)

theorem Assigned.update {values : Set T} {t : (b side).Table} (hproper : Proper (R side) (u side) eqv t)
    (hchanged : Changed g values (contents R eqv ts side) (elements (R side) eqv t)) :
    Assigned R u eqv side g values ts (Function.update ts side t) := by
  refine ⟨update_other ts side t, ?_, ?_⟩
  · rwa [Function.update_self]
  · change Changed g values _ (elements (R side) eqv (Function.update ts side t side))
    rwa [Function.update_self]

variable (hc : ∀ side, Contract (R side) (u side)) (hl : ∀ side, (u side).Lawful (hash side) eqv)
include hc hl

/-- The loops over the other set: what a round does to one element, the loop does to all of them. A round may rely on
the set having elements of the two sets alone, and on what the rounds before kept of its table. -/
theorem wp_forOther {body : T → Both b Unit} {I : (b side).Table → Prop}
    (hbody : ∀ value ts' w, Proper (R side) (u side) eqv (ts' side) →
      contents R eqv ts' side ⊆ contents R eqv ts side ∪ contents R eqv ts side.other → I (ts' side) →
      wp (body value) (fun _ s => Assigned R u eqv side g (listed eqv [value]) ts' s.1 ∧ I (s.1 side)) Z (ts', w))
    (hp : ∀ side, Proper (R side) (u side) eqv (ts side)) (hi : I (ts side)) :
    wp (forOther b side body) (fun _ s => Assigned R u eqv side g (contents R eqv ts side.other) ts s.1 ∧ I (s.1 side)) Z
      (ts, w) := by
  have hremaining := remaining_keys hc hp side.other
  have hapart : Apart eqv (keys R ts side.other) := apart_keys hp side.other
  rw [forOther, wp_bind, wp_get]
  refine wp_mono (Iterator.wp_forEach (K := fun rest s => ∃ passed, keys R ts side.other = passed ++ rest ∧
    Assigned R u eqv side g (listed eqv passed) ts s.1 ∧ I (s.1 side)) (fun rest => ?_) ?_ hremaining
    ⟨[], rfl, ⟨rfl, hp side, ?_⟩, hi⟩ hremaining.fuel) ?_ (fun _ _ => id)
  · refine lawful_iterator hc (hp side.other).stores.wf ?_
    rintro s ⟨passed, -, hassigned, -⟩
    exact hassigned.other
  · rintro value rest ⟨ts', w'⟩ ⟨passed, hkeys, hassigned, hi'⟩
    have hbound : contents R eqv ts' side ⊆ contents R eqv ts side ∪ contents R eqv ts side.other := by
      refine hassigned.changed.subset.trans (Set.union_subset_union_right _ ?_)
      rintro x ⟨y, hy, hxy⟩
      change x ∈ listed eqv (keys R ts side.other)
      rw [hkeys]
      exact ⟨y, List.mem_append_left _ hy, hxy⟩
    refine wp_mono (hbody value ts' w' hassigned.proper hbound hi') ?_ (fun _ _ => id)
    rintro _ s ⟨hround, hi''⟩
    rw [hkeys] at hapart
    refine ⟨passed ++ [value], by rw [hkeys, List.append_assoc]; rfl,
      ⟨hround.other.trans hassigned.other, hround.proper, ?_⟩, hi''⟩
    rw [listed_append]
    refine hassigned.changed.union hround.changed (Set.disjoint_left.mpr ?_)
    rintro x ⟨y, hy, hxy⟩ hx
    have hyvalue := (hl side).equality.trans _ _ _ ((hl side).equality.symm _ _ hxy) (mem_listed_singleton.mp hx)
    rw [(List.pairwise_append.mp hapart).2.2 y hy value (List.mem_cons_self ..)] at hyvalue
    cases hyvalue
  · rw [listed_nil]
    exact .refl g _
  · rintro _ s ⟨passed, hkeys, hassigned, hi'⟩
    rw [List.append_nil] at hkeys
    rw [← hkeys] at hassigned
    exact ⟨hassigned, hi'⟩

theorem wp_rounds {body : T → Both b Unit} (hbody : ∀ value ts w, Proper (R side) (u side) eqv (ts side) →
      wp (body value) (fun _ s => Assigned R u eqv side g (listed eqv [value]) ts s.1) Z (ts, w))
    (hp : ∀ side, Proper (R side) (u side) eqv (ts side)) :
    wp (forOther b side body) (fun _ s => Assigned R u eqv side g (contents R eqv ts side.other) ts s.1) Z (ts, w) := by
  refine wp_mono (wp_forOther (I := fun _ => True) hc hl (fun value ts' w' hp' _ _ => ?_) hp trivial)
    (fun _ _ h => h.1) (fun _ _ => id)
  exact wp_mono (hbody value ts' w' hp') (fun _ _ h => ⟨h, trivial⟩) fun _ _ => id

variable (hcopy : ∀ side, (u side).Copying eqv copyKey copyValue)

section Rounds

variable (value : T) (hp : Proper (R side) (u side) eqv (ts side))
include hp

theorem round_remove :
    wp (within b side (remove (b side) (u side) value))
      (fun removed s => (removed = true ↔ value ∈ contents R eqv ts side) ∧
        Assigned R u eqv side (fun _ => False) (listed eqv [value]) ts s.1)
      (fun p _ => p.Blamed (¬(u side).Calm)) (ts, w) := by
  rw [wp_within]
  refine wp_mono (wp_remove (hc side) (hl side) hp value) ?_ (fun _ _ => id)
  rintro removed s ⟨hremoved, hproper, helements⟩
  refine ⟨hremoved, .update hproper fun x => ?_⟩
  rw [mem_listed_singleton, helements x]
  refine ⟨fun hx => iff_of_false (fun h => ?_) id, fun hx => and_iff_left (by simpa using hx)⟩
  rw [hx] at h
  cases h.2

include hcopy

omit hc hl hcopy hp in
theorem Assigned.inserted {t : (b side).Table} {value' : T} (hproper : Proper (R side) (u side) eqv t)
    (h : ∀ x, x ∈ elements (R side) eqv t ↔ eqv x value' = true ∨ x ∈ contents R eqv ts side) :
    Assigned R u eqv side (fun _ => True) (listed eqv [value']) ts (Function.update ts side t) := by
  refine .update hproper fun x => ?_
  rw [mem_listed_singleton, h x]
  exact ⟨fun hx => iff_of_true (.inl hx) trivial, fun hx => or_iff_right hx⟩

theorem round_bitor :
    wp (do
        let _ ← within b side (getOrInsertClone (b side) (u side) value)
        pure () : Both b Unit)
      (fun _ s => Assigned R u eqv side (fun _ => True) (listed eqv [value]) ts s.1)
      (fun p _ => p.Blamed (¬(u side).Calm)) (ts, w) := by
  rw [wp_bind, wp_within]
  refine wp_mono (wp_getOrInsertClone (hc side) (hl side) (hcopy side) hp value) ?_ (fun _ _ h => h.1)
  rintro _ s ⟨hproper, helements⟩
  exact .inserted hproper helements

theorem round_bitxor :
    wp (do
        let removed ← within b side (remove (b side) (u side) value)
        if removed then pure ()
        else do
          let copy ← Exec.onSnd ((u side).cloneK value)
          let _ ← within b side (insert (b side) (u side) copy)
          pure () : Both b Unit)
      (fun _ s => Assigned R u eqv side Not (listed eqv [value]) ts s.1)
      (fun p _ => p.Blamed (¬(u side).Calm)) (ts, w) := by
  rw [wp_bind]
  refine wp_mono (round_remove hc hl value hp) ?_ (fun _ _ => id)
  rintro removed ⟨ts', w'⟩ ⟨hremoved, hassigned⟩
  have hequal : ∀ {x}, x ∈ listed eqv [value] → (x ∈ contents R eqv ts side ↔ removed = true) := fun hx =>
    (mem_listed_congr (hl side).equality (mem_listed_singleton.mp hx)).trans hremoved.symm
  have hrest := hassigned.changed
  cases removed with
  | true =>
    rw [if_pos rfl]
    refine ⟨hassigned.other, hassigned.proper, fun x => ⟨fun hx => ?_, (hrest x).2⟩⟩
    exact ((hrest x).1 hx).trans (iff_of_false id fun h => h ((hequal hx).mpr rfl))
  | false =>
    rw [if_neg Bool.false_ne_true, wp_bind, wp_onSnd]
    refine wp_mono (User.wp_cloneK (κ := fun _ => 0) value w') ?_ (fun _ _ h => h.1.blamed)
    rintro copy w'' ⟨hyield, -⟩
    obtain rfl : copy = copyKey value := (hcopy side).keys _ _ hyield
    have hsame := (hcopy side).same value
    have habsent : copyKey value ∉ contents R eqv ts' side := fun hmem =>
      ((hrest (copyKey value)).1 (mem_listed_singleton.mpr ((hl side).equality.symm _ _ hsame))).mp hmem
    rw [wp_bind, wp_within]
    refine wp_mono (wp_insert_absent (hc side) (hl side) hassigned.proper habsent) ?_ (fun _ _ => id)
    rintro _ s ⟨hproper, helements⟩
    have hinserted := Assigned.inserted hproper helements
    have hcopied : ∀ {x}, x ∈ listed eqv [copyKey value] ↔ x ∈ listed eqv [value] := by
      intro x
      rw [mem_listed_singleton, mem_listed_singleton]
      exact ⟨fun h => (hl side).equality.trans _ _ _ h ((hl side).equality.symm _ _ hsame),
        fun h => (hl side).equality.trans _ _ _ h hsame⟩
    refine ⟨hinserted.other.trans hassigned.other, hinserted.proper, fun x => ⟨fun hx => ?_, fun hx => ?_⟩⟩
    · refine ((hinserted.changed x).1 (hcopied.mpr hx)).trans (iff_of_true trivial fun h => ?_)
      cases (hequal hx).mp h
    · exact ((hinserted.changed x).2 fun h => hx (hcopied.mp h)).trans ((hrest x).2 hx)

end Rounds

section Retained

variable {κ : T ⊕ Unit → Nat} {keeps : T → Bool}

omit hc hl in
theorem Proper.finished {b : TableBackend W T Unit} {R : Reading b.Table b.Location b.Vacant b.Scan T Unit}
    {u : User W T Unit} {hash : T → UInt64} {pred : Predicate T Unit} {t final : b.Table} {kept : List (T × Unit)}
    {s : b.Table × World W T Unit} (hl : u.Lawful hash eqv) (hp : Proper R u eqv t)
    (h : Finished R u κ pred t w kept final s) : Proper R u eqv s.1 := by
  obtain ⟨w', hpruned, -, hmended⟩ := h
  have hkeeps := hpruned.keeps.trans hmended.keeps
  refine ⟨⟨hkeeps.wf, hkeeps.sound hp.stores.sound, hp.stores.distinct.of_subperm hl.equality ?_⟩,
    hkeeps.counted hp.counted⟩
  exact ((hmended.entries.trans hpruned.entries).map _).subperm.trans hpruned.keys

theorem answers_testMembership {J : W → Prop} {t : (b side.other).Table}
    (hs : Stores (R side.other) (u side.other) eqv t) (hJ : (u side.other).SearchStable J) (present : Bool) :
    Answers u J (answer (R side.other) eqv t present) t (testMembership b u side present) := by
  rintro value ts w rfl
  refine wp_mono (wp_testMembership hc hl hs hJ present value) (fun _ _ => id) ?_
  exact fun p s h => ⟨⟨_, h.1⟩, h.2⟩

theorem wp_retainMembers (hp : ∀ side, Proper (R side) (u side) eqv (ts side)) (side : Side) (present : Bool) :
    wp (retain b u side (testMembership b u side present))
      (fun _ s => s.1 side.other = ts side.other ∧ Proper (R side) (u side) eqv (s.1 side) ∧ contents R eqv s.1 side =
        listed eqv ((keys R ts side).filter (answer (R side.other) eqv (ts side.other) present)))
      (fun p _ => p.Blamed (Loud u)) (ts, w) := by
  have hanswers := answers_testMembership hc hl (hp side.other).stores (User.searchStable_true _) present
  refine wp_mono (HashSet.wp_retain (κ := fun _ => 0) hc hanswers ⟨fun _ _ => id, fun _ _ => id⟩ (hp side).stores.wf
    trivial) ?_ (fun _ _ h => h.1)
  rintro _ s ⟨hother, hdone⟩
  refine ⟨hother, (hp side).finished (hl side) hdone, ?_⟩
  obtain ⟨w', hpruned, -, hmended⟩ := hdone
  have hlength : ((R side).entries (ts side)).length ≤ HashSet.fuel b ts side := by
    have hfuel := (remaining_keys hc hp side).fuel
    rw [keys, List.length_map] at hfuel
    exact Nat.le_of_lt hfuel
  have hentries := hmended.entries.trans hpruned.entries
  rw [Predicate.extract_not Predicate.answering_ofKey _ _ hlength, Predicate.retained_ofKey] at hentries
  rw [contents, elements, listed_perm (hentries.map Prod.fst), keys, List.filter_map]
  rfl

end Retained

def Assign.target : Assign → Set T → Set T → Set T
  | .bitor, A, B => A ∪ B
  | .bitand, A, B => A ∩ B
  | .bitxor, A, B => symmDiff A B
  | .sub, A, B => A \ B

omit hc hl in
theorem blamed_loud {p : Panic} (h : p.Blamed (¬(u side).Calm)) : p.Blamed (Loud u) := h.mono fun hloud => ⟨side, hloud⟩

include hcopy in
theorem wp_assign (hp : ∀ side, Proper (R side) (u side) eqv (ts side)) (side : Side) (op : Assign) :
    wp (assign b u side op)
      (fun _ s => s.1 side.other = ts side.other ∧ Proper (R side) (u side) eqv (s.1 side) ∧
        contents R eqv s.1 side = op.target (contents R eqv ts side) (contents R eqv ts side.other))
      (fun p _ => p.Blamed (Loud u)) (ts, w) := by
  cases op with
  | bitor =>
    have hround := fun value (ts' : Sets b) w (hp : Proper (R side) (u side) eqv (ts' side)) =>
      round_bitor (w := w) hc hl hcopy value hp
    refine wp_mono (wp_rounds hc hl hround hp) ?_ (fun _ _ h => blamed_loud h)
    exact fun _ s h => ⟨h.other, h.proper, h.changed.eq_union⟩
  | bitand =>
    refine wp_mono (wp_retainMembers hc hl hp side true) ?_ (fun _ _ => id)
    exact fun _ s h => ⟨h.1, h.2.1, h.2.2.trans (listed_present hl side)⟩
  | bitxor =>
    have hround := fun value (ts' : Sets b) w (hp : Proper (R side) (u side) eqv (ts' side)) =>
      round_bitxor (w := w) hc hl hcopy value hp
    refine wp_mono (wp_rounds hc hl hround hp) ?_ (fun _ _ h => blamed_loud h)
    exact fun _ s h => ⟨h.other, h.proper, h.changed.eq_symmDiff⟩
  | sub =>
    change wp (subAssign b u side) _ _ _
    rw [subAssign, wp_bind, wp_get]
    dsimp only
    rw [wp_ite]
    constructor
    · intro _
      have hround : ∀ value ts w, Proper (R side) (u side) eqv (ts side) →
          wp (do
              let _ ← within b side (remove (b side) (u side) value)
              pure () : Both b Unit)
            (fun _ s => Assigned R u eqv side (fun _ => False) (listed eqv [value]) ts s.1)
            (fun p _ => p.Blamed (¬(u side).Calm)) (ts, w) := by
        intro value ts w hp
        rw [wp_bind]
        exact wp_mono (round_remove hc hl value hp) (fun _ _ h => h.2) fun _ _ => id
      refine wp_mono (wp_rounds hc hl hround hp) ?_ (fun _ _ h => blamed_loud h)
      exact fun _ s h => ⟨h.other, h.proper, h.changed.eq_diff⟩
    · intro _
      refine wp_mono (wp_retainMembers hc hl hp side false) ?_ (fun _ _ => id)
      exact fun _ s h => ⟨h.1, h.2.1, h.2.2.trans (listed_absent hl side)⟩

end Opthash.HashSet
