import Opthash.Shell.Scripts

namespace Opthash

open FiniteMap

namespace Op

variable {W K V : Type} {u : User W K V} {hash : K → UInt64} {eqv : K → K → Bool}

/-- A key that a closure makes for an absent query hashes like the query, and no stored key equals it. -/
def Fitting (hash : K → UInt64) (eqv : K → K → Bool) (m : List (K × V)) : Op K V → Prop
  | .getOrInsertWith key _ (some made) => find eqv key m = none → hash made = hash key ∧ find eqv made m = none
  | _ => True

theorem Plain.fitting {op : Op K V} (hl : u.Lawful hash eqv) (hplain : op.Plain eqv) (m : List (K × V)) :
    op.Fitting hash eqv m := by
  cases op with
  | getOrInsertWith key value make =>
    cases make with
    | none => trivial
    | some made =>
      intro hnone
      have hsame := hplain.2.2 key value made rfl
      refine ⟨(hl.congr _ _ hsame).symm, find_eq_none.mpr fun e he => ?_⟩
      by_contra hmade
      have := hl.equality.trans _ _ _ hsame (by simpa using hmade)
      rw [find_eq_none.mp hnone e he] at this
      cases this
  | _ => trivial

theorem Fitting.consistent {op : Op K V} {copyKey : K → K} {copyValue : V → V} {m : List (K × V)}
    (hl : u.Lawful hash eqv) (hcopy : u.Copying eqv copyKey copyValue) (h : op.Fitting hash eqv m) :
    op.Consistent u ∨ ∃ key value make, op = .getOrInsertWith key value make ∧ find eqv key m ≠ none := by
  cases op with
  | getOrInsertWith key value make =>
    cases make with
    | none => exact .inl trivial
    | some made =>
      by_cases hnone : find eqv key m = none
      · refine .inl fun x hx => ?_
        rw [hl.hashes] at hx ⊢
        exact hx.trans (h hnone).1.symm
      · exact .inr ⟨key, value, some made, rfl, hnone⟩
  | clone => exact .inl (hl.clonesHash hcopy)
  | _ => exact .inl trivial

end Op

namespace HashMap

open Exec

variable {W K V : Type} {b : TableBackend W K V} {R : Reading b.Table b.Location b.Vacant b.Scan K V} {u : User W K V}
  {hash : K → UInt64} {eqv : K → K → Bool} {copyKey : K → K} {copyValue : V → V} {t t' : b.Table} {w : World W K V}
  {key : K} {value : V}

def SameKeys (R : Reading b.Table b.Location b.Vacant b.Scan K V) (t t' : b.Table) : Prop :=
  ((R.entries t').map Prod.fst).Perm ((R.entries t).map Prod.fst)

theorem SameKeys.of_eq (h : t' = t) : SameKeys R t t' := h ▸ List.Perm.refl _

theorem SameKeys.of_perm (h : (R.entries t').Perm (R.entries t)) : SameKeys R t t' := h.map _

theorem SameKeys.of_replaced {key : K} {value old : V} (h : R.Replaced u t t' key value old) : SameKeys R t t' := by
  obtain ⟨k, rest, -, hbefore, hafter⟩ := h.entries
  have hkeys := hafter.map Prod.fst
  rw [List.map_cons] at hkeys
  have hkeys' := hbefore.map Prod.fst
  rw [List.map_cons] at hkeys'
  exact hkeys.trans hkeys'.symm

def Within (R : Reading b.Table b.Location b.Vacant b.Scan K V) (t t' : b.Table) : Prop :=
  ((R.entries t').map Prod.fst).Subperm ((R.entries t).map Prod.fst)

theorem Within.of_split {m : List (K × V)} (h : (R.entries t).Perm (m ++ R.entries t')) : Within R t t' := by
  have hkeys := (List.sublist_append_right m (R.entries t')).map Prod.fst
  exact hkeys.subperm.trans (h.map Prod.fst).symm.subperm

theorem Within.of_sweep {κ : K ⊕ V → Nat} {pred : Predicate K V} {J : W → Prop} {final : b.Table} {p : Panic}
    {s : b.Table × World W K V} (h : SweepPanic R u κ pred t w J final p s) (hne : p ≠ .abort) : Within R t s.1 := by
  rcases h.2 hne with ⟨kept, t₁, w₁, hpruned, -, hmended⟩ | ⟨-, kept, w₁, hpruned, -, -, hunsettled⟩
  · exact ((hmended.entries.trans hpruned.entries).map _).subperm.trans hpruned.keys
  · exact ((hunsettled.entries.trans hpruned.entries).map _).subperm.trans hpruned.keys

/-- The keys a call leaves: those before it or, where it deletes, some of them; clones of them; or one more that its
search did not find. -/
inductive Rekeyed (R : Reading b.Table b.Location b.Vacant b.Scan K V) (u : User W K V) (op : Op K V) (t t' : b.Table) :
    Prop
  | same (h : SameKeys R t t')
  | within (hop : op.Deletes) (h : Within R t t')
  | cloned (hop : op = .clone) (h : Cloned R u t t')
  | admitted {query key : K} {value : V} (hop : key = query ∨ op = .getOrInsertWith query value (some key))
      (h : Admitted R u t t' query key value)

theorem wp_step_rekeyed (hc : Contract R u) (hw : R.Wf t) (op : Op K V) :
    wp (step b u op) (fun _ s => Rekeyed R u op t s.1) (fun p s => p ≠ .abort → Rekeyed R u op t s.1) (t, w) := by
  have hlooked : ∀ p s, LookupPanic u t w.ledger p s → p ≠ .abort → Rekeyed R u op t s.1 :=
    fun _ _ h _ => .same (.of_eq h.2.1)
  have hplaced : ∀ {key : K} {value : V} p s, NotPlaced R u (fun _ => 0) t key value w p s → p ≠ .abort →
      Rekeyed R u op t s.1 := fun _ _ h hne => .same (.of_perm (h.2 hne).1.entries)
  have hnil : ∀ {t' : b.Table}, op.Deletes → R.entries t' = [] → Rekeyed R u op t t' := by
    intro t' hdeletes hnil
    refine .within hdeletes ?_
    rw [Within, hnil]
    exact List.nil_subperm
  have hpruned : ∀ {pred : Predicate K V} {kept : List (K × V)} {t' : b.Table} {w' : World W K V},
      Pruned R u (fun _ => 0) pred t w kept t' w' → Within R t t' :=
    fun h => (h.entries.map Prod.fst).subperm.trans h.keys
  have hfinished : ∀ {pred : Predicate K V} {kept : List (K × V)} {final : b.Table} {s : b.Table × World W K V},
      op.Deletes → Finished R u (fun _ => 0) pred t w kept final s → Rekeyed R u op t s.1 :=
    fun hdeletes ⟨_, h, _, hmended⟩ => .within hdeletes (((hmended.entries.trans h.entries).map Prod.fst).subperm.trans h.keys)
  have hhanded : ∀ (old : Option V) (s : b.Table × World W K V), Rekeyed R u op t s.1 → wp (do
      onSnd (old.elim (pure ()) handV)
      pure (.value old) : Step b (Ret K V)) (fun _ s => Rekeyed R u op t s.1)
      (fun p s => p ≠ .abort → Rekeyed R u op t s.1) s := by
    intro old s h
    rw [wp_bind, wp_onSnd]
    exact wp_handValue (κ := fun _ => 0) old fun _ _ => h
  cases op with
  | insert key value =>
    rw [step, wp_bind]
    refine wp_mono (wp_insert (κ := fun _ => 0) hc hw key value) (fun old s h => hhanded old s ?_) ?_
    · obtain ⟨hreplaced, hadded⟩ := h
      cases old with
      | none =>
        obtain ⟨x, hx, hrefuted, hadded, -⟩ := hadded rfl
        exact .admitted (.inl rfl) ⟨x, hx, hrefuted, hadded⟩
      | some old => exact .same (.of_replaced (hreplaced old rfl).1)
    · rintro p s ⟨-, -, hrest⟩ hne
      rcases hrest hne with ⟨hsame, -⟩ | ⟨old, hreplaced, -⟩
      · exact .same (.of_perm hsame.entries)
      · exact .same (.of_replaced hreplaced)
  | get key =>
    rw [step, wp_map]
    exact wp_mono (wp_getValue hc hw key) (fun _ _ h => .same (.of_eq h.1)) hlooked
  | containsKey key =>
    rw [step, wp_map]
    exact wp_mono (wp_containsKey hc hw key) (fun _ _ h => .same (.of_eq h.1)) hlooked
  | getMut key f =>
    rw [step, wp_map]
    refine wp_mono (wp_getMut hc hw key f) ?_ hlooked
    rintro (_ | old) s ⟨-, hmutated, hmiss⟩
    · exact .same (.of_eq (hmiss rfl).1)
    · obtain ⟨-, k, rest, -, hbefore, hafter⟩ := hmutated old rfl
      have hkeys := (hafter.map Prod.fst).trans (hbefore.map Prod.fst).symm
      exact .same hkeys
  | removeEntry key =>
    rw [step, wp_bind]
    refine wp_mono (wp_removeEntry (κ := fun _ => 0) hc (J := fun _ => True) (fun _ _ _ _ => trivial) hw key
      fun _ _ _ => trivial) ?_ ?_
    · rintro (_ | e) s ⟨-, hremoved, hmiss⟩
      · exact .same (.of_eq (hmiss rfl).1)
      · rw [wp_bind, wp_onSnd]
        refine wp_mono (wp_handEntry (κ := fun _ => 0) e) (fun _ _ _ => ?_) fun _ _ h => h.elim
        exact .within trivial (.of_split (m := [e]) (hremoved e rfl).entries)
    · rintro p s ⟨-, hrest⟩ hne
      rcases hrest hne with ⟨ht, -⟩ | ⟨loc, e, code, -, -, -, hunfinished, -⟩
      · exact .same (.of_eq ht)
      · exact .within trivial (.of_split (m := [e]) hunfinished.entries)
  | remove key =>
    rw [step, wp_bind]
    refine wp_mono (wp_remove (κ := fun _ => 0) hc (J := fun _ => True) (fun _ _ _ _ => trivial) hw key
      fun _ _ _ => trivial) (fun old s h => hhanded old s ?_) ?_
    · obtain ⟨hremoved, hmiss⟩ := h
      cases old with
      | none => exact .same (.of_eq (hmiss rfl).1)
      | some v =>
        obtain ⟨k, hremoved, -⟩ := hremoved v rfl
        exact .within trivial (.of_split (m := [(k, v)]) hremoved.entries)
    · rintro p s (⟨-, hrest⟩ | ⟨-, hrest⟩) hne
      · rcases hrest hne with ⟨ht, -⟩ | ⟨loc, e, code, -, -, -, hunfinished, -⟩
        · exact .same (.of_eq ht)
        · exact .within trivial (.of_split (m := [e]) hunfinished.entries)
      · obtain ⟨e, hremoved, -⟩ := hrest hne
        exact .within trivial (.of_split (m := [e]) hremoved.entries)
  | entryOrInsert key default =>
    rw [step, wp_map]
    refine wp_mono (wp_entryOrInsert (κ := fun _ => 0) hc hw key default) ?_ hplaced
    rintro _ s (⟨e, -, -, ht, -⟩ | ⟨-, hadmitted, -⟩)
    · exact .same (.of_eq ht)
    · exact .admitted (.inl rfl) hadmitted
  | tryInsert key value =>
    rw [step, wp_bind]
    refine wp_mono (wp_tryInsert (κ := fun _ => 0) hc hw key value) ?_ hplaced
    rintro (e | shown) s hresult
    · rw [wp_bind, wp_onSnd]
      exact .same (.of_eq hresult.2.1)
    · rw [wp_bind, wp_onSnd]
      exact .admitted (.inl rfl) hresult.2.1
  | getOrInsertWith key value make =>
    rw [step, wp_map]
    refine wp_mono (wp_getOrInsertWith (κ := fun _ => 0) hc hw key value make) ?_ ?_
    · rintro shown s (⟨e, -, -, ht, -⟩ | ⟨rfl, hadmitted, -⟩)
      · exact .same (.of_eq ht)
      · exact .admitted (.inr rfl) hadmitted
    · exact fun p s h hne => .same (.of_perm (h.2 hne).1.entries)
  | retain f =>
    rw [step, wp_map]
    refine wp_mono (wp_retain (κ := fun _ => 0) (J := fun _ => True) hc ⟨fun _ _ => id, fun _ _ => id⟩ hw trivial f)
      (fun _ _ h => hfinished trivial h) ?_
    exact fun p s h hne => .within trivial (.of_sweep h hne)
  | extractIf pred n =>
    rw [step, wp_map]
    refine wp_mono (wp_extractIf (κ := fun _ => 0) (J := fun _ => True) hc hw trivial n) (fun _ _ h => hfinished trivial h.2) ?_
    exact fun p s h hne => .within trivial (.of_sweep h hne)
  | drain n =>
    rw [step, wp_map]
    refine wp_mono (wp_drain (κ := fun _ => 0) hc hw n) (fun _ _ h => hnil trivial h.2.1.entries) ?_
    rintro p s ⟨-, -, hrest⟩ hne
    obtain ⟨locs, es, scan, -, hdraining⟩ := hrest hne
    refine .within trivial ((hdraining.entries.map Prod.fst).subperm.trans ?_)
    exact (hdraining.suffix.sublist.map Prod.fst).subperm
  | leakExtractIf pred n =>
    rw [step, wp_map]
    refine wp_mono (wp_leakExtractIf (κ := fun _ => 0) (J := fun _ => True) hc hw trivial n) ?_ ?_
    · rintro _ s ⟨-, hdone | hleft⟩
      · exact hfinished trivial hdone
      · exact .within trivial (hpruned hleft)
    · rintro p s ⟨-, hrest⟩ hne
      rcases hrest hne with ⟨kept, hleft⟩ | ⟨-, kept, w₁, hleft, -, -, hunsettled⟩
      · exact .within trivial (hpruned hleft)
      · exact .within trivial (((hunsettled.entries.trans hleft.entries).map _).subperm.trans hleft.keys)
  | leakDrain n =>
    rw [step, wp_map]
    refine wp_mono (wp_leakDrain (κ := fun _ => 0) hc hw n) ?_ fun _ _ h => h.elim
    rintro _ s ⟨-, locs, scan, hdraining⟩
    refine .within trivial ((hdraining.entries.map Prod.fst).subperm.trans ?_)
    exact (hdraining.suffix.sublist.map Prod.fst).subperm
  | clear =>
    rw [step, wp_map]
    refine wp_mono (hc.clear hw (fun _ => 0) w) (fun _ _ h => hnil trivial h.2.1) ?_
    rintro p s ⟨-, hrest⟩ hne
    obtain ⟨-, -, taken, hperm, -⟩ := hrest hne
    exact .within trivial (.of_split hperm)
  | reserve additional =>
    rw [step, wp_map]
    refine wp_mono (wp_reserve hc hw additional) ?_ fun _ _ h _ => .same (.of_eq h.2.1)
    rintro _ s (⟨ht, -, -⟩ | ⟨-, hrefitted, -⟩)
    · exact .same (.of_eq ht)
    · exact .same (.of_perm hrefitted.entries)
  | tryReserve additional =>
    rw [step, wp_map]
    refine wp_mono (wp_tryReserve hc hw additional) ?_ fun _ _ h _ => .same (.of_eq h.2.1)
    rintro (error | _) s hresult
    · exact .same (.of_eq hresult.1)
    · rcases hresult with ⟨ht, -, -⟩ | ⟨-, hrefitted, -⟩
      · exact .same (.of_eq ht)
      · exact .same (.of_perm hrefitted.entries)
  | shrinkTo minCapacity =>
    rw [step, wp_map]
    refine wp_mono (hc.shrinkTo hw minCapacity w) (fun _ _ h => .same (.of_perm h.1.entries)) ?_
    exact fun _ _ h _ => .same (.of_eq h.2.1)
  | clone =>
    rw [step, wp_map]
    refine wp_mono (wp_clone (κ := fun _ => 0) hc hw) (fun _ _ h => .cloned rfl h.1) ?_
    rintro p s ⟨-, hrest⟩ hne
    rcases hrest hne with ⟨ht, -⟩ | ⟨hcloned, -⟩
    · exact .same (.of_eq ht)
    · exact .cloned rfl hcloned
  | iter =>
    rw [step, wp_map]
    refine wp_mono (wp_iter hc hw) ?_ fun _ _ h => h.elim
    rintro _ s ⟨-, rfl⟩
    exact .same (.of_eq rfl)
  | len => exact .same (.of_eq rfl)

theorem Cloned.distinct (hl : u.Lawful hash eqv) (hcopy : u.Copying eqv copyKey copyValue) (h : Cloned R u t t')
    (hd : Distinct eqv (R.entries t)) : Distinct eqv (R.entries t') := by
  rw [hcopy.copied h.entries]
  have hplain : (Op.clone : Op K V).Plain eqv := ⟨trivial, id, nofun⟩
  exact Op.distinct_apply hl.equality hcopy.same hplain hd

theorem Rekeyed.distinct {op : Op K V} (hc : Contract R u) (hl : u.Lawful hash eqv)
    (hcopy : u.Copying eqv copyKey copyValue) (hr : Stores R u eqv t) (hfitting : op.Fitting hash eqv (R.entries t))
    (h : Rekeyed R u op t t') : Distinct eqv (R.entries t') := by
  cases h with
  | same h => exact hr.distinct.of_subperm hl.equality h.subperm
  | within _ h => exact hr.distinct.of_subperm hl.equality h
  | cloned _ h => exact h.distinct hl hcopy hr.distinct
  | admitted hop h =>
    obtain ⟨x, hx, hrefuted, hadded⟩ := h
    have habsent := Absent.find hc hl hr ⟨x, hx, hrefuted⟩
    refine Distinct.perm hl.equality (distinct_put_absent hr.distinct ?_) hadded.entries
    rcases hop with rfl | rfl
    · exact habsent
    · exact (hfitting habsent).2

theorem Rekeyed.length_le {op : Op K V} (h : Rekeyed R u op t t') (hkeeps : ¬op.Deletes) :
    (R.entries t).length ≤ (R.entries t').length := by
  cases h with
  | same h =>
    have hlength := h.length_eq
    rw [List.length_map, List.length_map] at hlength
    exact Nat.le_of_eq hlength.symm
  | within hdeletes _ => exact absurd hdeletes hkeeps
  | cloned _ h => exact Nat.le_of_eq h.entries.length_eq
  | admitted _ h =>
    obtain ⟨x, -, -, hadded⟩ := h
    rw [hadded.entries.length_eq]
    exact Nat.le_succ _

theorem wp_getOrInsertWith_present (hc : Contract R u) (hl : u.Lawful hash eqv) (hr : Stores R u eqv t) {make : Option K}
    (hpresent : find eqv key (R.entries t) ≠ none) :
    wp (step b u (.getOrInsertWith key value make)) (fun _ s => s.1 = t) (fun p s => p ≠ .abort → R.Stretched u t s.1)
      (t, w) := by
  rw [step, wp_map]
  refine wp_mono (wp_getOrInsertWith (κ := fun _ => 0) hc hr.wf key value make) ?_ (fun p s h hne => (h.2 hne).1)
  rintro shown s (⟨e, -, -, ht, -⟩ | ⟨-, ⟨x, hx, hrefuted, -⟩, -⟩)
  · exact ht
  · exact absurd (Absent.find hc hl hr ⟨x, hx, hrefuted⟩) hpresent

/-- A call of lawful code that returns or unwinds leaves a finite map where lookups find it, if its closure makes a
fitting key and the hasher lasts for the refresh of the filter it may come to. -/
theorem wp_step_stores (hc : Contract R u) (hl : u.Lawful hash eqv) (hcopy : u.Copying eqv copyKey copyValue)
    (hr : Stores R u eqv t) {op : Op K V} (hfitting : op.Fitting hash eqv (R.entries t)) :
    wp (step b u op) (fun _ s => Stores R u eqv s.1)
      (fun p s => p ≠ .abort → op.Steadfast R u t w.code → Stores R u eqv s.1) (t, w) := by
  rcases hfitting.consistent hl hcopy with hconsistent | ⟨key, value, make, rfl, hpresent⟩
  · refine wp_mono (wp_and (wp_step (κ := fun _ => 0) (w := w) hc hr.wf op) (wp_step_rekeyed hc hr.wf op)) ?_ ?_
    · rintro r s ⟨hdone, hrekeyed⟩
      exact ⟨hdone.wf, hdone.sound hconsistent hr.sound, hrekeyed.distinct hc hl hcopy hr hfitting⟩
    · rintro p s ⟨⟨-, hremains⟩, hrekeyed⟩ hne hsteadfast
      have hremains := hremains hne
      exact ⟨hremains.wf, hremains.sound hconsistent (fun _ => hsteadfast) hr.sound,
        (hrekeyed hne).distinct hc hl hcopy hr hfitting⟩
  · refine wp_mono (wp_getOrInsertWith_present hc hl hr hpresent) ?_ ?_
    · rintro r ⟨t', w'⟩ ht
      obtain rfl : t' = t := ht
      exact hr
    · intro p s hstretched hne _
      obtain ⟨hkeeps, hperm⟩ := (hstretched hne).toRearranged
      exact ⟨hkeeps.wf, hkeeps.sound hr.sound, hr.distinct.perm hl.equality hperm⟩

end HashMap

end Opthash
