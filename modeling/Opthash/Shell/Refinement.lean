import Opthash.Shell.Spec

namespace Opthash.HashMap

open Exec FiniteMap

variable {W K V : Type} {b : TableBackend W K V} {R : Reading b.Table b.Location b.Vacant b.Scan K V} {u : User W K V}
  {hash : K → UInt64} {eqv : K → K → Bool} {copyKey : K → K} {copyValue : V → V} {t t' : b.Table} {w : World W K V}
  {key : K} {value : V} {e : K × V}

structure Stores (R : Reading b.Table b.Location b.Vacant b.Scan K V) (u : User W K V) (eqv : K → K → Bool)
    (t : b.Table) : Prop where
  wf : R.Wf t
  sound : R.Sound u True t
  distinct : Distinct eqv (R.entries t)

/-- What a call returned and left is what the finite map returns and leaves. -/
def Refines (R : Reading b.Table b.Location b.Vacant b.Scan K V) (eqv : K → K → Bool) (copyKey : K → K)
    (copyValue : V → V) (op : Op K V) (t : b.Table) (r : Ret K V) (t' : b.Table) : Prop :=
  ∃ m', op.Meets eqv copyKey copyValue (R.entries t) r m' ∧ (R.entries t').Perm m'

theorem Refines.apply {op : Op K V} {r : Ret K V}
    (hr : r = (op.apply eqv copyKey copyValue (R.entries t)).2)
    (hm : (R.entries t').Perm (op.apply eqv copyKey copyValue (R.entries t)).1) :
    Refines R eqv copyKey copyValue op t r t' := ⟨_, .inl (by rw [hr]), hm⟩

theorem Refines.left {op : Op K V} {r : Ret K V} {m' : List (K × V)}
    (hr : r = (op.apply eqv copyKey copyValue (R.entries t)).2)
    (hm' : (op.apply eqv copyKey copyValue (R.entries t)).1 = m') (hm : (R.entries t').Perm m') :
    Refines R eqv copyKey copyValue op t r t' := .apply hr (hm'.symm ▸ hm)

section Lookups

variable (hc : Contract R u) (hl : u.Lawful hash eqv) (hr : Stores R u eqv t)
include hc hl hr

theorem Absent.find (h : Absent R u t key) : find eqv key (R.entries t) = none := by
  obtain ⟨x, hx, hrefuted⟩ := h
  refine find_eq_none.mpr fun e he => ?_
  obtain ⟨loc, hholds⟩ := (hc.mem_entries hr.wf).mp he
  obtain ⟨y, hy, hplaced⟩ := hr.sound (fun _ => hl.deterministic) loc e hholds
  by_contra hk
  have hxy : y = x := by
    rw [(hl.hashes _ _).mp hx, (hl.hashes _ _).mp hy]
    exact (hl.congr _ _ (by simpa using hk)).symm
  have := hl.answers _ _ _ (hrefuted loc e hholds (hxy ▸ hplaced))
  exact hk this.symm

omit hc in
theorem Matched.find (h : Matched R u t key e) : FiniteMap.find eqv key (R.entries t) = some e :=
  find_eq_some hl.equality hr.distinct h.1 (hl.answers _ _ _ h.2).symm

end Lookups

theorem Matched.same (hl : u.Lawful hash eqv) (h : Matched R u t key e) : eqv key e.1 := (hl.answers _ _ _ h.2).symm

section Steps

variable (hc : Contract R u) (hl : u.Lawful hash eqv) (hr : Stores R u eqv t)
include hc hl hr

theorem refines_insert : wp (step b u (.insert key value))
    (fun r s => Refines R eqv copyKey copyValue (.insert key value) t r s.1) (fun _ _ => True) (t, w) := by
  rw [step, wp_bind]
  refine wp_mono (wp_insert (κ := fun _ => 0) hc hr.wf key value) ?_ (fun _ _ _ => trivial)
  rintro old ⟨t', w'⟩ ⟨hreplaced, hadded⟩
  rw [wp_bind, wp_onSnd]
  apply wp_handValue (κ := fun _ => 0)
  intro w'' _
  cases old with
  | none =>
    obtain ⟨x, hx, hrefuted, hadded, -⟩ := hadded rfl
    have hfind := Absent.find hc hl hr ⟨x, hx, hrefuted⟩
    exact .left (congrArg (fun o => Ret.value (o.map Prod.snd)) hfind.symm) (put_of_find_none hfind) hadded.entries
  | some old =>
    obtain ⟨-, k', rest, hans, hbefore, hafter⟩ := (hreplaced old rfl).1
    have hmem : Matched R u t key (k', old) := ⟨hbefore.mem_iff.mpr (List.mem_cons_self ..), hans⟩
    have hfind := hmem.find hl hr
    have hupdate := update_perm hl.equality hr.distinct hbefore (hmem.same hl) fun _ => value
    exact .left (congrArg (fun o => Ret.value (o.map Prod.snd)) hfind.symm) (put_of_find_some hfind)
      (hafter.trans hupdate.symm)

theorem refines_get : wp (step b u (.get key))
    (fun r s => Refines R eqv copyKey copyValue (.get key) t r s.1) (fun _ _ => True) (t, w) := by
  rw [step, wp_map]
  refine wp_mono (wp_getValue hc hr.wf key) ?_ (fun _ _ _ => trivial)
  rintro (_ | v) ⟨t', w'⟩ ⟨ht, -, hfound, hmiss⟩
  · have hfind := (hmiss rfl).find hc hl hr
    exact .apply (congrArg (fun o => Ret.value (o.map Prod.snd)) hfind.symm) (ht ▸ .refl _)
  · obtain ⟨e, hmatched, rfl⟩ := hfound v rfl
    have hfind := hmatched.find hl hr
    exact .apply (congrArg (fun o => Ret.value (o.map Prod.snd)) hfind.symm) (ht ▸ .refl _)

theorem refines_containsKey : wp (step b u (.containsKey key))
    (fun r s => Refines R eqv copyKey copyValue (.containsKey key) t r s.1) (fun _ _ => True) (t, w) := by
  rw [step, wp_map]
  refine wp_mono (wp_containsKey hc hr.wf key) ?_ (fun _ _ _ => trivial)
  rintro (_ | _) ⟨t', w'⟩ ⟨ht, -, hfound, hmiss⟩
  · have hfind := (hmiss rfl).find hc hl hr
    exact .apply (congrArg (fun o : Option (K × V) => Ret.found o.isSome) hfind.symm) (ht ▸ .refl _)
  · obtain ⟨e, hmatched⟩ := hfound rfl
    have hfind := hmatched.find hl hr
    exact .apply (congrArg (fun o : Option (K × V) => Ret.found o.isSome) hfind.symm) (ht ▸ .refl _)

theorem refines_getMut (f : V → V) : wp (step b u (.getMut key f))
    (fun r s => Refines R eqv copyKey copyValue (.getMut key f) t r s.1) (fun _ _ => True) (t, w) := by
  rw [step, wp_map]
  refine wp_mono (wp_getMut hc hr.wf key f) ?_ (fun _ _ _ => trivial)
  rintro (_ | old) ⟨t', w'⟩ ⟨-, hmutated, hmiss⟩
  · obtain ⟨ht, habsent⟩ := hmiss rfl
    have hfind := habsent.find hc hl hr
    exact .left (congrArg (fun o => Ret.value (o.map Prod.snd)) hfind.symm) (update_of_ne (find_eq_none.mp hfind) f)
      (ht ▸ .refl _)
  · obtain ⟨-, k, rest, hans, hbefore, hafter⟩ := hmutated old rfl
    have hmem : Matched R u t key (k, old) := ⟨hbefore.mem_iff.mpr (List.mem_cons_self ..), hans⟩
    have hfind := hmem.find hl hr
    refine .apply (congrArg (fun o => Ret.value (o.map Prod.snd)) hfind.symm) ?_
    exact hafter.trans (update_perm hl.equality hr.distinct hbefore (hmem.same hl) f).symm

omit hc in
theorem Removed.find (h : Removed R u t t' key e) :
    FiniteMap.find eqv key (R.entries t) = some e ∧ (R.entries t').Perm (erase eqv key (R.entries t)) := by
  have hmem : Matched R u t key e := ⟨h.entries.mem_iff.mpr (List.mem_cons_self ..), h.answers⟩
  exact ⟨hmem.find hl hr, (erase_perm hl.equality hr.distinct h.entries (hmem.same hl)).symm⟩

theorem refines_removeEntry : wp (step b u (.removeEntry key))
    (fun r s => Refines R eqv copyKey copyValue (.removeEntry key) t r s.1) (fun _ _ => True) (t, w) := by
  rw [step, wp_bind]
  refine wp_mono (wp_removeEntry (κ := fun _ => 0) hc (J := fun _ => True) (fun _ _ _ _ => trivial) hr.wf key
    fun _ _ _ => trivial) ?_ (fun _ _ _ => trivial)
  rintro (_ | e) ⟨t', w'⟩ ⟨-, hremoved, hmiss⟩
  · obtain ⟨ht, habsent⟩ := hmiss rfl
    have hfind := habsent.find hc hl hr
    exact .left (congrArg Ret.entry hfind.symm) (erase_of_find_none hfind) (ht ▸ .refl _)
  · obtain ⟨hfind, hperm⟩ := Removed.find hl hr (hremoved e rfl)
    rw [wp_bind, wp_onSnd]
    refine wp_mono (wp_handEntry (κ := fun _ => 0) e) ?_ (fun _ _ h => h.elim)
    exact fun _ w'' _ => .apply (congrArg Ret.entry hfind.symm) hperm

theorem refines_remove : wp (step b u (.remove key))
    (fun r s => Refines R eqv copyKey copyValue (.remove key) t r s.1) (fun _ _ => True) (t, w) := by
  rw [step, wp_bind]
  refine wp_mono (wp_remove (κ := fun _ => 0) hc (J := fun _ => True) (fun _ _ _ _ => trivial) hr.wf key
    fun _ _ _ => trivial) ?_ (fun _ _ _ => trivial)
  rintro old ⟨t', w'⟩ ⟨hremoved, hmiss⟩
  rw [wp_bind, wp_onSnd]
  apply wp_handValue (κ := fun _ => 0)
  intro w'' _
  cases old with
  | none =>
    obtain ⟨ht, -, habsent⟩ := hmiss rfl
    have hfind := habsent.find hc hl hr
    exact .left (congrArg (fun o => Ret.value (o.map Prod.snd)) hfind.symm) (erase_of_find_none hfind) (ht ▸ .refl _)
  | some v =>
    obtain ⟨k, hremoved, -⟩ := hremoved v rfl
    obtain ⟨hfind, hperm⟩ := Removed.find hl hr hremoved
    exact .apply (congrArg (fun o => Ret.value (o.map Prod.snd)) hfind.symm) hperm

theorem refines_entryOrInsert (default : V) : wp (step b u (.entryOrInsert key default))
    (fun r s => Refines R eqv copyKey copyValue (.entryOrInsert key default) t r s.1) (fun _ _ => True) (t, w) := by
  rw [step, wp_map]
  refine wp_mono (wp_entryOrInsert (κ := fun _ => 0) hc hr.wf key default) ?_ (fun _ _ _ => trivial)
  rintro _ ⟨t', w'⟩ (⟨e, hmatched, rfl, ht, -⟩ | ⟨rfl, ⟨x, hx, hrefuted, hadded⟩, -⟩)
  · have hfind := hmatched.find hl hr
    exact .apply (by simp only [Op.apply, hfind]) (by simp only [Op.apply, hfind]; exact ht ▸ .refl _)
  · have hfind := Absent.find hc hl hr ⟨x, hx, hrefuted⟩
    exact .apply (by simp only [Op.apply, hfind]) (by simp only [Op.apply, hfind]; exact hadded.entries)

theorem refines_tryInsert : wp (step b u (.tryInsert key value))
    (fun r s => Refines R eqv copyKey copyValue (.tryInsert key value) t r s.1) (fun _ _ => True) (t, w) := by
  rw [step, wp_bind]
  refine wp_mono (wp_tryInsert (κ := fun _ => 0) hc hr.wf key value) ?_ (fun _ _ _ => trivial)
  rintro (e | shown) ⟨t', w'⟩ hresult
  · obtain ⟨hmatched, ht, -⟩ := hresult
    have hfind := hmatched.find hl hr
    exact .apply (by simp only [Op.apply, hfind]) (by simp only [Op.apply, hfind]; exact ht ▸ .refl _)
  · obtain ⟨rfl, ⟨x, hx, hrefuted, hadded⟩, -⟩ := hresult
    have hfind := Absent.find hc hl hr ⟨x, hx, hrefuted⟩
    exact .apply (by simp only [Op.apply, hfind]) (by simp only [Op.apply, hfind]; exact hadded.entries)

theorem refines_getOrInsertWith (make : Option K) : wp (step b u (.getOrInsertWith key value make))
    (fun r s => Refines R eqv copyKey copyValue (.getOrInsertWith key value make) t r s.1) (fun _ _ => True) (t, w) := by
  rw [step, wp_map]
  refine wp_mono (wp_getOrInsertWith (κ := fun _ => 0) hc hr.wf key value make) ?_ (fun _ _ _ => trivial)
  rintro shown ⟨t', w'⟩ (⟨e, hmatched, rfl, ht, -⟩ | ⟨rfl, ⟨x, hx, hrefuted, hadded⟩, -⟩)
  · have hfind := hmatched.find hl hr
    exact .apply (by simp only [Op.apply, hfind]) (by simp only [Op.apply, hfind]; exact ht ▸ .refl _)
  · have hfind := Absent.find hc hl hr ⟨x, hx, hrefuted⟩
    exact .apply (by simp only [Op.apply, hfind]) (by simp only [Op.apply, hfind]; exact hadded.entries)

omit hl in
theorem refines_retain {f : Predicate K V} (hf : f.Answering) : wp (step b u (.retain f))
    (fun r s => Refines R eqv copyKey copyValue (.retain f) t r s.1) (fun _ _ => True) (t, w) := by
  rw [step, wp_map]
  refine wp_mono (wp_retain (κ := fun _ => 0) (J := fun _ => True) hc ⟨fun _ _ => id, fun _ _ => id⟩ hr.wf trivial f) ?_
    (fun _ _ _ => trivial)
  rintro _ s ⟨w₁, hpruned, -, hmended⟩
  have hlen : (R.entries t).length ≤ b.totalSlots t + 1 := by
    obtain ⟨locs, es, -, -, hholds, rfl, hshort⟩ := hc.scan hr.wf
    have := hholds.length_eq
    omega
  exact .apply rfl ((hmended.entries.trans hpruned.entries).trans (.of_eq (Predicate.extract_not hf [] _ hlen)))

omit hl in
theorem refines_extractIf (pred : Predicate K V) (n : Nat) : wp (step b u (.extractIf pred n))
    (fun r s => Refines R eqv copyKey copyValue (.extractIf pred n) t r s.1) (fun _ _ => True) (t, w) := by
  rw [step, wp_map]
  refine wp_mono (wp_extractIf (κ := fun _ => 0) (J := fun _ => True) hc hr.wf trivial n) ?_ (fun _ _ _ => trivial)
  rintro _ s ⟨rfl, w₁, hpruned, -, hmended⟩
  exact .apply rfl (hmended.entries.trans hpruned.entries)

omit hl in
theorem refines_clone (hcopy : u.Copying eqv copyKey copyValue) : wp (step b u .clone)
    (fun r s => Refines R eqv copyKey copyValue .clone t r s.1) (fun _ _ => True) (t, w) := by
  rw [step, wp_map]
  refine wp_mono (wp_clone (κ := fun _ => 0) hc hr.wf) ?_ (fun _ _ _ => trivial)
  rintro _ s ⟨hcloned, -⟩
  exact .apply rfl (.of_eq (hcopy.copied hcloned.entries))

theorem wp_step_refines (hcopy : u.Copying eqv copyKey copyValue) {op : Op K V} (hplain : op.Plain eqv)
    (hcounted : op = .len → R.Counted t) :
    wp (step b u op) (fun r s => Refines R eqv copyKey copyValue op t r s.1) (fun _ _ => True) (t, w) := by
  have hnil : ∀ (op : Op K V) (r : Ret K V) (s : b.Table × World W K V),
      op.apply eqv copyKey copyValue (R.entries t) = ([], r) → R.entries s.1 = [] →
      Refines R eqv copyKey copyValue op t r s.1 := fun op r s happly hentries =>
    .apply (congrArg Prod.snd happly).symm (by rw [happly, hentries])
  cases op with
  | insert key value => exact refines_insert hc hl hr
  | get key => exact refines_get hc hl hr
  | containsKey key => exact refines_containsKey hc hl hr
  | getMut key f => exact refines_getMut hc hl hr f
  | removeEntry key => exact refines_removeEntry hc hl hr
  | remove key => exact refines_remove hc hl hr
  | entryOrInsert key default => exact refines_entryOrInsert hc hl hr default
  | tryInsert key value => exact refines_tryInsert hc hl hr
  | getOrInsertWith key value make => exact refines_getOrInsertWith hc hl hr make
  | retain f => exact refines_retain hc hr hplain.1
  | extractIf pred n => exact refines_extractIf hc hr pred n
  | drain n =>
    rw [step, wp_map]
    refine wp_mono (wp_drain (κ := fun _ => 0) hc hr.wf n) ?_ (fun _ _ _ => trivial)
    rintro _ s ⟨rfl, hemptied, -⟩
    exact hnil (.drain n) _ s rfl hemptied.entries
  | leakExtractIf pred n => exact absurd trivial hplain.2.1
  | leakDrain n => exact absurd trivial hplain.2.1
  | clear =>
    rw [step, wp_map]
    refine wp_mono (hc.clear hr.wf (fun _ => 0) w) ?_ (fun _ _ _ => trivial)
    exact fun _ s h => hnil .clear _ s rfl h.2.1
  | reserve additional =>
    rw [step, wp_map]
    refine wp_mono (wp_reserve hc hr.wf additional) ?_ (fun _ _ _ => trivial)
    rintro _ s (⟨ht, -, -⟩ | ⟨-, hrefitted, -⟩)
    · exact .apply rfl (ht ▸ .refl _)
    · exact .apply rfl hrefitted.entries
  | tryReserve additional =>
    rw [step, wp_map]
    refine wp_mono (wp_tryReserve hc hr.wf additional) ?_ (fun _ _ _ => trivial)
    rintro (error | _) s hresult
    · exact ⟨R.entries t, .inr ⟨additional, error, rfl, rfl, rfl⟩, hresult.1 ▸ .refl _⟩
    · rcases hresult with ⟨ht, -, -⟩ | ⟨-, hrefitted, -⟩
      · exact .apply rfl (ht ▸ .refl _)
      · exact .apply rfl hrefitted.entries
  | shrinkTo minCapacity =>
    rw [step, wp_map]
    refine wp_mono (hc.shrinkTo hr.wf minCapacity w) ?_ (fun _ _ _ => trivial)
    exact fun _ s h => .apply rfl h.1.entries
  | clone => exact refines_clone hc hr hcopy
  | iter =>
    rw [step, wp_map]
    refine wp_mono (wp_iter hc hr.wf) ?_ (fun _ _ _ => trivial)
    rintro _ s ⟨rfl, rfl⟩
    exact .apply rfl (.refl _)
  | len => exact .apply (congrArg Ret.count ((hc.len_eq t).trans (hc.len (hcounted rfl)))) (.refl _)

end Steps

end Opthash.HashMap
