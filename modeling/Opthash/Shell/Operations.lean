import Opthash.Shell.Drains
import Opthash.Shell.Entries

namespace Opthash

inductive Op (K V : Type)
  | insert (key : K) (value : V)
  | get (key : K)
  | containsKey (key : K)
  | getMut (key : K) (f : V → V)
  | removeEntry (key : K)
  | remove (key : K)
  | entryOrInsert (key : K) (default : V)
  | tryInsert (key : K) (value : V)
  | getOrInsertWith (key : K) (value : V) (make : Option K)
  | retain (f : Predicate K V)
  | extractIf (pred : Predicate K V) (n : Nat)
  | drain (n : Nat)
  | leakExtractIf (pred : Predicate K V) (n : Nat)
  | leakDrain (n : Nat)
  | clear
  | reserve (additional : Nat)
  | tryReserve (additional : Nat)
  | shrinkTo (minCapacity : Nat)
  | clone
  | iter
  | len

inductive Ret (K V : Type)
  | unit
  | value (old : Option V)
  | entry (removed : Option (K × V))
  | found (present : Bool)
  | shown (value : V)
  | tried (result : Except (K × V) V)
  | key (stored : K)
  | entries (es : List (K × V))
  | reserved (result : Except TryReserveError Unit)
  | count (n : Nat)

namespace HashMap

open Exec Ledger

variable {W K V : Type} (b : TableBackend W K V) (u : User W K V)

/-- One call of a safe method; the caller owns what it returns by value. -/
def step : Op K V → Step b (Ret K V)
  | .insert key value => do
    let old ← insert b u key value
    onSnd (old.elim (pure ()) handV)
    pure (.value old)
  | .get key => .value <$> get b u key
  | .containsKey key => .found <$> containsKey b u key
  | .getMut key f => .value <$> getMut b u key f
  | .removeEntry key => do
    let removed ← removeEntry b u key
    onSnd (removed.elim (pure ()) handEntry)
    pure (.entry removed)
  | .remove key => do
    let removed ← remove b u key
    onSnd (removed.elim (pure ()) handV)
    pure (.value removed)
  | .entryOrInsert key default => .shown <$> entryOrInsert b u key default
  | .tryInsert key value => do
    let result ← tryInsert b u key value
    onSnd (match result with
      | .ok _ => pure ()
      | .error _ => handV value)
    pure (.tried result)
  | .getOrInsertWith key value make => .key <$> getOrInsertWith b u key value make
  | .retain f => (fun _ => .unit) <$> retain b u f
  | .extractIf pred n => .entries <$> extractIf b pred n
  | .drain n => .entries <$> drain b u n
  | .leakExtractIf pred n => .entries <$> leakExtractIf b pred n
  | .leakDrain n => .entries <$> leakDrain b n
  | .clear => (fun _ => .unit) <$> b.clear
  | .reserve additional => (fun _ => .unit) <$> reserve b additional
  | .tryReserve additional => .reserved <$> tryReserve b additional
  | .shrinkTo minCapacity => (fun _ => .unit) <$> b.shrinkTo minCapacity
  | .clone => (fun _ => .unit) <$> clone b
  | .iter => .entries <$> iter b
  | .len => .count <$> len b

variable {b u} {R : Reading b.Table b.Location b.Vacant b.Scan K V} {κ : K ⊕ V → Nat} {t : b.Table} {w : World W K V}

theorem wp_reserve (hc : Contract R u) (hw : R.Wf t) (additional : Nat) :
    wp (reserve b additional)
      (fun _ s => (s.1 = t ∧ s.2 = w ∧ saturatingUsize (R.len t + additional) ≤ R.capacity t ∨
        R.capacity t ≤ R.capacity s.1 ∧ R.Refitted u (saturatingUsize (R.len t + additional)) t s.1 ∧ s.2.ledger = w.ledger))
      (fun p s => Halted u p ∧ s.1 = t ∧ s.2.ledger = w.ledger) (t, w) := by
  rw [reserve, wp_bind, wp_get]
  dsimp only
  rw [hc.len_eq, hc.capacity_eq, wp_ite]
  refine ⟨fun hroom => .inl ⟨rfl, rfl, hroom⟩, fun hroom => ?_⟩
  rw [wp_bind, wp_expect]
  refine ⟨fun newCapacity hgrow => ?_, fun _ => ⟨.inr .capacity, rfl, rfl⟩⟩
  have hle : R.len t ≤ saturatingUsize (R.len t + additional) := by
    have := hc.limit hw
    omega
  refine wp_mono (hc.resize hw hle hgrow w) ?_ (fun _ _ => id)
  exact fun _ s h => .inr ⟨(Nat.le_of_not_le hroom).trans h.1.capacity, h⟩

theorem wp_tryReserve (hc : Contract R u) (hw : R.Wf t) (additional : Nat) :
    wp (tryReserve b additional)
      (fun r s => match r with
        | .ok _ => s.1 = t ∧ s.2 = w ∧ R.len t + additional ≤ R.capacity t ∨
          R.capacity t ≤ R.capacity s.1 ∧ R.Refitted u (R.len t + additional) t s.1 ∧ s.2.ledger = w.ledger
        | .error _ => s.1 = t ∧ s.2.ledger = w.ledger)
      (fun p s => u.Unwound p ∧ s.1 = t ∧ s.2.ledger = w.ledger) (t, w) := by
  rw [tryReserve, wp_bind, wp_get]
  dsimp only
  rw [hc.len_eq]
  cases hneeded : checkedUsize (R.len t + additional) with
  | none => exact ⟨rfl, rfl⟩
  | some needed =>
    obtain ⟨rfl, -⟩ := checkedUsize_spec hneeded
    dsimp only
    rw [hc.capacity_eq, wp_ite]
    refine ⟨fun hroom => .inl ⟨rfl, rfl, hroom⟩, fun hroom => ?_⟩
    cases hgrow : b.growCapacityFor t (R.len t + additional) with
    | none => exact ⟨rfl, rfl⟩
    | some newCapacity =>
      refine wp_mono (hc.tryResize hw (Nat.le_add_right ..) hgrow w) ?_ (fun _ _ => id)
      rintro (e | _) s ⟨hr, hl⟩
      · exact ⟨hr, hl⟩
      · exact .inr ⟨(Nat.le_of_not_le hroom).trans hr.capacity, hr, hl⟩

structure Cloned (R : Reading b.Table b.Location b.Vacant b.Scan K V) (u : User W K V) (t t' : b.Table) : Prop where
  wf : R.Wf t'
  capacity : R.capacity t' = R.capacity t
  counted : R.Counted t → R.Counted t'
  settled : R.Settled t → R.Settled t'
  sound : ∀ {q : Prop}, R.Sound u q t → u.ClonesHash → R.Sound u q t'
  entries : List.Forall₂ u.Clones (R.entries t) (R.entries t')

theorem wp_clone (hc : Contract R u) (hw : R.Wf t) :
    wp (clone b)
      (fun _ s => Cloned R u t s.1 ∧
        s.2.ledger.made κ = w.ledger.made κ + weighEntries κ (R.entries s.1) ∧
        s.2.ledger.gone κ ≤ w.ledger.gone κ + weighEntries κ (R.entries t) ∧
        (u.needsDrop = true → s.2.ledger.gone κ = w.ledger.gone κ + weighEntries κ (R.entries t)))
      (fun p s => p.Blamed (¬u.Calm) ∧ (p ≠ .abort →
        (s.1 = t ∧ ∃ made, s.2.ledger.made κ = w.ledger.made κ + made ∧
          s.2.ledger.gone κ ≤ w.ledger.gone κ + made ∧
          (u.needsDrop = true → s.2.ledger.gone κ = w.ledger.gone κ + made)) ∨
        (Cloned R u t s.1 ∧ s.2.ledger.made κ = w.ledger.made κ + weighEntries κ (R.entries s.1) ∧
          s.2.ledger.gone κ ≤ w.ledger.gone κ + weighEntries κ (R.entries t) ∧
          (u.needsDrop = true → s.2.ledger.gone κ = w.ledger.gone κ + weighEntries κ (R.entries t))))) (t, w) := by
  rw [clone, wp_bind, wp_get]
  dsimp only
  rw [wp_bind, wp_onSnd]
  refine wp_mono (hc.cloneTable hw κ w) ?_ (fun p w' h => ⟨h.1, fun hne => .inl ⟨rfl, h.2 hne⟩⟩)
  rintro t' w₁ ⟨hwf, hcapacity, hcounted, hsettled, hsound, hclones, hgone, hmade⟩
  have hcloned : Cloned R u t t' := ⟨hwf, hcapacity, hcounted, hsettled, hsound, hclones⟩
  rw [wp_bind, wp_modify, wp_onSnd]
  refine wp_mono (hc.dropTable hw κ w₁) ?_ ?_
  · intro _ w₂ hd
    refine ⟨hcloned, by rw [hd.made, hmade], ?_, fun hneeds => ?_⟩
    · exact hgone ▸ hd.le
    · exact hgone ▸ hd.eq hneeds
  · rintro p w₂ ⟨hp, hrest⟩
    refine ⟨hp.blamed, fun hne => .inr ⟨hcloned, by rw [(hrest hne).made, hmade], ?_, fun hneeds => ?_⟩⟩
    · exact hgone ▸ (hrest hne).le
    · exact hgone ▸ (hrest hne).eq hneeds

end HashMap

end Opthash
