import Opthash.Elastic.Contract
import Opthash.Funnel.Contract
import Opthash.Guarantees.Filter
import Opthash.Shell.Borrows

namespace Opthash

open Exec HashMap Lending Sessions

variable {W K V : Type} {group : GroupBackend} {u : User W K V}

theorem Funnel.valueBlind : ValueBlind (b := Funnel.backend group u) (Funnel.reading group) := by
  intro t scan slots slot e v _ _ hscan
  apply FunnelTable.scanning_congr _ _ hscan
  · rfl
  · intro i _
    exact Region.occ_setSlot i

theorem Elastic.valueBlind : ValueBlind (b := Elastic.backend group u) (Elastic.reading group) := by
  intro t scan locs loc e v _ he hscan
  apply ElasticTable.scanning_congr _ _ hscan
  · exact ElasticTable.samePlan_replaceValue.capacities
  · intro loc' _
    change ((t.replaceValue loc e.1 v).region loc'.1).Occ loc'.2 = _
    rw [ElasticTable.region_replaceValue he]
    split
    · exact Region.occ_setSlot loc'.2
    · rfl

structure Iterated (b : TableBackend W K V) (R : Reading b.Table b.Location b.Vacant b.Scan K V) (u : User W K V)
    (t : b.Table) : Prop where
  iterMut : ∀ uses w, wp (withIterMut b uses) (fun shown s => (∃ l, Returned R u t s.1 uses shown l) ∧ s.2 = w)
    (fun _ _ => False) (t, w)
  drain : ∀ looks w, wp (session (lookDrain b) looks)
    (fun shown s => shown = (answers Loan.look ⟨[], R.entries t, b.len t⟩ looks).1 ∧
      (R.entries s.2.1).Perm (answers Loan.look ⟨[], R.entries t, b.len t⟩ looks).2.rest ∧ s.2.2 = w)
    (fun _ _ => False) (drainOf b t, t, w)
  intoIter : ∀ looks w, wp (session (lookIntoIter b) looks)
    (fun shown s => shown = (answers Loan.look ⟨[], R.entries t, b.len t⟩ looks).1 ∧
      (R.entries s.1.table).Perm (answers Loan.look ⟨[], R.entries t, b.len t⟩ looks).2.rest ∧ s.2 = w)
    (fun _ _ => False) (HashMap.intoIter b t, w)

theorem iterated_of_wf {b : TableBackend W K V} {R : Reading b.Table b.Location b.Vacant b.Scan K V} {t : b.Table}
    (hc : Contract R u) (hblind : ValueBlind R) (hw : R.Wf t) : Iterated b R u t where
  iterMut := fun uses w => wp_withIterMut hc hblind hw uses
  drain := by
    intro looks w
    apply wp_mono ((answers_lookDrain hc).session (s := (drainOf b t, t, w)) (empties_start hc hw) looks)
    · rintro shown s ⟨hshown, hempties⟩
      exact ⟨hshown, hempties.underway.entries, hempties.world⟩
    · rintro p s ⟨-, -, -, -, hfalse⟩
      exact hfalse
  intoIter := by
    intro looks w
    apply wp_mono ((answers_lookIntoIter hc).session (s := (HashMap.intoIter b t, w)) (empties_start hc hw) looks)
    · rintro shown s ⟨hshown, hempties⟩
      exact ⟨hshown, hempties.underway.entries, hempties.world⟩
    · rintro p s ⟨-, -, -, -, hfalse⟩
      exact hfalse

theorem iterators_lend (group : GroupBackend) (u : User W K V) :
    (∀ t, Reachable (Funnel.backend group u) u (Funnel.Initial group u) (fun _ => True) t →
      Iterated (Funnel.backend group u) (Funnel.reading group) u t) ∧
    ∀ t, Reachable (Elastic.backend group u) u (Elastic.Initial group u) (fun _ => True) t →
      Iterated (Elastic.backend group u) (Elastic.reading group) u t := by
  constructor
  · intro t ht
    have hc := Funnel.contract group u
    exact iterated_of_wf hc Funnel.valueBlind (Reachable.wf hc (fun _ h => h.fresh.wf) ht)
  · intro t ht
    have hc := Elastic.contract group u
    exact iterated_of_wf hc Elastic.valueBlind (Reachable.wf hc (fun _ h => h.fresh.wf) ht)

section Lent

open Elastic

abbrev lending : TableBackend Unit UInt64 Nat := Elastic.backend .scalar User.sample

/-- A value that is replaced behind the first of two references. -/
theorem iterators_lend_two : ∃ t : lending.Table, ∀ w, wp (withIterMut lending
      [.look .next, .look .view, .look .next, .replace 0 71, .read 1, .read 0, .look .len, .look .next])
    (fun shown _ => shown = [.entry (some (7, 70)), .entries [(9, 90)], .entry (some (9, 90)), .entry (some (7, 70)),
      .entry (some (9, 90)), .entry (some (7, 71)), .count 0, .entry none])
    (fun _ _ => False) (t, w) := by
  obtain ⟨t, w, ht, hstored⟩ := Reachable.replayed (b := lending) (u := User.sample) (A := fun _ => True)
    initial_unallocated World.start (fun op (_ : op ∈ [Op.insert 7 70, .insert 9 90]) _ _ => trivial)
    (fun s => lending.len s.1 == 2 && (reading .scalar).entries s.1 == [(7, 70), (9, 90)]) (by decide +kernel)
  obtain ⟨hlen, hentries⟩ : lending.len t = 2 ∧ (reading .scalar).entries t = [(7, 70), (9, 90)] := by
    simpa only [Bool.and_eq_true, beq_iff_eq] using hstored
  refine ⟨t, fun w => ?_⟩
  apply wp_mono (((iterators_lend .scalar User.sample).2 t ht).iterMut _ w) _ (fun _ _ => id)
  rintro shown s ⟨⟨l, hl⟩, -⟩
  have hshown := congrArg Prod.fst hl.answers
  rw [hlen, hentries] at hshown
  exact hshown

end Lent

end Opthash
