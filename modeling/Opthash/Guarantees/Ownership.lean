import Opthash.Guarantees.Rebuild
import Opthash.Shell.Accounts

namespace Opthash

open HashMap Weights

variable {W K V τ : Type}

/-- Every key and value a program made or gave away, by any name its closures leave as it is, is in one place: in an
occupied slot of one owner, with the caller, or dropped. -/
structure Linear {b : TableBackend W K V} (R : Reading b.Table b.Location b.Vacant b.Scan K V) (u : User W K V)
    (initial : b.Table → Prop) (name : K ⊕ V → τ) : Prop where
  once : ∀ owners w supplied, Program u initial name owners w supplied →
    ((w.ledger.dropped ++ w.ledger.handed ++ held R owners).map name).Subperm ((w.ledger.created ++ supplied).map name)
  kept : u.needsDrop = true → ∀ owners w supplied, Program u initial name owners w supplied →
    ((w.ledger.dropped ++ w.ledger.handed ++ held R owners).map name).Perm ((w.ledger.created ++ supplied).map name)
  apart : ∀ owners w supplied, Program u initial name owners w supplied →
    ((w.ledger.created ++ supplied).map name).Nodup →
    ((w.ledger.dropped ++ w.ledger.handed ++ held R owners).map name).Nodup

variable {u : User W K V}

theorem linear_of_contract {b : TableBackend W K V} {R : Reading b.Table b.Location b.Vacant b.Scan K V}
    (hc : Contract R u) {initial : b.Table → Prop} (hinitial : ∀ t, initial t → Fresh R u t) (name : K ⊕ V → τ) :
    Linear R u initial name := by
  have haccounted : ∀ {owners : List (Owner b)} {w : World W K V} {supplied : List (K ⊕ V)},
      Program u initial name owners w supplied → ∀ κ : τ → Nat, Accounted u (κ ∘ name) R owners w supplied :=
    fun h κ => (h.keeps hc (fun _ _ h => congrArg κ h) fun t ht => ⟨(hinitial t ht).wf, (hinitial t ht).entries⟩).2
  have hleft : ∀ (κ : τ → Nat) (owners : List (Owner b)) (w : World W K V),
      total κ ((w.ledger.dropped ++ w.ledger.handed ++ held R owners).map name) =
        w.ledger.gone (κ ∘ name) + total (κ ∘ name) (held R owners) := by
    intro κ owners w
    rw [← total_comp, total_append, total_append, total_eq_weigh, total_eq_weigh, Ledger.gone]
  have hright : ∀ (κ : τ → Nat) (w : World W K V) (supplied : List (K ⊕ V)),
      total κ ((w.ledger.created ++ supplied).map name) = w.ledger.made (κ ∘ name) + total (κ ∘ name) supplied := by
    intro κ w supplied
    rw [← total_comp, total_append, total_eq_weigh, Ledger.made]
  have honce : ∀ owners w supplied, Program u initial name owners w supplied →
      ((w.ledger.dropped ++ w.ledger.handed ++ held R owners).map name).Subperm
        ((w.ledger.created ++ supplied).map name) := by
    intro owners w supplied h
    apply subperm_of_total
    intro κ
    rw [hleft, hright]
    exact (haccounted h κ).le
  constructor
  · exact honce
  · intro hneeds owners w supplied h
    apply perm_of_total
    intro κ
    rw [hleft, hright]
    exact (haccounted h κ).eq hneeds
  · intro owners w supplied h hnodup
    obtain ⟨ys, hperm, hsub⟩ := honce owners w supplied h
    exact hperm.nodup_iff.mp (hsub.nodup hnodup)

/-- In every program over any number of maps and live iterators, whatever user code panics. -/
theorem ownership_linear (group : GroupBackend) (u : User W K V) (name : K ⊕ V → τ) :
    Linear (b := Funnel.backend group u) (Funnel.reading group) u (Funnel.Initial group u) name ∧
      Linear (b := Elastic.backend group u) (Elastic.reading group) u (Elastic.Initial group u) name :=
  ⟨linear_of_contract (Funnel.contract group u) (fun _ h => h.fresh) name,
    linear_of_contract (Elastic.contract group u) (fun _ h => h.fresh) name⟩

section Consumed

open Elastic

abbrev consuming : TableBackend Unit UInt64 Nat := Elastic.backend .scalar User.bursting

def Stocked.first : Except Panic (Ret UInt64 Nat) × ElasticTable UInt64 Nat × World Unit UInt64 Nat :=
  step consuming User.bursting (.insert 7 70) (ElasticTable.unallocated, World.start)

def Stocked.second : Except Panic (Ret UInt64 Nat) × ElasticTable UInt64 Nat × World Unit UInt64 Nat :=
  step consuming User.bursting (.insert 9 90) Stocked.first.2

def Stocked.taken : Except Panic (Option (UInt64 × Nat)) × IntoIter consuming × World Unit UInt64 Nat :=
  IntoIter.next consuming (intoIter consuming Stocked.second.2.1, Stocked.second.2.2)

def Stocked.dropped : Except Panic Unit × World Unit UInt64 Nat :=
  consuming.dropTable Stocked.taken.2.1.table (Stocked.taken.2.2.yield Stocked.taken.1)

def Stocked.unwound : Except Panic Unit → Bool
  | .error p => p == .user
  | .ok _ => false

/-- Two entries are given; one is handed back, and the other drops although its destructor panics. -/
theorem ownership_linear_two : Stocked.dropped.2.ledger.handed = [.inr 70, .inl 7] ∧
    (Stocked.dropped.2.ledger.dropped ++ Stocked.dropped.2.ledger.handed).Perm [.inl 7, .inr 70, .inl 9, .inr 90] := by
  have h₀ : Initial .scalar User.bursting ElasticTable.unallocated :=
    ⟨0, ⟨1, by decide, by decide⟩, World.start, World.start, rfl⟩
  have hrun : Stocked.first.1.isOk = true ∧ Stocked.second.1.isOk = true ∧ Stocked.taken.1.isOk = true ∧
      Stocked.unwound Stocked.dropped.1 = true ∧ Stocked.dropped.2.ledger.handed = [.inr 70, .inl 7] ∧
      Stocked.dropped.2.ledger.created = [] := by decide +kernel
  obtain ⟨hfirst, hsecond, htaken, hdropped, hhanded, hcreated⟩ := hrun
  have habort : ∀ {α : Type} {r : Except Panic α}, r.isOk = true → r ≠ .error .abort := by
    rintro α r hok rfl
    cases hok
  have hparts : ∀ {α β γ : Type} (p : α × β × γ), p = (p.1, p.2.1, p.2.2) := fun _ => rfl
  have hstart : Program (b := consuming) User.bursting (Initial .scalar User.bursting) id
      [.map ElasticTable.unallocated] World.start [] := .create h₀ (.start ())
  have hinsert : ∀ (key : UInt64) (value : Nat) (s : ElasticTable UInt64 Nat × World Unit UInt64 Nat)
      (r : Except Panic (Ret UInt64 Nat) × ElasticTable UInt64 Nat × World Unit UInt64 Nat),
      step consuming User.bursting (.insert key value) s = (r.1, r.2.1, r.2.2) → r.1.isOk = true →
      Moves (b := consuming) User.bursting id (.map s.1) s.2 [.map r.2.1] r.2.2 [.inl key, .inr value] :=
    fun key value s r hstep hok => .call hstep (habort hok) trivial
  have hnext : Moves (b := consuming) User.bursting id (.intoIter (intoIter consuming Stocked.second.2.1))
      Stocked.second.2.2 [.intoIter Stocked.taken.2.1] (Stocked.taken.2.2.yield Stocked.taken.1) [] :=
    .next (hparts Stocked.taken) (habort htaken)
  have hdrop : Moves (b := consuming) User.bursting id (.intoIter Stocked.taken.2.1)
      (Stocked.taken.2.2.yield Stocked.taken.1) [] Stocked.dropped.2 [] :=
    .dropIter (r := Stocked.dropped.1) (Prod.eta Stocked.dropped).symm fun h => by
      rw [h] at hdropped
      cases hdropped
  have hfirst := hinsert 7 70 (ElasticTable.unallocated, World.start) Stocked.first (hparts Stocked.first) hfirst
  have hsecond := hinsert 9 90 Stocked.first.2 Stocked.second (hparts Stocked.second) hsecond
  have hstocked := (hstart.alone hfirst).alone hsecond
  have hend := ((hstocked.alone .consume).alone hnext).alone hdrop
  have hlinear := (ownership_linear .scalar User.bursting id).2.kept rfl _ _ _ hend
  refine ⟨hhanded, ?_⟩
  rw [hcreated] at hlinear
  simpa [held, Op.supply] using hlinear

end Consumed

end Opthash
