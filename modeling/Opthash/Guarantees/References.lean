import Opthash.Guarantees.Filter
import Opthash.Guarantees.Lookup
import Opthash.Shell.Disjoint

namespace Opthash

open Exec FiniteMap HashMap

variable {W K V : Type} {u : User W K V} {hash : K → UInt64} {eqv : K → K → Bool} {copyKey : K → K} {copyValue : V → V}

/-- What the caller read through the references and left behind them, each of which is a cell of its own, in a map
that is otherwise as it was. -/
structure Referenced {b : TableBackend W K V} (R : Reading b.Table b.Location b.Vacant b.Scan K V) (u : User W K V)
    (eqv : K → K → Bool) (t t' : b.Table) (keys : List K) (uses : List (Access V)) (reads : List (Option (K × V))) :
    Prop where
  separate : Separate eqv (R.entries t) keys
  reads : reads = (Access.all Access.onCells (keys.map fun k => find eqv k (R.entries t)) uses).2
  cells : (keys.map fun k => find eqv k (R.entries t')) =
    (Access.all Access.onCells (keys.map fun k => find eqv k (R.entries t)) uses).1
  entries : (R.entries t').Perm (Access.all (Access.onMap eqv keys) (R.entries t) uses).1
  steady : R.Steady u t t'
  stores : Stores R u eqv t'

structure DisjointReferences (b : TableBackend W K V) [DecidableEq b.Location]
    (R : Reading b.Table b.Location b.Vacant b.Scan K V) (u : User W K V) (eqv : K → K → Bool) (t : b.Table) : Prop where
  checked : ∀ keys uses w, wp (getDisjointKeyValueMut b u keys >>= fun locations => accessAll b locations uses)
    (fun reads s => Referenced R u eqv t s.1 keys uses reads)
    (fun p s => s.1 = t ∧ (u.Unwound p ∨ p = aliased ∧ ¬Separate eqv (R.entries t) keys)) (t, w)
  unchecked : ∀ keys uses w, Separate eqv (R.entries t) keys →
    wp (getDisjointUncheckedMut b u keys >>= fun locations => accessAll b locations uses)
      (fun reads s => Referenced R u eqv t s.1 keys uses reads) (fun p s => s.1 = t ∧ u.Unwound p) (t, w)

section Generic

variable {b : TableBackend W K V} {R : Reading b.Table b.Location b.Vacant b.Scan K V} {t : b.Table} (hc : Contract R u)
  (hl : u.Lawful hash eqv) (hs : Stores R u eqv t)
include hc hl hs

theorem wp_references {keys : List K} {locations : List (Option b.Location)} (hseparate : Separate eqv (R.entries t) keys)
    (h : List.Forall₂ (Refers R eqv t) keys locations) (uses : List (Access V)) (w : World W K V) :
    wp (accessAll b locations uses) (fun reads s => Referenced R u eqv t s.1 keys uses reads)
      (fun p s => s.1 = t ∧ u.Unwound p) (t, w) := by
  apply wp_mono (wp_accessAll hc hl hs h (.refl _) uses w) _ (fun _ _ h => h.elim)
  rintro reads s ⟨hreads, hentries, hsteady, -, hstores⟩
  obtain ⟨hsame, hcells⟩ := all_onMap_eq_onCells hseparate uses
  refine ⟨hseparate, hreads.trans hsame, ?_, hentries, hsteady, hstores⟩
  rw [← hcells]
  apply List.map_congr_left
  intro key _
  exact find_perm hl.equality (hstores.distinct.perm hl.equality hentries.symm) hentries key

theorem disjoint_of_stores [DecidableEq b.Location] : DisjointReferences b R u eqv t where
  checked := by
    intro keys uses w
    rw [wp_bind, getDisjointKeyValueMut, wp_bind]
    apply wp_mono (wp_locateDisjoint hc hl hs keys w)
    · rintro locations ⟨t', w'⟩ ⟨ht, -, hrefers⟩
      obtain rfl : t' = t := ht
      rw [wp_bind]
      apply wp_mono (wp_checkDisjointAliasing locations (t', w'))
      · rintro _ s ⟨rfl, happart⟩
        rw [wp_pure]
        have hseparate := (apart_iff hc hl hs hrefers).mpr happart
        exact wp_mono (wp_references hc hl hs hseparate hrefers uses w') (fun _ _ => id) fun _ _ h => ⟨h.1, .inl h.2⟩
      · rintro p s ⟨rfl, hp, happart⟩
        exact ⟨rfl, .inr ⟨hp, fun hseparate => happart ((apart_iff hc hl hs hrefers).mp hseparate)⟩⟩
    · rintro p s ⟨hp, ht, -⟩
      exact ⟨ht, .inl hp⟩
  unchecked := by
    intro keys uses w hseparate
    rw [wp_bind, getDisjointUncheckedMut]
    apply wp_mono (wp_locateDisjoint hc hl hs keys w)
    · rintro locations ⟨t', w'⟩ ⟨ht, -, hrefers⟩
      obtain rfl : t' = t := ht
      exact wp_references hc hl hs hseparate hrefers uses w'
    · rintro p s ⟨hp, ht, -⟩
      exact ⟨ht, hp⟩

end Generic

instance (group : GroupBackend) (u : User W K V) : DecidableEq (Funnel.backend group u).Location :=
  inferInstanceAs (DecidableEq Nat)

instance (group : GroupBackend) (u : User W K V) : DecidableEq (Elastic.backend group u).Location :=
  inferInstanceAs (DecidableEq (Nat × Nat))

theorem disjoint_references (group : GroupBackend) (hhash : ∀ k, User.Total (u.hashOne k)) (hl : u.Lawful hash eqv)
    (hcopy : u.Copying eqv copyKey copyValue) :
    (∀ t, Reachable (Funnel.backend group u) u (Funnel.Initial group u)
        (fun e => e.2.1.Fitting hash eqv e.1.1.storage.entries) t →
      DisjointReferences (Funnel.backend group u) (Funnel.reading group) u eqv t) ∧
    ∀ t, Reachable (Elastic.backend group u) u (Elastic.Initial group u)
        (fun e => e.2.1.Fitting hash eqv e.1.1.entries) t →
      DisjointReferences (Elastic.backend group u) (Elastic.reading group) u eqv t := by
  constructor
  · intro t ht
    exact disjoint_of_stores (Funnel.contract group u) hl
      (ht.stores (Funnel.contract group u) (fun _ h => h.fresh) hhash hl hcopy fun _ => id)
  · intro t ht
    exact disjoint_of_stores (Elastic.contract group u) hl
      (ht.stores (Elastic.contract group u) (fun _ h => h.fresh) hhash hl hcopy fun _ => id)

/-- A reference to the value of the only key: what is written through it is read back. -/
theorem disjoint_references_one : ∃ (t : Elastic.ElasticTable UInt64 Nat) (loc : Nat × Nat), t.Holds loc (7, 70) ∧
    ∀ w, wp (getDisjointKeyValueMut (Elastic.backend .scalar User.sample) User.sample [7, 9] >>= fun locations =>
        accessAll (Elastic.backend .scalar User.sample) locations [.read 0, .write 0 71, .read 0])
      (fun reads _ => reads = [some (7, 70), none, some (7, 71)]) (fun p _ => p = .user ∨ p = aliased) (t, w) := by
  obtain ⟨t, loc, ht, hloc⟩ := Elastic.exists_stored
    (A := fun e => e.2.1.Fitting id (· == ·) e.1.1.entries) fun _ _ _ => trivial
  have hhash : ∀ k, User.Total (User.sample.hashOne k) := User.calm_sample.hashOne
  have hstores := ht.stores (Elastic.contract .scalar User.sample) (fun _ h => h.fresh) hhash User.lawful_sample
    User.copying_sample fun _ => id
  have hmem : (7, 70) ∈ (Elastic.reading .scalar).entries t :=
    ((Elastic.contract .scalar User.sample).mem_entries hstores.wf).mpr ⟨loc, hloc⟩
  have hfind : find (fun k k' : UInt64 => k == k') 7 ((Elastic.reading .scalar).entries t) = some (7, 70) :=
    find_eq_some User.equality_beq hstores.distinct hmem rfl
  have hdisjoint := (disjoint_references .scalar hhash User.lawful_sample User.copying_sample).2 t ht
  refine ⟨t, loc, hloc, fun w => ?_⟩
  apply wp_mono (hdisjoint.checked [7, 9] [.read 0, .write 0 71, .read 0] w)
  · rintro reads s h
    rw [h.reads, List.map_cons, hfind]
    rfl
  · rintro p s ⟨-, hp⟩
    exact hp.imp And.left And.left

end Opthash
