import Opthash.Disjoint
import Opthash.Shell.Refinement

namespace Opthash.HashMap

open Exec FiniteMap

variable {W K V σ L : Type} {b : TableBackend W K V} {R : Reading b.Table b.Location b.Vacant b.Scan K V}
  {u : User W K V} {hash : K → UInt64} {eqv : K → K → Bool} {t t' : b.Table} {w : World W K V} {keys : List K}
  {locations : List (Option b.Location)}

def aliased : Panic := .internal "get_disjoint_mut: duplicate keys resolve to the same entry"

def Apart (locations : List (Option L)) : Prop := locations.Pairwise fun o o' => ∀ loc, o = some loc → o' ≠ some loc

theorem wp_checkDisjointAliasing [DecidableEq L] (locations : List (Option L)) (s : σ) :
    wp (checkDisjointAliasing locations) (fun _ s' => s' = s ∧ Apart locations)
      (fun p s' => s' = s ∧ p = aliased ∧ ¬Apart locations) s := by
  induction locations with
  | nil => exact ⟨rfl, List.Pairwise.nil⟩
  | cons o locations ih =>
    cases o with
    | none =>
      have hcons : Apart (none :: locations) ↔ Apart locations := by simp [Apart]
      rw [hcons]
      exact ih
    | some loc =>
      rw [checkDisjointAliasing, wp_ite]
      constructor
      · intro hmem
        refine ⟨rfl, rfl, fun happart => ?_⟩
        exact (List.pairwise_cons.mp happart).1 _ hmem loc rfl rfl
      · intro hmem
        have hcons : Apart (some loc :: locations) ↔ Apart locations := by
          rw [Apart, List.pairwise_cons]
          refine and_iff_right fun o ho loc' hloc' heq => ?_
          cases hloc'
          exact hmem (heq ▸ ho)
        rw [hcons]
        exact ih

theorem forall_mem_iff_of_forall₂ {α β : Type} {S : α → β → Prop} {P : α → Prop} {Q : β → Prop} {xs : List α}
    {ys : List β} (h : List.Forall₂ S xs ys) (hiff : ∀ x y, S x y → (P x ↔ Q y)) :
    (∀ x ∈ xs, P x) ↔ ∀ y ∈ ys, Q y := by
  induction h with
  | nil => simp
  | cons hhead _ ih =>
    rw [List.forall_mem_cons, List.forall_mem_cons]
    exact and_congr (hiff _ _ hhead) ih

theorem getElem?_of_forall₂ {α β : Type} {S : α → β → Prop} {xs : List α} {ys : List β} (h : List.Forall₂ S xs ys)
    (i : Nat) : xs[i]? = none ∧ ys[i]? = none ∨ ∃ x y, xs[i]? = some x ∧ ys[i]? = some y ∧ S x y := by
  induction h generalizing i with
  | nil => exact .inl ⟨rfl, rfl⟩
  | cons hhead _ ih =>
    cases i with
    | zero => exact .inr ⟨_, _, rfl, rfl, hhead⟩
    | succ i => exact ih i

/-- What the lookup of a key reports: the location of an entry with an equal key. -/
def Refers (R : Reading b.Table b.Location b.Vacant b.Scan K V) (eqv : K → K → Bool) (t : b.Table) (key : K) :
    Option b.Location → Prop
  | some loc => ∃ e, R.Holds t loc e ∧ eqv key e.1
  | none => find eqv key (R.entries t) = none

section Stored

variable (hc : Contract R u) (hl : u.Lawful hash eqv) (hs : Stores R u eqv t)
include hc hl hs

theorem refers_of_located {key : K} {location : Option b.Location} (h : Located R u t key location) :
    Refers R eqv t key location := by
  cases location with
  | none => exact Absent.find hc hl hs h
  | some loc =>
    obtain ⟨e, he, hanswer⟩ := h
    exact ⟨e, he, (hl.answers _ _ _ hanswer).symm⟩

theorem wp_locateDisjoint (keys : List K) (w : World W K V) :
    wp (locateDisjoint b u keys)
      (fun locations s => s.1 = t ∧ s.2.ledger = w.ledger ∧ List.Forall₂ (Refers R eqv t) keys locations)
      (LookupPanic u t w.ledger) (t, w) := by
  induction keys generalizing w with
  | nil => exact ⟨rfl, rfl, .nil⟩
  | cons key keys ih =>
    rw [locateDisjoint, wp_bind]
    apply wp_mono (wp_findLocation_any hc hs.wf key) _ (fun _ _ => id)
    rintro location ⟨t', w'⟩ ⟨ht, hledger, hlocated⟩
    obtain rfl : t' = t := ht
    rw [wp_bind]
    apply wp_mono (ih w')
    · rintro locations s ⟨ht, hledger', hrefers⟩
      exact ⟨ht, hledger'.trans hledger, .cons (refers_of_located hc hl hs hlocated) hrefers⟩
    · rintro p s ⟨hp, ht, hledger'⟩
      exact ⟨hp, ht, hledger'.trans hledger⟩

omit hl hs in
theorem holds_unique {loc : b.Location} {e e' : K × V} (he : R.Holds t loc e) (he' : R.Holds t loc e') : e = e' :=
  Option.some.inj ((hc.slotRef he).symm.trans (hc.slotRef he'))

theorem location_unique {key : K} {loc loc' : b.Location} {e e' : K × V} (he : R.Holds t loc e)
    (he' : R.Holds t loc' e') (hk : eqv key e.1) (hk' : eqv key e'.1) : loc = loc' := by
  by_contra hne
  obtain ⟨hwf, -, -, hperm, hundisturbed⟩ := hc.tombstoneSlot hs.wf he
  have hstill := hc.undisturbed hundisturbed (Ne.symm hne) he'
  have hmem := (hc.mem_entries hwf).mpr ⟨loc', hstill⟩
  have hothers := others_ne hl.equality hs.distinct hperm hk e' hmem
  rw [hk'] at hothers
  cases hothers

theorem apart_pair_iff {k k' : K} {o o' : Option b.Location} (h : Refers R eqv t k o) (h' : Refers R eqv t k' o') :
    (∀ e ∈ R.entries t, eqv k e.1 → eqv k' e.1 = false) ↔ ∀ loc, o = some loc → o' ≠ some loc := by
  constructor
  · rintro hseparate loc rfl rfl
    obtain ⟨e, he, hk⟩ := h
    obtain ⟨e', he', hk'⟩ := h'
    obtain rfl := holds_unique hc he he'
    rw [hseparate e ((hc.mem_entries hs.wf).mpr ⟨loc, he⟩) hk] at hk'
    cases hk'
  · intro happart e he hk
    by_contra hk'
    have hk' : eqv k' e.1 = true := by simpa using hk'
    have hsame : ∀ {key : K} {location : Option b.Location}, Refers R eqv t key location → eqv key e.1 →
        ∃ loc, location = some loc ∧ R.Holds t loc e := by
      intro key location hrefers hkey
      cases location with
      | none =>
        rw [find_eq_none.mp hrefers e he] at hkey
        cases hkey
      | some loc =>
        obtain ⟨e₁, he₁, hk₁⟩ := hrefers
        obtain rfl := hs.distinct.unique hl.equality ((hc.mem_entries hs.wf).mpr ⟨loc, he₁⟩) he hk₁ hkey
        exact ⟨loc, rfl, he₁⟩
    obtain ⟨loc, rfl, hloc⟩ := hsame h hk
    obtain ⟨loc', rfl, hloc'⟩ := hsame h' hk'
    obtain rfl := location_unique hc hl hs hloc hloc' hk hk
    exact happart loc rfl rfl

/-- The check fails exactly for keys of which two have one entry. -/
theorem apart_iff (h : List.Forall₂ (Refers R eqv t) keys locations) :
    Separate eqv (R.entries t) keys ↔ Apart locations := by
  induction h with
  | nil => simp [Apart, Separate]
  | @cons k o keys locations hrefers hrest ih =>
    rw [Apart, Separate, List.pairwise_cons, List.pairwise_cons]
    apply and_congr _ ih
    exact forall_mem_iff_of_forall₂ hrest fun k' o' hrefers' => apart_pair_iff hc hl hs hrefers hrefers'

theorem refers_update {key key' : K} {loc : b.Location} {e : K × V} {v : V} {location : Option b.Location}
    (he : R.Holds t loc e)
    (hupdate : (R.entries (b.writeValue loc e.1 v t)).Perm (update eqv key (fun _ => v) (R.entries t)))
    (h : Refers R eqv t key' location) : Refers R eqv (b.writeValue loc e.1 v t) key' location := by
  obtain ⟨-, -, hholds, hundisturbed⟩ := hc.writeValue v hs.wf he
  cases location with
  | none =>
    have hfind := find_perm hl.equality (distinct_update hs.distinct) hupdate key'
    rw [find_update, (h : find eqv key' (R.entries t) = none)] at hfind
    exact hfind
  | some loc' =>
    obtain ⟨e', he', hk'⟩ := h
    by_cases hsame : loc' = loc
    · subst hsame
      obtain rfl := holds_unique hc he he'
      exact ⟨_, hholds, hk'⟩
    · exact ⟨e', hc.undisturbed hundisturbed hsame he', hk'⟩

theorem wp_access (h : List.Forall₂ (Refers R eqv t) keys locations) (use : Access V) (w : World W K V) :
    wp (access b locations use)
      (fun r s => r = (use.onMap eqv keys (R.entries t)).2 ∧
        (R.entries s.1).Perm (use.onMap eqv keys (R.entries t)).1 ∧ R.Steady u t s.1 ∧ s.2 = w ∧
        Stores R u eqv s.1 ∧ List.Forall₂ (Refers R eqv s.1) keys locations)
      (fun _ _ => False) (t, w) := by
  have hstay : R.Steady u t t := .refl hs.wf
  have hfind : ∀ {key : K} {loc : b.Location} {e : K × V}, R.Holds t loc e → eqv key e.1 →
      find eqv key (R.entries t) = some e :=
    fun he hk => find_eq_some hl.equality hs.distinct ((hc.mem_entries hs.wf).mpr ⟨_, he⟩) hk
  cases use with
  | read i =>
    rw [access, Access.onMap]
    rcases getElem?_of_forall₂ h i with ⟨hkey, hlocation⟩ | ⟨key, location, hkey, hlocation, hrefers⟩
    · rw [hkey, hlocation]
      exact ⟨rfl, .refl _, hstay, rfl, hs, h⟩
    · rw [hkey, hlocation]
      cases location with
      | none => exact ⟨(hrefers : find eqv key (R.entries t) = none).symm, .refl _, hstay, rfl, hs, h⟩
      | some loc =>
        obtain ⟨e, he, hk⟩ := hrefers
        rw [Option.join_some]
        dsimp only
        rw [wp_map, wp_slotEntry hc he]
        exact ⟨(hfind he hk).symm, .refl _, hstay, rfl, hs, h⟩
  | write i v =>
    rw [access, Access.onMap]
    rcases getElem?_of_forall₂ h i with ⟨hkey, hlocation⟩ | ⟨key, location, hkey, hlocation, hrefers⟩
    · rw [hkey, hlocation]
      exact ⟨rfl, .refl _, hstay, rfl, hs, h⟩
    · rw [hkey, hlocation]
      cases location with
      | none =>
        refine ⟨rfl, ?_, hstay, rfl, hs, h⟩
        rw [Option.elim_some, update_of_ne (find_eq_none.mp hrefers)]
      | some loc =>
        obtain ⟨e, he, hk⟩ := hrefers
        rw [Option.join_some]
        dsimp only
        rw [wp_bind, wp_slotEntry hc he, wp_bind, wp_modify, wp_pure]
        obtain ⟨hsteady, ⟨rest, hbefore, hafter⟩, -, -⟩ := hc.writeValue v hs.wf he
        have hupdate : (R.entries (b.writeValue loc e.1 v t)).Perm (update eqv key (fun _ => v) (R.entries t)) :=
          hafter.trans (update_perm hl.equality hs.distinct hbefore hk fun _ => v).symm
        have hs' : Stores R u eqv (b.writeValue loc e.1 v t) :=
          ⟨hsteady.wf, hsteady.sound hs.sound, (distinct_update hs.distinct).perm hl.equality hupdate⟩
        refine ⟨rfl, hupdate, hsteady, rfl, hs', h.imp fun key' location' hrefers' => ?_⟩
        exact refers_update hc hl hs he hupdate hrefers'

end Stored

theorem wp_accessAll (hc : Contract R u) (hl : u.Lawful hash eqv) (hs : Stores R u eqv t)
    (h : List.Forall₂ (Refers R eqv t) keys locations) {m : List (K × V)} (hperm : (R.entries t).Perm m)
    (uses : List (Access V)) (w : World W K V) :
    wp (accessAll b locations uses)
      (fun rs s => rs = (Access.all (Access.onMap eqv keys) m uses).2 ∧
        (R.entries s.1).Perm (Access.all (Access.onMap eqv keys) m uses).1 ∧ R.Steady u t s.1 ∧ s.2 = w ∧
        Stores R u eqv s.1)
      (fun _ _ => False) (t, w) := by
  have hd := hs.distinct.perm hl.equality hperm.symm
  induction uses generalizing t m w with
  | nil => exact ⟨rfl, hperm, .refl hs.wf, rfl, hs⟩
  | cons use uses ih =>
    obtain ⟨hread, hcongr⟩ := onMap_congr keys hl.equality hd hperm use
    rw [accessAll, wp_bind]
    apply wp_mono (wp_access hc hl hs h use w) _ (fun _ _ => id)
    rintro r ⟨t', w'⟩ ⟨hr, hperm', hsteady, hw, hs', h'⟩
    obtain rfl : w' = w := hw
    rw [wp_bind]
    apply wp_mono (ih hs' h' (hperm'.trans hcongr) w' (distinct_onMap hd use)) _ (fun _ _ => id)
    rintro rs s ⟨hrs, hlast, hsteady', hw', hs''⟩
    refine ⟨?_, hlast, hsteady.trans hsteady', hw', hs''⟩
    rw [Access.all, hr, hread, hrs]

end Opthash.HashMap
