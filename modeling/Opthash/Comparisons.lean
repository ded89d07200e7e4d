import Opthash.Lib.Costs
import Opthash.Map

namespace Opthash

open Exec HashMap

variable {W K V T α : Type} {u : User W K V} {m : W → Nat} {n : Nat}

/-- A count that only comparisons of keys raise, by one each at most. -/
structure User.Compares (u : User W K V) (m : W → Nat) : Prop where
  hashOne : ∀ k c, m (u.hashOne k c).2 ≤ m c
  equivalent : ∀ q k c, m (u.equivalent q k c).2 ≤ m c + 1

abbrev Compared (m : W → Nat) (t : T) (n : Nat) (c : Run T W K V α) : Prop :=
  Costs (fun s => s.1 = t) (fun s => m s.2.code) n c

theorem compared_eq (hm : u.Compares m) (t : T) (q k : K) : Compared m t 1 (onSnd (u.eq q k)) := by
  rintro ⟨t', w⟩ rfl
  have h := hm.equivalent q k w.code
  rw [wp_onSnd]
  simp only [wp, User.eq, World.call]
  rcases hr : u.equivalent q k w.code with ⟨_ | _, c⟩
  · rw [hr] at h
    exact h
  · rw [hr] at h
    exact ⟨trivial, h⟩

theorem Compared.le {t : T} {c : Run T W K V α} (h : Compared m t n c) (w : World W K V) :
    m (c (t, w)).2.2.code ≤ m w.code + n := by
  have hwp := h (t, w) rfl
  unfold wp at hwp
  rcases hr : c (t, w) with ⟨_ | _, t', w'⟩
  · rw [hr] at hwp
    exact hwp
  · rw [hr] at hwp
    exact hwp.2

/-- The lookups in `t` compare `n` keys at most, where `n` may depend on the hash of the key. -/
structure Frugal (b : TableBackend W K V) (u : User W K V) (m : W → Nat) (t : b.Table) (n : UInt64 → Nat) : Prop where
  find : ∀ key x w, m (b.find key x (t, w)).2.2.code ≤ m w.code + n x
  findForEntry : ∀ key x w, m (b.findForEntry key x (t, w)).2.2.code ≤ m w.code + n x
  get : ∀ key w k, (∀ x c, u.hashOne key w.code = (.ok x, c) → n x ≤ k) →
    m (get b u key (t, w)).2.2.code ≤ m w.code + k
  containsKey : ∀ key w k, (∀ x c, u.hashOne key w.code = (.ok x, c) → n x ≤ k) →
    m (containsKey b u key (t, w)).2.2.code ≤ m w.code + k

section Frugal

variable {b : TableBackend W K V} {t : b.Table} {bound : UInt64 → Nat}

theorem compared_findLocation (hm : u.Compares m) (hfind : ∀ key x, Compared m t (bound x) (b.find key x)) (key : K)
    {f : Option b.Location → Step b α} (hf : ∀ loc, Compared m t 0 (f loc)) {w : World W K V}
    (hbound : ∀ x c, u.hashOne key w.code = (.ok x, c) → bound x ≤ n) :
    m ((findLocation b u key >>= f) (t, w)).2.2.code ≤ m w.code + n := by
  have hhash := hm.hashOne key w.code
  simp only [findLocation, bind_apply, onSnd, User.hash, World.call]
  rcases hr : u.hashOne key w.code with ⟨_ | x, c⟩
  · rw [hr] at hhash
    exact Nat.le_trans hhash (Nat.le_add_right ..)
  · rw [hr] at hhash
    have hle := Compared.le ((hfind key x).bind_free hf) { w with code := c }
    have := hbound x c hr
    rw [bind_apply] at hle
    dsimp only at hle hhash ⊢
    omega

theorem get_eq_bind (key : K) : get b u key =
    findLocation b u key >>= fun loc => loc.elim (pure none) fun loc => (fun e => some e.2) <$> slotEntry b loc := by
  rw [HashMap.get, getKeyValue, bind_assoc]
  congr 1
  funext loc
  cases loc with
  | none => rfl
  | some loc =>
    dsimp only [Option.elim_some]
    rw [map_eq_pure_bind, map_eq_pure_bind, bind_assoc]
    rfl

theorem frugal_of_compared (hm : u.Compares m) (hfind : ∀ key x, Compared m t (bound x) (b.find key x))
    (hentry : ∀ key x, Compared m t (bound x) (b.findForEntry key x)) : Frugal b u m t bound := by
  constructor
  · exact fun key x w => Compared.le (hfind key x) w
  · exact fun key x w => Compared.le (hentry key x) w
  · intro key w k hk
    rw [get_eq_bind]
    apply compared_findLocation hm hfind key _ hk
    intro loc
    cases loc with
    | none => exact Costs.pure _
    | some loc => exact (Costs.get_bind fun s _ => Costs.expect _ _).map _
  · intro key w k hk
    exact compared_findLocation hm hfind key (fun loc => Costs.pure loc.isSome) hk

end Frugal

end Opthash
