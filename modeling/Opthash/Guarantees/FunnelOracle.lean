import Opthash.Funnel.Mirror
import Opthash.Guarantees.Placement

namespace Opthash.Funnel.FunnelTable

open Exec Reference

variable {W K V : Type} {group : GroupBackend} {u : User W K V} {hash : K → UInt64} {eqv : K → K → Bool}
  {t₀ t t' : FunnelTable K V} {w₀ w₁ w w' : World W K V} {s₀ s s' : ScalarFunnel}

/-- The table and the oracle after the same insertions of some of the keys, each of which the oracle reported as
inserted or as a duplicate. What the user code does on the side is open. -/
inductive Traced (group : GroupBackend) (u : User W K V) (hash : K → UInt64) (keys : K → Prop) (s₀ : ScalarFunnel)
    (p₀ : FunnelTable K V × World W K V) : ScalarFunnel → FunnelTable K V × World W K V → Prop
  | start : Traced group u hash keys s₀ p₀ s₀ p₀
  | beside {s : ScalarFunnel} {t : FunnelTable K V} {w : World W K V} (w' : World W K V)
      (h : Traced group u hash keys s₀ p₀ s (t, w)) : Traced group u hash keys s₀ p₀ s (t, w')
  | inserted {s s' : ScalarFunnel} {p p' : FunnelTable K V × World W K V} {k : K} {v : V}
      {location : ScalarFunnelLocation} {probes : Nat} {r : Except Panic (Option V)} (hkey : keys k)
      (h : Traced group u hash keys s₀ p₀ s p)
      (horacle : (s.insert (hash k)).run = some (.ok ((.inserted location, probes), s')))
      (hstep : insert group u k v (hash k) p = (r, p')) : Traced group u hash keys s₀ p₀ s' p'
  | duplicate {s s' : ScalarFunnel} {p p' : FunnelTable K V × World W K V} {k : K} {v : V}
      {location : ScalarFunnelLocation} {probes : Nat} {r : Except Panic (Option V)} (hkey : keys k)
      (h : Traced group u hash keys s₀ p₀ s p)
      (horacle : (s.insert (hash k)).run = some (.ok ((.duplicate location, probes), s')))
      (hstep : insert group u k v (hash k) p = (r, p')) : Traced group u hash keys s₀ p₀ s' p'

/-- Every entry of the first table is in the second, at its slot, perhaps with another value. -/
def Stays (t t' : FunnelTable K V) : Prop :=
  ∀ slot e, t.storage.Holds slot e → ∃ v, t'.storage.Holds slot (e.1, v)

theorem Stays.trans {t'' : FunnelTable K V} (h : Stays t t') (h' : Stays t' t'') : Stays t t'' := by
  intro slot e he
  obtain ⟨v, hv⟩ := h slot e he
  exact h' slot (e.1, v) hv

theorem stays_place {slot : Nat} {k : K} {v : V} {x : UInt64} (hfree : isFree (t.storage.ctrl slot)) :
    Stays t (t.place slot k v x false) := by
  intro slot' e he
  refine ⟨e.2, holds_place.mpr (.inr ⟨?_, he⟩)⟩
  rintro rfl
  have hocc := he.2.1
  rw [Region.not_occ_of_free hfree] at hocc
  cases hocc

theorem stays_replaceValue {slot : Nat} {e : K × V} {v : V} (he : t.storage.Holds slot e) :
    Stays t (t.replaceValue slot e.1 v) := by
  intro slot' e' he'
  by_cases hsame : slot' = slot
  · subst hsame
    obtain rfl := he.unique he'
    exact ⟨v, (holds_replaceValue he).mpr (.inl ⟨rfl, rfl⟩)⟩
  · exact ⟨e'.2, (holds_replaceValue he).mpr (.inr ⟨hsame, he'⟩)⟩

def Among (keys : K → Prop) (t : FunnelTable K V) : Prop := ∀ slot e, t.storage.Holds slot e → keys e.1

theorem among_place {keys : K → Prop} {slot : Nat} {k : K} {v : V} {x : UInt64} (h : Among keys t) (hkey : keys k) :
    Among keys (t.place slot k v x false) := by
  intro slot' e he
  rcases holds_place.mp he with ⟨-, -, rfl⟩ | ⟨-, he⟩
  · exact hkey
  · exact h slot' e he

theorem among_replaceValue {keys : K → Prop} {slot : Nat} {e : K × V} {v : V} (h : Among keys t)
    (he : t.storage.Holds slot e) : Among keys (t.replaceValue slot e.1 v) := by
  intro slot' e' he'
  rcases (holds_replaceValue he).mp he' with ⟨-, rfl⟩ | ⟨-, he'⟩
  · exact h slot e he
  · exact h slot' e' he'

section Runs

variable {keys : K → Prop} (hcalm : u.Calm) (hl : u.Lawful hash eqv)
  (hident : ∀ k k', keys k → keys k' → hash k = hash k' → eqv k k' = true)
include hcalm hl hident

theorem Traced.follows {p₀ p : FunnelTable K V × World W K V} (h : Traced group u hash keys s₀ p₀ s p)
    (h₀ : Follows u hash s₀ p₀.1) (hamong : Among keys p₀.1) :
    Follows u hash s p.1 ∧ Among keys p.1 ∧ Stays p₀.1 p.1 := by
  induction h with
  | start => exact ⟨h₀, hamong, fun slot e he => ⟨e.2, he⟩⟩
  | beside _ _ ih => exact ih
  | @inserted s s' p p' k v location probes r hkey _ horacle hstep ih =>
    obtain ⟨hfollows, hstored, hstays⟩ := ih
    obtain ⟨-, hfree, hwp⟩ := hfollows.inserted (v := v) (w := p.2) hcalm hl group horacle
    cases r with
    | error e => exact ((wp_of_error hstep).mp hwp).elim
    | ok r =>
      obtain ⟨-, hplaced, hnext⟩ := (wp_of_ok hstep).mp hwp
      refine ⟨hnext, ?_, hstays.trans ?_⟩
      · rw [hplaced]
        exact among_place hstored hkey
      · rw [hplaced]
        exact stays_place hfree
  | @duplicate s s' p p' k v location probes r hkey _ horacle hstep ih =>
    obtain ⟨hfollows, hstored, hstays⟩ := ih
    obtain ⟨rfl, e, he, -, hwp⟩ := hfollows.duplicated (v := v) (w := p.2) hcalm hl group
      (fun slot e he hsame => hident k e.1 hkey (hstored slot e he) hsame.symm) horacle
    cases r with
    | error e => exact ((wp_of_error hstep).mp hwp).elim
    | ok r =>
      obtain ⟨-, hreplaced, hnext⟩ := (wp_of_ok hstep).mp hwp
      refine ⟨hnext, ?_, hstays.trans ?_⟩
      · rw [hreplaced]
        exact among_replaceValue hstored he
      · rw [hreplaced]
        exact stays_replaceValue he

end Runs

/-- A fresh table inserts, replaces and finds every key where the oracle of its size does, and moves none, as long as the
keys differ in their hashes. The oracle's locations are the places of the entries. -/
theorem insertion_refines_oracle {keys : K → Prop} {n : Nat} {r : ReserveFraction} {shape : FunnelShape} (hn : n ≠ 0)
    (hshape : FunnelShape.fromSlots n r = .ok shape) (hfresh : tryFromShape group u shape r w₀ = (.ok (.ok t₀), w₁))
    (hnew : ScalarFunnel.new ⟨n, r.exponent⟩ (Probe.FunnelPrf.mk funnelProbeSeed).word Probe.rangeWordCap = some s₀)
    (hcalm : u.Calm) (hl : u.Lawful hash eqv)
    (hident : ∀ k k', keys k → keys k' → hash k = hash k' → eqv k k' = true)
    (htraced : Traced group u hash keys s₀ (t₀, w₁) s (t, w)) :
    t.len = s.len ∧
    (∃ ls, s.locations = some ls ∧ ∀ slot x,
      (∃ location, (location, x) ∈ ls ∧ location.globalSlot = slot) ↔ ∃ e, t.storage.Holds slot e ∧ hash e.1 = x) ∧
    (∀ k v location probes s', (s.insert (hash k)).run = some (.ok ((.inserted location, probes), s')) →
      ∃ t' w', insert group u k v (hash k) (t, w) = (.ok none, (t', w')) ∧
        t'.storage.Holds location.globalSlot (k, v) ∧
        ∀ slot e, slot ≠ location.globalSlot → (t'.storage.Holds slot e ↔ t.storage.Holds slot e)) ∧
    (∀ k v location probes s', keys k → (s.insert (hash k)).run = some (.ok ((.duplicate location, probes), s')) →
      s' = s ∧ ∃ e w', t.storage.Holds location.globalSlot e ∧ eqv k e.1 = true ∧
        insert group u k v (hash k) (t, w) =
          (.ok (some e.2), (t.replaceValue location.globalSlot e.1 v, w'))) ∧
    (∀ k, keys k → ∃ answer w', (s.search (hash k)).run = some answer ∧
      find group u k (hash k) (t, w) = (.ok (ScalarFunnel.outcome answer).hit?, (t, w'))) ∧
    ∀ s' t' w', Traced group u hash keys s (t, w) s' (t', w') → Stays t t' := by
  have hsmall : shape.n < 2 ^ 63 ∧ t₀ = fresh shape r (.empty shape.n) (.zeroed (Membership.wordCount shape.n)) := by
    suffices hwp : wp (tryFromShape group u shape r : Exec Panic (World W K V) (Except TryReserveError (FunnelTable K V)))
        (fun res _ => ∀ t, res = .ok t →
          shape.n < 2 ^ 63 ∧ t = fresh shape r (.empty shape.n) (.zeroed (Membership.wordCount shape.n)))
        (fun _ _ => True) w₀ from (wp_of_ok hfresh).mp hwp t₀ rfl
    rw [tryFromShape, wp_bind]
    refine wp_mono (wp_tryAllocateStorage shape.n w₀) ?_ (fun _ _ => id)
    rintro (e | ⟨storage, membership⟩) w' ⟨-, hnew⟩
    · intro t h
      cases h
    · obtain ⟨rfl, rfl, hsmall⟩ := hnew storage membership rfl
      intro t h
      cases h
      exact ⟨hsmall, rfl⟩
  obtain ⟨hsmall, rfl⟩ := hsmall
  have hempty : Among keys (fresh shape r (.empty shape.n) (.zeroed (Membership.wordCount shape.n)) : FunnelTable K V) := by
    intro slot e he
    have hocc : (Region.empty shape.n : Region (K × V)).Occ slot = true := he.2.1
    rw [Region.occ_empty] at hocc
    cases hocc
  obtain ⟨hfollows, hstored, -⟩ := htraced.follows hcalm hl hident (.start hn hshape hsmall hnew) hempty
  have hknown : ∀ {k : K}, keys k → ∀ slot e, t.storage.Holds slot e → hash e.1 = hash k → eqv k e.1 = true :=
    fun hkey slot e he hsame => hident _ e.1 hkey (hstored slot e he) hsame.symm
  refine ⟨hfollows.mirrors.len.symm, hfollows.locations, ?_, ?_, ?_, ?_⟩
  · intro k v location probes s' horacle
    obtain ⟨hlt, -, hwp⟩ := hfollows.inserted (v := v) (w := w) hcalm hl group horacle
    rcases hrun : insert group u k v (hash k) (t, w) with ⟨e | r, t', w'⟩
    · exact ((wp_of_error hrun).mp hwp).elim
    · obtain ⟨rfl, rfl, -⟩ := (wp_of_ok hrun).mp hwp
      refine ⟨_, w', rfl, holds_place.mpr (.inl ⟨rfl, ?_, rfl⟩), fun slot e hne => ?_⟩
      · rwa [hfollows.wf.capacity]
      · exact holds_place.trans ⟨fun h => (h.resolve_left fun h => hne h.1).2, fun h => .inr ⟨hne, h⟩⟩
  · intro k v location probes s' hkey horacle
    obtain ⟨rfl, e, he, hsame, hwp⟩ := hfollows.duplicated (v := v) (w := w) hcalm hl group (hknown hkey) horacle
    rcases hrun : insert group u k v (hash k) (t, w) with ⟨p | r, t', w'⟩
    · exact ((wp_of_error hrun).mp hwp).elim
    · obtain ⟨rfl, rfl, -⟩ := (wp_of_ok hrun).mp hwp
      exact ⟨rfl, e, w', he, hknown hkey _ e he hsame, rfl⟩
  · intro k hkey
    obtain ⟨answer, hsearch, hwp⟩ := hfollows.finds (w := w) hcalm hl group k (hknown hkey)
    rcases hrun : find group u k (hash k) (t, w) with ⟨p | r, t', w'⟩
    · exact ((wp_of_error hrun).mp hwp).elim
    · obtain ⟨rfl, rfl⟩ := (wp_of_ok hrun).mp hwp
      exact ⟨answer, w', hsearch, rfl⟩
  · intro s' t' w' hlater
    exact (hlater.follows hcalm hl hident hfollows hstored).2.2

def trace (group : GroupBackend) (u : User W K V) (hash : K → UInt64) :
    List (K × V) → ScalarFunnel → FunnelTable K V × World W K V → Option (ScalarFunnel × FunnelTable K V × World W K V)
  | [], s, p => some (s, p)
  | (k, v) :: entries, s, p =>
    match (s.insert (hash k)).run with
    | some (.ok ((.inserted _, _), s')) => trace group u hash entries s' (insert group u k v (hash k) p).2
    | some (.ok ((.duplicate _, _), s')) => trace group u hash entries s' (insert group u k v (hash k) p).2
    | _ => none

theorem Traced.trace {keys : K → Prop} {p₀ p p' : FunnelTable K V × World W K V}
    (h : Traced group u hash keys s₀ p₀ s p) {entries : List (K × V)} (hkeys : ∀ e ∈ entries, keys e.1)
    (htrace : FunnelTable.trace group u hash entries s p = some (s', p')) : Traced group u hash keys s₀ p₀ s' p' := by
  induction entries generalizing s p with
  | nil =>
    cases htrace
    exact h
  | cons entry entries ih =>
    obtain ⟨k, v⟩ := entry
    have hkey : keys k := hkeys _ (List.mem_cons_self ..)
    have hrest := fun e he => hkeys e (List.mem_cons_of_mem _ he)
    rw [FunnelTable.trace] at htrace
    split at htrace
    · rename_i horacle
      exact ih (h.inserted hkey horacle rfl) hrest htrace
    · rename_i horacle
      exact ih (h.duplicate hkey horacle rfl) hrest htrace
    · cases htrace

def traceFresh (group : GroupBackend) (u : User W K V) (hash : K → UInt64) (n : Nat) (r : ReserveFraction)
    (entries : List (K × V)) (w : World W K V) : Option (ScalarFunnel × FunnelTable K V × World W K V) := do
  let shape ← (FunnelShape.fromSlots n r).toOption
  let s ← ScalarFunnel.new ⟨n, r.exponent⟩ (Probe.FunnelPrf.mk funnelProbeSeed).word Probe.rangeWordCap
  match tryFromShape group u shape r w with
  | (.ok (.ok t), w) => trace group u hash entries s (t, w)
  | _ => none

theorem traceFresh_traced (keys : K → Prop) {n : Nat} {r : ReserveFraction} {entries : List (K × V)}
    (hkeys : ∀ e ∈ entries, keys e.1) (h : traceFresh group u hash n r entries w₀ = some (s, t, w)) :
    ∃ shape t₀ w₁ s₀, FunnelShape.fromSlots n r = .ok shape ∧ tryFromShape group u shape r w₀ = (.ok (.ok t₀), w₁) ∧
      ScalarFunnel.new ⟨n, r.exponent⟩ (Probe.FunnelPrf.mk funnelProbeSeed).word Probe.rangeWordCap = some s₀ ∧
      Traced group u hash keys s₀ (t₀, w₁) s (t, w) := by
  obtain ⟨shape, hshape, h⟩ := Option.bind_eq_some_iff.mp h
  obtain ⟨s₀, hnew, h⟩ := Option.bind_eq_some_iff.mp h
  split at h
  · rename_i t₀ w₁ hfresh
    refine ⟨shape, t₀, w₁, s₀, ?_, hfresh, hnew, Traced.start.trace hkeys h⟩
    cases hslots : FunnelShape.fromSlots n r with
    | error e =>
      rw [hslots] at hshape
      cases hshape
    | ok shape' =>
      rw [hslots] at hshape
      cases hshape
      rfl
  · cases h

def User.digits : User Unit UInt64 Nat := .ofFunctions (· % 100) (· == ·) false 16 8

theorem User.lawful_digits : User.digits.Lawful (· % 100) (· == ·) :=
  User.lawful_ofFunctions User.equality_beq fun _ _ h => congrArg (· % 100) (eq_of_beq h)

/-- Two keys and a duplicate in the table of 144 slots, with a hash that tells only the keys below 100 apart. -/
theorem insertion_refines_oracle_three : ∃ (t : FunnelTable UInt64 Nat) (s : ScalarFunnel), t.len = 2 ∧ s.len = 2 ∧
    (∃ w', find .scalar User.digits 1 1 (t, World.start) = (.ok (some 0), (t, w'))) ∧
    ∃ w', find .scalar User.digits 7 7 (t, World.start) = (.ok none, (t, w')) := by
  have hrun : (traceFresh .scalar User.digits (· % 100) 144 ⟨3, by decide, by decide⟩ [(1, 10), (2, 20), (1, 11)]
      World.start).any (fun p => decide (p.1.len = 2 ∧
        (p.1.search 1).run.map ScalarFunnel.outcome = some (.hit 0) ∧
        (p.1.search 7).run.map ScalarFunnel.outcome = some (.vacant 2))) = true := by
    decide +kernel
  obtain ⟨⟨s, t, w⟩, htrace, hstate⟩ := (Option.any_eq_true _ _).mp hrun
  obtain ⟨hlen, hone, hseven⟩ := of_decide_eq_true hstate
  obtain ⟨shape, t₀, w₁, s₀, hshape, hfresh, hnew, htraced⟩ := traceFresh_traced (· < 100) (by decide) htrace
  have hident : ∀ k k' : UInt64, k < 100 → k' < 100 → k % 100 = k' % 100 → (k == k') = true := by
    intro k k' hk hk' h
    have hmod := congrArg UInt64.toNat h
    rw [UInt64.toNat_mod, UInt64.toNat_mod, Nat.mod_eq_of_lt (UInt64.lt_iff_toNat_lt.mp hk),
      Nat.mod_eq_of_lt (UInt64.lt_iff_toNat_lt.mp hk')] at hmod
    exact beq_iff_eq.mpr (UInt64.toNat_inj.mp hmod)
  obtain ⟨hsame, -, -, -, hfound, -⟩ := insertion_refines_oracle (by decide) hshape hfresh hnew User.calm_ofFunctions
    User.lawful_digits hident (htraced.beside World.start)
  obtain ⟨answer, w', hsearch, hfind⟩ := hfound 1 (by decide)
  obtain ⟨answer', w'', hsearch', hfind'⟩ := hfound 7 (by decide)
  refine ⟨t, s, hsame.trans hlen, hlen, ⟨w', ?_⟩, w'', ?_⟩
  · have houtcome : some (ScalarFunnel.outcome answer) = some (.hit 0) := (congrArg _ hsearch).symm.trans hone
    rw [Option.some.inj houtcome] at hfind
    exact hfind
  · have houtcome : some (ScalarFunnel.outcome answer') = some (.vacant 2) := (congrArg _ hsearch').symm.trans hseven
    rw [Option.some.inj houtcome] at hfind'
    exact hfind'

end Opthash.Funnel.FunnelTable
