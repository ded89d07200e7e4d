import Opthash.Bulk
import Opthash.Shell.Owners
import Opthash.Shell.Scripts

namespace Opthash.HashMap

open Exec FiniteMap Ledger

variable {W K V : Type} {b : TableBackend W K V} {R : Reading b.Table b.Location b.Vacant b.Scan K V} {u : User W K V}
  {hash : K → UInt64} {eqv : K → K → Bool} {t t' : b.Table} {w : World W K V} {s s' s'' : b.Table × World W K V}
  {key : K} {value : V} {items items' : List (K × V)}

/-- The table with the items put into it, without growth as long as there is room. -/
structure Filled (R : Reading b.Table b.Location b.Vacant b.Scan K V) (u : User W K V) (eqv : K → K → Bool)
    (items : List (K × V)) (t t' : b.Table) : Prop where
  stores : Stores R u eqv t'
  entries : (R.entries t').Perm (puts eqv items (R.entries t))
  counted : R.Counted t → R.Counted t'
  capacity : R.Counted t → R.len t + items.length ≤ R.capacity t → R.capacity t' = R.capacity t

/-- The items are stored, or they have left together with what they replaced. -/
def Books (R : Reading b.Table b.Location b.Vacant b.Scan K V) (u : User W K V) (items : List (K × V))
    (s s' : b.Table × World W K V) : Prop :=
  ∀ κ, Accounts u κ (weighEntries κ (R.entries s.1)) s.2 (weighEntries κ (R.entries s'.1)) s'.2 (weighEntries κ items)

theorem Books.trans (h : Books R u items s s') (h' : Books R u items' s' s'') : Books R u (items ++ items') s s'' := by
  intro κ
  rw [weighEntries_append]
  exact (h κ).trans (h' κ)

theorem books_nil (hentries : (R.entries s'.1).Perm (R.entries s.1)) (hledger : s'.2.ledger = s.2.ledger) :
    Books R u [] s s' :=
  fun _ => .of_ledger hledger (weighEntries_perm hentries)

/-- What is left when `who` unwinds while the items are put into the map: the first of them are in it, and as many as
were taken are accounted for. -/
def PartlyFilled (R : Reading b.Table b.Location b.Vacant b.Scan K V) (u : User W K V) (eqv : K → K → Bool)
    (who : Prop) (items : List (K × V)) (s : b.Table × World W K V) (p : Panic) (s' : b.Table × World W K V) : Prop :=
  p.Blamed (¬u.Calm ∨ who) ∧
    (p ≠ .abort → Stores R u eqv s'.1 ∧
      (∃ n ≤ items.length, (R.entries s'.1).Perm (puts eqv (items.take n) (R.entries s.1))) ∧
      ∃ taken ≤ items.length, Books R u (items.take taken) s s')

theorem Filled.trans {t'' : b.Table} (hc : Contract R u) (hl : u.Lawful hash eqv)
    (hs : Stores R u eqv t) (h : Filled R u eqv items t t') (h' : Filled R u eqv items' t' t'') :
    Filled R u eqv (items ++ items') t t'' where
  stores := h'.stores
  entries := by
    rw [puts, List.foldl_append]
    exact h'.entries.trans (puts_congr hl.equality (distinct_puts hs.distinct items) h.entries items')
  counted := fun hcounted => h'.counted (h.counted hcounted)
  capacity := by
    intro hcounted hroom
    have hsame : R.capacity t' = R.capacity t := by
      apply h.capacity hcounted
      rw [List.length_append] at hroom
      omega
    have hlen : R.len t' ≤ R.len t + items.length := by
      rw [hc.len hcounted, hc.len (h.counted hcounted), h.entries.length_eq]
      exact length_puts_le items _
    rw [← hsame]
    apply h'.capacity (h.counted hcounted)
    rw [List.length_append] at hroom
    omega

theorem accounts_replaced {κ : K ⊕ V → Nat} {n : Nat} {old : V} {w' : World W K V}
    (h : R.Replaced u t t' key value old) (hd : User.Dropped κ n w w') (hn : n = weighEntry κ (key, old)) :
    Accounts u κ (weighEntries κ (R.entries t)) w (weighEntries κ (R.entries t')) w' (weighEntries κ [(key, value)]) := by
  obtain ⟨-, k', rest, -, hbefore, hafter⟩ := h
  apply Accounts.of_dropped hd
  rw [hn, weighEntries_perm hbefore, weighEntries_perm hafter]
  simp only [weighEntries_cons, weighEntries_nil, weighEntry]
  omega

section Stored

variable (hc : Contract R u) (hl : u.Lawful hash eqv) (hs : Stores R u eqv t)
include hc hl hs

omit hc hs in
theorem PartlyFilled.after {e : K × V} {p : Panic} (hs : Stores R u eqv s.1) (hfilled : Filled R u eqv [e] s.1 s'.1)
    (hbooks : Books R u [e] s s') (h : PartlyFilled R u eqv False items s' p s'') :
    PartlyFilled R u eqv False (e :: items) s p s'' := by
  obtain ⟨hp, hleft⟩ := h
  refine ⟨hp, fun hne => ?_⟩
  obtain ⟨hstores, ⟨n, hn, hentries⟩, taken, htaken, hlater⟩ := hleft hne
  refine ⟨hstores, ⟨n + 1, Nat.succ_le_succ hn, hentries.trans ?_⟩, taken + 1, Nat.succ_le_succ htaken,
    hbooks.trans hlater⟩
  exact puts_congr hl.equality (distinct_puts hs.distinct [e]) hfilled.entries (items.take n)

omit hc in
theorem stores_replaced {old : V} (h : R.Replaced u t t' key value old) :
    Stores R u eqv t' ∧ (R.entries t').Perm (put eqv key value (R.entries t)) := by
  obtain ⟨hkeeps, k', rest, hans, hbefore, hafter⟩ := h
  have hmem : Matched R u t key (k', old) := ⟨hbefore.mem_iff.mpr (List.mem_cons_self ..), hans⟩
  have hupdate := update_perm hl.equality hs.distinct hbefore (hmem.same hl) fun _ => value
  have hput : (R.entries t').Perm (put eqv key value (R.entries t)) := by
    rw [put_of_find_some (hmem.find hl hs)]
    exact hafter.trans hupdate.symm
  exact ⟨⟨hkeeps.wf, hkeeps.sound hs.sound, (distinct_put hs.distinct key value).perm hl.equality hput⟩, hput⟩

/-- A value that an insert replaces is in nobody's books until it drops. -/
theorem wp_insert_put (key : K) (value : V) :
    wp (insert b u key value)
      (fun old s => Filled R u eqv [(key, value)] t s.1 ∧ ∀ w', (∀ κ, User.Dropped κ (old.elim 0 (κ ∘ .inr)) s.2 w') →
        Books R u [(key, value)] (t, w) (s.1, w'))
      (PartlyFilled R u eqv False [(key, value)] (t, w)) (t, w) := by
  apply wp_mono (wp_forall fun κ => wp_insert (κ := κ) hc hs.wf key value)
  · rintro old s hinserted
    obtain ⟨hreplaced, hadded⟩ := hinserted fun _ => 0
    cases old with
    | some old =>
      obtain ⟨hstores, hput⟩ := stores_replaced hl hs (hreplaced old rfl).1
      have hkeeps := (hreplaced old rfl).1.keeps
      refine ⟨⟨hstores, hput, hkeeps.counted, fun _ _ => hkeeps.capacity⟩, fun w' hdropped κ => ?_⟩
      obtain ⟨hold, hkey⟩ := (hinserted κ).1 old rfl
      exact accounts_replaced hold (hkey.trans (hdropped κ)) rfl
    | none =>
      obtain ⟨x, hx, hrefuted, hadded, hledger⟩ := hadded rfl
      have hfind : find eqv key (R.entries t) = none := Absent.find hc hl hs ⟨x, hx, hrefuted⟩
      have hput : (R.entries s.1).Perm (put eqv key value (R.entries t)) := by
        rw [put_of_find_none hfind]
        exact hadded.entries
      refine ⟨⟨⟨hadded.wf, hadded.sound hs.sound hx, ?_⟩, hput, hadded.counted, fun _ hroom => hadded.grows.below hroom⟩,
        fun w' hdropped κ => ?_⟩
      · exact (distinct_put hs.distinct key value).perm hl.equality hput
      · have hnothing : User.Dropped κ 0 w w' := dropped_of_ledger hledger (hdropped κ)
        apply Accounts.of_dropped hnothing
        rw [weighEntries_perm hadded.entries]
        simp only [weighEntries_cons, weighEntries_nil]
        omega
  · rintro p s hunwound
    obtain ⟨hp, -, hleft⟩ := hunwound fun _ => 0
    refine ⟨hp.mono .inl, fun hne => ?_⟩
    have hbooks : Books R u [(key, value)] (t, w) s := by
      intro κ
      rcases (hunwound κ).2.2 hne with ⟨hstretched, hdropped⟩ | ⟨old, hreplaced, hdropped⟩
      · apply Accounts.of_dropped hdropped
        rw [weighEntries_perm hstretched.toRearranged.entries, weighEntries_cons, weighEntries_nil]
        rfl
      · exact accounts_replaced hreplaced hdropped rfl
    rcases hleft hne with ⟨hstretched, -⟩ | ⟨old, hreplaced, -⟩
    · have hkeeps := hstretched.toRearranged.keeps
      have hentries := hstretched.toRearranged.entries
      refine ⟨⟨hkeeps.wf, hkeeps.sound hs.sound, hs.distinct.perm hl.equality hentries⟩,
        ⟨0, Nat.zero_le _, hentries⟩, 1, Nat.le_refl _, hbooks⟩
    · obtain ⟨hstores, hput⟩ := stores_replaced hl hs hreplaced
      exact ⟨hstores, ⟨1, Nat.le_refl _, hput⟩, 1, Nat.le_refl _, hbooks⟩

theorem wp_insertAll (items : List (K × V)) :
    wp (insertAll b u items) (fun _ s => Filled R u eqv items t s.1 ∧ Books R u items (t, w) s)
      (PartlyFilled R u eqv False items (t, w)) (t, w) := by
  induction items generalizing t w with
  | nil => exact ⟨⟨hs, .refl _, id, fun _ _ => rfl⟩, books_nil (.refl _) rfl⟩
  | cons e items ih =>
    rw [insertAll, wp_bind]
    apply wp_mono (wp_insert_put hc hl hs e.1 e.2)
    · rintro old ⟨t₁, w₁⟩ ⟨hfilled, hbooks⟩
      change Filled R u eqv [e] t t₁ at hfilled
      have hrest : ∀ w₂, Books R u [e] (t, w) (t₁, w₂) →
          wp (insertAll b u items) (fun _ s => Filled R u eqv (e :: items) t s.1 ∧ Books R u (e :: items) (t, w) s)
            (PartlyFilled R u eqv False (e :: items) (t, w)) (t₁, w₂) := by
        intro w₂ hbooks
        apply wp_mono (ih hfilled.stores)
        · exact fun _ s h => ⟨hfilled.trans hc hl hs h.1, hbooks.trans h.2⟩
        · exact fun p s h => h.after hl hs hfilled hbooks
      cases old with
      | none => exact hrest w₁ (hbooks w₁ fun κ => Ledger.Gains.refl _)
      | some old =>
        dsimp only
        rw [wp_bind, wp_onSnd]
        apply wp_mono (wp_forall fun κ => User.wp_dropV (κ := κ) old w₁)
        · exact fun _ w₂ hdropped => hrest w₂ (hbooks w₂ hdropped)
        · intro p w₂ hp
          refine ⟨(hp fun _ => 0).1.blamed.mono .inl, fun _ => ⟨hfilled.stores, ⟨1, ?_, hfilled.entries⟩, 1, ?_, ?_⟩⟩
          · exact Nat.succ_le_succ (Nat.zero_le _)
          · exact Nat.succ_le_succ (Nat.zero_le _)
          · exact hbooks w₂ fun κ => (hp κ).2
    · rintro p s ⟨hp, hleft⟩
      refine ⟨hp, fun hne => ?_⟩
      obtain ⟨hstores, ⟨n, hn, hentries⟩, taken, htaken, hbooks⟩ := hleft hne
      have htake : ∀ {m : Nat}, m ≤ 1 → (e :: items).take m = [e].take m := by
        intro m hm
        rcases Nat.le_one_iff_eq_zero_or_eq_one.mp hm with rfl | rfl <;> rfl
      have hlong : ∀ {m : Nat}, m ≤ 1 → m ≤ (e :: items).length := fun hm => hm.trans (Nat.succ_le_succ (Nat.zero_le _))
      refine ⟨hstores, ⟨n, hlong hn, ?_⟩, taken, hlong htaken, ?_⟩
      · rwa [htake hn]
      · rwa [htake htaken]

end Stored

structure Reserved (R : Reading b.Table b.Location b.Vacant b.Scan K V) (u : User W K V) (hint : Nat) (t t₁ : b.Table) :
    Prop where
  reordered : R.Reordered u t t₁
  room : R.len t + hint ≤ R.capacity t₁
  still : R.len t + hint ≤ R.capacity t → t₁ = t

/-- What `extend` leaves: its reservation `t₁` is the only growth when the hint is not below the number of items. -/
structure Extended (R : Reading b.Table b.Location b.Vacant b.Scan K V) (u : User W K V) (eqv : K → K → Bool)
    (source : Source K V) (t t' : b.Table) : Prop where
  stores : Stores R u eqv t'
  counted : R.Counted t → R.Counted t'
  entries : (R.entries t').Perm (puts eqv source.items (R.entries t))
  found : ∀ k, (find eqv k (R.entries t')).map Prod.snd =
    ((find eqv k source.items.reverse).map Prod.snd).or ((find eqv k (R.entries t)).map Prod.snd)
  capacity : R.Counted t → source.items.length ≤ source.hint → ∃ t₁, Reserved R u source.hint t t₁ ∧
    R.capacity t' = R.capacity t₁

section Stored

variable (hc : Contract R u) (hl : u.Lawful hash eqv) (hs : Stores R u eqv t)
include hc hl hs

omit hl in
theorem wp_reserve_hint (hint : Nat) :
    wp (reserve b hint) (fun _ s => Reserved R u hint t s.1 ∧ s.2.ledger = w.ledger)
      (fun p s => Halted u p ∧ s.1 = t ∧ s.2.ledger = w.ledger) (t, w) := by
  by_cases hroom : R.len t + hint ≤ R.capacity t
  · have hneeded : saturatingUsize (R.len t + hint) ≤ R.capacity t := (Nat.min_le_left _ _).trans hroom
    rw [reserve, wp_bind, wp_get]
    dsimp only
    rw [hc.len_eq, hc.capacity_eq, if_pos hneeded]
    exact ⟨⟨.refl hs.wf, hroom, fun _ => rfl⟩, rfl⟩
  · apply wp_mono (wp_reserve hc hs.wf hint)
    · rintro _ ⟨t₁, w₁⟩ (⟨-, -, hneeded⟩ | ⟨-, hrefitted, hledger⟩)
      · have hlt := hc.capacity_lt hs.wf
        unfold saturatingUsize at hneeded
        omega
      · have hlt := hc.capacity_lt hrefitted.keeps.wf
        have hneeded := hrefitted.capacity
        unfold saturatingUsize at hneeded
        exact ⟨⟨hrefitted.reordered, by omega, fun h => absurd h hroom⟩, hledger⟩
    · exact fun p s h => h

theorem Filled.extended {source : Source K V} {t₁ : b.Table} (h₁ : Reserved R u source.hint t t₁)
    (h : Filled R u eqv source.items t₁ t') : Extended R u eqv source t t' := by
  have hrearranged := h₁.reordered.toRearranged
  have hputs : (R.entries t').Perm (puts eqv source.items (R.entries t)) :=
    h.entries.trans (puts_congr hl.equality hs.distinct hrearranged.entries source.items)
  refine ⟨h.stores, fun hcounted => h.counted (hrearranged.keeps.counted hcounted), hputs, fun k => ?_, ?_⟩
  · rw [find_perm hl.equality (distinct_puts hs.distinct source.items) hputs, find_puts hl.equality]
  · intro hcounted hhint
    refine ⟨t₁, h₁, h.capacity (hrearranged.keeps.counted hcounted) ?_⟩
    have hlen : R.len t₁ = R.len t := by
      rw [hc.len hcounted, hc.len (hrearranged.keeps.counted hcounted), hrearranged.entries.length_eq]
    have hroom := h₁.room
    omega

theorem wp_extend (source : Source K V) :
    wp (extend b u source)
      (fun _ s => source.ends = true ∧ Extended R u eqv source t s.1 ∧ Books R u source.items (t, w) s)
      (PartlyFilled R u eqv (source.ends = false) source.items (t, w)) (t, w) := by
  rw [extend, wp_bind]
  apply wp_mono (wp_reserve_hint hc hs source.hint)
  · rintro _ ⟨t₁, w₁⟩ ⟨hreserved, hledger⟩
    have hrearranged := hreserved.reordered.toRearranged
    have hs₁ : Stores R u eqv t₁ :=
      ⟨hrearranged.keeps.wf, hrearranged.keeps.sound hs.sound, hs.distinct.perm hl.equality hrearranged.entries⟩
    have hkept : Books R u [] (t, w) (t₁, w₁) := books_nil hrearranged.entries hledger
    rw [wp_bind]
    apply wp_mono (wp_insertAll hc hl hs₁ source.items)
    · rintro _ s ⟨hfilled, hbooks⟩
      have hextended := hfilled.extended hc hl hs hreserved
      have hbooks : Books R u source.items (t, w) s := hkept.trans hbooks
      rw [wp_expect]
      constructor
      · intro _ hends
        refine ⟨?_, hextended, hbooks⟩
        by_contra hpanics
        rw [if_neg hpanics] at hends
        cases hends
      · intro hpanics
        refine ⟨.user (.inr ?_), fun _ => ⟨hextended.stores, ⟨source.items.length, Nat.le_refl _, ?_⟩,
          source.items.length, Nat.le_refl _, ?_⟩⟩
        · by_contra hends
          rw [if_pos (by simpa using hends)] at hpanics
          cases hpanics
        · rw [List.take_length]
          exact hextended.entries
        · rwa [List.take_length]
    · rintro p s ⟨hp, hleft⟩
      refine ⟨hp.mono (Or.imp id False.elim), fun hne => ?_⟩
      obtain ⟨hstores, ⟨n, hn, hentries⟩, taken, htaken, hbooks⟩ := hleft hne
      refine ⟨hstores, ⟨n, hn, hentries.trans ?_⟩, taken, htaken, hkept.trans hbooks⟩
      exact puts_congr hl.equality hs.distinct hrearranged.entries _
  · rintro p s ⟨hp, ht, hledger⟩
    refine ⟨hp.blamed.mono .inl, fun _ => ?_⟩
    have hentries : (R.entries s.1).Perm (R.entries t) := by rw [ht]
    refine ⟨?_, ⟨0, Nat.zero_le _, hentries⟩, 0, Nat.zero_le _, books_nil hentries hledger⟩
    rwa [ht]

end Stored

/-- A constructor of empty maps with room for as many entries as it is asked for. -/
def Makes (R : Reading b.Table b.Location b.Vacant b.Scan K V) (u : User W K V)
    (withCapacity : Nat → Exec Panic (World W K V) b.Table) : Prop :=
  ∀ n w, wp (withCapacity n) (fun t w' => (Fresh R u t ∧ n ≤ R.capacity t) ∧ w'.ledger = w.ledger)
    (fun _ w' => w'.ledger = w.ledger) w

/-- A map that was collected from a source, and the empty one it was collected into. -/
structure Collected (R : Reading b.Table b.Location b.Vacant b.Scan K V) (u : User W K V) (eqv : K → K → Bool)
    (source : Source K V) (t₀ t : b.Table) : Prop where
  represents : Represents R u eqv t
  entries : (R.entries t).Perm (puts eqv source.items [])
  found : ∀ k, (find eqv k (R.entries t)).map Prod.snd = (find eqv k source.items.reverse).map Prod.snd
  distinct : Distinct eqv source.items → (R.entries t).Perm source.items
  capacity : source.items.length ≤ source.hint → R.capacity t = R.capacity t₀

/-- The items are nowhere any more: together with clones they have left, or were forgotten where nothing needs dropping. -/
def Spent (u : User W K V) (items : List (K × V)) (w w' : World W K V) : Prop :=
  ∀ κ, Accounts u κ 0 w 0 w' (weighEntries κ items)

theorem Extended.collected (hl : u.Lawful hash eqv) (hc : Contract R u) {source : Source K V} {t₀ : b.Table}
    (hfresh : Fresh R u t₀) (hroom : source.hint ≤ R.capacity t₀) (h : Extended R u eqv source t₀ t) :
    Collected R u eqv source t₀ t where
  represents := ⟨h.stores, h.counted hfresh.counted⟩
  entries := by
    rw [← hfresh.entries]
    exact h.entries
  found := by
    intro k
    rw [h.found, hfresh.entries]
    exact Option.or_none
  distinct := by
    intro hdistinct
    have hentries := h.entries
    rw [hfresh.entries] at hentries
    rw [← List.append_nil source.items] at hdistinct
    have hputs := puts_distinct hl.equality hdistinct
    rw [List.append_nil] at hputs
    exact hentries.trans hputs
  capacity := by
    intro hhint
    obtain ⟨t₁, hreserved, hcapacity⟩ := h.capacity hfresh.counted hhint
    have hempty : R.len t₀ = 0 := by rw [hc.len hfresh.counted, hfresh.entries, List.length_nil]
    rw [hcapacity, hreserved.still (by omega)]

theorem wp_fromIter (hc : Contract R u) (hl : u.Lawful hash eqv)
    {withCapacity : Nat → Exec Panic (World W K V) b.Table} (hmakes : Makes R u withCapacity) (source : Source K V)
    (w : World W K V) :
    wp (fromIter b u withCapacity source)
      (fun t w' => source.ends = true ∧ (∃ t₀ w₀, withCapacity source.hint w = (.ok t₀, w₀) ∧
        Collected R u eqv source t₀ t) ∧
        ∀ κ, Accounts u κ 0 w (weighEntries κ (R.entries t)) w' (weighEntries κ source.items))
      (fun p w' => ((∃ w₀, withCapacity source.hint w = (.error p, w₀)) ∨
          p.Blamed (¬u.Calm ∨ source.ends = false)) ∧
        (p ≠ .abort → ∃ taken ≤ source.items.length, Spent u (source.items.take taken) w w')) w := by
  rw [fromIter, wp_bind]
  apply wp_mono (wp_and (hmakes source.hint w) (wp_self _ w))
  · rintro t₀ w₀ ⟨⟨⟨hfresh, hroom⟩, hledger⟩, hmade⟩
    have hs : Stores R u eqv t₀ := hfresh.stores
    have hbefore : ∀ κ, weighEntries κ (R.entries t₀) = 0 := fun κ => by rw [hfresh.entries, weighEntries_nil]
    have hkept : ∀ κ, Accounts u κ 0 w (weighEntries κ (R.entries t₀)) w₀ 0 :=
      fun κ => .of_ledger hledger (hbefore κ)
    have hspent : ∀ {items : List (K × V)} {s : b.Table × World W K V}, Books R u items (t₀, w₀) s →
        ∀ κ, Accounts u κ 0 w (weighEntries κ (R.entries s.1)) s.2 (weighEntries κ items) := by
      intro items s hbooks κ
      rw [← Nat.zero_add (weighEntries κ items)]
      exact (hkept κ).trans (hbooks κ)
    rw [wp_bind, wp_withLocal]
    apply User.wp_cleanup (u := u)
    · exact fun hcalm s => ⟨.inr (.abort (.inl hcalm)), fun hne => absurd rfl hne⟩
    · apply wp_mono (wp_extend hc hl hs source)
      · rintro _ s ⟨hends, hextended, hbooks⟩
        exact ⟨hends, ⟨t₀, w₀, hmade, hextended.collected hl hc hfresh hroom⟩, hspent hbooks⟩
      · rintro p ⟨t', w'⟩ ⟨hp, hleft⟩
        refine ⟨fun habort => ⟨.inr (habort ▸ hp), fun hne => absurd rfl hne⟩, fun hne => ?_⟩
        obtain ⟨hstores, -, taken, htaken, hbooks⟩ := hleft hne
        rw [wp_bind, wp_get]
        dsimp only
        rw [wp_onSnd]
        apply wp_mono (wp_forall fun κ => hc.dropTable hstores.wf κ w')
        · intro _ w'' hdrained
          refine ⟨.inr hp, fun _ => ⟨taken, htaken, fun κ => ?_⟩⟩
          rw [← Nat.add_zero (weighEntries κ _)]
          exact (hspent hbooks κ).trans (.of_drained (hdrained κ) (Nat.zero_add _))
        · exact fun p' w'' hburst => (hburst fun _ => 0).1.2
  · rintro p w₀ ⟨hledger, hmade⟩
    exact ⟨.inl ⟨w₀, hmade⟩, fun _ => ⟨0, Nat.zero_le _, fun _ => .of_ledger hledger rfl⟩⟩

theorem wp_fromArray (hc : Contract R u) (hl : u.Lawful hash eqv)
    {withCapacity : Nat → Exec Panic (World W K V) b.Table} (hmakes : Makes R u withCapacity) (entries : List (K × V))
    (w : World W K V) :
    wp (fromArray b u withCapacity entries)
      (fun t w' => (∃ t₀ w₀, withCapacity entries.length w = (.ok t₀, w₀) ∧ R.capacity t = R.capacity t₀) ∧
        Represents R u eqv t ∧ (R.entries t).Perm (puts eqv entries []) ∧
        (Distinct eqv entries → (R.entries t).Perm entries) ∧
        ∀ κ, Accounts u κ 0 w (weighEntries κ (R.entries t)) w' (weighEntries κ entries))
      (fun p w' => ((∃ w₀, withCapacity entries.length w = (.error p, w₀)) ∨ p.Blamed (¬u.Calm)) ∧
        (p ≠ .abort → ∃ taken ≤ entries.length, Spent u (entries.take taken) w w')) w := by
  apply wp_mono (wp_fromIter hc hl hmakes ⟨entries.length, entries, true⟩ w)
  · rintro t w' ⟨-, ⟨t₀, w₀, hmade, hcollected⟩, hbooks⟩
    exact ⟨⟨t₀, w₀, hmade, hcollected.capacity (Nat.le_refl _)⟩, hcollected.represents, hcollected.entries,
      hcollected.distinct, hbooks⟩
  · rintro p w' ⟨hp, hspent⟩
    refine ⟨hp.imp id fun hp => hp.mono ?_, hspent⟩
    rintro (h | h)
    · exact h
    · cases h

end Opthash.HashMap
