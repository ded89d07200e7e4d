import Opthash.Calls
import Opthash.Lib.Within
import Opthash.Raw.Rebuild

namespace Opthash

open Exec

variable {W T G K V σ α β X : Type} {E : Panic → Prop} {group : GroupBackend} {u : User W K V}

namespace Panic

def exhausts : Panic → Bool
  | .alloc => true
  | .internal text => text == "capacity overflow" || text == "constructed Funnel layout" ||
    "Funnel clone allocation failed: ".toList.isPrefixOf text.toList
  | _ => false

theorem Exhausted.exhausts {p : Panic} (h : p.Exhausted) : p.exhausts = true := by
  cases h with
  | capacity => rfl
  | layout => rfl
  | clone error => simp [cloneAllocation, Panic.exhausts]
  | alloc => rfl

/-- `E` allows what user code and the assertions of the code raise. -/
structure Tolerates (E : Panic → Prop) : Prop where
  user : E .user
  abort : E .abort
  internal : ∀ text, (internal text).exhausts = false → E (.internal text)

theorem tolerates_any : Tolerates fun _ => True := ⟨trivial, trivial, fun _ _ => trivial⟩

/-- No overflow raises it, and no refused allocation. -/
def Solvent (p : Panic) : Prop := p.exhausts = false

theorem tolerates_solvent : Tolerates Solvent := ⟨rfl, rfl, fun _ => id⟩

theorem Solvent.not_exhausted {p : Panic} (h : p.Solvent) : ¬p.Exhausted := by
  intro hexhausted
  rw [Solvent, hexhausted.exhausts] at h
  cases h

end Panic

section Calls

variable (hE : Panic.Tolerates E)
include hE

theorem World.within_call (c : Exec Unit W α) : Within E (fun _ : World W K V => True) (World.call c) := by
  intro w _
  rw [World.wp_call]
  exact wp_mono (wp_self c w.code) (fun _ _ _ => trivial) fun _ _ _ => ⟨hE.user, trivial⟩

theorem User.within_hash (k : K) : Within E (fun _ => True) (u.hash k) := World.within_call hE _

theorem User.within_dropK (k : K) : Within E (fun _ => True) (u.dropK k) :=
  Within.bind (.modify fun _ => id) fun _ => World.within_call hE _

theorem User.within_dropV (v : V) : Within E (fun _ => True) (u.dropV v) :=
  Within.bind (.modify fun _ => id) fun _ => World.within_call hE _

theorem User.within_dropBoth (k : K) (v : V) : Within E (fun _ => True) (Exec.guarded .abort (u.dropK k) (u.dropV v)) :=
  (User.within_dropK hE k).guarded ((User.within_dropV Panic.tolerates_any v).mono fun _ _ => hE.abort)

theorem User.within_dropEntry (e : K × V) : Within E (fun _ => True) (u.dropEntry e) :=
  (User.within_dropBoth hE e.1 e.2).bind fun _ => User.within_dropV hE e.2

theorem User.within_cloneK (k : K) : Within E (fun _ => True) (u.cloneK k) :=
  (World.within_call hE _).bind fun _ => Within.bind (.modify fun _ => id) fun _ => .pure _

theorem User.within_cloneV (v : V) : Within E (fun _ => True) (u.cloneV v) :=
  (World.within_call hE _).bind fun _ => Within.bind (.modify fun _ => id) fun _ => .pure _

theorem User.within_cloneEntry (e : K × V) : Within E (fun _ => True) (u.cloneEntry e) := by
  refine (User.within_cloneK hE e.1).bind fun k => ?_
  refine ((User.within_cloneV hE e.2).guarded ?_).bind fun v => .pure _
  exact (User.within_dropK Panic.tolerates_any k).mono fun _ _ => hE.abort

theorem within_cloneRegionFrom (padded : Bool) (src : Region (K × V)) :
    Within E (fun _ => True) (cloneRegionFrom group padded u src) := by
  refine .get_bind fun s _ => ?_
  obtain ⟨dst, w⟩ := s
  have hcopy : Within E (fun _ : Region (K × V) × World W K V => True) (do
      (occupiedSlots group padded src).forM fun slot => do
        let entry ← src.getRef slot
        let cloned ← Exec.onSnd (u.cloneEntry entry)
        Exec.modify fun s => (s.1.writeWithControl slot cloned (src.ctrl slot), s.2)
      Exec.modify fun s =>
        ({ s.1 with ctrl := fun i => if i < src.capacity then src.ctrl i else s.1.ctrl i }, s.2)) := by
    refine Within.bind (.forM (fun slot => ?_) _) fun _ => .modify fun _ => id
    refine Within.bind (.expect (hE.internal _ rfl) _) fun entry => ?_
    exact Within.bind (.onSnd fun _ => User.within_cloneEntry hE entry) fun _ => .modify fun _ => id
  exact .ite (fun _ => .raise_bind (hE.internal _ rfl)) fun _ => hcopy

theorem within_copyMembershipFrom (dst src : MembershipRegion) :
    Within E (fun _ => True) (copyMembershipFrom dst src : Exec Panic (World W K V) MembershipRegion) :=
  .ite (fun _ => .raise (hE.internal _ rfl)) fun _ => .pure _

theorem User.within_owned {I : T → Prop} {k : K} {v : V} {c : Run T W K V α} (hc : Within E (fun s => I s.1) c) :
    Within E (fun s => I s.1) (u.owned k v c) :=
  hc.guarded ((Within.beside _).mono fun _ _ => hE.abort)

end Calls

theorem within_handV (v : V) : Within E (fun _ => True) (handV v : Exec Panic (World W K V) Unit) := .modify fun _ => id

theorem within_handEntry (e : K × V) : Within E (fun _ => True) (handEntry e : Exec Panic (World W K V) Unit) :=
  Within.bind (.modify fun _ => id) fun _ => within_handV e.2

theorem Panic.Tolerates.unwound (hE : Panic.Tolerates E) {e : Panic} (h : u.Unwound e) : E e := h.1 ▸ hE.user

section Upheld

variable {I : T → Prop} {t : T} {w : World W K V}

/-- `c` ends with `I` of the table when it starts at `t`, and what it raises meets `E`. -/
def Upheld (E : Panic → Prop) (I : T → Prop) (c : Run T W K V α) (t : T) (w : World W K V) : Prop :=
  wp c (fun _ s => I s.1) (fun e s => E e ∧ I s.1) (t, w)

theorem Upheld.bind {c : Run T W K V α} {f : α → Run T W K V β} (h : Upheld E I c t w)
    (hf : ∀ a, Within E (fun s => I s.1) (f a)) : Upheld E I (c >>= f) t w := by
  rw [Upheld, wp_bind]
  exact wp_mono h (fun a s hs => hf a s hs) (fun _ _ => id)

theorem Upheld.map {c : Run T W K V α} (f : α → β) (h : Upheld E I c t w) : Upheld E I (f <$> c) t w := by
  rw [Upheld, wp_map]
  exact h

theorem Upheld.expect_bind {o : Option α} {e : Panic} {f : α → Run T W K V β} (hi : I t) (hnone : o = none → E e)
    (hf : ∀ a, o = some a → Upheld E I (f a) t w) : Upheld E I (expect e o >>= f) t w := by
  rw [Upheld, wp_bind, wp_expect]
  exact ⟨hf, fun h => ⟨hnone h, hi⟩⟩

theorem Upheld.owned {c : Run T W K V α} {k : K} {v : V} (hE : Panic.Tolerates E) (h : Upheld E I c t w) :
    Upheld E I (u.owned k v c) t w := by
  rw [Upheld, User.owned, wp_guarded]
  refine wp_mono h (fun _ _ => id) ?_
  rintro e s ⟨he, hs⟩
  by_cases hfatal : e = .abort
  · rw [if_pos hfatal]
    exact ⟨he, hs⟩
  · rw [if_neg hfatal]
    exact wp_mono (Within.beside _ s hs) (fun _ _ h => ⟨he, h⟩) (fun _ _ h => ⟨hE.abort, h.2⟩)

def Reads (E : Panic → Prop) (c : Run T W K V α) (t : T) (w : World W K V) (Q : α → Prop) : Prop :=
  wp c (fun a s => s.1 = t ∧ Q a) (fun e s => E e ∧ s.1 = t) (t, w)

variable {Q : α → Prop}

theorem Reads.of_wp {c : Run T W K V α} {P : α → T × World W K V → Prop} {Z : Panic → T × World W K V → Prop}
    (h : wp c P Z (t, w)) (hq : ∀ a s, P a s → s.1 = t ∧ Q a) (hz : ∀ e s, Z e s → E e ∧ s.1 = t) :
    Reads E c t w Q := wp_mono h hq hz

theorem Reads.bind {c : Run T W K V α} {f : α → Run T W K V β} (h : Reads E c t w Q) (hi : I t)
    (hf : ∀ a w', Q a → Upheld E I (f a) t w') : Upheld E I (c >>= f) t w := by
  rw [Upheld, wp_bind]
  refine wp_mono h ?_ (fun _ _ h => ⟨h.1, h.2 ▸ hi⟩)
  rintro a ⟨t', w'⟩ ⟨ht, ha⟩
  obtain rfl : t' = t := ht
  exact hf a w' ha

theorem Reads.upheld {c : Run T W K V α} (h : Reads E c t w Q) (hi : I t) : Upheld E I c t w :=
  wp_mono h (fun _ _ h => h.1 ▸ hi) (fun _ _ h => ⟨h.1, h.2 ▸ hi⟩)

theorem Reads.guarded {c : Run T W K V α} (hE : Panic.Tolerates E) (h : Reads E c t w Q)
    (cleanup : Exec Panic (World W K V) Unit) : Reads E (Exec.guarded .abort c (onSnd cleanup)) t w Q := by
  rw [Reads, wp_guarded]
  refine wp_mono h (fun _ _ => id) ?_
  rintro e s ⟨he, hs⟩
  by_cases hfatal : e = .abort
  · rw [if_pos hfatal]
    exact ⟨he, hs⟩
  · rw [if_neg hfatal]
    exact wp_mono (Within.beside (I := (· = t)) cleanup s hs) (fun _ _ h => ⟨he, h⟩) (fun _ _ h => ⟨hE.abort, h.2⟩)

end Upheld

structure User.SameSlots {W W' : Type} (u : User W K V) (u' : User W' K V) : Prop where
  size : u'.slotSize = u.slotSize
  align : u'.slotAlign = u.slotAlign

/-- From the states `J` on, no hash call panics and no allocation is refused. -/
structure User.Obliging (u : User W K V) (J : W → Prop) : Prop where
  hash : ∀ k code, J code → wp (u.hashOne k) (fun _ => J) (fun _ _ => False) code
  allocate : ∀ layout code, J code → (u.allocate layout code).1 = true ∧ J (u.allocate layout code).2

section Obliging

variable {J : W → Prop} (ho : u.Obliging J)
include ho

theorem User.Obliging.within_hash (k : K) : Within E (fun w : World W K V => J w.code) (u.hash k) := by
  intro w hw
  rw [User.hash, World.wp_call]
  exact wp_mono (ho.hash k w.code hw) (fun _ _ => id) (fun _ _ => False.elim)

theorem User.Obliging.wp_alloc {w : World W K V} (hw : J w.code) (layout : Layout) {Z : Panic → World W K V → Prop} :
    wp (u.alloc layout) (fun granted w' => granted = true ∧ J w'.code) Z w := ho.allocate layout w.code hw

end Obliging

theorem within_forOccupied {I : σ → Prop} {padded : Bool} {region : σ → Region X} {body : α → Nat → Exec Panic σ α}
    (hbody : ∀ a slot, Within E I (body a slot)) (a : α) : Within E I (forOccupied group padded region body a) := by
  have hscan : ∀ fuel c a, Within E I (scanWhile group padded region body fuel c a) := by
    intro fuel
    induction fuel with
    | zero => exact fun _ a => .pure a
    | succ fuel ih =>
      intro c a
      refine .get_bind fun s _ => ?_
      rcases OccupiedIndices.step group padded (region s) c with ⟨_ | slot, c'⟩
      · exact .pure a
      · exact (hbody a slot).bind fun a => ih c' a
  exact .get_bind fun s _ => hscan _ _ a

theorem Rebuildable.within_rebuild {I : T × World W K V → Prop} {b : Rebuildable T G K V} {next : G}
    (hinternal : ∀ text, (Panic.internal text).exhausts = false → E (.internal text))
    (hswap : ∀ s, I s → I ((b.swapGeneration s.1 next).1, s.2))
    (hback : ∀ s s', I s → I s' → I ((b.swapGeneration s'.1 (b.swapGeneration s.1 next).2).1, s'.2))
    (hhash : ∀ k, Within E I (onSnd (u.hash k))) (hplace : ∀ e x, Within E I (onFst (b.placeUnique e x))) :
    Within E I (b.rebuild group u next) := by
  refine .get_bind fun s hs => ?_
  obtain ⟨table, w⟩ := s
  refine Within.bind (.modify hswap) fun _ => .guarded (.foldlM (fun exceptional region => ?_) _ _) ?_
  · refine within_forOccupied (fun exceptional slot => ?_) _
    refine Within.bind (.expect (hinternal _ rfl) _) fun entry => ?_
    exact (hhash entry.1).bind fun x => (hplace entry x).bind fun outside => .pure _
  · exact .modify fun s' hs' => hback (table, w) s' hs hs'

end Opthash
