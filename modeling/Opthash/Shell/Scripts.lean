import Opthash.Shell.Solvent

namespace Opthash

namespace Op

variable {W K V : Type} {u : User W K V} {hash : K → UInt64} {eqv : K → K → Bool} {copyKey : K → K} {copyValue : V → V}

theorem Plain.consistent {op : Op K V} (hl : u.Lawful hash eqv) (hcopy : u.Copying eqv copyKey copyValue)
    (hplain : op.Plain eqv) : op.Consistent u := by
  cases op with
  | getOrInsertWith key value make =>
    cases make with
    | none => trivial
    | some made =>
      intro x hx
      rw [hl.hashes] at hx ⊢
      exact hx.trans (hl.congr _ _ (hplain.2.2 key value made rfl))
  | clone => exact hl.clonesHash hcopy
  | _ => trivial

theorem Plain.undrained {op : Op K V} (hplain : op.Plain eqv) (es : List (K × V)) : op.Undrained es := by
  cases op with
  | leakDrain n => exact absurd trivial hplain.2.1
  | _ => trivial

end Op

namespace HashMap

open Exec FiniteMap

variable {W K V : Type} (b : TableBackend W K V) (u : User W K V)

def script (ops : List (Op K V)) : Step b (List (Ret K V)) := ops.mapM (step b u)

def scripted (ops : List (Op K V)) (s : b.Table × World W K V) : Option (b.Table × World W K V) :=
  match script b u ops s with
  | (.ok _, s') => some s'
  | (.error _, _) => none

variable {b} in
/-- Memory lasts for each call of a script, from the table that the calls before it leave. -/
def MemoryLasts (R : Reading b.Table b.Location b.Vacant b.Scan K V) (room : Room b) (eqv : K → K → Bool) :
    List (Op K V) → b.Table × World W K V → Prop
  | [], _ => True
  | op :: ops, s => Lasting R u room eqv s.1 op ∧
      ∀ r s', step b u op s = (.ok r, s') → MemoryLasts R room eqv ops s'

variable {b u} {R : Reading b.Table b.Location b.Vacant b.Scan K V} {hash : K → UInt64} {eqv : K → K → Bool}
  {copyKey : K → K} {copyValue : V → V} {t t' : b.Table} {w : World W K V} {m : List (K × V)}

theorem MemoryLasts.nil {room : Room b} (s : b.Table × World W K V) : MemoryLasts u R room eqv [] s := trivial

theorem MemoryLasts.cons {room : Room b} {op : Op K V} {ops : List (Op K V)} {s : b.Table × World W K V}
    (h : Lasting R u room eqv s.1 op) (hrest : MemoryLasts u R room eqv ops (step b u op s).2) :
    MemoryLasts u R room eqv (op :: ops) s := by
  refine ⟨h, fun r s' hrun => ?_⟩
  rwa [hrun] at hrest

structure Represents (R : Reading b.Table b.Location b.Vacant b.Scan K V) (u : User W K V) (eqv : K → K → Bool)
    (t : b.Table) : Prop extends Stores R u eqv t where
  counted : R.Counted t

theorem Fresh.stores (h : Fresh R u t) : Stores R u eqv t := ⟨h.wf, h.sound True, by rw [h.entries]; exact .nil⟩

theorem Fresh.represents (h : Fresh R u t) : Represents R u eqv t := ⟨h.stores, h.counted⟩

theorem wp_step_represents (hc : Contract R u) (hcalm : u.Calm) (hl : u.Lawful hash eqv)
    (hcopy : u.Copying eqv copyKey copyValue) (hr : Represents R u eqv t) {op : Op K V} (hplain : op.Plain eqv) :
    wp (step b u op) (fun r s => Represents R u eqv s.1 ∧ Refines R eqv copyKey copyValue op t r s.1)
      (fun p _ => p.Exhausted) (t, w) := by
  refine wp_mono (wp_and (wp_step (κ := fun _ => 0) hc hr.wf op) (wp_step_refines hc hl hr.toStores hcopy hplain
    fun _ => hr.counted)) ?_ ?_
  · rintro r s ⟨hdone, hrefines⟩
    obtain ⟨m', hmeets, hperm⟩ := hrefines
    refine ⟨⟨⟨hdone.wf, hdone.sound (hplain.consistent hl hcopy) hr.sound, ?_⟩,
      hdone.counted (hplain.undrained _) hr.counted⟩, m', hmeets, hperm⟩
    exact (hmeets.distinct hl.equality hcopy.same hplain hr.distinct).perm hl.equality hperm
  · rintro p s ⟨⟨hblamed, -⟩, -⟩
    have hnone : ¬(¬u.Calm ∨ ¬op.Returning) := by
      rintro (h | h)
      · exact h hcalm
      · exact h hplain.1
    cases hblamed with
    | user h => exact absurd h hnone
    | abort h => exact absurd h hnone
    | exhausted h => exact h

theorem wp_script {room : Room b} {I : b.Table → Prop} (hc : Contract R u) (hf : Funded R u room I) (hcalm : u.Calm)
    (hl : u.Lawful hash eqv) (hcopy : u.Copying eqv copyKey copyValue) {ops : List (Op K V)}
    (hplain : ∀ op ∈ ops, op.Plain eqv) (hr : Represents R u eqv t) (hm : (R.entries t).Perm m) :
    wp (script b u ops)
      (fun rs s => Represents R u eqv s.1 ∧ MapRuns eqv copyKey copyValue m ops rs (R.entries s.1))
      (fun p _ => p.Exhausted ∧ (I t → ¬MemoryLasts u R room eqv ops (t, w))) (t, w) := by
  induction ops generalizing t w m with
  | nil => exact ⟨hr, .nil hm.symm⟩
  | cons op ops ih =>
    have hop := hplain op (List.mem_cons_self ..)
    have hstep := wp_and (wp_step_represents (w := w) hc hcalm hl hcopy hr hop)
      (wp_and (wp_step_lasting (w := w) hc hf hcalm hl hr.toStores hop) (wp_self (step b u op) (t, w)))
    rw [script, List.mapM_cons, wp_bind]
    refine wp_mono hstep ?_ fun _ _ h => ⟨h.1, fun hi hlasts => h.2.1.2 hi hlasts.1⟩
    rintro r ⟨t', w'⟩ ⟨⟨hr', l', hmeets, hperm⟩, hi', hrun⟩
    rw [wp_bind]
    refine wp_mono (ih (fun op' hop => hplain op' (List.mem_cons_of_mem _ hop)) hr' hperm) ?_
      fun _ _ h => ⟨h.1, fun hi hlasts => h.2 (hi' hi) (hlasts.2 r _ hrun)⟩
    exact fun rs s ⟨hrep, hruns⟩ => ⟨hrep, .cons hm hmeets hruns⟩

theorem Runs.wp_script {A : Event b → Prop} {s₀ s : b.Table × World W K V} {ops : List (Op K V)} (h : Runs b u A s₀ s)
    (hallow : ∀ op ∈ ops, ∀ s r, A (s, op, .ok r)) :
    wp (script b u ops) (fun _ s' => Runs b u A s₀ s') (fun _ _ => True) s := by
  induction ops generalizing s with
  | nil => exact h
  | cons op ops ih =>
    rw [script, List.mapM_cons, wp_bind]
    refine wp_mono (wp_self (step b u op) s) ?_ (fun _ _ _ => trivial)
    intro r s₁ hstep
    have hcall := h.call hstep (hallow op (List.mem_cons_self ..) s r) nofun
    rw [wp_bind]
    refine wp_mono (ih hcall fun op' hop' => hallow op' (List.mem_cons_of_mem _ hop')) ?_ (fun _ _ => id)
    exact fun _ _ => id

theorem Reachable.scripted {A : Event b → Prop} {initial : b.Table → Prop} {t₀ : b.Table} (h₀ : initial t₀)
    (w₀ : World W K V) {ops : List (Op K V)} (hallow : ∀ op ∈ ops, ∀ s r, A (s, op, .ok r))
    (p : b.Table × World W K V → Bool) (h : (HashMap.scripted b u ops (t₀, w₀)).any p = true) :
    ∃ t w, Reachable b u initial A t ∧ p (t, w) = true := by
  have hruns := (Runs.refl (u := u) (t₀, w₀)).wp_script hallow
  rw [HashMap.scripted] at h
  rcases hrun : script b u ops (t₀, w₀) with ⟨_ | rs, t, w⟩
  · rw [hrun] at h
    cases h
  · rw [hrun] at h
    exact ⟨t, w, ⟨t₀, w₀, w, h₀, (wp_of_ok hrun).mp hruns⟩, h⟩

end HashMap

end Opthash
