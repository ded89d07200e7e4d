import Opthash.Guarantees.Borrows
import Opthash.Guarantees.References
import Opthash.Shell.Views

namespace Opthash

open Exec FiniteMap HashMap Sessions

variable {W K V : Type} {u : User W K V} {hash : K → UInt64} {eqv : K → K → Bool} {copyKey : K → K} {copyValue : V → V}

def Chains (b : TableBackend W K V) (R : Reading b.Table b.Location b.Vacant b.Scan K V) (u : User W K V)
    (eqv : K → K → Bool) (t : b.Table) : Prop :=
  ∀ key calls w, wp (entryChain b u key calls)
    (fun replies s => replies = (answers (view eqv) (viewed eqv key (R.entries t)) calls).1 ∧ Stores R u eqv s.1 ∧
      (R.entries s.1).Perm (answers (view eqv) (viewed eqv key (R.entries t)) calls).2.1)
    (fun p s => ChainPanic R u eqv (R.entries t) key calls p s.1) (t, w)

theorem entry_chains (group : GroupBackend) (hhash : ∀ k, User.Total (u.hashOne k)) (hl : u.Lawful hash eqv)
    (hcopy : u.Copying eqv copyKey copyValue) :
    (∀ t, Reachable (Funnel.backend group u) u (Funnel.Initial group u)
        (fun e => e.2.1.Fitting hash eqv e.1.1.storage.entries) t →
      Chains (Funnel.backend group u) (Funnel.reading group) u eqv t) ∧
    ∀ t, Reachable (Elastic.backend group u) u (Elastic.Initial group u)
        (fun e => e.2.1.Fitting hash eqv e.1.1.entries) t →
      Chains (Elastic.backend group u) (Elastic.reading group) u eqv t := by
  have hcalm : ∀ n code, u.CalmFor n code := User.calmFor_of_total hhash
  constructor
  · intro t ht key calls w
    have hc := Funnel.contract group u
    exact wp_entryChain hc hl hcalm (ht.stores hc (fun _ h => h.fresh) hhash hl hcopy fun _ => id) key calls
  · intro t ht key calls w
    have hc := Elastic.contract group u
    exact wp_entryChain hc hl hcalm (ht.stores hc (fun _ h => h.fresh) hhash hl hcopy fun _ => id) key calls

section Chained

def Chained.stored : List (Call UInt64 Nat) :=
  [.modify fun v => (v + 1, true), .get, .insert 72, .orInsert fun _ => none, .removeEntry, .key]

def Chained.absent : List (Call UInt64 Nat) :=
  [.key, .get, .orInsert fun _ => some 80, .modify fun v => (v + 1, true), .get, .remove]

def Chained.returns (s : lending.Table × World Unit UInt64 Nat) : Bool :=
  (entryChain lending User.sample 7 stored s).1.isOk && (entryChain lending User.sample 8 absent s).1.isOk

/-- An entry that is modified, read, replaced and taken out, and one that is first made; both chains return. -/
theorem entry_chains_one : ∃ (t : lending.Table) (w : World Unit UInt64 Nat), Chained.returns (t, w) = true ∧
    (∀ w, wp (entryChain lending User.sample 7 Chained.stored)
      (fun replies s => replies = [(none, none), (none, some 71), (none, some 71), (none, some 72), (some 7, some 72),
        (none, none)] ∧ ((Elastic.reading .scalar).entries s.1).Perm [(9, 90)])
      (fun p _ => p = .user ∨ p = .abort ∨ p.Exhausted) (t, w)) ∧
    ∀ w, wp (entryChain lending User.sample 8 Chained.absent)
      (fun replies s => replies = [(some 8, none), (none, none), (none, some 80), (none, none), (none, some 81),
        (none, some 81)] ∧ ((Elastic.reading .scalar).entries s.1).Perm [(7, 70), (9, 90)])
      (fun p _ => p = .user ∨ p = .abort ∨ p.Exhausted) (t, w) := by
  obtain ⟨t, w, ht, hcheck⟩ := Reachable.replayed (b := lending) (u := User.sample)
    (A := fun e => e.2.1.Fitting id (· == ·) e.1.1.entries) Elastic.initial_unallocated World.start
    (fun op (hop : op ∈ [Op.insert 7 70, .insert 9 90]) s r => by
      simp only [List.mem_cons, List.not_mem_nil, or_false] at hop
      rcases hop with rfl | rfl <;> trivial)
    (fun s => Chained.returns s && ((Elastic.reading .scalar).entries s.1 == [(7, 70), (9, 90)])) (by decide +kernel)
  obtain ⟨hreturns, hstored⟩ := Bool.and_eq_true_iff.mp hcheck
  have hentries : (Elastic.reading .scalar).entries t = [(7, 70), (9, 90)] := eq_of_beq hstored
  have hchains := (entry_chains .scalar User.calm_sample.hashOne User.lawful_sample User.copying_sample).2 t ht
  have hpanics : ∀ {key calls p s}, ChainPanic (b := lending) (Elastic.reading .scalar) User.sample (· == ·)
      ((Elastic.reading .scalar).entries t) key calls p s → p = .user ∨ p = .abort ∨ p.Exhausted := by
    rintro key calls p s (hleaves | ⟨_, _, _, _, hleaves⟩ | hleaves)
    all_goals
      cases hleaves.1 with
      | user => exact .inl rfl
      | abort => exact .inr (.inl rfl)
      | exhausted h => exact .inr (.inr h)
  refine ⟨t, w, hreturns, fun w => ?_, fun w => ?_⟩
  · apply wp_mono (hchains 7 Chained.stored w) _ fun _ _ => hpanics
    rintro replies s ⟨hreplies, -, hperm⟩
    rw [hentries] at hreplies hperm
    exact ⟨hreplies, hperm⟩
  · apply wp_mono (hchains 8 Chained.absent w) _ fun _ _ => hpanics
    rintro replies s ⟨hreplies, -, hperm⟩
    rw [hentries] at hreplies hperm
    exact ⟨hreplies, hperm⟩

end Chained

end Opthash
