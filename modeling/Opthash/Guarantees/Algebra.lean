import Opthash.Guarantees.Closures
import Opthash.Guarantees.Growth
import Opthash.Shell.PairSolvent

namespace Opthash

open Exec FiniteMap FiniteSet HashMap HashSet

theorem HashMap.Fresh.proper {W T : Type} {b : TableBackend W T Unit}
    {R : Reading b.Table b.Location b.Vacant b.Scan T Unit} {u : User W T Unit} {eqv : T → T → Bool} {t : b.Table}
    (h : Fresh R u t) : Proper R u eqv t := ⟨h.stores, h.counted⟩

namespace HashSet

variable {W T : Type} (b : Side → TableBackend W T Unit) (u : Side → User W T Unit)
  (R : (side : Side) → Reading (b side).Table (b side).Location (b side).Vacant (b side).Scan T Unit)
  (room : (side : Side) → Room (b side)) (eqv : T → T → Bool)

/-- On either side, the iterators enumerate the sets they stand for, the comparisons answer about the contents of the
two sets, and the operators that return leave the set they stand for and the other one as it was; with a total hasher
and no allocation refused, one runs out of memory only where a set within the two is full and cannot grow. -/
structure Exact (ts : Sets b) : Prop where
  union : ∀ side, Enumerates u eqv ts (unionIterator b u) (HashSet.union b ts side)
    (contents R eqv ts side ∪ contents R eqv ts side.other)
  intersection : ∀ side, Enumerates u eqv ts (intersectionIterator b u) (HashSet.intersection b ts side)
    (contents R eqv ts side ∩ contents R eqv ts side.other)
  difference : ∀ side, Enumerates u eqv ts (differenceIterator b u) (HashSet.difference b ts side)
    (contents R eqv ts side \ contents R eqv ts side.other)
  symmetricDifference : ∀ side, Enumerates u eqv ts (symmetricDifferenceIterator b u)
    (HashSet.symmetricDifference b ts side) (symmDiff (contents R eqv ts side) (contents R eqv ts side.other))
  isSubset : ∀ side w, wp (HashSet.isSubset b u side)
    (fun r s => (r = true ↔ contents R eqv ts side ⊆ contents R eqv ts side.other) ∧ s.1 = ts)
    (fun p _ => Unwound u p) (ts, w)
  isSuperset : ∀ side w, wp (HashSet.isSuperset b u side)
    (fun r s => (r = true ↔ contents R eqv ts side.other ⊆ contents R eqv ts side) ∧ s.1 = ts)
    (fun p _ => Unwound u p) (ts, w)
  isDisjoint : ∀ side w, wp (HashSet.isDisjoint b u side)
    (fun r s => (r = true ↔ contents R eqv ts side ∩ contents R eqv ts side.other = ∅) ∧ s.1 = ts)
    (fun p _ => Unwound u p) (ts, w)
  eq : ∀ side w, wp (HashSet.eq b u side)
    (fun r s => (r = true ↔ contents R eqv ts side = contents R eqv ts side.other) ∧ s.1 = ts)
    (fun p _ => Unwound u p) (ts, w)
  assign : ∀ side op w, wp (HashSet.assign b u side op)
    (fun _ s => contents R eqv s.1 side = op.target (contents R eqv ts side) (contents R eqv ts side.other) ∧
      s.1 side.other = ts side.other)
    (fun p _ => p.Blamed (Loud u) ∧
      (p.Exhausted → (u side).Obliging (fun _ => True) → Starved R u eqv side (room side) ts)) (ts, w)

variable {b u R room eqv} {hash : Side → T → UInt64} {copyKey : T → T} {copyValue : Unit → Unit} {ts : Sets b}
  {s s' : Sets b × World W T Unit} {es : List (Event b)}

theorem exact_of_proper (hc : ∀ side, Contract (R side) (u side)) (hl : ∀ side, (u side).Lawful (hash side) eqv)
    (hcopy : ∀ side, (u side).Copying eqv copyKey copyValue) {I : (side : Side) → (b side).Table → Prop}
    (hf : ∀ side, Funded (R side) (u side) (room side) (I side)) (hp : ∀ side, Proper (R side) (u side) eqv (ts side))
    (hi : ∀ side, I side (ts side)) : Exact b u R room eqv ts where
  union := enumerates_union hc hl hp
  intersection := enumerates_intersection hc hl hp
  difference := enumerates_difference hc hl hp
  symmetricDifference := enumerates_symmetricDifference hc hl hp
  isSubset := fun side _ => wp_isSubset hc hl hp side
  isSuperset := by
    intro side w
    have h := wp_isSubset (w := w) hc hl hp side.other
    rwa [other_other] at h
  isDisjoint := fun side _ => wp_isDisjoint hc hl hp side
  eq := fun side _ => wp_eq hc hl hp side
  assign := by
    intro side op w
    have hstarved := wp_assign_starved (w := w) hc hl hcopy (hf side) hp (hi side) op
    exact wp_mono (wp_and (wp_assign hc hl hcopy hp side op) hstarved) (fun _ _ h => ⟨h.1.2.2, h.1.1⟩) fun _ _ => id

theorem Calls.alone {side : Side} {op : Op T Unit} {r : Except Panic (Ret T Unit)} {w : World W T Unit}
    {s'' : (b side).Table × World W T Unit} (h : Calls b u s es (ts, w))
    (hstep : HashMap.step (b side) (u side) op (ts side, w) = (r, s'')) (hne : r ≠ .error .abort) :
    ∃ es', Calls b u s es' (Function.update ts side s''.1, s''.2) := by
  have hperform : wp (perform b u side (.alone op)) _ _ (ts, w) := calls_of_perform (.alone op) h
  rw [perform, wp_bind, wp_within] at hperform
  cases r with
  | ok a => exact (wp_of_ok hstep).mp hperform
  | error p => exact (wp_of_error hstep).mp hperform fun hp => hne (hp ▸ rfl)

theorem Calls.runs (side : Side) {allow : HashMap.Event (b side) → Prop} {w : World W T Unit}
    {s'' : (b side).Table × World W T Unit} (h : Calls b u s es (ts, w))
    (hruns : Runs (b side) (u side) allow (ts side, w) s'') :
    ∃ es', Calls b u s es' (Function.update ts side s''.1, s''.2) := by
  generalize hs : (ts side, w) = s₀ at hruns
  induction hruns with
  | refl =>
    subst hs
    exact ⟨es, by rwa [Function.update_eq_self]⟩
  | beside w' _ ih =>
    obtain ⟨es', hcalls⟩ := ih
    exact ⟨es', hcalls.beside w'⟩
  | @call s₁ s₂ op r _ hstep _ hne ih =>
    obtain ⟨es', hcalls⟩ := ih
    have hstep' : HashMap.step (b side) (u side) op (Function.update ts side s₁.1 side, s₁.2) = (r, s₂) := by
      rwa [Function.update_self]
    obtain ⟨es'', hcalls'⟩ := hcalls.alone hstep' hne
    exact ⟨es'', by rwa [Function.update_idem] at hcalls'⟩

theorem Event.meets_of_calm (hcalm : ∀ side, (u side).Calm) (hl : ∀ side, (u side).Lawful (hash side) eqv) {e : Event b}
    (hplain : ∀ op, e.call = .alone op → op.Plain eqv) : e.Meets b u R hash eqv := by
  rcases e with ⟨side, op | value | present, s⟩
  · have hop : op.Plain eqv := hplain op rfl
    have hharmless : Harmless (R side) (u side) eqv ((s.1 side, s.2), op, .error .user) :=
      harmless_of_calm (hcalm side) hop
    exact ⟨hop.fitting (hl side) _, hharmless.steadfast, hop.undrained _, hharmless.quiet⟩
  · trivial
  · exact fun _ => ⟨fun _ => True, trivial, User.searchStable_true _, ⟨fun _ _ => id, fun _ _ => id⟩,
      fun c _ => User.calmFor_of_total (hcalm side).hashOne _ c⟩

end HashSet

section Algebra

variable {W T : Type} {group : GroupBackend} {u : Side → User W T Unit} {hash : Side → T → UInt64} {eqv : T → T → Bool}
  {copyKey : T → T} {copyValue : Unit → Unit}

/-- In every run whose closures make fitting elements, whose hashers last for the refreshes of the filters it comes to
and whose drains come to the reset of the counters, two sets are where every operation on them is exact; and the
operators are calls like the others. -/
theorem set_algebra_exact (hl : ∀ side, (u side).Lawful (hash side) eqv)
    (hcopy : ∀ side, (u side).Copying eqv copyKey copyValue) :
    (∀ (s₀ s : Sets (fun side => Funnel.backend group (u side)) × World W T Unit) es,
      (∀ side, Funnel.Initial group (u side) (s₀.1 side)) →
      Calls (fun side => Funnel.backend group (u side)) u s₀ es s →
      (∀ e ∈ es, e.Meets _ u (fun _ => Funnel.reading group) hash eqv) →
      Exact (fun side => Funnel.backend group (u side)) u (fun _ => Funnel.reading group)
        (fun side => Funnel.room group (u side)) eqv s.1 ∧
      ∀ side op, wp (assign (fun side => Funnel.backend group (u side)) u side op)
        (fun _ s' => ∃ es', Calls (fun side => Funnel.backend group (u side)) u s₀ es' s')
        (fun p s' => p ≠ .abort → ∃ es', Calls (fun side => Funnel.backend group (u side)) u s₀ es' s') s) ∧
    ∀ (s₀ s : Sets (fun side => Elastic.backend group (u side)) × World W T Unit) es,
      (∀ side, Elastic.Initial group (u side) (s₀.1 side)) →
      Calls (fun side => Elastic.backend group (u side)) u s₀ es s →
      (∀ e ∈ es, e.Meets _ u (fun _ => Elastic.reading group) hash eqv) →
      Exact (fun side => Elastic.backend group (u side)) u (fun _ => Elastic.reading group)
        (fun side => Elastic.room group (u side)) eqv s.1 ∧
      ∀ side op, wp (assign (fun side => Elastic.backend group (u side)) u side op)
        (fun _ s' => ∃ es', Calls (fun side => Elastic.backend group (u side)) u s₀ es' s')
        (fun p s' => p ≠ .abort → ∃ es', Calls (fun side => Elastic.backend group (u side)) u s₀ es' s') s := by
  constructor
  · intro s₀ s es h₀ hcalls hmeets
    have hc := fun side => Funnel.contract group (u side)
    have hp := proper_of_calls (b := fun side => Funnel.backend group (u side)) (R := fun _ => Funnel.reading group) hc hl
      hcopy hcalls hmeets fun side => (h₀ side).fresh.proper
    have hf := fun side => Funnel.FunnelTable.funded group (u side) (s₀.1 side).reserveFraction
    have hi := kept_of_calls hc hcopy (fun side => (hf side).maintains) hl hcalls hmeets (fun side => (h₀ side).fresh.proper)
      fun side => (h₀ side).snug
    exact ⟨exact_of_proper hc hl hcopy hf hp hi, fun side op => calls_assign hc hp op hcalls⟩
  · intro s₀ s es h₀ hcalls hmeets
    have hc := fun side => Elastic.contract group (u side)
    have hp := proper_of_calls (b := fun side => Elastic.backend group (u side)) (R := fun _ => Elastic.reading group) hc
      hl hcopy hcalls hmeets fun side => (h₀ side).fresh.proper
    have hf := fun side => Elastic.ElasticTable.funded group (u side)
    have hi := kept_of_calls hc hcopy (fun side => (hf side).maintains) hl hcalls hmeets (fun side => (h₀ side).fresh.proper)
      fun side => (h₀ side).snug
    exact ⟨exact_of_proper hc hl hcopy hf hp hi, fun side op => calls_assign hc hp op hcalls⟩

end Algebra

namespace HashSet

variable {b : TableBackend Unit UInt64 Unit} {R : Reading b.Table b.Location b.Vacant b.Scan UInt64 Unit}

theorem exists_calls_left {initial : b.Table → Prop} {empty t : b.Table} {allow : HashMap.Event b → Prop}
    (hempty : initial empty) (ht : Reachable b words initial allow t) :
    ∃ s₀ es, (∀ side, initial (s₀.1 side)) ∧
      Calls (fun _ => b) (fun _ => words) s₀ es (Function.update (fun _ => empty) .left t, start) := by
  obtain ⟨t₀, w₀, w, h₀, hruns⟩ := ht
  let ts₀ : Sets (fun _ => b) := Function.update (fun _ => empty) .left t₀
  obtain ⟨es, hcalls⟩ := (Calls.nil (b := fun _ => b) (u := fun _ => words) (ts₀, w₀)).runs .left hruns
  refine ⟨(ts₀, w₀), es, ?_, ?_⟩
  · rintro (_ | _)
    · exact h₀
    · exact hempty
  · have hstart := hcalls.beside start
    rwa [Function.update_idem] at hstart

def unequal (b : TableBackend Unit UInt64 Unit) (entries : b.Table → List (UInt64 × Unit)) (empty t : b.Table) : Bool :=
  entries t == [] && (HashSet.eq (fun _ => b) (fun _ => words) .left
    (Function.update (fun _ => empty) .left t, start)).1.toOption == some false

theorem differ_of_unequal {empty t : b.Table} (hempty : R.entries empty = []) (h : unequal b R.entries empty t = true) :
    contents (b := fun _ => b) (fun _ => R) (· == ·) (Function.update (fun _ => empty) .left t) .left =
        contents (b := fun _ => b) (fun _ => R) (· == ·) (Function.update (fun _ => empty) .left t) .right ∧
      (HashSet.eq (fun _ => b) (fun _ => words) .left
        (Function.update (fun _ => empty) .left t, start)).1.toOption = some false := by
  obtain ⟨hentries, hne⟩ := Bool.and_eq_true_iff.mp h
  refine ⟨?_, eq_of_beq hne⟩
  change listed _ ((R.entries t).map Prod.fst) = listed _ ((R.entries empty).map Prod.fst)
  rw [hempty, eq_of_beq hentries]

end HashSet

def both : List (Side × Call UInt64) :=
  [(.left, .alone (.insert 1 ())), (.left, .alone (.insert 2 ())), (.left, .alone (.insert 5 ())),
    (.right, .alone (.insert 2 ())), (.right, .alone (.insert 4 ())), (.right, .alone (.insert 1 ())),
    (.left, .retain true), (.right, .alone (.remove 1)), (.left, .alone (.insert 3 ())), (.left, .alone (.remove 3))]

/-- The sets of 1 and 2 and of 2 and 4. -/
theorem set_algebra_exact_insert :
    ∃ (s₀ s : Sets (fun _ => Elastic.backend .scalar words) × World Unit UInt64 Unit) (es : _),
      (∀ side, Elastic.Initial .scalar words (s₀.1 side)) ∧
      Calls (fun _ => Elastic.backend .scalar words) (fun _ => words) s₀ es s ∧
      (s.1 .left).entries = [(2, ()), (1, ())] ∧ (s.1 .right).entries = [(4, ()), (2, ())] ∧
      Exact (fun _ => Elastic.backend .scalar words) (fun _ => words) (fun _ => Elastic.reading .scalar)
        (fun _ => Elastic.room .scalar words) (· == ·) s.1 := by
  have hreplay : (replay (fun _ => Elastic.backend .scalar words) (fun _ => words) both
      (fun _ => emptyElastic, start)).any (fun s => (s.1 .left).entries == [(2, ()), (1, ())] &&
        (s.1 .right).entries == [(4, ()), (2, ())]) = true := by decide +kernel
  obtain ⟨s, hs, hentries⟩ := (Option.any_eq_true _ _).mp hreplay
  obtain ⟨hleft, hright⟩ := Bool.and_eq_true_iff.mp hentries
  obtain ⟨es, hcalls, hes⟩ := (Calls.nil _).replay hs
  refine ⟨_, s, es, fun _ => initial_emptyElastic, hcalls, eq_of_beq hleft, eq_of_beq hright, ?_⟩
  refine ((set_algebra_exact (u := fun _ => words) (fun _ => lawful_words) fun _ => User.copying_ofFunctions
    User.equality_beq).2 _ s es (fun _ => initial_emptyElastic) hcalls fun e he => ?_).1
  refine e.meets_of_calm (fun _ => User.calm_ofFunctions) (fun _ => lawful_words) fun op hop => ?_
  have hcall : (e.side, Call.alone op) ∈ both := hop ▸ hes e he
  simp only [both, List.mem_cons, Prod.mk.injEq, Call.alone.injEq, reduceCtorEq, and_false, List.not_mem_nil, or_false,
    false_or] at hcall
  rcases hcall with ⟨-, rfl⟩ | ⟨-, rfl⟩ | ⟨-, rfl⟩ | ⟨-, rfl⟩ | ⟨-, rfl⟩ | ⟨-, rfl⟩ | ⟨-, rfl⟩ | ⟨-, rfl⟩ | ⟨-, rfl⟩ <;>
    exact ⟨trivial, id, fun _ _ _ h => by cases h⟩

/-- A forgotten drain leaves an empty set that does not compare equal to an empty set. -/
theorem forgotten_drain_unequal :
    (∃ (s₀ s : Sets (fun _ => Funnel.backend .scalar words) × World Unit UInt64 Unit) (es : _),
      (∀ side, Funnel.Initial .scalar words (s₀.1 side)) ∧
      Calls (fun _ => Funnel.backend .scalar words) (fun _ => words) s₀ es s ∧
      contents (b := fun _ => Funnel.backend .scalar words) (fun _ => Funnel.reading .scalar) (· == ·) s.1 .left =
        contents (b := fun _ => Funnel.backend .scalar words) (fun _ => Funnel.reading .scalar) (· == ·) s.1 .right ∧
      (HashSet.eq (fun _ => Funnel.backend .scalar words) (fun _ => words) .left s).1.toOption = some false) ∧
    ∃ (s₀ s : Sets (fun _ => Elastic.backend .scalar words) × World Unit UInt64 Unit) (es : _),
      (∀ side, Elastic.Initial .scalar words (s₀.1 side)) ∧
      Calls (fun _ => Elastic.backend .scalar words) (fun _ => words) s₀ es s ∧
      contents (b := fun _ => Elastic.backend .scalar words) (fun _ => Elastic.reading .scalar) (· == ·) s.1 .left =
        contents (b := fun _ => Elastic.backend .scalar words) (fun _ => Elastic.reading .scalar) (· == ·) s.1 .right ∧
      (HashSet.eq (fun _ => Elastic.backend .scalar words) (fun _ => words) .left s).1.toOption = some false := by
  let drained : List (Op UInt64 Unit) := [.insert 1 (), .leakDrain 1]
  constructor
  · obtain ⟨t, w, ht, hunequal⟩ := Reachable.replayed (b := Funnel.backend .scalar words) (u := words)
      (A := fun _ => True) initial_emptyFunnel start (fun op (_ : op ∈ drained) _ _ => trivial)
      (fun s => unequal (Funnel.backend .scalar words) (Funnel.reading .scalar).entries emptyFunnel s.1)
      (by decide +kernel)
    obtain ⟨s₀, es, h₀, hcalls⟩ := exists_calls_left initial_emptyFunnel ht
    exact ⟨s₀, _, es, h₀, hcalls, differ_of_unequal initial_emptyFunnel.fresh.entries hunequal⟩
  · obtain ⟨t, w, ht, hunequal⟩ := Reachable.replayed (b := Elastic.backend .scalar words) (u := words)
      (A := fun _ => True) initial_emptyElastic start (fun op (_ : op ∈ drained) _ _ => trivial)
      (fun s => unequal (Elastic.backend .scalar words) (Elastic.reading .scalar).entries emptyElastic s.1)
      (by decide +kernel)
    obtain ⟨s₀, es, h₀, hcalls⟩ := exists_calls_left initial_emptyElastic ht
    exact ⟨s₀, _, es, h₀, hcalls, differ_of_unequal initial_emptyElastic.fresh.entries hunequal⟩

end Opthash
