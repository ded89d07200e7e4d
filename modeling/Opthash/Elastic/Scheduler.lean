import Mathlib.Data.List.GetD
import Opthash.Elastic.Geometry
import Opthash.Exact.Reference

namespace Opthash.Elastic

/-- The live count at which a batch ends: its quota and all earlier ones, saturating. -/
def batchEndAt (plan : List Nat) (batch : Nat) : Nat := saturatingUsize (plan.take (batch + 1)).sum

/-- The first batch that ends beyond `len`, the last batch when there is none. -/
def batchAt (plan : List Nat) (len : Nat) : Nat :=
  ((List.range plan.length).find? fun batch => len < batchEndAt plan batch).getD (plan.length - 1)

def targetAt (plan : List Nat) (len : Nat) : BatchTarget :=
  if batchAt plan len = 0 then .bootstrap else .levelPair (batchAt plan len - 1)

section Rule

variable {plan : List Nat} {len batch : Nat}

theorem batchEndAt_mono (plan : List Nat) : Monotone (batchEndAt plan) := by
  intro a b h
  have hsplit : (plan.take (b + 1)).sum = (plan.take (a + 1)).sum + ((plan.drop (a + 1)).take (b - a)).sum := by
    have hb : b + 1 = a + 1 + (b - a) := by omega
    rw [hb, List.take_add, List.sum_append]
  unfold batchEndAt saturatingUsize
  omega

theorem batchAt_of_first (hbatch : batch < plan.length) (hend : len < batchEndAt plan batch)
    (hbefore : ∀ earlier < batch, batchEndAt plan earlier ≤ len) : batchAt plan len = batch := by
  have hfind : (List.range plan.length).find? (fun batch => len < batchEndAt plan batch) = some batch := by
    rw [List.find?_range_eq_some]
    refine ⟨by simpa using hend, List.mem_range.mpr hbatch, ?_⟩
    intro earlier hearlier
    simpa using hbefore earlier hearlier
  rw [batchAt, hfind]
  rfl

theorem batchAt_of_beyond (h : ∀ batch < plan.length, batchEndAt plan batch ≤ len) :
    batchAt plan len = plan.length - 1 := by
  have hfind : (List.range plan.length).find? (fun batch => len < batchEndAt plan batch) = none := by
    rw [List.find?_eq_none]
    intro batch hbatch
    simpa using h batch (List.mem_range.mp hbatch)
  rw [batchAt, hfind]
  rfl

theorem batchAt_of_window (hbatch : batch < plan.length)
    (hstart : (if batch = 0 then 0 else batchEndAt plan (batch - 1)) ≤ len) (hend : len < batchEndAt plan batch) :
    batchAt plan len = batch := by
  apply batchAt_of_first hbatch hend
  intro earlier hearlier
  rw [if_neg (by omega)] at hstart
  exact Nat.le_trans (batchEndAt_mono plan (by omega)) hstart

theorem batchAt_lt (hplan : plan ≠ []) (len : Nat) : batchAt plan len < plan.length := by
  have hpos := List.length_pos_of_ne_nil hplan
  unfold batchAt
  cases hfind : (List.range plan.length).find? fun batch => len < batchEndAt plan batch with
  | none =>
    change plan.length - 1 < plan.length
    omega
  | some batch => exact List.mem_range.mp (List.mem_of_find?_eq_some hfind)

theorem batchEndAt_last (plan : List Nat) : batchEndAt plan (plan.length - 1) = saturatingUsize plan.sum := by
  have hall : plan.take (plan.length - 1 + 1) = plan := List.take_of_length_le (by omega)
  rw [batchEndAt, hall]

theorem batchAt_quota (hlen : len < saturatingUsize plan.sum) : 0 < plan.getD (batchAt plan len) 0 := by
  have hplan : plan ≠ [] := by
    rintro rfl
    simp [saturatingUsize] at hlen
  have hlast := List.length_pos_of_ne_nil hplan
  unfold batchAt
  cases hfind : (List.range plan.length).find? fun batch => len < batchEndAt plan batch with
  | none =>
    have := List.find?_eq_none.mp hfind (plan.length - 1) (List.mem_range.mpr (by omega))
    rw [batchEndAt_last] at this
    exact absurd hlen (by simpa using this)
  | some batch =>
    obtain ⟨hend, hbatch, hbefore⟩ := List.find?_range_eq_some.mp hfind
    have hend : len < batchEndAt plan batch := by simpa using hend
    have hbatch := List.mem_range.mp hbatch
    change 0 < plan.getD batch 0
    by_contra hzero
    have hsum : (plan.take (batch + 1)).sum = (plan.take batch).sum := by
      rw [List.take_add_one, List.sum_append, List.getElem?_eq_getElem hbatch]
      rw [List.getD_eq_getElem _ _ hbatch] at hzero
      simp only [Option.toList_some, List.sum_singleton]
      omega
    cases batch with
    | zero =>
      rw [batchEndAt, hsum] at hend
      simp [saturatingUsize] at hend
    | succ batch =>
      have hearlier : ¬len < batchEndAt plan batch := by simpa using hbefore batch (Nat.lt_succ_self batch)
      rw [batchEndAt, hsum] at hend
      exact hearlier hend

end Rule

section Oracle

variable {s : Reference.ScalarElastic}

theorem activeBatchFrom_spec {batch total : Nat} (quotas : List Nat) :
    match s.activeBatchFrom batch total quotas with
    | some found => ∃ i, found = batch + i ∧ i < quotas.length ∧ s.len < total + (quotas.take (i + 1)).sum ∧
        ∀ j < i, total + (quotas.take (j + 1)).sum ≤ s.len
    | none => ∀ i < quotas.length, total + (quotas.take (i + 1)).sum ≤ s.len := by
  induction quotas generalizing batch total with
  | nil => exact fun i hi => absurd hi (Nat.not_lt_zero i)
  | cons quota quotas ih =>
    rw [Reference.ScalarElastic.activeBatchFrom]
    by_cases hlen : s.len < total + quota
    · rw [if_pos hlen]
      exact ⟨0, rfl, Nat.succ_pos _, by simpa using hlen, fun j hj => absurd hj (Nat.not_lt_zero j)⟩
    · rw [if_neg hlen]
      have hrest := @ih (batch + 1) (total + quota)
      have hsums : ∀ i, total + ((quota :: quotas).take (i + 1 + 1)).sum = total + quota + (quotas.take (i + 1)).sum := by
        intro i
        rw [List.take_succ_cons, List.sum_cons, Nat.add_assoc]
      cases hfound : s.activeBatchFrom (batch + 1) (total + quota) quotas with
      | some found =>
        rw [hfound] at hrest
        obtain ⟨i, hi, hlength, hend, hbefore⟩ := hrest
        refine ⟨i + 1, by omega, Nat.succ_lt_succ hlength, ?_, ?_⟩
        · rw [hsums]
          exact hend
        · intro j hj
          cases j with
          | zero => simpa using Nat.le_of_not_lt hlen
          | succ j =>
            rw [hsums]
            exact hbefore j (by omega)
      | none =>
        rw [hfound] at hrest
        intro i hi
        cases i with
        | zero => simpa using Nat.le_of_not_lt hlen
        | succ i =>
          rw [hsums]
          exact hrest i (Nat.lt_of_succ_lt_succ hi)

theorem batchAt_activeBatch (hlen : s.len < usizeMax) :
    batchAt s.quotas s.len = s.activeBatch.getD (s.quotas.length - 1) := by
  have hend : ∀ i, s.len < batchEndAt s.quotas i ↔ s.len < 0 + (s.quotas.take (i + 1)).sum := by
    intro i
    unfold batchEndAt saturatingUsize
    omega
  have hspec := @activeBatchFrom_spec s 0 0 s.quotas
  rw [Reference.ScalarElastic.activeBatch]
  cases hfound : s.activeBatchFrom 0 0 s.quotas with
  | some found =>
    rw [hfound] at hspec
    obtain ⟨i, rfl, hlength, hsum, hbefore⟩ := hspec
    rw [Nat.zero_add]
    apply batchAt_of_first hlength ((hend i).mpr hsum)
    intro earlier hearlier
    have := hbefore earlier hearlier
    have := hend earlier
    omega
  | none =>
    rw [hfound] at hspec
    apply batchAt_of_beyond
    intro batch hbatch
    have := hspec batch hbatch
    have := hend batch
    omega

end Oracle

namespace BatchScheduler

variable {plan : List Nat} {s : BatchScheduler} {len : Nat}

structure Synced (plan : List Nat) (s : BatchScheduler) : Prop where
  ends : s.batchEnds = batchEndsFrom 0 plan
  empty : plan = [] → s.currentBatchIndex = 0
  current : plan ≠ [] → s.currentBatchIndex < plan.length
  start : plan ≠ [] → s.batchStart =
    if s.currentBatchIndex = 0 then 0 else batchEndAt plan (s.currentBatchIndex - 1)
  stop : plan ≠ [] → s.batchEnd = batchEndAt plan s.currentBatchIndex

theorem batchEndsFrom_length (total : Nat) (plan : List Nat) : (batchEndsFrom total plan).length = plan.length := by
  induction plan generalizing total with
  | nil => rfl
  | cons quota plan ih => rw [batchEndsFrom, List.length_cons, List.length_cons, ih]

theorem batchEndsFrom_getD {total i : Nat} (htotal : total ≤ usizeMax) (hi : i < plan.length) :
    (batchEndsFrom total plan).getD i 0 = saturatingUsize (total + (plan.take (i + 1)).sum) := by
  induction plan generalizing total i with
  | nil => exact absurd hi (Nat.not_lt_zero i)
  | cons quota plan ih =>
    cases i with
    | zero => simp [batchEndsFrom]
    | succ i =>
      have hsmall : saturatingUsize (total + quota) ≤ usizeMax := Nat.min_le_right ..
      rw [batchEndsFrom, List.getD_cons_succ, ih hsmall (Nat.lt_of_succ_lt_succ hi), List.take_succ_cons, List.sum_cons]
      unfold saturatingUsize
      omega

theorem ends_getD {i : Nat} (hi : i < plan.length) : (batchEndsFrom 0 plan).getD i 0 = batchEndAt plan i := by
  rw [batchEndsFrom_getD (Nat.zero_le _) hi, Nat.zero_add, batchEndAt]

theorem partition_eq (hplan : plan ≠ []) :
    min ((batchEndsFrom 0 plan).takeWhile (· ≤ len)).length (plan.length - 1) = batchAt plan len := by
  have hlength := batchEndsFrom_length 0 plan
  have hpos := List.length_pos_of_ne_nil hplan
  rw [List.takeWhile_eq_take_findIdx_not, List.length_take, hlength]
  generalize hindex : (batchEndsFrom 0 plan).findIdx (fun x => !decide (x ≤ len)) = index
  have hbefore : ∀ i < index, i < plan.length → batchEndAt plan i ≤ len := by
    intro i hi hlt
    have hnot := List.not_of_lt_findIdx (hindex ▸ hi)
    rw [← ends_getD hlt, List.getD_eq_getElem _ _ (hlength.symm ▸ hlt)]
    simpa using hnot
  by_cases hlast : index < plan.length
  · have hend : len < batchEndAt plan index := by
      have hwithin : (batchEndsFrom 0 plan).findIdx (fun x => !decide (x ≤ len)) < (batchEndsFrom 0 plan).length := by
        rw [hindex, hlength]
        exact hlast
      have hfound := List.findIdx_getElem (w := hwithin)
      simp only [hindex] at hfound
      rw [← ends_getD hlast, List.getD_eq_getElem _ _ (hlength.symm ▸ hlast)]
      simpa using hfound
    rw [batchAt_of_first hlast hend fun i hi => hbefore i hi (Nat.lt_trans hi hlast)]
    omega
  · rw [batchAt_of_beyond fun i hi => hbefore i (by omega) hi]
    omega

theorem synced_sync (hends : s.batchEnds = batchEndsFrom 0 plan) (hempty : plan = [] → s.currentBatchIndex = 0) (len : Nat) :
    Synced plan (s.sync len) ∧ (plan ≠ [] → (s.sync len).currentBatchIndex = batchAt plan len) := by
  by_cases hplan : plan = []
  · have hsync : s.sync len = s := by
      rw [sync, hends, hplan]
      exact if_pos rfl
    rw [hsync]
    exact ⟨⟨hends, hempty, fun h => absurd hplan h, fun h => absurd hplan h, fun h => absurd hplan h⟩,
      fun h => absurd hplan h⟩
  · have hne : batchEndsFrom 0 plan ≠ [] := by
      intro h
      have := batchEndsFrom_length 0 plan
      rw [h] at this
      exact hplan (List.eq_nil_of_length_eq_zero this.symm)
    have hlt := batchAt_lt hplan len
    have hsync : s.sync len = ⟨batchEndsFrom 0 plan, batchAt plan len,
        if batchAt plan len = 0 then 0 else batchEndAt plan (batchAt plan len - 1), batchEndAt plan (batchAt plan len)⟩ := by
      rw [sync, hends, if_neg hne]
      dsimp only
      rw [batchEndsFrom_length, partition_eq hplan, ends_getD hlt, ends_getD (by omega)]
    rw [hsync]
    exact ⟨⟨rfl, fun h => absurd h hplan, fun _ => hlt, fun _ => rfl, fun _ => rfl⟩, fun _ => rfl⟩

theorem synced_new (plan : List Nat) : Synced plan (new plan) := (synced_sync rfl (fun _ => rfl) 0).1

theorem Synced.reset (h : Synced plan s) : Synced plan s.reset := (synced_sync h.ends h.empty 0).1

theorem Synced.target (h : Synced plan s) (len : Nat) :
    (s.target len).1 = targetAt plan len ∧ Synced plan (s.target len).2 := by
  have hindex : ∀ s' : BatchScheduler, (plan ≠ [] → s'.currentBatchIndex = batchAt plan len) → Synced plan s' →
      (if s'.currentBatchIndex = 0 then BatchTarget.bootstrap else .levelPair (s'.currentBatchIndex - 1)) =
        targetAt plan len := by
    intro s' hs' hsynced
    by_cases hplan : plan = []
    · rw [hsynced.empty hplan, targetAt, hplan]
      rfl
    · rw [hs' hplan, targetAt]
  obtain ⟨hsynced, hcurrent⟩ := synced_sync h.ends h.empty len
  rw [BatchScheduler.target]
  by_cases hout : len ≥ s.batchEnd ∨ len < s.batchStart
  · rw [if_pos hout]
    exact ⟨hindex _ hcurrent hsynced, hsynced⟩
  · rw [if_neg hout]
    refine ⟨hindex s ?_ h, h⟩
    intro hplan
    have hstart := h.start hplan
    have hstop := h.stop hplan
    exact (batchAt_of_window (h.current hplan) (by omega) (by omega)).symm

inductive Query
  | target (len : Nat)
  | reset
  deriving DecidableEq, Repr

def Query.ruled (plan : List Nat) : Query → Option BatchTarget
  | .target len => some (targetAt plan len)
  | .reset => none

def answers : BatchScheduler → List Query → List BatchTarget
  | _, [] => []
  | s, .target len :: queries => (s.target len).1 :: answers (s.target len).2 queries
  | s, .reset :: queries => answers s.reset queries

theorem Synced.answers (h : Synced plan s) (queries : List Query) :
    s.answers queries = queries.filterMap (Query.ruled plan) := by
  induction queries generalizing s with
  | nil => rfl
  | cons query queries ih =>
    cases query with
    | target len =>
      obtain ⟨hanswer, hsynced⟩ := h.target len
      rw [BatchScheduler.answers, hanswer, ih hsynced]
      rfl
    | reset =>
      rw [BatchScheduler.answers, ih h.reset]
      rfl

/-- The answers do not depend on the queries before them: each is the first batch that ends beyond the length. -/
theorem target_history_free (plan : List Nat) (queries : List Query) :
    (new plan).answers queries = queries.filterMap (Query.ruled plan) ∧
    (∀ len, targetAt plan len = .bootstrap ↔ batchAt plan len = 0 ∨ plan = []) ∧
    (∀ len batch, batch < plan.length → len < batchEndAt plan batch → (∀ earlier < batch, batchEndAt plan earlier ≤ len) →
      batchAt plan len = batch) ∧
    (∀ len, (∀ batch < plan.length, batchEndAt plan batch ≤ len) → batchAt plan len = plan.length - 1) ∧
    (∀ s : Reference.ScalarElastic, s.quotas = plan → s.len < usizeMax →
      batchAt plan s.len = s.activeBatch.getD (plan.length - 1)) ∧
    ∀ len < saturatingUsize plan.sum, 0 < plan.getD (batchAt plan len) 0 := by
  refine ⟨(synced_new plan).answers queries, ?_, ?_, ?_, ?_, ?_⟩
  · intro len
    constructor
    · intro h
      rw [targetAt] at h
      split at h
      · rename_i hzero
        exact .inl hzero
      · cases h
    · rintro (h | rfl)
      · exact if_pos h
      · rfl
  · intro len batch hbatch hend hbefore
    exact batchAt_of_first hbatch hend hbefore
  · intro len h
    exact batchAt_of_beyond h
  · rintro s rfl hlen
    exact batchAt_activeBatch hlen
  · intro len hlen
    exact batchAt_quota hlen

/-- A batch without a quota is passed over from both sides. -/
example : (new [2, 0, 3]).answers [.target 1, .target 2, .target 4, .target 9, .target 2, .reset, .target 0] =
    [.bootstrap, .levelPair 1, .levelPair 1, .levelPair 1, .levelPair 1, .bootstrap] := by
  decide

end BatchScheduler

end Opthash.Elastic
