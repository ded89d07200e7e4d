import Mathlib.Data.List.Nodup
import Mathlib.Data.List.Perm.Basic
import Mathlib.Data.UInt
import Mathlib.Tactic.Common

namespace Opthash.Slots

variable {L E : Type}

theorem split_of_mem {ls : List L} {l : L} (hn : ls.Nodup) (hl : l ∈ ls) :
    ∃ as bs, ls = as ++ l :: bs ∧ l ∉ as ∧ l ∉ bs := by
  obtain ⟨as, bs, rfl⟩ := List.append_of_mem hl
  have hd := List.nodup_append.mp hn
  refine ⟨as, bs, rfl, fun h => ?_, (List.nodup_cons.mp hd.2.1).1⟩
  exact hd.2.2 l h l (by simp) rfl

theorem filterMap_congr_of_not_mem {ls : List L} {l : L} {f g : L → Option E} (hl : l ∉ ls)
    (hfg : ∀ m, m ≠ l → g m = f m) : ls.filterMap g = ls.filterMap f := by
  apply List.filterMap_congr
  intro m hm
  exact hfg m (fun h => hl (h ▸ hm))

theorem filterMap_update {ls : List L} {l : L} {f g : L → Option E} (hn : ls.Nodup) (hl : l ∈ ls)
    (hfg : ∀ m, m ≠ l → g m = f m) :
    ∃ rest, (ls.filterMap f).Perm ((f l).toList ++ rest) ∧
      (ls.filterMap g).Perm ((g l).toList ++ rest) := by
  obtain ⟨as, bs, rfl, ha, hb⟩ := split_of_mem hn hl
  refine ⟨as.filterMap f ++ bs.filterMap f, ?_, ?_⟩
  all_goals
    simp only [List.filterMap_append, List.filterMap_cons]
  · cases f l with
    | none => simp
    | some e => simp
  · rw [filterMap_congr_of_not_mem ha hfg, filterMap_congr_of_not_mem hb hfg]
    cases g l with
    | none => simp
    | some e => simp

theorem filterMap_fill {ls : List L} {l : L} {e : E} {f g : L → Option E} (hn : ls.Nodup)
    (hl : l ∈ ls) (hf : f l = none) (hg : g l = some e) (hfg : ∀ m, m ≠ l → g m = f m) :
    (ls.filterMap g).Perm (e :: ls.filterMap f) := by
  obtain ⟨rest, hrf, hrg⟩ := filterMap_update hn hl hfg
  simp only [hf, hg, Option.toList_none, Option.toList_some, List.nil_append,
    List.singleton_append] at hrf hrg
  exact hrg.trans (hrf.symm.cons e)

theorem filterMap_replace {ls : List L} {l : L} {e e' : E} {f g : L → Option E} (hn : ls.Nodup)
    (hl : l ∈ ls) (hf : f l = some e) (hg : g l = some e') (hfg : ∀ m, m ≠ l → g m = f m) :
    ∃ rest, (ls.filterMap f).Perm (e :: rest) ∧ (ls.filterMap g).Perm (e' :: rest) := by
  obtain ⟨rest, hrf, hrg⟩ := filterMap_update hn hl hfg
  simp only [hf, hg, Option.toList_some, List.singleton_append] at hrf hrg
  exact ⟨rest, hrf, hrg⟩

theorem countP_eq_of_not_mem {ls : List L} {l : L} {p q : L → Bool} (hl : l ∉ ls)
    (hpq : ∀ m, m ≠ l → q m = p m) : ls.countP q = ls.countP p := by
  apply List.countP_congr
  intro m hm
  rw [hpq m (fun h => hl (h ▸ hm))]

theorem countP_update {ls : List L} {l : L} {p q : L → Bool} (hn : ls.Nodup) (hl : l ∈ ls)
    (hpq : ∀ m, m ≠ l → q m = p m) :
    ls.countP q + (if p l then 1 else 0) = ls.countP p + (if q l then 1 else 0) := by
  obtain ⟨as, bs, rfl, ha, hb⟩ := split_of_mem hn hl
  simp only [List.countP_append, List.countP_cons, countP_eq_of_not_mem ha hpq,
    countP_eq_of_not_mem hb hpq]
  omega

theorem forall₂_filterMap {E' : Type} {R : E → E' → Prop} {ls : List L} {f : L → Option E}
    {g : L → Option E'} (h : ∀ l ∈ ls, Option.Rel R (f l) (g l)) :
    List.Forall₂ R (ls.filterMap f) (ls.filterMap g) := by
  induction ls with
  | nil => exact .nil
  | cons l ls ih =>
    have hl := h l (List.mem_cons_self ..)
    have hrest := ih fun m hm => h m (List.mem_cons_of_mem _ hm)
    simp only [List.filterMap_cons]
    generalize f l = a at hl
    generalize g l = b at hl
    cases hl with
    | none => exact hrest
    | some hR => exact .cons hR hrest

theorem mem_flatten_of_forall₂ {α β : Type} {Q : α → β → Prop} {l : List α} {bs : List (List β)}
    (h : List.Forall₂ (fun a b => ∀ x, x ∈ b ↔ Q a x) l bs) {x : β} : x ∈ bs.flatten ↔ ∃ a ∈ l, Q a x := by
  induction h with
  | nil => simp
  | cons hQ _ ih => rw [List.flatten_cons, List.mem_append, hQ, ih]; simp

theorem flatMap_modify {ls : List L} {i : Nat} {l : L} {f : L → L} {g : L → List E} (h : ls[i]? = some l) :
    ∃ rest, (ls.flatMap g).Perm (g l ++ rest) ∧ ((ls.modify i f).flatMap g).Perm (g (f l) ++ rest) := by
  obtain ⟨hi, rfl⟩ := List.getElem?_eq_some_iff.mp h
  refine ⟨(ls.take i).flatMap g ++ (ls.drop (i + 1)).flatMap g, ?_, ?_⟩
  · conv_lhs => rw [← List.take_append_drop i ls, List.drop_eq_getElem_cons hi]
    rw [List.flatMap_append, List.flatMap_cons]
    exact List.perm_append_comm_assoc ..
  · rw [List.modify_eq_take_cons_drop hi, List.flatMap_append, List.flatMap_cons]
    exact List.perm_append_comm_assoc ..

theorem modify_append (xs ys : List α) (a : α) (f : α → α) :
    (xs ++ a :: ys).modify xs.length f = xs ++ f a :: ys := by
  induction xs with
  | nil => rfl
  | cons x xs ih => exact congrArg (x :: ·) ih

theorem mem_modify {ls : List L} {i : Nat} {l m : L} {f : L → L} (h : ls[i]? = some l) (hm : m ∈ ls.modify i f) :
    m ∈ ls ∨ m = f l := by
  obtain ⟨j, hj⟩ := List.mem_iff_getElem?.mp hm
  rw [List.getElem?_modify] at hj
  split at hj
  · rename_i hij
    rw [← hij, h] at hj
    exact .inr (Option.some.inj hj).symm
  · rw [id_map'] at hj
    exact .inl (List.mem_of_getElem? hj)

theorem map_modify {ls : List L} {i : Nat} {f : L → L} {g : L → E} (h : ∀ l, g (f l) = g l) :
    (ls.modify i f).map g = ls.map g := by
  apply List.ext_getElem?
  intro j
  rw [List.getElem?_map, List.getElem?_modify, List.getElem?_map]
  split
  · cases ls[j]? with
    | none => rfl
    | some l => exact congrArg some (h l)
  · rw [id_map']

end Opthash.Slots
