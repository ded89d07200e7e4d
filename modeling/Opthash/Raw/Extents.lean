import Opthash.Raw.Arena

namespace Opthash

theorem Membership.wordCount_mono {n n' : Nat} (h : n' ≤ n) : wordCount n' ≤ wordCount n := by
  unfold wordCount
  exact Nat.div_le_div_right (by omega)

namespace Layout

structure Within (l' l : Layout) : Prop where
  size : l'.size ≤ l.size
  align : l'.align ≤ l.align

variable {l l' next next' : Layout}

theorem roundUp_mono {size size' : Nat} (align : Nat) (h : size' ≤ size) : roundUp size' align ≤ roundUp size align := by
  unfold roundUp
  exact Nat.mul_le_mul_right _ (Nat.div_le_div_right (by omega))

theorem fromSizeAlign_of_within (h : fromSizeAlign l.size l.align = .ok l) (hl : l'.Within l) :
    fromSizeAlign l'.size l'.align = .ok l' := by
  have hle := (fromSizeAlign_spec h).2
  have := hl.size
  have := hl.align
  unfold fromSizeAlign isizeMax
  exact if_pos (by omega)

theorem eq_of_fromSizeAlign {size align : Nat} (h : fromSizeAlign size align = .ok l) :
    l = ⟨size, align⟩ ∧ fromSizeAlign l.size l.align = .ok l := by
  obtain ⟨rfl, -⟩ := fromSizeAlign_spec h
  exact ⟨rfl, h⟩

theorem extend_of_within {p : Layout × Nat} (h : l.extend next = .ok p) (hl : l'.Within l) (hnext : next'.Within next)
    (halign : next'.align = next.align) :
    ∃ p', l'.extend next' = .ok p' ∧ p'.1.Within p.1 ∧ p'.2 ≤ p.2 := by
  obtain ⟨layout, hlayout, h⟩ := bind_ok h
  cases h
  obtain ⟨rfl, hlayout⟩ := eq_of_fromSizeAlign hlayout
  have hoffset : roundUp l'.size next'.align ≤ roundUp l.size next.align := by
    rw [halign]
    exact roundUp_mono _ hl.size
  have hwithin : Layout.Within ⟨roundUp l'.size next'.align + next'.size, max l'.align next'.align⟩
      ⟨roundUp l.size next.align + next.size, max l.align next.align⟩ := by
    have := hl.align
    have := hnext.size
    exact ⟨by dsimp only; omega, by dsimp only; omega⟩
  refine ⟨(_, _), ?_, hwithin, hoffset⟩
  rw [extend, fromSizeAlign_of_within hlayout hwithin]
  rfl

theorem padToAlign_within (h : l'.Within l) (halign : l'.align = l.align) : l'.padToAlign.Within l.padToAlign := by
  refine ⟨?_, h.align⟩
  unfold padToAlign
  dsimp only
  rw [halign]
  exact roundUp_mono _ h.size

end Layout

namespace Arena

open Layout

variable {slotSize slotAlign ctrlBytes ctrlBytes' dataSlots dataSlots' n n' : Nat}

theorem layoutForExtents_of_le {p : Layout × Nat} (h : layoutForExtents slotSize slotAlign ctrlBytes dataSlots = .ok p)
    (hctrl : ctrlBytes' ≤ ctrlBytes) (hdata : dataSlots' ≤ dataSlots) :
    ∃ p', layoutForExtents slotSize slotAlign ctrlBytes' dataSlots' = .ok p' ∧ p'.1.Within p.1 ∧ p'.2 ≤ p.2 := by
  unfold layoutForExtents at h ⊢
  by_cases hzero : ctrlBytes = 0 ∧ dataSlots = 0
  · rw [if_pos hzero] at h
    cases h
    rw [if_pos (by omega)]
    exact ⟨_, rfl, ⟨Nat.le_refl _, Nat.le_refl _⟩, Nat.le_refl _⟩
  · rw [if_neg hzero] at h
    obtain ⟨ctrlLayout, hctrlLayout, h⟩ := bind_ok h
    obtain ⟨dataLayout, hdataLayout, h⟩ := bind_ok h
    obtain ⟨⟨arena, offset⟩, harena, h⟩ := bind_ok h
    cases h
    obtain ⟨rfl, hctrlLayout⟩ := eq_of_fromSizeAlign hctrlLayout
    obtain ⟨rfl, hdataLayout⟩ := eq_of_fromSizeAlign hdataLayout
    have halign : arena.align = max cacheLine slotAlign := by
      obtain ⟨layout, hlayout, harena⟩ := bind_ok harena
      cases harena
      obtain ⟨rfl, -⟩ := eq_of_fromSizeAlign hlayout
      rfl
    by_cases hzero' : ctrlBytes' = 0 ∧ dataSlots' = 0
    · rw [if_pos hzero']
      exact ⟨_, rfl, ⟨Nat.zero_le _, by rw [padToAlign, halign]; exact Nat.le_max_left ..⟩, Nat.zero_le _⟩
    · have hctrl' : Layout.Within ⟨ctrlBytes', cacheLine⟩ ⟨ctrlBytes, cacheLine⟩ := ⟨hctrl, Nat.le_refl _⟩
      have hdata' : Layout.Within ⟨slotSize * dataSlots', slotAlign⟩ ⟨slotSize * dataSlots, slotAlign⟩ :=
        ⟨Nat.mul_le_mul_left _ hdata, Nat.le_refl _⟩
      obtain ⟨⟨arena', offset'⟩, harena', hwithin, hoffset⟩ := extend_of_within harena hctrl' hdata' rfl
      have halign' : arena'.align = max cacheLine slotAlign := by
        obtain ⟨layout, hlayout, harena'⟩ := bind_ok harena'
        cases harena'
        obtain ⟨rfl, -⟩ := eq_of_fromSizeAlign hlayout
        rfl
      rw [if_neg hzero', show fromSizeAlign ctrlBytes' cacheLine = .ok ⟨ctrlBytes', cacheLine⟩ from
        fromSizeAlign_of_within hctrlLayout hctrl', array,
        show fromSizeAlign (slotSize * dataSlots') slotAlign = .ok ⟨slotSize * dataSlots', slotAlign⟩ from
        fromSizeAlign_of_within hdataLayout hdata']
      simp only [ok_bind, harena']
      exact ⟨_, rfl, padToAlign_within hwithin (halign'.trans halign.symm), hoffset⟩

theorem extendMembership_of_le {base base' : Layout} {p : Layout × Nat} (h : extendMembership base n = .ok p)
    (hbase : base'.Within base) (hn : n' ≤ n) : ∃ p', extendMembership base' n' = .ok p' := by
  have hwords := Membership.wordCount_mono hn
  unfold extendMembership at h ⊢
  by_cases hzero' : Membership.wordCount n' = 0
  · exact ⟨_, if_pos hzero'⟩
  · rw [if_neg (show ¬Membership.wordCount n = 0 by omega)] at h
    obtain ⟨tail, htail, h⟩ := bind_ok h
    obtain ⟨⟨layout, offset⟩, hlayout, h⟩ := bind_ok h
    obtain ⟨rfl, htail⟩ := eq_of_fromSizeAlign htail
    have htail' : Layout.Within ⟨16 * Membership.wordCount n', 8⟩ ⟨16 * Membership.wordCount n, 8⟩ :=
      ⟨Nat.mul_le_mul_left _ hwords, Nat.le_refl _⟩
    obtain ⟨⟨layout', offset'⟩, hlayout', -⟩ := extend_of_within hlayout hbase htail' rfl
    dsimp only
    rw [if_neg hzero', array, show fromSizeAlign (16 * Membership.wordCount n') 8 =
      .ok ⟨16 * Membership.wordCount n', 8⟩ from fromSizeAlign_of_within htail htail']
    simp only [ok_bind, hlayout']
    exact ⟨_, rfl⟩

end Arena

end Opthash
