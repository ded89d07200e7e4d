import Opthash.Machine
import Opthash.Control
import Opthash.Membership

namespace Opthash

namespace Layout

def roundUp (size align : Nat) : Nat := (size + align - 1) / align * align

def fromSizeAlign (size align : Nat) : Except TryReserveError Layout :=
  if size + align ≤ isizeMax + 1 then .ok ⟨size, align⟩ else .error .allocError

theorem fromSizeAlign_spec {size align : Nat} {l : Layout} (h : fromSizeAlign size align = .ok l) :
    l = ⟨size, align⟩ ∧ size + align ≤ 2 ^ 63 := by
  unfold fromSizeAlign isizeMax at h
  split at h <;> cases h
  exact ⟨rfl, by omega⟩

def array (slotSize slotAlign count : Nat) : Except TryReserveError Layout :=
  fromSizeAlign (slotSize * count) slotAlign

variable (l : Layout)

def extend (next : Layout) : Except TryReserveError (Layout × Nat) := do
  let offset := roundUp l.size next.align
  let layout ← fromSizeAlign (offset + next.size) (max l.align next.align)
  pure (layout, offset)

def padToAlign : Layout := ⟨roundUp l.size l.align, l.align⟩

end Layout

def cacheLine : Nat := 64

namespace Arena

def layoutForExtents (slotSize slotAlign ctrlBytes dataSlots : Nat) :
    Except TryReserveError (Layout × Nat) := do
  if ctrlBytes = 0 ∧ dataSlots = 0 then
    return (⟨0, cacheLine⟩, 0)
  let ctrlLayout ← Layout.fromSizeAlign ctrlBytes cacheLine
  let dataLayout ← Layout.array slotSize slotAlign dataSlots
  let (arenaLayout, dataBaseOff) ← ctrlLayout.extend dataLayout
  return (arenaLayout.padToAlign, dataBaseOff)

def layoutFor (slotSize slotAlign totalCtrl : Nat) : Except TryReserveError (Layout × Nat) :=
  layoutForExtents slotSize slotAlign totalCtrl totalCtrl

/-- Appends the metadata tail for `totalSlots` to `base`: the arena's layout and the word count. -/
def extendMembership (base : Layout) (totalSlots : Nat) : Except TryReserveError (Layout × Nat) := do
  let words := Membership.wordCount totalSlots
  if words = 0 then
    return (base, 0)
  let tail ← Layout.array 16 8 words
  let (layout, _) ← base.extend tail
  return (layout.padToAlign, words)

theorem extendMembership_words {base : Layout} {n : Nat} {p : Layout × Nat}
    (h : extendMembership base n = .ok p) : p.2 = Membership.wordCount n := by
  unfold extendMembership at h
  dsimp only at h
  split at h
  · rename_i hw
    cases h
    exact hw.symm
  · obtain ⟨tail, -, h⟩ := bind_ok h
    obtain ⟨⟨layout, offset⟩, -, h⟩ := bind_ok h
    cases h
    rfl

end Arena

/-- Offsets of the next region in an arena, in `u32` as the code keeps them. -/
structure LayoutCursor where
  ctrlOff : Nat
  dataOff : Nat
  slotSize : Nat
  deriving DecidableEq, Repr

namespace LayoutCursor

def checkedU32 (n : Nat) : Except TryReserveError Nat :=
  if n ≤ u32Max then .ok n else .error .capacityOverflow

def new (slotSize dataBaseOff : Nat) : Except TryReserveError LayoutCursor := do
  let dataOff ← checkedU32 dataBaseOff
  let slotSize ← checkedU32 slotSize
  return ⟨0, dataOff, slotSize⟩

def reserve (c : LayoutCursor) (cap : Nat) : Except TryReserveError LayoutCursor := do
  let ctrlOff ← checkedU32 (c.ctrlOff + cap)
  let dataBytes ← checkedU32 (cap * c.slotSize)
  let dataOff ← checkedU32 (c.dataOff + dataBytes)
  return { c with ctrlOff, dataOff }

end LayoutCursor

structure Region (E : Type) where
  capacity : Nat
  ctrl : Nat → UInt8
  slot : Nat → Option E

namespace Region

variable {E : Type}

def empty (capacity : Nat) : Region E := ⟨capacity, fun _ => ctrlEmpty, fun _ => none⟩

variable (r : Region E)

def setControl (i : Nat) (ctrl : UInt8) : Region E := { r with ctrl := Function.update r.ctrl i ctrl }

def markTombstone (i : Nat) : Region E := r.setControl i ctrlTombstone

def clearAllControls : Region E :=
  { r with ctrl := fun i => if i < r.capacity then ctrlEmpty else r.ctrl i }

def writeWithControl (i : Nat) (e : E) (ctrl : UInt8) : Region E :=
  { r with ctrl := Function.update r.ctrl i ctrl, slot := Function.update r.slot i (some e) }

def setSlot (i : Nat) (e : E) : Region E := { r with slot := Function.update r.slot i (some e) }

def view (i : Nat) : Option E := if isOccupied (r.ctrl i) then r.slot i else none

def entries : List E := (List.range r.capacity).filterMap r.view

def tombstoneCount : Nat := (List.range r.capacity).countP (fun i => r.ctrl i = ctrlTombstone)

end Region

/-- Cursor of a group scan. The cached mask is the ascending list of lanes still to yield. -/
structure OccupiedIndices where
  currentGroupSlot : Nat
  currentMask : List Nat
  deriving DecidableEq, Repr

namespace OccupiedIndices

variable {E : Type}

/-- The first group load moves the slot from `0 - GROUP_SIZE` to `0`. -/
def new (group : GroupBackend) : OccupiedIndices := ⟨2 ^ 64 - group.groupSize, []⟩

def occupiedMask (group : GroupBackend) (padded : Bool) (r : Region E) (start : Nat) : List Nat :=
  let lanes := if padded then group.groupSize else min group.groupSize (r.capacity - start)
  (List.range lanes).filter (fun lane => isOccupied (r.ctrl (start + lane)))

def stepFuel (group : GroupBackend) (padded : Bool) (r : Region E) :
    Nat → OccupiedIndices → Option Nat × OccupiedIndices
  | 0, c => (none, c)
  | fuel + 1, c =>
    match c.currentMask with
    | bit :: mask => (some (c.currentGroupSlot + bit), { c with currentMask := mask })
    | [] =>
      let nextGroup := (c.currentGroupSlot + group.groupSize) % 2 ^ 64
      if nextGroup ≥ r.capacity then (none, c)
      else stepFuel group padded r fuel ⟨nextGroup, occupiedMask group padded r nextGroup⟩

/-- Each pass of the loop yields, ends, or loads a later group of the region. -/
def step (group : GroupBackend) (padded : Bool) (r : Region E) (c : OccupiedIndices) :
    Option Nat × OccupiedIndices :=
  stepFuel group padded r (r.capacity + 2) c

end OccupiedIndices

/-- `while let Some(slot) = scan.step(region) { body }`, on a region of the state. -/
def scanWhile {ε σ E α : Type} (group : GroupBackend) (padded : Bool) (region : σ → Region E)
    (body : α → Nat → Exec ε σ α) : Nat → OccupiedIndices → α → Exec ε σ α
  | 0, _, a => pure a
  | fuel + 1, c, a => do
    let s ← Exec.get
    match OccupiedIndices.step group padded (region s) c with
    | (none, _) => pure a
    | (some slot, c) =>
      let a ← body a slot
      scanWhile group padded region body fuel c a

def forOccupied {ε σ E α : Type} (group : GroupBackend) (padded : Bool) (region : σ → Region E)
    (body : α → Nat → Exec ε σ α) (a : α) : Exec ε σ α := do
  let s ← Exec.get
  scanWhile group padded region body ((region s).capacity + 1) (.new group) a

namespace Region

variable {σ E : Type}

def getRef (r : Region E) (i : Nat) : Exec Panic σ E :=
  Exec.expect (.internal "read of an uninitialised slot") (r.slot i)

end Region

def occupiedSlotsFrom {E : Type} (group : GroupBackend) (padded : Bool) (r : Region E) :
    Nat → OccupiedIndices → List Nat
  | 0, _ => []
  | fuel + 1, c =>
    match OccupiedIndices.step group padded r c with
    | (none, _) => []
    | (some slot, c) => slot :: occupiedSlotsFrom group padded r fuel c

def occupiedSlots {E : Type} (group : GroupBackend) (padded : Bool) (r : Region E) : List Nat :=
  occupiedSlotsFrom group padded r (r.capacity + 1) (.new group)

section Entries

variable {W K V : Type} (group : GroupBackend) (padded : Bool) (u : User W K V)

/-- `drop_rest`: a destructor that panics does not stop the walk, and a second panic aborts. -/
def dropRest : List (Region (K × V) × Nat) → Exec Panic (World W K V) Unit
  | [] => pure ()
  | (region, slot) :: rest => do
    let entry ← region.getRef slot
    Exec.guarded .abort (u.dropEntry entry) (dropRest rest)
    dropRest rest

def dropValues (regions : List (Region (K × V))) : Exec Panic (World W K V) Unit :=
  if u.needsDrop then
    dropRest u (regions.flatMap fun region =>
      (occupiedSlots group padded region).map fun slot => (region, slot))
  else pure ()

/-- Clones each occupied slot of `src`, then copies every control byte. -/
def cloneRegionFrom (src : Region (K × V)) : Exec Panic (Region (K × V) × World W K V) Unit := do
  let (dst, _) ← Exec.get
  if src.capacity ≠ dst.capacity then Exec.raise (.internal "clone dst must match src")
  (occupiedSlots group padded src).forM fun slot => do
    let entry ← src.getRef slot
    let cloned ← Exec.onSnd (u.cloneEntry entry)
    Exec.modify fun s => (s.1.writeWithControl slot cloned (src.ctrl slot), s.2)
  Exec.modify fun s =>
    ({ s.1 with ctrl := fun i => if i < src.capacity then src.ctrl i else s.1.ctrl i }, s.2)

def copyMembershipFrom (dst src : MembershipRegion) : Exec Panic (World W K V) MembershipRegion :=
  if dst.words ≠ src.words then Exec.raise (.internal "membership regions must match")
  else pure ⟨dst.words, src.word⟩

end Entries

end Opthash
