import Opthash.Lib.Iterators
import Opthash.Map

namespace Opthash

inductive Side
  | left
  | right
  deriving DecidableEq

def Side.other : Side → Side
  | left => right
  | right => left

namespace HashSet

section Methods

variable {W T : Type} (b : TableBackend W T Unit) (u : User W T Unit)

def contains (value : T) : HashMap.Step b Bool := HashMap.containsKey b u value

/-- `make` is what the closure returns for `value`, `none` when it panics. -/
def getOrInsertWith (value : T) (make : Option T) : HashMap.Step b T := HashMap.getOrInsertWith b u value () make

def insert (value : T) : HashMap.Step b Bool := do
  let old ← HashMap.insert b u value ()
  pure old.isNone

def remove (value : T) : HashMap.Step b Bool := do
  let removed ← HashMap.remove b u value
  pure removed.isSome

def searchOrClone (value : T) : HashMap.Step b (b.Location ⊕ T × b.Vacant) := do
  let hash ← Exec.onSnd (u.hash value)
  match ← b.findForEntry value hash with
  | .inl loc => pure (.inl loc)
  | .inr vacant => do
    let made ← Exec.onSnd (u.cloneK value)
    pure (.inr (made, vacant))

/-- `get_or_insert_with(value, T::clone)`. -/
def getOrInsertClone (value : T) : HashMap.Step b T := do
  match ← Exec.guarded .abort (searchOrClone b u value) (Exec.onSnd (u.dropV ())) with
  | .inl loc => do
    Exec.onSnd (u.dropV ())
    let entry ← HashMap.slotEntry b loc
    pure entry.1
  | .inr (made, vacant) => do
    let loc ← b.insertForVacant made () vacant
    let entry ← HashMap.slotEntry b loc
    pure entry.1

end Methods

section Pairs

variable {W T : Type} (b : Side → TableBackend W T Unit) (u : Side → User W T Unit)

abbrev Sets : Type := (side : Side) → (b side).Table

abbrev Both (α : Type) : Type := Exec Panic (Sets b × World W T Unit) α

def within (side : Side) {α : Type} (c : HashMap.Step (b side) α) : Both b α :=
  Exec.zoom (fun s => (s.1 side, s.2)) (fun p s => (Function.update s.1 side p.1, p.2)) c

structure Iter where
  side : Side
  scan : (b side).Scan
  remaining : Nat

def iter (ts : Sets b) (side : Side) : Iter b := ⟨side, (b side).scan (ts side), (b side).len (ts side)⟩

def Iter.next (i : Iter b) : Both b (Option T × Iter b) := do
  let (ts, _) ← Exec.get
  match (b i.side).scanNext (ts i.side) i.scan with
  | (none, scan) => pure (none, { i with scan })
  | (some loc, scan) => do
    let entry ← within b i.side (HashMap.slotEntry (b i.side) loc)
    pure (some entry.1, { i with scan, remaining := wrappingDec usizeMax i.remaining })

def iterator : Iterator Panic (Sets b × World W T Unit) (Iter b) T where
  next := Iter.next b
  sizeHint := fun i => (i.remaining, some i.remaining)

/-- A scan visits each slot at most once. -/
def fuel (ts : Sets b) (side : Side) : Nat := (b side).totalSlots (ts side) + 1

def testMembership (side : Side) (present : Bool) (value : T) : Both b Bool := do
  let found ← within b side.other (contains (b side.other) (u side.other) value)
  pure (found == present)

def nextByMembership (i : Iter b) (present : Bool) : Both b (Option T × Iter b) := do
  let (ts, _) ← Exec.get
  (iterator b).find (testMembership b u i.side present) (fuel b ts i.side) i

def membershipIterator (present : Bool) : Iterator Panic (Sets b × World W T Unit) (Iter b) T where
  next := fun i => nextByMembership b u i present
  sizeHint := fun i => (0, ((iterator b).sizeHint i).2)

def differenceIterator : Iterator Panic (Sets b × World W T Unit) (Iter b) T := membershipIterator b u false

def intersectionIterator : Iterator Panic (Sets b × World W T Unit) (Iter b) T := membershipIterator b u true

def symmetricDifferenceIterator : Iterator Panic (Sets b × World W T Unit) (Chain (Iter b) (Iter b)) T :=
  .chain usizeMax (differenceIterator b u) (differenceIterator b u)

def unionIterator : Iterator Panic (Sets b × World W T Unit) (Chain (Iter b) (Iter b)) T :=
  .chain usizeMax (iterator b) (differenceIterator b u)

def difference (ts : Sets b) (side : Side) : Iter b := iter b ts side

def symmetricDifference (ts : Sets b) (side : Side) : Chain (Iter b) (Iter b) :=
  ⟨some (difference b ts side), some (difference b ts side.other)⟩

def bySize (ts : Sets b) (side : Side) : Side × Side :=
  if (b side).len (ts side) ≤ (b side.other).len (ts side.other) then (side, side.other) else (side.other, side)

def intersection (ts : Sets b) (side : Side) : Iter b := iter b ts (bySize b ts side).1

def union (ts : Sets b) (side : Side) : Chain (Iter b) (Iter b) :=
  ⟨some (iter b ts (bySize b ts side).2), some (difference b ts (bySize b ts side).1)⟩

def isDisjoint (side : Side) : Both b Bool := do
  let (ts, _) ← Exec.get
  let (value, _) ← (intersectionIterator b u).next (intersection b ts side)
  pure value.isNone

def allContained (side : Side) : Both b Bool := do
  let (ts, _) ← Exec.get
  (iterator b).all (fun value => within b side.other (contains (b side.other) (u side.other) value)) (fuel b ts side)
    (iter b ts side)

def isSubset (side : Side) : Both b Bool := do
  let (ts, _) ← Exec.get
  if (b side).len (ts side) ≤ (b side.other).len (ts side.other) then allContained b u side else pure false

def isSuperset (side : Side) : Both b Bool := isSubset b u side.other

def eq (side : Side) : Both b Bool := do
  let (ts, _) ← Exec.get
  if (b side).len (ts side) = (b side.other).len (ts side.other) then allContained b u side else pure false

section Retain

variable (side : Side)

/-- The loop of `next_matching`, for a predicate that runs code of its own and leaves the unit value as it is. -/
def nextMatchingFrom (pred : T → Both b Bool) :
    Nat → Exec Panic (ExtractScan (b side).Scan T Unit × Sets b × World W T Unit) (Option (T × Unit))
  | 0 => pure none
  | fuel + 1 => do
    let (x, ts, _) ← Exec.get
    match (b side).scanNext (ts side) x.scan with
    | (none, scan) => do
      Exec.modify fun s => ({ s.1 with scan, finished := true }, s.2)
      Exec.onSnd (within b side (b side).finishDeferredRemovals)
      pure none
    | (some loc, scan) => do
      Exec.modify fun s => ({ s.1 with scan }, s.2)
      let entry ← Exec.onSnd (within b side (HashMap.slotEntry (b side) loc))
      Exec.onSnd (within b side (Exec.modify fun s => ((b side).writeValue loc entry.1 () s.1, s.2)))
      let matched ← Exec.onSnd (pred entry.1)
      if matched then do
        Exec.onSnd (within b side (Exec.modify fun s => ((b side).extractFinish loc s.1, s.2)))
        pure (some entry)
      else nextMatchingFrom pred fuel

def nextMatching (pred : T → Both b Bool) :
    Exec Panic (ExtractScan (b side).Scan T Unit × Sets b × World W T Unit) (Option (T × Unit)) := do
  let (x, ts, _) ← Exec.get
  if x.finished then pure none else nextMatchingFrom b side pred (fuel b ts side)

def dropMatching (pred : T → Both b Bool) :
    Nat → Exec Panic (ExtractScan (b side).Scan T Unit × Sets b × World W T Unit) Unit
  | 0 => pure ()
  | fuel + 1 => do
    match ← nextMatching b side pred with
    | none => pure ()
    | some entry => do
      Exec.onSnd (Exec.onSnd ((u side).dropEntry entry))
      dropMatching pred fuel

def dropExtractScan : Exec Panic (ExtractScan (b side).Scan T Unit × Sets b × World W T Unit) Unit := do
  let (x, _) ← Exec.get
  if x.finished then pure () else Exec.onSnd (within b side (b side).finishDeferredRemovals)

/-- `retain`, for a closure that consults the other set. -/
def retain (f : T → Both b Bool) : Both b Unit := do
  let (ts, _) ← Exec.get
  let (_, _) ← Exec.withLocal (⟨(b side).scan (ts side), false, []⟩ : ExtractScan (b side).Scan T Unit) do
    Exec.guarded .abort (dropMatching b u side (fun value => (!·) <$> f value) (fuel b ts side))
      (dropExtractScan b side)
    dropExtractScan b side
  pure ()

end Retain

/-- `for value in rhs`, where `rhs` is the set on the other side. -/
def forOther (side : Side) (body : T → Both b Unit) : Both b Unit := do
  let (ts, _) ← Exec.get
  (iterator b).forEach body (fuel b ts side.other) (iter b ts side.other)

def bitorAssign (side : Side) : Both b Unit :=
  forOther b side fun value => do
    let _ ← within b side (getOrInsertClone (b side) (u side) value)
    pure ()

def bitandAssign (side : Side) : Both b Unit := retain b u side (testMembership b u side true)

def bitxorAssign (side : Side) : Both b Unit :=
  forOther b side fun value => do
    let removed ← within b side (remove (b side) (u side) value)
    if removed then pure ()
    else do
      let copy ← Exec.onSnd ((u side).cloneK value)
      let _ ← within b side (insert (b side) (u side) copy)
      pure ()

def subAssign (side : Side) : Both b Unit := do
  let (ts, _) ← Exec.get
  if (b side.other).len (ts side.other) < (b side).len (ts side) then
    forOther b side fun value => do
      let _ ← within b side (remove (b side) (u side) value)
      pure ()
  else retain b u side (testMembership b u side false)

inductive Assign
  | bitor
  | bitand
  | bitxor
  | sub
  deriving DecidableEq

def assign (side : Side) : Assign → Both b Unit
  | .bitor => bitorAssign b u side
  | .bitand => bitandAssign b u side
  | .bitxor => bitxorAssign b u side
  | .sub => subAssign b u side

end Pairs

end HashSet

end Opthash
