import Opthash.Shell.Invariance
import Opthash.Shell.Refinement

namespace Opthash

open Exec FiniteMap

variable {W K V : Type} {u : User W K V} {hash : K → UInt64} {eqv : K → K → Bool}

def User.Granting (u : User W K V) : Prop := ∀ layout code, (u.allocate layout code).1 = true

theorem User.Calm.obliging (hcalm : u.Calm) (hgrant : u.Granting) : u.Obliging fun _ => True :=
  ⟨fun k code _ => hcalm.hashOne k code, fun layout code _ => ⟨hgrant layout code, trivial⟩⟩

namespace HashMap

variable {b : TableBackend W K V} {R : Reading b.Table b.Location b.Vacant b.Scan K V} {room : Room b} {I : b.Table → Prop}
  {t : b.Table} {w : World W K V} {op : Op K V}

/-- `room` tells what overflows: where `I` holds and no allocation is refused, nothing else runs out. -/
structure Funded (R : Reading b.Table b.Location b.Vacant b.Scan K V) (u : User W K V) (room : Room b) (I : b.Table → Prop) :
    Prop where
  maintains : Maintains R u (fun _ => True) Room.any I
  solvent : u.Obliging (fun _ => True) → Maintains R u Panic.Solvent room I

/-- Memory lasts for the call: no allocation is refused, and no size that it asks for overflows. -/
structure Lasting (R : Reading b.Table b.Location b.Vacant b.Scan K V) (u : User W K V) (room : Room b) (eqv : K → K → Bool)
    (t : b.Table) (op : Op K V) : Prop where
  granting : u.Granting
  affords : room.Affords (fun key => find eqv key (R.entries t) = none) t op

theorem Lasting.of_lt (hgrant : u.Granting) (hlt : b.len t < b.capacity t) (hreserves : ¬op.Reserves)
    (hshrinks : ¬op.Shrinks) : Lasting R u room eqv t op where
  granting := hgrant
  affords := {
    grows := fun _ _ _ hfull => absurd hlt (Nat.not_lt.mpr hfull)
    reserves := by
      rintro n rfl
      exact absurd trivial hreserves
    shrinks := by
      rintro n rfl
      exact absurd trivial hshrinks }

theorem wp_step_exhausted (hc : Contract R u) (hcalm : u.Calm) (hw : R.Wf t) (hplain : op.Plain eqv) :
    wp (step b u op) (fun _ _ => True) (fun p _ => p.Exhausted) (t, w) := by
  refine wp_mono (wp_step (κ := fun _ => 0) hc hw op) (fun _ _ _ => trivial) ?_
  rintro p s ⟨hblamed, -⟩
  have hnone : ¬(¬u.Calm ∨ ¬op.Returning) := not_or.mpr ⟨not_not.mpr hcalm, not_not.mpr hplain.1⟩
  cases hblamed with
  | user h => exact absurd h hnone
  | abort h => exact absurd h hnone
  | exhausted h => exact h

theorem wp_step_lasting (hc : Contract R u) (hf : Funded R u room I) (hcalm : u.Calm) (hl : u.Lawful hash eqv)
    (hs : Stores R u eqv t) (hplain : op.Plain eqv) :
    wp (step b u op) (fun _ s => I t → I s.1) (fun p _ => p.Exhausted ∧ (I t → ¬Lasting R u room eqv t op)) (t, w) := by
  have hexhausted := wp_step_exhausted (w := w) hc hcalm hs.wf hplain
  by_cases hi : I t
  · have hkeeps := upheld_step (w := w) hf.maintains hs.wf hi hc (Room.affords_any _ _ op)
    by_cases hlasting : Lasting R u room eqv t op
    · have hroom : room.Affords (Absent R u t) t op := {
        grows := fun key hsought habsent => hlasting.affords.grows key hsought (habsent.find hc hl hs)
        reserves := hlasting.affords.reserves
        shrinks := hlasting.affords.shrinks }
      have hsolvent := upheld_step (w := w) (hf.solvent (hcalm.obliging hlasting.granting)) hs.wf hi hc hroom
      exact wp_mono (wp_and hexhausted hsolvent) (fun _ _ h _ => h.2) fun _ _ h => absurd h.1 h.2.1.not_exhausted
    · exact wp_mono (wp_and hexhausted hkeeps) (fun _ _ h _ => h.2) fun _ _ h => ⟨h.1, fun _ => hlasting⟩
  · exact wp_mono hexhausted (fun _ _ _ h => absurd h hi) fun _ _ h => ⟨h, fun h' => absurd h' hi⟩

end HashMap

end Opthash
