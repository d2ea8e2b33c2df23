import Mathlib.Data.List.Perm.Basic
import Mathlib.Tactic.Common

/-!
# Calls that have taken effect and calls that are open

A concurrent run is compared with a sequential one by the order in which its
calls take effect. The calls made so far are those that have taken effect, in
this order, and those that are still open, at most one of each task. When no
call is open, the order is one of all calls that were made.
-/

namespace LinuxDevelopment

variable {α : Type} {made settled : List (Nat × α)} {isOpen isOpen' : Nat → α → Prop} {tid : Nat}
  {a : α}

/-- The calls `settled` have taken effect, in this order; all others that were
made are open. -/
def Settles (made settled : List (Nat × α)) (isOpen : Nat → α → Prop) : Prop :=
  ∃ rest : List (Nat × α), made.Perm (settled ++ rest) ∧ (rest.map Prod.fst).Nodup ∧
    ∀ u b, (u, b) ∈ rest ↔ isOpen u b

namespace Settles

theorem nil (hnone : ∀ u b, ¬ isOpen u b) : Settles [] [] isOpen :=
  ⟨[], .refl _, List.nodup_nil, fun u b => by simpa using hnone u b⟩

theorem congr (h : Settles made settled isOpen) (hopen : ∀ u b, isOpen' u b ↔ isOpen u b) :
    Settles made settled isOpen' := by
  obtain ⟨rest, hperm, hnodup, hrest⟩ := h
  exact ⟨rest, hperm, hnodup, fun u b => (hrest u b).trans (hopen u b).symm⟩

/-- An idle task makes a call. -/
theorem start (h : Settles made settled isOpen) (hidle : ∀ b, ¬ isOpen tid b)
    (hopen : ∀ u b, isOpen' u b ↔ u = tid ∧ b = a ∨ isOpen u b) :
    Settles ((tid, a) :: made) settled isOpen' := by
  obtain ⟨rest, hperm, hnodup, hrest⟩ := h
  refine ⟨(tid, a) :: rest, ?_, ?_, fun u b => ?_⟩
  · exact (hperm.cons _).trans List.perm_middle.symm
  · refine List.nodup_cons.mpr ⟨fun hmem => ?_, hnodup⟩
    obtain ⟨⟨u, b⟩, hub, rfl⟩ := List.mem_map.mp hmem
    exact hidle b ((hrest _ _).mp hub)
  · rw [hopen, List.mem_cons, Prod.mk.injEq, hrest]

/-- An open call takes effect. -/
theorem settle (h : Settles made settled isOpen) (ha : isOpen tid a)
    (hopen : ∀ u b, isOpen' u b ↔ u ≠ tid ∧ isOpen u b) :
    Settles made (settled ++ [(tid, a)]) isOpen' := by
  obtain ⟨rest, hperm, hnodup, hrest⟩ := h
  obtain ⟨l, k, rfl⟩ := List.append_of_mem ((hrest tid a).mpr ha)
  have hmid : ((l ++ (tid, a) :: k).map Prod.fst).Perm (tid :: (l ++ k).map Prod.fst) :=
    List.perm_middle.map Prod.fst
  obtain ⟨hnot, hnodup⟩ := List.nodup_cons.mp (hmid.nodup hnodup)
  refine ⟨l ++ k, ?_, hnodup, fun u b => ?_⟩
  · rw [List.append_assoc]
    exact hperm.trans (List.Perm.append_left settled List.perm_middle)
  · rw [hopen, ← hrest, List.perm_middle.mem_iff, List.mem_cons]
    constructor
    · intro hmem
      refine ⟨?_, .inr hmem⟩
      rintro rfl
      exact hnot (List.mem_map.mpr ⟨_, hmem, rfl⟩)
    · rintro ⟨hne, heq | hmem⟩
      · exact absurd (Prod.mk.inj heq).1 hne
      · exact hmem

/-- The order may be changed. -/
theorem reorder (h : Settles made settled isOpen) {settled' : List (Nat × α)}
    (hperm : settled.Perm settled') : Settles made settled' isOpen := by
  obtain ⟨rest, hmade, hnodup, hrest⟩ := h
  exact ⟨rest, hmade.trans (hperm.append_right rest), hnodup, hrest⟩

/-- Every call that was made has taken effect when none is open. -/
theorem perm (h : Settles made settled isOpen) (hnone : ∀ u b, ¬ isOpen u b) :
    made.Perm settled := by
  obtain ⟨rest, hperm, -, hrest⟩ := h
  obtain rfl : rest = [] :=
    List.eq_nil_iff_forall_not_mem.mpr fun x hx => hnone x.1 x.2 ((hrest _ _).mp hx)
  rwa [List.append_nil] at hperm

end Settles

end LinuxDevelopment
