import Mathlib.Data.List.Nodup
import Mathlib.Logic.Function.Basic
import Mathlib.Tactic.Common

/-!
# Chains of pointers

`Chain next a xs z`: following `next` from `a` one meets the nodes `xs`, one after
the other, and then `z`. A list in the heap is a chain to the null pointer, and a
part of it is a chain to one of its nodes.
-/

namespace LinuxDevelopment

variable {α : Type} {next : α → α} {a b v x z : α} {xs ys : List α}

/-- Following `next` from `a` one meets the nodes of the list and then `z`. -/
def Chain (next : α → α) : α → List α → α → Prop
  | a, [], z => a = z
  | a, x :: xs, z => a = x ∧ Chain next (next x) xs z

namespace Chain

theorem append_iff :
    Chain next a (xs ++ ys) z ↔ ∃ m, Chain next a xs m ∧ Chain next m ys z := by
  induction xs generalizing a with
  | nil =>
      constructor
      · intro h
        exact ⟨a, rfl, h⟩
      · rintro ⟨m, rfl, h⟩
        exact h
  | cons x xs ih =>
      constructor
      · rintro ⟨hx, h⟩
        obtain ⟨m, hxs, hys⟩ := ih.mp h
        exact ⟨m, ⟨hx, hxs⟩, hys⟩
      · rintro ⟨m, ⟨hx, hxs⟩, hys⟩
        exact ⟨hx, ih.mpr ⟨m, hxs, hys⟩⟩

theorem concat_iff : Chain next a (xs ++ [x]) z ↔ Chain next a xs x ∧ next x = z := by
  rw [append_iff]
  constructor
  · rintro ⟨m, hxs, rfl, hz⟩
    exact ⟨hxs, hz⟩
  · rintro ⟨hxs, hz⟩
    exact ⟨x, hxs, rfl, hz⟩

/-- A pointer outside the chain does not matter. -/
theorem update [DecidableEq α] (h : Chain next a xs z) (hb : b ∉ xs) :
    Chain (Function.update next b v) a xs z := by
  induction xs generalizing a with
  | nil => exact h
  | cons x xs ih =>
      refine ⟨h.1, ?_⟩
      rw [Function.update_of_ne (List.ne_of_not_mem_cons hb).symm]
      exact ih h.2 (List.not_mem_of_not_mem_cons hb)

/-- A chain is empty exactly if it is at its end at once. -/
theorem eq_nil_iff (h : Chain next a xs z) (hz : z ∉ xs) : xs = [] ↔ a = z := by
  cases xs with
  | nil => exact iff_of_true rfl h
  | cons x xs =>
      refine iff_of_false (List.cons_ne_nil x xs) ?_
      rintro rfl
      exact hz (h.1 ▸ List.mem_cons_self)

/-- Behind a node comes another one, or it is the last. -/
theorem next_mem (h : Chain next a xs z) (hx : x ∈ xs) :
    next x ∈ xs ∨ next x = z ∧ ∃ ys, xs = ys ++ [x] := by
  induction xs generalizing a with
  | nil => cases hx
  | cons y xs ih =>
      have hrest := h.2
      rcases List.mem_cons.mp hx with rfl | hmem
      · cases xs with
        | nil => exact .inr ⟨hrest, [], rfl⟩
        | cons w xs => exact .inl (hrest.1 ▸ List.mem_cons_of_mem _ List.mem_cons_self)
      · rcases ih hrest hmem with hnext | ⟨hz, ys, rfl⟩
        · exact .inl (List.mem_cons_of_mem _ hnext)
        · exact .inr ⟨hz, y :: ys, rfl⟩

end Chain

end LinuxDevelopment
