import Mathlib.Logic.Function.Basic
import Mathlib.Tactic.Common

/-!
# Circular arrays

`Ring.Holds blank n slots start l`: of the `n` slots of a circular array those
from the slot `start % n` on hold the list `l`, and all others are blank. The
start only grows; the slots are counted modulo `n`.
-/

namespace LinuxDevelopment.Ring

variable {α : Type} {blank a : α} {n start : Nat} {slots : Nat → α} {l : List α}

/-- Two slots less than a round apart are different ones. -/
theorem mod_ne_mod {i j : Nat} (hij : i < j) (hj : j < i + n) : i % n ≠ j % n := by
  intro heq
  have hdvd : n ∣ j - i := Nat.dvd_of_mod_eq_zero (Nat.sub_mod_eq_zero_of_mod_eq heq.symm)
  have hle := Nat.le_of_dvd (by omega) hdvd
  omega

/-- The slots from `start` on hold the list, the others are blank. -/
structure Holds (blank : α) (n : Nat) (slots : Nat → α) (start : Nat) (l : List α) : Prop where
  le : l.length ≤ n
  live : ∀ i < l.length, l[i]? = some (slots ((start + i) % n))
  rest : ∀ i, l.length ≤ i → i < n → slots ((start + i) % n) = blank

namespace Holds

theorem empty (blank : α) (n start : Nat) : Holds blank n (fun _ => blank) start [] :=
  ⟨Nat.zero_le n, fun i hi => absurd hi (Nat.not_lt_zero i), fun _ _ _ => rfl⟩

/-- The slot behind the last element is blank. -/
theorem slot_blank (h : Holds blank n slots start l) (hl : l.length < n) :
    slots ((start + l.length) % n) = blank :=
  h.rest l.length (Nat.le_refl _) hl

theorem push (h : Holds blank n slots start l) (hl : l.length < n) (a : α) :
    Holds blank n (Function.update slots ((start + l.length) % n) a) start (l ++ [a]) where
  le := by
    rw [List.length_append, List.length_singleton]
    exact hl
  live := by
    intro i hi
    rw [List.length_append, List.length_singleton] at hi
    rcases Nat.lt_succ_iff_lt_or_eq.mp hi with hlt | rfl
    · have hne : (start + i) % n ≠ (start + l.length) % n := mod_ne_mod (by omega) (by omega)
      rw [Function.update_of_ne hne, List.getElem?_append_left hlt]
      exact h.live i hlt
    · rw [Function.update_self, List.getElem?_concat_length]
  rest := by
    intro i hi hn
    rw [List.length_append, List.length_singleton] at hi
    have hne : (start + i) % n ≠ (start + l.length) % n :=
      (mod_ne_mod (by omega) (by omega)).symm
    rw [Function.update_of_ne hne]
    exact h.rest i (by omega) hn

theorem pop (h : Holds blank n slots start (a :: l)) :
    Holds blank n (Function.update slots (start % n) blank) (start + 1) l := by
  have hle := h.le
  rw [List.length_cons] at hle
  refine ⟨by omega, ?_, ?_⟩
  · intro i hi
    have hne : (start + 1 + i) % n ≠ start % n := (mod_ne_mod (by omega) (by omega)).symm
    have hlive := h.live (i + 1) (by rw [List.length_cons]; omega)
    rw [Function.update_of_ne hne, ← List.getElem?_cons_succ (a := a), hlive]
    congr 3
    omega
  · intro i hi hn
    rcases Nat.lt_or_ge (i + 1) n with hlt | hge
    · have hne : (start + 1 + i) % n ≠ start % n := (mod_ne_mod (by omega) (by omega)).symm
      have hrest := h.rest (i + 1) (by rw [List.length_cons]; omega) hlt
      rw [Function.update_of_ne hne, ← hrest]
      congr 2
      omega
    · -- the slot that has become free closes the round
      have hround : (start + 1 + i) % n = start % n := by
        rw [show start + 1 + i = start + n by omega, Nat.add_mod_right]
      rw [hround, Function.update_self]

end Holds

end LinuxDevelopment.Ring
