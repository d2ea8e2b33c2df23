import Mathlib.Algebra.Group.End
import Mathlib.Data.Fin.VecNotation
import Mathlib.Data.Int.ConditionallyCompleteOrder
import Mathlib.Data.List.FinRange
import Mathlib.Order.ConditionallyCompleteLattice.Basic
import Mathlib.Order.Fin.Basic

/-!
# bubble_sort.c

The two loops of `main` over an array of any length. The exchange takes the
entry `j` against the entry `i` of the outer loop, where a bubble sort takes its
neighbour `j + 1`. The entries are therefore only rearranged, the last one is
never moved, and the result need not be sorted. Only an array that is in order
at the start is certain to be in order at the end: every other one comes to the
exchange.
-/

namespace LinuxDevelopment.BubbleSort

variable {n : Nat}

/-- The body of the inner loop. Both loops stay below `N - 1`, so the neighbour
exists whenever the body is executed. -/
def compareExchange (i : Fin n) (data : Fin n → Int) (j : Nat) : Fin n → Int :=
  if h : j + 1 < n then
    if data ⟨j, Nat.lt_of_succ_lt h⟩ > data ⟨j + 1, h⟩ then
      data ∘ Equiv.swap i ⟨j, Nat.lt_of_succ_lt h⟩
    else data
  else data

/-- The first `k` iterations of the inner loop. -/
def innerLoop (i : Fin n) (data : Fin n → Int) : Nat → Fin n → Int
  | 0 => data
  | k + 1 => compareExchange i (innerLoop i data k) k

/-- The first `k` iterations of the outer loop. -/
def outerLoop (data : Fin n → Int) : Nat → Fin n → Int
  | 0 => data
  | k + 1 =>
      if h : k + 1 < n then innerLoop ⟨k, Nat.lt_of_succ_lt h⟩ (outerLoop data k) (n - 1)
      else outerLoop data k

/-- `data` when the loops of `main` end. -/
def main (data : Fin n → Int) : Fin n → Int := outerLoop data (n - 1)

/-- The array is in order at the end and has the entries it had at first. -/
def Sorts (data : Fin n → Int) : Prop :=
  Monotone (main data) ∧ (List.ofFn (main data)).Perm (List.ofFn data)

section Rearranged

/-- `d` is `data` with its entries rearranged; the last one is where it was. -/
def Rearranged (data d : Fin n → Int) : Prop :=
  ∃ σ : Equiv.Perm (Fin n), d = data ∘ σ ∧ ∀ l : Fin n, l.val + 1 = n → σ l = l

variable {data d : Fin n → Int} {i : Fin n}

theorem Rearranged.refl (data : Fin n → Int) : Rearranged data data :=
  ⟨1, rfl, fun _ _ => rfl⟩

/-- Neither partner of an exchange is the last entry. -/
theorem Rearranged.compareExchange (h : Rearranged data d) (hi : i.val + 1 < n) (j : Nat) :
    Rearranged data (compareExchange i d j) := by
  obtain ⟨σ, rfl, hlast⟩ := h
  unfold BubbleSort.compareExchange
  split_ifs with hj hgt
  · refine ⟨σ * Equiv.swap i ⟨j, Nat.lt_of_succ_lt hj⟩, rfl, fun l hl => ?_⟩
    have hli : l ≠ i := by
      rintro rfl
      omega
    have hlj : l ≠ ⟨j, Nat.lt_of_succ_lt hj⟩ := by
      rintro rfl
      exact absurd hl (Nat.ne_of_lt hj)
    rw [Equiv.Perm.mul_apply, Equiv.swap_apply_of_ne_of_ne hli hlj]
    exact hlast l hl
  · exact ⟨σ, rfl, hlast⟩
  · exact ⟨σ, rfl, hlast⟩

theorem Rearranged.innerLoop (h : Rearranged data d) (hi : i.val + 1 < n) (k : Nat) :
    Rearranged data (innerLoop i d k) := by
  induction k with
  | zero => exact h
  | succ k ih => exact ih.compareExchange hi k

theorem rearranged_outerLoop (data : Fin n → Int) (k : Nat) :
    Rearranged data (outerLoop data k) := by
  induction k with
  | zero => exact .refl data
  | succ k ih =>
      unfold outerLoop
      split_ifs with hk
      · exact ih.innerLoop hk _
      · exact ih

theorem rearranged_main (data : Fin n → Int) : Rearranged data (main data) :=
  rearranged_outerLoop data (n - 1)

/-- Whatever the exchanges are, no entry is lost. -/
theorem perm_main (data : Fin n → Int) : (List.ofFn (main data)).Perm (List.ofFn data) := by
  obtain ⟨σ, hσ, -⟩ := rearranged_main data
  rw [hσ]
  exact Equiv.Perm.ofFn_comp_perm σ data

theorem main_last (data : Fin n → Int) {l : Fin n} (hl : l.val + 1 = n) :
    main data l = data l := by
  obtain ⟨σ, hσ, hlast⟩ := rearranged_main data
  rw [hσ, Function.comp_apply, hlast l hl]

end Rearranged

section Sorted

variable {data : Fin n → Int}

/-- In a sorted array nothing is exchanged. -/
theorem compareExchange_of_monotone (h : Monotone data) (i : Fin n) (j : Nat) :
    compareExchange i data j = data := by
  unfold compareExchange
  split_ifs with hj hgt
  · exact absurd hgt (Int.not_lt.mpr (h (Nat.le_succ j)))
  · rfl
  · rfl

theorem innerLoop_of_monotone (h : Monotone data) (i : Fin n) (k : Nat) :
    innerLoop i data k = data := by
  induction k with
  | zero => rfl
  | succ k ih =>
      unfold innerLoop
      rw [ih]
      exact compareExchange_of_monotone h i k

theorem outerLoop_of_monotone (h : Monotone data) (k : Nat) : outerLoop data k = data := by
  induction k with
  | zero => rfl
  | succ k ih =>
      unfold outerLoop
      rw [ih]
      split_ifs
      · exact innerLoop_of_monotone h _ _
      · rfl

theorem sorts_of_monotone (h : Monotone data) : Sorts data := by
  refine ⟨?_, perm_main data⟩
  have hmain : main data = data := outerLoop_of_monotone h (n - 1)
  rwa [hmain]

/-- A sorted result needs the largest entry in the last place at the start. -/
theorem Sorts.le_last (h : Sorts data) {l : Fin n} (hl : l.val + 1 = n) (i : Fin n) :
    data i ≤ data l := by
  obtain ⟨σ, hσ, -⟩ := rearranged_main data
  have hle : main data (σ.symm i) ≤ main data l := h.1 (Fin.le_def.mpr (by omega))
  rwa [main_last data hl, hσ, Function.comp_apply, Equiv.apply_symm_apply] at hle

end Sorted

section Exchange

/-- In some iteration of the loops the entry `j` is larger than its neighbour, so that it
is exchanged for the entry `i`. -/
def Exchanges (data : Fin n → Int) : Prop :=
  ∃ (i j : Nat) (hi : i + 1 < n) (hj : j + 1 < n),
    innerLoop ⟨i, Nat.lt_of_succ_lt hi⟩ (outerLoop data i) j ⟨j, Nat.lt_of_succ_lt hj⟩ >
      innerLoop ⟨i, Nat.lt_of_succ_lt hi⟩ (outerLoop data i) j ⟨j + 1, hj⟩

/-- A pass without an exchange has seen the array as it was. -/
theorem innerLoop_of_le {data : Fin n → Int} {i : Fin n}
    (h : ∀ (j : Nat) (hj : j + 1 < n), innerLoop i data j ⟨j, Nat.lt_of_succ_lt hj⟩ ≤
      innerLoop i data j ⟨j + 1, hj⟩) (k : Nat) : innerLoop i data k = data := by
  induction k with
  | zero => rfl
  | succ k ih =>
      unfold innerLoop compareExchange
      split_ifs with hk hgt
      · exact absurd (h k hk) (Int.not_le.mpr hgt)
      · exact ih
      · exact ih

/-- The exchange is avoided by the arrays that are in order, and by no others: the first
pass compares all neighbours. -/
theorem exchanges_iff {n : Nat} {data : Fin (n + 1) → Int} :
    Exchanges data ↔ ¬ Monotone data := by
  constructor
  · rintro ⟨i, j, hi, hj, hgt⟩ hmono
    rw [outerLoop_of_monotone hmono, innerLoop_of_monotone hmono] at hgt
    exact absurd hgt (Int.not_lt.mpr (hmono (Nat.le_succ j)))
  · intro hmono
    by_contra hnone
    cases n with
    | zero =>
        refine hmono fun a b _ => ?_
        have hab : a = b := Fin.ext (by omega)
        rw [hab]
    | succ n =>
        have hle : ∀ (j : Nat) (hj : j + 1 < n + 2),
            innerLoop 0 data j ⟨j, Nat.lt_of_succ_lt hj⟩ ≤ innerLoop 0 data j ⟨j + 1, hj⟩ := by
          intro j hj
          exact Int.not_lt.mp fun hgt => hnone ⟨0, j, by omega, hj, hgt⟩
        refine hmono (Fin.monotone_iff_le_succ.mpr fun j => ?_)
        have hj := hle j.val (by omega)
        rwa [innerLoop_of_le hle] at hj

end Exchange

/-- An array in order comes out sorted, and every other one comes to the wrong exchange.
Whatever is exchanged, no entry is lost, and only an array with its largest entry in the
last place can come out in order. -/
theorem sorts_or_exchanges {n : Nat} (data : Fin (n + 1) → Int) :
    (Monotone data → Sorts data) ∧ (Exchanges data ↔ ¬ Monotone data) ∧
      (List.ofFn (main data)).Perm (List.ofFn data) ∧
      (Sorts data → ∀ i, data i ≤ data (Fin.last n)) :=
  ⟨sorts_of_monotone, exchanges_iff, perm_main data, fun h => h.le_last rfl⟩

/-- Two entries in the wrong order stay as they are: the only exchange of the
program is that of the first entry with itself. -/
theorem not_sorts_pair :
    (main ![2, 1] 0 = 2 ∧ main ![2, 1] 1 = 1) ∧ ¬ Sorts ![2, 1] := by
  refine ⟨by decide, fun h => ?_⟩
  have hle := h.le_last (l := 1) rfl 0
  exact absurd hle (by decide)

end LinuxDevelopment.BubbleSort
