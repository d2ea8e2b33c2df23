import Mathlib.Algebra.BigOperators.Group.Finset.Piecewise
import Mathlib.Tactic.Common

/-!
# Systems of guarded steps

A system takes labelled steps. A step is `none` when its guard fails, so one
function both replays a given schedule and generates the reachable states.
`Reaches C s t` restricts the runs to those whose steps all satisfy `C` in the
state they are taken from; `Reachable` is the unrestricted case. The states of
such systems often map each thread to a place; the last section counts the
threads at one place when a single thread moves.
-/

namespace LinuxDevelopment

variable {σ ℓ : Type} {step : σ → ℓ → Option σ} {C D : σ → ℓ → Prop} {P : σ → Prop} {s t u : σ}

/-- Replay a schedule. -/
def replay (step : σ → ℓ → Option σ) : List ℓ → σ → Option σ
  | [], s => some s
  | l :: ls, s => (step s l).bind (replay step ls)

theorem replay_append (ls ks : List ℓ) (s : σ) :
    replay step (ls ++ ks) s = (replay step ls s).bind (replay step ks) := by
  induction ls generalizing s with
  | nil => rfl
  | cons l ls ih =>
      simp only [List.cons_append, replay, Option.bind_assoc]
      congr 1
      funext t
      exact ih t

/-- A test of the state a schedule leads to. -/
theorem exists_of_replay_any {ls : List ℓ} {p : σ → Prop} [DecidablePred p]
    (h : (replay step ls s).any (fun t => decide (p t)) = true) :
    ∃ t, replay step ls s = some t ∧ p t := by
  cases hrun : replay step ls s with
  | none => simp [hrun] at h
  | some t => exact ⟨t, rfl, by simpa [hrun] using h⟩

/-- The state `t` is reached from `s` by steps that satisfy `C`. -/
inductive Reaches (step : σ → ℓ → Option σ) (C : σ → ℓ → Prop) (s : σ) : σ → Prop
  | refl : Reaches step C s s
  | next {t u : σ} {l : ℓ} (run : Reaches step C s t) (meets : C t l) (taken : step t l = some u) :
      Reaches step C s u

/-- The state `t` is reached from `s` by some steps. -/
def Reachable (step : σ → ℓ → Option σ) : σ → σ → Prop := Reaches step fun _ _ => True

namespace Reaches

theorem trans (h : Reaches step C s t) (k : Reaches step C t u) : Reaches step C s u := by
  induction k with
  | refl => exact h
  | next _ meets taken ih => exact ih.next meets taken

theorem mono (hCD : ∀ s l, C s l → D s l) (h : Reaches step C s t) : Reaches step D s t := by
  induction h with
  | refl => exact .refl
  | next _ meets taken ih => exact ih.next (hCD _ _ meets) taken

theorem reachable (h : Reaches step C s t) : Reachable step s t :=
  h.mono fun _ _ _ => trivial

/-- What holds at first and is kept by every step holds in every state of a
run. What is known of the run so far may be used for the step. -/
theorem invariant (h : Reaches step C s t) (init : P s)
    (keeps : ∀ {t u l}, Reaches step C s t → P t → C t l → step t l = some u → P u) : P t := by
  induction h with
  | refl => exact init
  | next run meets taken ih => exact keeps run ih meets taken

/-- A schedule of labels that always satisfy `C` leads to such a state. -/
theorem of_replay {ls : List ℓ} (hC : ∀ l ∈ ls, ∀ s, C s l) (h : replay step ls s = some t) :
    Reaches step C s t := by
  induction ls using List.reverseRecOn generalizing t with
  | nil =>
      obtain rfl := Option.some.inj h
      exact .refl
  | append_singleton ls l ih =>
      rw [replay_append] at h
      obtain ⟨u, hu, ht⟩ := Option.bind_eq_some_iff.mp h
      obtain ⟨v, hv, hvt⟩ := Option.bind_eq_some_iff.mp ht
      obtain rfl := Option.some.inj hvt
      have hrun := ih (fun k hk => hC k (List.mem_append_left _ hk)) hu
      exact hrun.next (hC l (by simp) u) hv

/-- A schedule that can be replayed with a test of `C` before every step leads
to a state reached by steps that satisfy `C`. -/
theorem append_replay (check : σ → ℓ → Bool) {ls : List ℓ}
    (hcheck : ∀ t l, Reaches step C s t → check t l = true → C t l) (h : Reaches step C s t)
    (hrun : replay (fun s l => if check s l then step s l else none) ls t = some u) :
    Reaches step C s u := by
  induction ls generalizing t with
  | nil =>
      obtain rfl := Option.some.inj hrun
      exact h
  | cons l ls ih =>
      obtain ⟨v, hv, hu⟩ := Option.bind_eq_some_iff.mp hrun
      obtain ⟨hl, hstep⟩ := Option.ite_none_right_eq_some.mp hv
      exact ih (h.next (hcheck t l h hl) hstep) hu

end Reaches

namespace Reachable

theorem next {l : ℓ} (h : Reachable step s t) (taken : step t l = some u) : Reachable step s u :=
  Reaches.next h trivial taken

theorem invariant (h : Reachable step s t) (init : P s)
    (keeps : ∀ {t u l}, P t → step t l = some u → P u) : P t :=
  Reaches.invariant h init fun _ ht _ hu => keeps ht hu

/-- A schedule that can be replayed leads to a reachable state. -/
theorem of_replay {ls : List ℓ} (h : replay step ls s = some t) : Reachable step s t :=
  Reaches.of_replay (fun _ _ _ => trivial) h

end Reachable

section Counting

variable {α β : Type} [DecidableEq α] [DecidableEq β]

/-- When `a` moves to `b`, the number of those at `c` drops by one if `a` was
there and rises by one if `b` is `c`. -/
theorem card_filter_update (s : Finset α) (f : α → β) {a : α} (ha : a ∈ s) (b c : β) :
    (s.filter fun x => Function.update f a b x = c).card + (if f a = c then 1 else 0) =
      (s.filter fun x => f x = c).card + (if b = c then 1 else 0) := by
  have hrest : ∑ x ∈ s.erase a, (if Function.update f a b x = c then 1 else 0) =
      ∑ x ∈ s.erase a, (if f x = c then 1 else 0) := by
    apply Finset.sum_congr rfl
    intro x hx
    rw [Function.update_of_ne (Finset.ne_of_mem_erase hx)]
  rw [Finset.card_filter, Finset.card_filter, ← Finset.add_sum_erase s _ ha,
    ← Finset.add_sum_erase s _ ha, hrest, Function.update_self]
  omega

end Counting

end LinuxDevelopment
