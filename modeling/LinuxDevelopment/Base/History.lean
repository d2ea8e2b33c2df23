import LinuxDevelopment.Base.Transition

/-!
# Histories of a sequential object

A sequential object serves one entry after the other. A concurrent run is
explained by such an object when the entries it has decided, in the order of
the decisions, are a legal history of it. Each entry carries the task it
belongs to, so the entries of one task can be compared with the calls this
task has made.
-/

namespace LinuxDevelopment

variable {σ ε ℓ : Type}

/-- The entries lead the object from one state to another. -/
inductive Legal (serves : σ → ε → σ → Prop) (s : σ) : List ε → σ → Prop
  | nil : Legal serves s [] s
  | snoc {es : List ε} {e : ε} {t u : σ} (before : Legal serves s es t) (last : serves t e u) :
      Legal serves s (es ++ [e]) u

/-- The entries of one task. -/
def ofTask (t : Nat) (es : List (Nat × ε)) : List ε :=
  (es.filter fun e => e.1 == t).map Prod.snd

@[simp] theorem ofTask_append_self (t : Nat) (es : List (Nat × ε)) (e : ε) :
    ofTask t (es ++ [(t, e)]) = ofTask t es ++ [e] := by
  simp [ofTask]

theorem ofTask_append_of_ne {t u : Nat} (h : u ≠ t) (es : List (Nat × ε)) (e : ε) :
    ofTask t (es ++ [(u, e)]) = ofTask t es := by
  simp [ofTask, h]

theorem replay_snoc {step : σ → ℓ → Option σ} {s t u : σ} {ls : List ℓ} {l : ℓ}
    (h : replay step ls s = some t) (hl : step t l = some u) :
    replay step (ls ++ [l]) s = some u := by
  rw [replay_append, h, Option.bind_some]
  simp [replay, hl]

/-- What holds of the empty schedule and is kept by every further step holds of
every schedule that can be replayed. -/
theorem replay_invariant {step : σ → ℓ → Option σ} {s t : σ} {P : List ℓ → σ → Prop}
    {ls : List ℓ} (h : replay step ls s = some t) (init : P [] s)
    (keeps : ∀ {ls t u l}, replay step ls s = some t → P ls t → step t l = some u →
      P (ls ++ [l]) u) : P ls t := by
  induction ls using List.reverseRecOn generalizing t with
  | nil =>
      obtain rfl := Option.some.inj h
      exact init
  | append_singleton ls l ih =>
      rw [replay_append] at h
      obtain ⟨u, hu, ht⟩ := Option.bind_eq_some_iff.mp h
      obtain ⟨v, hv, hvt⟩ := Option.bind_eq_some_iff.mp ht
      obtain rfl := Option.some.inj hvt
      exact keeps hu (ih hu) hv

end LinuxDevelopment
