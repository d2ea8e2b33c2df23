import LinuxDevelopment.Base.Program

/-!
# Two runs of one program

Facts about two executions at once: the same program is performed in two
states, and what is asserted relates the two. `Lockstep` is the triple for
programs that return the same value in both states; where the values differ,
`Related` is used directly.
-/

namespace LinuxDevelopment

/-- Two executions end alike: with values and states that `Q` relates, or for
the same reason. -/
inductive Outcome.Related {σ ε α β : Type} (Q : α → β → σ → σ → Prop) :
    Outcome σ ε α → Outcome σ ε β → Prop
  | done {a : α} {b : β} {s t : σ} (h : Q a b s t) : Related Q (.done a s) (.done b t)
  | stuck (e : ε) {s t : σ} : Related Q (.stuck e s) (.stuck e t)

namespace Outcome.Related

variable {σ ε α β α' β' : Type} {Q R : α → β → σ → σ → Prop} {x : Outcome σ ε α}
  {y : Outcome σ ε β}

/-- When one of two executions that end alike returns, so does the other. -/
theorem of_done {a : α} {s : σ} (h : Related Q (.done a s) y) :
    ∃ b t, y = .done b t ∧ Q a b s t := by
  cases h with
  | done h => exact ⟨_, _, rfl, h⟩

theorem mono (h : Related Q x y) (hQR : ∀ a b s t, Q a b s t → R a b s t) : Related R x y := by
  cases h with
  | done hQ => exact .done (hQR _ _ _ _ hQ)
  | stuck e => exact .stuck e

theorem bind {S : α' → β' → σ → σ → Prop} {f : α → σ → Outcome σ ε α'}
    {g : β → σ → Outcome σ ε β'} (h : Related Q x y)
    (hf : ∀ a b s t, Q a b s t → Related S (f a s) (g b t)) :
    Related S (x.bind f) (y.bind g) := by
  cases h with
  | done hQ => exact hf _ _ _ _ hQ
  | stuck e => exact .stuck e

/-- Executions that end alike still do so where each of them goes the same way. -/
theorem transport {x' y' x₁ y₁ : Outcome σ ε α} {s t : σ}
    (h : Related (fun a b u v => a = b ∧ u = s ∧ v = s) x' y')
    (hx : Related (fun a b u v => a = b ∧ u = s ∧ v = t) x' x₁)
    (hy : Related (fun a b u v => a = b ∧ u = s ∧ v = t) y' y₁) :
    Related (fun a b u v => a = b ∧ u = t ∧ v = t) x₁ y₁ := by
  cases h with
  | done h =>
      obtain ⟨rfl, -, -⟩ := h
      obtain ⟨_, _, rfl, rfl, -, rfl⟩ := hx.of_done
      obtain ⟨_, _, rfl, rfl, -, rfl⟩ := hy.of_done
      exact .done ⟨rfl, rfl, rfl⟩
  | stuck e =>
      cases hx
      cases hy
      exact .stuck e

end Outcome.Related

namespace Prog

variable {Op : Type} {Res : Op → Type} {σ ε α β α' β' : Type}

section Related

variable (h : (o : Op) → σ → Outcome σ ε (Res o))

/-- The program `p` in the state `s` and `q` in the state `t` end alike. -/
def Related (Q : α → β → σ → σ → Prop) (p : Prog Res α) (q : Prog Res β) (s t : σ) : Prop :=
  Outcome.Related Q (run h p s) (run h q t)

variable {h} {Q R : α → β → σ → σ → Prop} {p : Prog Res α} {q : Prog Res β} {s t : σ}

theorem related_pure {a : α} {b : β} (hQ : Q a b s t) : Related h Q (pure a) (pure b) s t :=
  .done hQ

theorem related_of_run {a : α} {b : β} {u v : σ} (hp : run h p s = .done a u)
    (hq : run h q t = .done b v) (hQ : Q a b u v) : Related h Q p q s t := by
  unfold Related
  rw [hp, hq]
  exact .done hQ

theorem Related.mono (hp : Related h Q p q s t) (hQR : ∀ a b u v, Q a b u v → R a b u v) :
    Related h R p q s t :=
  Outcome.Related.mono hp hQR

theorem Related.bind {S : α' → β' → σ → σ → Prop} {f : α → Prog Res α'} {g : β → Prog Res β'}
    (hp : Related h Q p q s t) (hf : ∀ a b u v, Q a b u v → Related h S (f a) (g b) u v) :
    Related h S (p >>= f) (q >>= g) s t := by
  unfold Related
  rw [run_bind, run_bind]
  exact Outcome.Related.bind hp hf

end Related

section Lockstep

variable (h : (o : Op) → σ → Outcome σ ε (Res o))

/-- From states that `I` relates, both executions of `p` get stuck for the same
reason or return the same value in states that `J` relates. -/
def Lockstep (I : σ → σ → Prop) (p : Prog Res α) (J : α → σ → σ → Prop) : Prop :=
  ∀ s t, I s t → Related h (fun a b u v => a = b ∧ J a u v) p p s t

variable {h} {I I' : σ → σ → Prop} {J J' : α → σ → σ → Prop} {p q : Prog Res α}

theorem lockstep_pure {a : α} (hJ : ∀ s t, I s t → J a s t) : Lockstep h I (pure a) J :=
  fun s t hI => related_pure ⟨rfl, hJ s t hI⟩

theorem Lockstep.bind {K : β → σ → σ → Prop} {f : α → Prog Res β} (hp : Lockstep h I p J)
    (hf : ∀ a, Lockstep h (J a) (f a) K) : Lockstep h I (p >>= f) K := by
  intro s t hI
  refine (hp s t hI).bind ?_
  rintro a _ u v ⟨rfl, hJ⟩
  exact hf a u v hJ

theorem Lockstep.ite {c : Prop} [Decidable c] (hp : c → Lockstep h I p J)
    (hq : ¬ c → Lockstep h I q J) : Lockstep h I (if c then p else q) J := by
  split_ifs with hc
  · exact hp hc
  · exact hq hc

theorem Lockstep.pre (hp : Lockstep h I p J) (hI : ∀ s t, I' s t → I s t) : Lockstep h I' p J :=
  fun s t hI' => hp s t (hI s t hI')

theorem Lockstep.post (hp : Lockstep h I p J) (hJ : ∀ a s t, J a s t → J' a s t) :
    Lockstep h I p J' := by
  intro s t hI
  refine (hp s t hI).mono ?_
  rintro a _ u v ⟨rfl, hJa⟩
  exact ⟨rfl, hJ a u v hJa⟩

/-- A fact about the two states may be used in the proof. -/
theorem lockstep_of_forall {φ : Prop} (hφ : ∀ s t, I s t → φ) (hp : φ → Lockstep h I p J) :
    Lockstep h I p J :=
  fun s t hI => hp (hφ s t hI) s t hI

theorem lockstep_perform {o : Op} {J : Res o → σ → σ → Prop}
    (ho : ∀ s t, I s t → Outcome.Related (fun a b u v => a = b ∧ J a u v) (h o s) (h o t)) :
    Lockstep h I (perform o) J := by
  intro s t hI
  unfold Related
  rw [run_perform, run_perform]
  exact ho s t hI

end Lockstep

section Reading

variable {h : (o : Op) → σ → Outcome σ ε (Res o)} {Φ : Op → Prop} {p : Prog Res α} {s t : σ}

/-- A program that performs only operations that change nothing and find the same
in both states goes the same way in both. -/
theorem Along.reads (ha : Along h (fun o _ => Φ o) p s)
    (hread : ∀ o, Φ o →
      Outcome.Related (fun a b u v => a = b ∧ u = s ∧ v = t) (h o s) (h o t)) :
    Along h (fun o _ => Φ o) p t ∧ Related h (fun a b u v => a = b ∧ u = s ∧ v = t) p p s t := by
  induction p with
  | ret a => exact ⟨trivial, related_pure ⟨rfl, rfl, rfl⟩⟩
  | call o k ih =>
      have ho := hread o ha.1
      unfold Related
      rw [run_call, run_call]
      cases hs : h o s with
      | stuck e u =>
          rw [hs] at ho
          cases ht : h o t with
          | stuck e' v =>
              rw [ht] at ho
              cases ho
              exact ⟨⟨ha.1, fun r v hr => by cases ht.symm.trans hr⟩, .stuck e⟩
          | done r v =>
              rw [ht] at ho
              cases ho
      | done r u =>
          rw [hs] at ho
          obtain ⟨_, _, ht, rfl, rfl, rfl⟩ := ho.of_done
          obtain ⟨hrest, hrun⟩ := ih r (ha.2 r _ hs)
          rw [ht]
          refine ⟨⟨ha.1, fun r' v hr => ?_⟩, hrun⟩
          obtain ⟨rfl, rfl⟩ := Outcome.done.inj (ht.symm.trans hr)
          exact hrest

end Reading

end Prog

end LinuxDevelopment
