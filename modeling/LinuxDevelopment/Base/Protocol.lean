import LinuxDevelopment.Base.Program

/-!
# Protocols of operations

A protocol is an automaton that watches the operations of a program and the
answers they get. A program follows it when every operation has a transition,
for each answer the operation can get, and when it returns in a state that is
final for its result. A program is a tree, so this is checked once, along the
code. At every point of an execution what is left of the program follows the
protocol from the state the automaton has come to, whatever other programs
have done in the meantime.
-/

namespace LinuxDevelopment.Prog

variable {Op : Type} {Res : Op → Type} {κ α β : Type} {can can' : (o : Op) → Res o → Prop}
  {next : κ → (o : Op) → Res o → Option κ} {Q R : α → κ → Prop}

/-- The program follows the protocol `next` from a state on and returns in one
that satisfies `Q`. Operations get only the answers of `can`. -/
def Follows (can : (o : Op) → Res o → Prop) (next : κ → (o : Op) → Res o → Option κ)
    (Q : α → κ → Prop) : Prog Res α → κ → Prop
  | .ret a, k => Q a k
  | .call o f, k => ∀ r, can o r → ∃ k', next k o r = some k' ∧ (f r).Follows can next Q k'

@[simp] theorem follows_pure (a : α) (k : κ) :
    Follows can next Q (pure a : Prog Res α) k ↔ Q a k := Iff.rfl

@[simp] theorem follows_ret (a : α) (k : κ) :
    Follows can next Q (ret a : Prog Res α) k ↔ Q a k := Iff.rfl

@[simp] theorem follows_call (o : Op) (f : Res o → Prog Res α) (k : κ) :
    Follows can next Q (call o f) k ↔
      ∀ r, can o r → ∃ k', next k o r = some k' ∧ Follows can next Q (f r) k' := Iff.rfl

theorem follows_bind {p : Prog Res α} {f : α → Prog Res β} {k : κ} {R : β → κ → Prop} :
    Follows can next R (p >>= f) k ↔
      Follows can next (fun a k' => Follows can next R (f a) k') p k := by
  induction p generalizing k with
  | ret a => exact Iff.rfl
  | call o g ih => simp only [call_bind, follows_call, ih]

theorem Follows.mono {p : Prog Res α} {k : κ} (h : Follows can next Q p k)
    (hQR : ∀ a k, Q a k → R a k) : Follows can next R p k := by
  induction p generalizing k with
  | ret a => exact hQR a k h
  | call o f ih =>
      intro r hr
      obtain ⟨k', hk, hf⟩ := h r hr
      exact ⟨k', hk, ih r hf⟩

theorem Follows.bind {p : Prog Res α} {f : α → Prog Res β} {k : κ} {R : β → κ → Prop}
    (hp : Follows can next Q p k) (hf : ∀ a k, Q a k → Follows can next R (f a) k) :
    Follows can next R (p >>= f) k :=
  follows_bind.mpr (hp.mono hf)

theorem Follows.ite {c : Prop} [Decidable c] {p q : Prog Res α} {k : κ}
    (hp : Follows can next Q p k) (hq : Follows can next Q q k) :
    Follows can next Q (if c then p else q) k := by
  split_ifs
  · exact hp
  · exact hq

/-- Operations the protocol does not care about. -/
theorem Only.follows {P : Op → Prop} {p : Prog Res α} {k : κ} (hp : p.Only P)
    (hstay : ∀ o r, P o → next k o r = some k) (hQ : ∀ a, Q a k) : Follows can next Q p k := by
  induction p with
  | ret a => exact hQ a
  | call o f ih =>
      intro r _
      exact ⟨k, hstay o r hp.1, ih r (hp.2 r)⟩

end LinuxDevelopment.Prog
