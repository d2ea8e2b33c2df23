import Mathlib.Tactic.Common

/-!
# Programs over a set of primitive operations

A program is the tree of the primitive operations it performs, each one with
its continuation. The same tree is executed to the end by `run`, one operation
at a time by `stepsTo`, and inspected along an execution by `Along`. Sequential,
crashing and concurrent executions therefore all speak about one program text.

## Implementation notes

The result type of an operation is a function of the operation, so that the
tree lives in the same universe as the data it computes.
-/

namespace LinuxDevelopment

/-- What an execution ends with: a value, or the reason it cannot go on. -/
inductive Outcome (σ ε α : Type) where
  | done (a : α) (s : σ)
  | stuck (e : ε) (s : σ)

namespace Outcome

variable {σ ε α β : Type}

def bind (x : Outcome σ ε α) (f : α → σ → Outcome σ ε β) : Outcome σ ε β :=
  match x with
  | .done a s => f a s
  | .stuck e s => .stuck e s

@[simp] theorem bind_done (a : α) (s : σ) (f : α → σ → Outcome σ ε β) :
    (done a s).bind f = f a s := rfl

@[simp] theorem bind_stuck (e : ε) (s : σ) (f : α → σ → Outcome σ ε β) :
    (stuck e s : Outcome σ ε α).bind f = stuck e s := rfl

/-- The state an execution ends in. -/
def state : Outcome σ ε α → σ
  | .done _ s => s
  | .stuck _ s => s

/-- The value of an execution that ends. -/
def value? : Outcome σ ε α → Option α
  | .done a _ => some a
  | .stuck _ _ => none

@[simp] theorem state_done (a : α) (s : σ) : (done a s : Outcome σ ε α).state = s := rfl

@[simp] theorem value?_done (a : α) (s : σ) : (done a s : Outcome σ ε α).value? = some a := rfl

theorem eq_done_of_value? {x : Outcome σ ε α} {a : α} (h : x.value? = some a) :
    x = .done a x.state := by
  cases x with
  | done b s =>
      cases h
      rfl
  | stuck e s => cases h

/-- Use the value and the state of an execution that ends. -/
def elim (x : Outcome σ ε α) (f : α → σ → β) (b : β) : β :=
  match x with
  | .done a s => f a s
  | .stuck _ _ => b

@[simp] theorem elim_done (a : α) (s : σ) (f : α → σ → β) (b : β) :
    (done a s : Outcome σ ε α).elim f b = f a s := rfl

theorem bind_eq_done {x : Outcome σ ε α} {f : α → σ → Outcome σ ε β} {b : β} {t : σ} :
    x.bind f = done b t ↔ ∃ a s, x = done a s ∧ f a s = done b t := by
  cases x with
  | done a s => simp
  | stuck e s => simp

end Outcome

/-- The programs over the operations `Op` that return a value of type `α`. -/
inductive Prog {Op : Type} (Res : Op → Type) (α : Type) : Type where
  | ret (a : α)
  | call (o : Op) (k : Res o → Prog Res α)

namespace Prog

variable {Op : Type} {Res : Op → Type} {σ ε α β γ : Type}

def bind (p : Prog Res α) (f : α → Prog Res β) : Prog Res β :=
  match p with
  | .ret a => f a
  | .call o k => .call o fun r => (k r).bind f

instance : Monad (Prog Res) where
  pure := .ret
  bind := bind

/-- The program that performs one operation. -/
def perform (o : Op) : Prog Res (Res o) := .call o .ret

@[simp] theorem ret_bind (a : α) (f : α → Prog Res β) : (ret a >>= f) = f a := rfl

@[simp] theorem pure_bind (a : α) (f : α → Prog Res β) : ((pure a : Prog Res α) >>= f) = f a := rfl

@[simp] theorem call_bind (o : Op) (k : Res o → Prog Res α) (f : α → Prog Res β) :
    (call o k >>= f) = call o fun r => k r >>= f := rfl

@[simp] theorem bind_assoc (p : Prog Res α) (f : α → Prog Res β) (g : β → Prog Res γ) :
    (p >>= f >>= g) = p >>= fun a => f a >>= g := by
  induction p with
  | ret a => rfl
  | call o k ih =>
      simp only [call_bind]
      congr 1
      funext r
      exact ih r

section Run

variable (h : (o : Op) → σ → Outcome σ ε (Res o))

/-- Perform all operations of a program, each by the handler `h`. -/
def run : Prog Res α → σ → Outcome σ ε α
  | .ret a, s => .done a s
  | .call o k, s => (h o s).bind fun r t => (k r).run t

@[simp] theorem run_pure (a : α) (s : σ) : run h (pure a : Prog Res α) s = .done a s := rfl

@[simp] theorem run_ret (a : α) (s : σ) : run h (ret a : Prog Res α) s = .done a s := rfl

@[simp] theorem run_call (o : Op) (k : Res o → Prog Res α) (s : σ) :
    run h (call o k) s = (h o s).bind fun r t => run h (k r) t := rfl

@[simp] theorem run_perform (o : Op) (s : σ) : run h (perform o : Prog Res (Res o)) s = h o s := by
  cases hx : h o s <;> simp [perform, hx]

@[simp] theorem run_bind (p : Prog Res α) (f : α → Prog Res β) (s : σ) :
    run h (p >>= f) s = (run h p s).bind fun a t => run h (f a) t := by
  induction p generalizing s with
  | ret a => rfl
  | call o k ih =>
      simp only [call_bind, run_call]
      cases h o s with
      | done r t => exact ih r t
      | stuck e t => rfl

theorem run_bind_eq_done {p : Prog Res α} {f : α → Prog Res β} {s t : σ} {b : β} :
    run h (p >>= f) s = .done b t ↔ ∃ a u, run h p s = .done a u ∧ run h (f a) u = .done b t := by
  rw [run_bind, Outcome.bind_eq_done]

theorem run_ite (c : Prop) [Decidable c] (p q : Prog Res α) (s : σ) :
    run h (if c then p else q) s = if c then run h p s else run h q s := by
  split <;> rfl

/-- `Φ` holds of each operation, in the state in which it is performed, along
the execution of a program. -/
def Along (Φ : Op → σ → Prop) : Prog Res α → σ → Prop
  | .ret _, _ => True
  | .call o k, s => Φ o s ∧ ∀ r t, h o s = .done r t → (k r).Along Φ t

variable {h} {Φ : Op → σ → Prop}

@[simp] theorem along_pure (a : α) (s : σ) : Along h Φ (pure a : Prog Res α) s ↔ True := Iff.rfl

@[simp] theorem along_ret (a : α) (s : σ) : Along h Φ (ret a : Prog Res α) s ↔ True := Iff.rfl

@[simp] theorem along_call (o : Op) (k : Res o → Prog Res α) (s : σ) :
    Along h Φ (call o k) s ↔ Φ o s ∧ ∀ r t, h o s = .done r t → Along h Φ (k r) t := Iff.rfl

@[simp] theorem along_perform (o : Op) (s : σ) :
    Along h Φ (perform o : Prog Res (Res o)) s ↔ Φ o s := by
  simp [perform]

theorem along_bind {p : Prog Res α} {f : α → Prog Res β} {s : σ} :
    Along h Φ (p >>= f) s ↔
      Along h Φ p s ∧ ∀ a t, run h p s = .done a t → Along h Φ (f a) t := by
  induction p generalizing s with
  | ret a => simp
  | call o k ih =>
      simp only [call_bind, along_call, ih, run_call]
      constructor
      · intro ⟨ho, hk⟩
        refine ⟨⟨ho, fun r t hr => (hk r t hr).1⟩, ?_⟩
        intro a t hrun
        obtain ⟨r, u, hr, hk'⟩ := Outcome.bind_eq_done.mp hrun
        exact (hk r u hr).2 a t hk'
      · intro ⟨⟨ho, hk⟩, hf⟩
        refine ⟨ho, fun r t hr => ⟨hk r t hr, fun a u hu => hf a u ?_⟩⟩
        rw [hr]
        exact hu

/-- A program that ends is followed by what comes next. -/
theorem along_bind_of_run {p : Prog Res α} {f : α → Prog Res β} {s t : σ} {a : α}
    (hrun : run h p s = .done a t) : Along h Φ (p >>= f) s ↔ Along h Φ p s ∧ Along h Φ (f a) t := by
  rw [along_bind, hrun]
  refine and_congr_right fun _ => ⟨fun hf => hf a t rfl, ?_⟩
  rintro hf _ _ ⟨⟩
  exact hf

/-- A fact that can be tested at each operation can be tested along an execution. -/
def decidableAlong (h : (o : Op) → σ → Outcome σ ε (Res o)) [∀ o s, Decidable (Φ o s)] :
    (p : Prog Res α) → (s : σ) → Decidable (Along h Φ p s)
  | .ret _, _ => isTrue trivial
  | .call o k, s =>
      match hx : h o s with
      | .done r t =>
          have := (k r).decidableAlong h t
          decidable_of_iff (Φ o s ∧ Along h Φ (k r) t) (by simp [hx])
      | .stuck e t => decidable_of_iff (Φ o s) (by simp [hx])

instance [∀ o s, Decidable (Φ o s)] (p : Prog Res α) (s : σ) : Decidable (Along h Φ p s) :=
  decidableAlong h p s

end Run

section Ensures

variable (h : (o : Op) → σ → Outcome σ ε (Res o))

/-- Along the execution of the program `Φ` holds of each operation in the state
in which it is performed, and the program ends, if at all, as `Q` says. -/
def Ensures (Φ : Op → σ → Prop) (Q : α → σ → Prop) : Prog Res α → σ → Prop
  | .ret a, s => Q a s
  | .call o k, s => Φ o s ∧ ∀ r t, h o s = .done r t → (k r).Ensures Φ Q t

variable {h} {Φ : Op → σ → Prop} {Q R : α → σ → Prop}

theorem ensures_pure {a : α} {s : σ} : Ensures h Φ Q (pure a) s ↔ Q a s := Iff.rfl

theorem ensures_call {o : Op} {k : Res o → Prog Res α} {s : σ} : Ensures h Φ Q (call o k) s ↔
    Φ o s ∧ ∀ r t, h o s = .done r t → Ensures h Φ Q (k r) t := Iff.rfl

theorem ensures_bind {p : Prog Res α} {f : α → Prog Res β} {s : σ} {R : β → σ → Prop} :
    Ensures h Φ R (p >>= f) s ↔ Ensures h Φ (fun a t => Ensures h Φ R (f a) t) p s := by
  induction p generalizing s with
  | ret a => exact Iff.rfl
  | call o k ih => simp only [call_bind, Ensures, ih]

theorem Ensures.mono {p : Prog Res α} {s : σ} (hp : Ensures h Φ Q p s)
    (hQR : ∀ a t, Q a t → R a t) : Ensures h Φ R p s := by
  induction p generalizing s with
  | ret a => exact hQR a s hp
  | call o k ih => exact ⟨hp.1, fun r t hr => ih r (hp.2 r t hr)⟩

theorem Ensures.bind {p : Prog Res α} {f : α → Prog Res β} {s : σ} {R : β → σ → Prop}
    (hp : Ensures h Φ Q p s) (hf : ∀ a t, Q a t → Ensures h Φ R (f a) t) :
    Ensures h Φ R (p >>= f) s :=
  ensures_bind.mpr (hp.mono hf)

theorem Ensures.ite {c : Prop} [Decidable c] {p q : Prog Res α} {s : σ}
    (hp : c → Ensures h Φ Q p s) (hq : ¬ c → Ensures h Φ Q q s) :
    Ensures h Φ Q (if c then p else q) s := by
  split_ifs with hc
  · exact hp hc
  · exact hq hc

theorem Ensures.along {p : Prog Res α} {s : σ} (hp : Ensures h Φ Q p s) : Along h Φ p s := by
  induction p generalizing s with
  | ret a => trivial
  | call o k ih => exact ⟨hp.1, fun r t hr => ih r (hp.2 r t hr)⟩

-- a goal about a test of the program is not to be decided by unfolding
attribute [irreducible] Ensures

end Ensures

section Steps

variable (h : (o : Op) → σ → Outcome σ ε (Res o))

/-- Performing the first operations of `p` in the state `s` leaves the program
`q` to be performed in the state `t`. -/
inductive StepsTo : Prog Res α → σ → Prog Res α → σ → Prop
  | refl (p : Prog Res α) (s : σ) : StepsTo p s p s
  | step {p : Prog Res α} {s t u : σ} {o : Op} {k : Res o → Prog Res α} {r : Res o}
      (init : StepsTo p s (call o k) t) (hr : h o t = .done r u) : StepsTo p s (k r) u

variable {h}

/-- What is left of a program runs to the outcome of the whole program. -/
theorem StepsTo.run_eq {p q : Prog Res α} {s t : σ} (hs : StepsTo h p s q t) :
    run h p s = run h q t := by
  induction hs with
  | refl => rfl
  | step _ hr ih => rw [ih, run_call, hr]; rfl

/-- A fact about all operations of an execution is a fact about those left. -/
theorem StepsTo.along {Φ : Op → σ → Prop} {p q : Prog Res α} {s t : σ}
    (hs : StepsTo h p s q t) (ha : Along h Φ p s) : Along h Φ q t := by
  induction hs with
  | refl => exact ha
  | step _ hr ih => exact ih.2 _ _ hr

end Steps

section Only

/-- Every operation of the tree, whatever the answers are, is one of `P`. -/
def Only (P : Op → Prop) : Prog Res α → Prop
  | .ret _ => True
  | .call o k => P o ∧ ∀ r, (k r).Only P

variable {P : Op → Prop}

@[simp] theorem only_pure (a : α) : (pure a : Prog Res α).Only P ↔ True := Iff.rfl

@[simp] theorem only_call (o : Op) (k : Res o → Prog Res α) :
    (call o k).Only P ↔ P o ∧ ∀ r, (k r).Only P := Iff.rfl

theorem Only.bind {p : Prog Res α} {f : α → Prog Res β} (hp : p.Only P)
    (hf : ∀ a, (f a).Only P) : (p >>= f).Only P := by
  induction p with
  | ret a => exact hf a
  | call o k ih => exact ⟨hp.1, fun r => ih r (hp.2 r)⟩

theorem Only.ite {c : Prop} [Decidable c] {p q : Prog Res α} (hp : p.Only P) (hq : q.Only P) :
    (if c then p else q).Only P := by
  split_ifs
  · exact hp
  · exact hq

theorem Only.perform {o : Op} (h : P o) : (perform o : Prog Res (Res o)).Only P :=
  ⟨h, fun _ => trivial⟩

theorem Only.mono {Q : Op → Prop} {p : Prog Res α} (hp : p.Only P) (hpq : ∀ o, P o → Q o) :
    p.Only Q := by
  induction p with
  | ret a => trivial
  | call o k ih => exact ⟨hpq o hp.1, fun r => ih r (hp.2 r)⟩

/-- What holds of every operation of the tree holds along every execution. -/
theorem Only.along {h : (o : Op) → σ → Outcome σ ε (Res o)} {p : Prog Res α} (hp : p.Only P)
    (s : σ) : Along h (fun o _ => P o) p s := by
  induction p generalizing s with
  | ret a => trivial
  | call o k ih => exact ⟨hp.1, fun r t _ => ih r (hp.2 r) t⟩

/-- Behind operations that need no look at the state only the rest matters. -/
theorem Only.along_bind {h : (o : Op) → σ → Outcome σ ε (Res o)} {p : Prog Res α}
    {f : α → Prog Res β} {s : σ} (hp : p.Only P) :
    Along h (fun o _ => P o) (p >>= f) s ↔
      ∀ a t, run h p s = .done a t → Along h (fun o _ => P o) (f a) t := by
  rw [Prog.along_bind]
  exact and_iff_right (hp.along s)

/-- Operations that leave the state alone. -/
theorem Only.run_eq {h : (o : Op) → σ → Outcome σ ε (Res o)} {p : Prog Res α} {s t : σ} {a : α}
    (hp : p.Only P) (hstay : ∀ o s r t, P o → h o s = .done r t → t = s)
    (hrun : run h p s = .done a t) : t = s := by
  induction p generalizing s with
  | ret b =>
      cases hrun
      rfl
  | call o k ih =>
      obtain ⟨r, u, hr, hk⟩ := Outcome.bind_eq_done.mp hrun
      obtain rfl := hstay o s r u hp.1 hr
      exact ih r (hp.2 r) hk

end Only

section Guards

/-- The next operation is one that never ends. -/
def Halts (halts : Op → Prop) : Prog Res α → Prop
  | .ret _ => False
  | .call o _ => halts o

/-- After an answer of `fails` the program halts. -/
def Guards (fails : (o : Op) → Res o → Prop) (halts : Op → Prop) : Prog Res α → Prop
  | .ret _ => True
  | .call o k => ∀ r, (fails o r → (k r).Halts halts) ∧ (¬ fails o r → (k r).Guards fails halts)

variable {fails : (o : Op) → Res o → Prop} {halts : Op → Prop}

theorem Halts.bind {p : Prog Res α} {f : α → Prog Res β} (hp : p.Halts halts) :
    (p >>= f).Halts halts := by
  cases p with
  | ret a => exact hp.elim
  | call o k => exact hp

theorem Guards.bind {p : Prog Res α} {f : α → Prog Res β} (hp : p.Guards fails halts)
    (hf : ∀ a, (f a).Guards fails halts) : (p >>= f).Guards fails halts := by
  induction p with
  | ret a => exact hf a
  | call o k ih =>
      intro r
      exact ⟨fun hr => ((hp r).1 hr).bind, fun hr => ih r ((hp r).2 hr)⟩

theorem Guards.ite {c : Prop} [Decidable c] {p q : Prog Res α} (hp : p.Guards fails halts)
    (hq : q.Guards fails halts) : (if c then p else q).Guards fails halts := by
  split_ifs
  · exact hp
  · exact hq

/-- Operations that cannot fail need no guard. -/
theorem Only.guards {P : Op → Prop} {p : Prog Res α} (hp : p.Only P)
    (hok : ∀ o r, P o → ¬ fails o r) : p.Guards fails halts := by
  induction p with
  | ret a => trivial
  | call o k ih =>
      intro r
      exact ⟨fun hr => absurd hr (hok o r hp.1), fun _ => ih r (hp.2 r)⟩

/-- An execution that ends has met no failure, so it goes the same way where
there are none. -/
theorem Guards.run_eq {h h' : (o : Op) → σ → Outcome σ ε (Res o)} {p : Prog Res α} {s t : σ}
    {a : α} (hp : p.Guards fails halts)
    (hstop : ∀ o s r t, halts o → h o s ≠ .done r t)
    (hagree : ∀ o s r t, ¬ fails o r → h o s = .done r t → h' o s = .done r t)
    (hrun : run h p s = .done a t) : run h' p s = .done a t := by
  induction p generalizing s with
  | ret b => exact hrun
  | call o k ih =>
      obtain ⟨r, u, hr, hk⟩ := Outcome.bind_eq_done.mp hrun
      have hok : ¬ fails o r := by
        intro hf
        have hhalt := (hp r).1 hf
        cases hkr : k r with
        | ret b =>
            rw [hkr] at hhalt
            exact hhalt
        | call o' k' =>
            rw [hkr] at hhalt hk
            obtain ⟨r', u', hr', -⟩ := Outcome.bind_eq_done.mp hk
            exact hstop o' u r' u' hhalt hr'
      rw [run_call, hagree o s r u hok hr]
      exact ih r ((hp r).2 hok) hk

end Guards

section Trace

variable (h : (o : Op) → σ → Outcome σ ε (Res o)) {E : Type} (eff : Op → List E)

/-- The effects of the operations of an execution, in their order. -/
def trace : Prog Res α → σ → List E
  | .ret _, _ => []
  | .call o k, s => (h o s).elim (fun r t => eff o ++ (k r).trace t) []

variable {h eff}

theorem trace_call (o : Op) (k : Res o → Prog Res α) (s : σ) :
    trace h eff (call o k) s = (h o s).elim (fun r t => eff o ++ trace h eff (k r) t) [] := rfl

theorem trace_call_of_done {o : Op} {k : Res o → Prog Res α} {s t : σ} {r : Res o}
    (hr : h o s = .done r t) : trace h eff (call o k) s = eff o ++ trace h eff (k r) t := by
  rw [trace_call, hr]
  rfl

theorem trace_bind (p : Prog Res α) (f : α → Prog Res β) (s : σ) :
    trace h eff (p >>= f) s =
      trace h eff p s ++ (run h p s).elim (fun a t => trace h eff (f a) t) [] := by
  induction p generalizing s with
  | ret a => rfl
  | call o k ih =>
      rw [call_bind, trace_call, trace_call, run_call]
      cases h o s with
      | done r t =>
          change eff o ++ trace h eff (k r >>= f) t = eff o ++ trace h eff (k r) t ++ _
          rw [ih r t, List.append_assoc]
          rfl
      | stuck e t => rfl

/-- Operations without effects leave no trace. -/
theorem trace_of_only {p : Prog Res α} (hp : p.Only fun o => eff o = []) (s : σ) :
    trace h eff p s = [] := by
  induction p generalizing s with
  | ret a => rfl
  | call o k ih =>
      rw [trace_call]
      cases h o s with
      | done r t =>
          change eff o ++ trace h eff (k r) t = []
          rw [hp.1, ih r (hp.2 r), List.append_nil]
      | stuck e t => rfl

end Trace

end Prog

end LinuxDevelopment
