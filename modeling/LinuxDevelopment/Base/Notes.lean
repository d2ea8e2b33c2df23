import LinuxDevelopment.Base.Protocol

/-!
# Programs with notes

A program can be given at two levels of detail. At the finer one it also
performs notes: operations that get no answer and whose effect the coarser
level does not show, such as the return of a resource. A program without notes
is one with notes by `lift`, and `erase` forgets the notes again. A protocol of
the finer level watches the notes together with the operations.
-/

namespace LinuxDevelopment

/-- The operations of the finer level. -/
inductive Noted (Op N : Type) where
  | op (o : Op)
  | note (n : N)
  deriving DecidableEq

/-- A note gets no answer. -/
def Noted.Res {Op : Type} (N : Type) (Res : Op → Type) : Noted Op N → Type
  | .op o => Res o
  | .note _ => Unit

namespace Prog

variable {Op N : Type} {Res : Op → Type} {κ α β : Type}

/-- A program of the coarser level, which performs no notes. -/
def lift : Prog Res α → Prog (Noted.Res N Res) α
  | .ret a => .ret a
  | .call o k => .call (.op o) fun r => (k r).lift

/-- Forget the notes. -/
def erase : Prog (Noted.Res N Res) α → Prog Res α
  | .ret a => .ret a
  | .call (.op o) k => .call o fun r => (k r).erase
  | .call (.note _) k => (k ()).erase

/-- The program that performs one note. -/
def note (n : N) : Prog (Noted.Res N Res) Unit := .call (.note n) .ret

instance : MonadLift (Prog Res) (Prog (Noted.Res N Res)) := ⟨lift⟩

@[simp] theorem monadLift_eq (p : Prog Res α) :
    (monadLift p : Prog (Noted.Res N Res) α) = p.lift := rfl

theorem lift_bind (p : Prog Res α) (f : α → Prog Res β) :
    ((p >>= f).lift : Prog (Noted.Res N Res) β) = p.lift >>= fun a => (f a).lift := by
  induction p with
  | ret a => rfl
  | call o k ih =>
      change call (Noted.op o) _ = call (Noted.op o) _
      congr 1
      funext r
      exact ih r

theorem lift_ite (c : Prop) [Decidable c] (p q : Prog Res α) :
    ((if c then p else q).lift : Prog (Noted.Res N Res) α) = if c then p.lift else q.lift := by
  split_ifs <;> rfl

@[simp] theorem erase_pure (a : α) : (pure a : Prog (Noted.Res N Res) α).erase = pure a := rfl

@[simp] theorem erase_lift (p : Prog Res α) : (p.lift : Prog (Noted.Res N Res) α).erase = p := by
  induction p with
  | ret a => rfl
  | call o k ih =>
      change call o _ = call o k
      congr 1
      funext r
      exact ih r

@[simp] theorem erase_bind (p : Prog (Noted.Res N Res) α) (f : α → Prog (Noted.Res N Res) β) :
    (p >>= f).erase = p.erase >>= fun a => (f a).erase := by
  induction p with
  | ret a => rfl
  | call o k ih =>
      cases o with
      | op o =>
          change call o _ = call o _
          congr 1
          funext r
          exact ih r
      | note n => exact ih ()

@[simp] theorem erase_note (n : N) : (note n : Prog (Noted.Res N Res) Unit).erase = pure () := rfl

/-- A note at the end of a program leaves this behind when it is forgotten. -/
theorem bind_pure_self (p : Prog Res α) : (p >>= fun a => pure a) = p := by
  induction p with
  | ret a => rfl
  | call o k ih =>
      rw [call_bind]
      congr 1
      funext r
      exact ih r

theorem bind_congr_right {p : Prog Res α} {f g : α → Prog Res β} (h : ∀ a, f a = g a) :
    (p >>= f) = p >>= g :=
  congrArg (p >>= ·) (funext h)

@[simp] theorem erase_ite (c : Prop) [Decidable c] (p q : Prog (Noted.Res N Res) α) :
    (if c then p else q).erase = if c then p.erase else q.erase := by
  split_ifs <;> rfl

section Follows

variable {can : (o : Noted Op N) → Noted.Res N Res o → Prop}
  {next : κ → (o : Noted Op N) → Noted.Res N Res o → Option κ} {Q : α → κ → Prop} {k : κ}

/-- A protocol watches a program without notes as its operations say. -/
theorem follows_lift {p : Prog Res α} : Follows can next Q p.lift k ↔
    Follows (fun o r => can (.op o) r) (fun k o r => next k (.op o) r) Q p k := by
  induction p generalizing k with
  | ret a => exact Iff.rfl
  | call o f ih =>
      exact forall₂_congr fun r _ => exists_congr fun k' => and_congr_right fun _ => ih r

end Follows

end Prog

end LinuxDevelopment
