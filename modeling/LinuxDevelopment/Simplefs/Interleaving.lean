import LinuxDevelopment.Base.Ledger
import LinuxDevelopment.Base.Transition
import LinuxDevelopment.Simplefs.Vfs

/-!
# simplefs: calls of several tasks

Any number of tasks make calls on one file system. A step of the system starts
a call, performs the next action of a call, or lets a call return. The actions
are those of `exec`, so the interleaving is finer than one of whole sections
under a lock. A task that waits for a mutex, or that has run into a trap, has
no step.
-/

namespace LinuxDevelopment.Simplefs

/-- A call in progress and what is left of its code. -/
structure Flight where
  call : Call
  env : Env
  rest : Code Reply

/-- The file system, the calls in progress by task, and all calls made so far,
the latest first. -/
structure Tasks where
  world : World
  flight : Nat → Option Flight
  made : List (Nat × Call × Env)

namespace Tasks

/-- The steps of the system. -/
inductive Label where
  | call (tid : Nat) (c : Call) (env : Env)
  | act (tid : Nat)
  | ret (tid : Nat)

/-- The next actions of a task. -/
def acts (n tid : Nat) : List Label := List.replicate n (.act tid)

/-- The system in which no call has been made. -/
def idle (w : World) : Tasks := ⟨w, fun _ => none, []⟩

/-- One step of the system. An unmount runs no code and is left out. -/
def step (s : Tasks) : Label → Option Tasks
  | .call tid c env =>
      match s.flight tid with
      | none =>
          if c = .unmount then none
          else some ⟨s.world, Function.update s.flight tid (some ⟨c, env, c.code⟩),
            (tid, c, env) :: s.made⟩
      | some _ => none
  | .act tid =>
      match s.flight tid with
      | some ⟨c, env, .call o k⟩ =>
          match exec tid env o s.world with
          | .done r w => some ⟨w, Function.update s.flight tid (some ⟨c, env, k r⟩), s.made⟩
          | .stuck _ _ => none
      | _ => none
  | .ret tid =>
      match s.flight tid with
      | some ⟨_, _, .ret _⟩ => some ⟨s.world, Function.update s.flight tid none, s.made⟩
      | _ => none

/-- The action a task is about to perform. -/
def next (s : Tasks) (tid : Nat) : Option Op :=
  match s.flight tid with
  | some ⟨_, _, .call o _⟩ => some o
  | _ => none

/-- The call of a task is about to return. -/
def returns (s : Tasks) (tid : Nat) : Bool :=
  match s.flight tid with
  | some ⟨_, _, .ret _⟩ => true
  | _ => false

/-- What a step of the system is. -/
inductive Moves (s : Tasks) : Label → Tasks → Prop
  | call {tid : Nat} {c : Call} {env : Env} (idle : s.flight tid = none) (code : c ≠ .unmount) :
      Moves s (.call tid c env) ⟨s.world, Function.update s.flight tid (some ⟨c, env, c.code⟩),
        (tid, c, env) :: s.made⟩
  | act {tid : Nat} {c : Call} {env : Env} {o : Op} {k : o.Res → Code Reply} {r : o.Res}
      {w : World} (flying : s.flight tid = some ⟨c, env, .call o k⟩)
      (done : exec tid env o s.world = .done r w) :
      Moves s (.act tid) ⟨w, Function.update s.flight tid (some ⟨c, env, k r⟩), s.made⟩
  | ret {tid : Nat} {c : Call} {env : Env} {reply : Reply}
      (flying : s.flight tid = some ⟨c, env, .ret reply⟩) :
      Moves s (.ret tid) ⟨s.world, Function.update s.flight tid none, s.made⟩

variable {s t : Tasks} {l : Label}

theorem moves_of_step (h : s.step l = some t) : s.Moves l t := by
  cases l with
  | call tid c env =>
      simp only [step] at h
      cases hf : s.flight tid with
      | some f => simp [hf] at h
      | none =>
          rw [hf] at h
          simp only at h
          split_ifs at h with hc
          cases h
          exact .call hf hc
  | act tid =>
      simp only [step] at h
      cases hf : s.flight tid with
      | none => simp [hf] at h
      | some f =>
          obtain ⟨c, env, rest⟩ := f
          cases rest with
          | ret reply => simp [hf] at h
          | call o k =>
              rw [hf] at h
              cases hx : exec tid env o s.world with
              | stuck e w => simp [hx] at h
              | done r w =>
                  simp only [hx] at h
                  cases h
                  exact .act hf hx
  | ret tid =>
      simp only [step] at h
      cases hf : s.flight tid with
      | none => simp [hf] at h
      | some f =>
          obtain ⟨c, env, rest⟩ := f
          cases rest with
          | call o k => simp [hf] at h
          | ret reply =>
              rw [hf] at h
              cases h
              exact .ret hf

theorem next_eq_some {tid : Nat} {o : Op} :
    s.next tid = some o ↔ ∃ c env k, s.flight tid = some ⟨c, env, .call o k⟩ := by
  unfold next
  constructor
  · intro h
    cases hf : s.flight tid with
    | none => simp [hf] at h
    | some f =>
        obtain ⟨c, env, rest⟩ := f
        cases rest with
        | ret reply => simp [hf] at h
        | call o' k =>
            rw [hf] at h
            cases h
            exact ⟨c, env, k, rfl⟩
  · rintro ⟨c, env, k, hf⟩
    rw [hf]

theorem returns_iff {tid : Nat} :
    s.returns tid = true ↔ ∃ c env reply, s.flight tid = some ⟨c, env, .ret reply⟩ := by
  unfold returns
  constructor
  · intro h
    cases hf : s.flight tid with
    | none => simp [hf] at h
    | some f =>
        obtain ⟨c, env, rest⟩ := f
        cases rest with
        | ret reply => exact ⟨c, env, reply, rfl⟩
        | call o' k => simp [hf] at h
  · rintro ⟨c, env, reply, hf⟩
    rw [hf]

section Ledger

variable {w : World} {tid : Nat} {c : Call} {env : Env} {rest rest' : Code Reply}
  {early early' : Nat → Prop} {settled : List (Nat × Call × Env)}

/-- The call of a task has not taken effect: it is one of the `early` ones. -/
def IsOpen (s : Tasks) (early : Nat → Prop) (tid : Nat) (x : Call × Env) : Prop :=
  early tid ∧ ∃ rest, s.flight tid = some ⟨x.1, x.2, rest⟩

/-- A call begins. -/
theorem settles_call (h : Settles s.made settled (s.IsOpen early)) (hidle : s.flight tid = none)
    (hnew : early' tid) (hearly : ∀ u, u ≠ tid → (early' u ↔ early u)) :
    Settles ((tid, c, env) :: s.made) settled (IsOpen ⟨w, Function.update s.flight tid
      (some ⟨c, env, rest⟩), (tid, c, env) :: s.made⟩ early') := by
  refine h.start ?_ fun u x => ?_
  · rintro x ⟨-, rest, hx⟩
    rw [hidle] at hx
    cases hx
  · unfold IsOpen
    dsimp only
    by_cases hu : u = tid
    · subst hu
      rw [Function.update_self]
      constructor
      · rintro ⟨-, rest', hx⟩
        cases hx
        exact .inl ⟨rfl, rfl⟩
      · rintro (⟨-, rfl⟩ | ⟨-, rest', hx⟩)
        · exact ⟨hnew, rest, rfl⟩
        · rw [hidle] at hx
          cases hx
    · rw [Function.update_of_ne hu, hearly u hu]
      simp [hu]

/-- A call goes on without taking effect, or after it has. -/
theorem settles_keep (h : Settles s.made settled (s.IsOpen early))
    (hf : s.flight tid = some ⟨c, env, rest⟩) (hearly : ∀ u, early' u ↔ early u) :
    Settles s.made settled (IsOpen ⟨w, Function.update s.flight tid (some ⟨c, env, rest'⟩),
      s.made⟩ early') := by
  refine h.congr fun u x => ?_
  unfold IsOpen
  dsimp only
  rw [hearly u]
  by_cases hu : u = tid
  · subst hu
    rw [Function.update_self, hf]
    simp
  · rw [Function.update_of_ne hu]

/-- A call takes effect. -/
theorem settles_settle (h : Settles s.made settled (s.IsOpen early))
    (hf : s.flight tid = some ⟨c, env, rest⟩) (hwas : early tid) (hnow : ¬ early' tid)
    (hearly : ∀ u, u ≠ tid → (early' u ↔ early u)) :
    Settles s.made (settled ++ [(tid, c, env)]) (IsOpen ⟨w, Function.update s.flight tid
      (some ⟨c, env, rest'⟩), s.made⟩ early') := by
  refine h.settle ⟨hwas, rest, hf⟩ fun u x => ?_
  unfold IsOpen
  dsimp only
  by_cases hu : u = tid
  · subst hu
    simp [hnow]
  · rw [Function.update_of_ne hu, hearly u hu]
    simp [hu]

/-- A call that has taken effect returns. -/
theorem settles_ret (h : Settles s.made settled (s.IsOpen early)) (hlate : ¬ early tid) :
    Settles s.made settled (IsOpen ⟨w, Function.update s.flight tid none, s.made⟩ early) := by
  refine h.congr fun u x => ?_
  unfold IsOpen
  dsimp only
  by_cases hu : u = tid
  · subst hu
    simp [hlate]
  · rw [Function.update_of_ne hu]

/-- A call takes effect by returning. -/
theorem settles_settle_ret (h : Settles s.made settled (s.IsOpen early))
    (hf : s.flight tid = some ⟨c, env, rest⟩) (hwas : early tid) :
    Settles s.made (settled ++ [(tid, c, env)])
      (IsOpen ⟨w, Function.update s.flight tid none, s.made⟩ early) := by
  refine h.settle ⟨hwas, rest, hf⟩ fun u x => ?_
  unfold IsOpen
  dsimp only
  by_cases hu : u = tid
  · subst hu
    simp
  · rw [Function.update_of_ne hu]
    simp [hu]

end Ledger

end Tasks

end LinuxDevelopment.Simplefs
