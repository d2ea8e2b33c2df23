import LinuxDevelopment.Simplefs.AnyRun
import LinuxDevelopment.Simplefs.Interleaving
import LinuxDevelopment.Simplefs.Leaks
import Mathlib.Data.Finsupp.Basic

/-!
# simplefs: the resources that are out, in every interleaving

The interleavings of `Tasks` are taken again, with the code that has the notes
and with the resources that are taken at the moment. A note is a step of its
own, so that other tasks come between an access and the release behind it. The
two systems have the same schedules up to the notes. What is taken is always
what the calls in progress hold together with what the calls that have returned
have lost.
-/

namespace LinuxDevelopment.Simplefs.Counted

/-- A call in progress and what is left of its code. -/
structure Flight where
  call : Call
  env : Env
  rest : Code Reply

/-- The file system, the resources taken, the calls in progress by task, all
calls made and all calls that have returned, the latest first. -/
structure Tasks where
  world : World
  taken : Multiset Resource
  flight : Nat → Option Flight
  made : List (Nat × Call × Env)
  ended : List Event

/-- The call in progress without its notes. -/
def Flight.erase (f : Flight) : Simplefs.Flight := ⟨f.call, f.env, f.rest.erase⟩

namespace Tasks

open Simplefs.Tasks (Label acts)

/-- The system in which no call has been made. -/
def idle (w : World) : Tasks := ⟨w, 0, fun _ => none, [], []⟩

/-- One step of the system. -/
def step (s : Tasks) : Label → Option Tasks
  | .call tid c env =>
      match s.flight tid with
      | none =>
          if c = .unmount then none
          else some { s with
            flight := Function.update s.flight tid (some ⟨c, env, code c⟩)
            made := (tid, c, env) :: s.made }
      | some _ => none
  | .act tid =>
      match s.flight tid with
      | some ⟨c, env, .call (.op o) k⟩ =>
          match exec tid env o s.world with
          | .done r w => some { s with
              world := w
              taken := effect (.op o) r s.taken
              flight := Function.update s.flight tid (some ⟨c, env, k r⟩) }
          | .stuck _ _ => none
      | some ⟨c, env, .call (.note n) k⟩ => some { s with
          taken := effect (.note n) () s.taken
          flight := Function.update s.flight tid (some ⟨c, env, k ()⟩) }
      | _ => none
  | .ret tid =>
      match s.flight tid with
      | some ⟨c, env, .ret reply⟩ => some { s with
          flight := Function.update s.flight tid none
          ended := ⟨tid, c, env, reply⟩ :: s.ended }
      | _ => none

/-- What a task is about to do. -/
def next (s : Tasks) (tid : Nat) : Option (Noted Op Note) :=
  match s.flight tid with
  | some ⟨_, _, .call o _⟩ => some o
  | _ => none

/-- What a step of the system is. -/
inductive Moves (s : Tasks) : Label → Tasks → Prop
  | call {tid : Nat} {c : Call} {env : Env} (idle : s.flight tid = none) (code : c ≠ .unmount) :
      Moves s (.call tid c env) { s with
        flight := Function.update s.flight tid (some ⟨c, env, Counted.code c⟩)
        made := (tid, c, env) :: s.made }
  | act {tid : Nat} {c : Call} {env : Env} {o : Op} {k : o.Res → Code Reply} {r : o.Res}
      {w : World} (flying : s.flight tid = some ⟨c, env, .call (.op o) k⟩)
      (done : exec tid env o s.world = .done r w) :
      Moves s (.act tid) { s with
        world := w
        taken := effect (.op o) r s.taken
        flight := Function.update s.flight tid (some ⟨c, env, k r⟩) }
  | note {tid : Nat} {c : Call} {env : Env} {n : Note} {k : Unit → Code Reply}
      (flying : s.flight tid = some ⟨c, env, .call (.note n) k⟩) :
      Moves s (.act tid) { s with
        taken := effect (.note n) () s.taken
        flight := Function.update s.flight tid (some ⟨c, env, k ()⟩) }
  | ret {tid : Nat} {c : Call} {env : Env} {reply : Reply}
      (flying : s.flight tid = some ⟨c, env, .ret reply⟩) :
      Moves s (.ret tid) { s with
        flight := Function.update s.flight tid none
        ended := ⟨tid, c, env, reply⟩ :: s.ended }

variable {s t : Tasks} {l : Label} {tid : Nat}

theorem moves_of_step (h : s.step l = some t) : s.Moves l t := by
  cases l with
  | call tid c env =>
      simp only [step] at h
      cases hf : s.flight tid with
      | some f => simp [hf] at h
      | none =>
          rw [hf] at h
          simp only at h
          split_ifs at h with hc
          cases h
          exact .call hf hc
  | act tid =>
      simp only [step] at h
      cases hf : s.flight tid with
      | none => simp [hf] at h
      | some f =>
          obtain ⟨c, env, rest⟩ := f
          cases rest with
          | ret reply => simp [hf] at h
          | call o k =>
              rw [hf] at h
              cases o with
              | note n =>
                  cases h
                  exact .note hf
              | op o =>
                  cases hx : exec tid env o s.world with
                  | stuck e w => simp [hx] at h
                  | done r w =>
                      simp only [hx] at h
                      cases h
                      exact .act hf hx
  | ret tid =>
      simp only [step] at h
      cases hf : s.flight tid with
      | none => simp [hf] at h
      | some f =>
          obtain ⟨c, env, rest⟩ := f
          cases rest with
          | call o k => simp [hf] at h
          | ret reply =>
              rw [hf] at h
              cases h
              exact .ret hf

section Erase

/-- The system without the notes. -/
def erase (s : Tasks) : Simplefs.Tasks :=
  ⟨s.world, fun tid => (s.flight tid).map Flight.erase, s.made⟩

theorem erase_update {w : World} {m : Multiset Resource} {x : Option Flight}
    {made : List (Nat × Call × Env)} {ended : List Event} :
    erase ⟨w, m, Function.update s.flight tid x, made, ended⟩ =
      ⟨w, Function.update s.erase.flight tid (x.map Flight.erase), made⟩ := by
  have hflight : (fun u => (Function.update s.flight tid x u).map Flight.erase) =
      Function.update s.erase.flight tid (x.map Flight.erase) := by
    funext u
    by_cases hu : u = tid
    · subst hu
      rw [Function.update_self, Function.update_self]
    · rw [Function.update_of_ne hu, Function.update_of_ne hu]
      rfl
  exact congrArg (fun f => Simplefs.Tasks.mk w f made) hflight

theorem erase_flight {f : Flight} (h : s.flight tid = some f) :
    s.erase.flight tid = some f.erase :=
  congrArg (Option.map Flight.erase) h

theorem step_of_moves {s t : Simplefs.Tasks} (h : s.Moves l t) : s.step l = some t := by
  cases h with
  | call hidle hcode => simp [Simplefs.Tasks.step, hidle, hcode]
  | act hf hx => simp [Simplefs.Tasks.step, hf, hx]
  | ret hf => simp [Simplefs.Tasks.step, hf]

theorem erase_note {c : Call} {env : Env} {n : Note} {k : Unit → Code Reply}
    {m : Multiset Resource} (hf : s.flight tid = some ⟨c, env, .call (.note n) k⟩) :
    erase { s with
      taken := m
      flight := Function.update s.flight tid (some ⟨c, env, k ()⟩) } = s.erase := by
  have hkeep : Function.update s.erase.flight tid (some ⟨c, env, (k ()).erase⟩) =
      s.erase.flight := Function.update_eq_self_iff.mpr (erase_flight hf).symm
  rw [erase_update]
  exact congrArg (fun f => Simplefs.Tasks.mk s.world f s.made) hkeep

/-- A step is a note, or the step of the system without notes. -/
theorem erase_step (h : s.step l = some t) : t.erase = s.erase ∨ s.erase.step l = some t.erase := by
  cases moves_of_step h with
  | @call tid c env hidle hcode =>
      right
      have hflight : s.erase.flight tid = none := congrArg (Option.map Flight.erase) hidle
      rw [erase_update, Option.map_some, Flight.erase, erase_code]
      exact step_of_moves (.call hflight hcode)
  | act hf hx =>
      right
      rw [erase_update]
      exact step_of_moves (.act (erase_flight hf) hx)
  | @note tid c env n k hf =>
      left
      exact erase_note hf
  | ret hf =>
      right
      rw [erase_update]
      exact step_of_moves (.ret (erase_flight hf))

/-- The notes in front of the next action of a call can be performed at once. -/
theorem exists_notes {c : Call} {env : Env} {rest : Code Reply}
    (hf : s.flight tid = some ⟨c, env, rest⟩) :
    ∃ n t rest', replay step (acts n tid) s = some t ∧ t.erase = s.erase ∧
      t.flight tid = some ⟨c, env, rest'⟩ ∧ rest'.erase = rest.erase ∧
      ∀ n k, rest' ≠ .call (.note n) k := by
  induction rest generalizing s with
  | ret reply => exact ⟨0, s, .ret reply, rfl, rfl, hf, rfl, fun n k h => by cases h⟩
  | call o k ih =>
      cases o with
      | op o => exact ⟨0, s, .call (.op o) k, rfl, rfl, hf, rfl, fun n k' h => by cases h⟩
      | note n =>
          obtain ⟨j, t, rest', hrun, hsame, hflight, hrest, hlast⟩ :=
            ih () (s := { s with
              taken := effect (.note n) () s.taken
              flight := Function.update s.flight tid (some ⟨c, env, k ()⟩) })
              (Function.update_self _ _ _)
          refine ⟨j + 1, t, rest', ?_, hsame.trans (erase_note hf), hflight, hrest, hlast⟩
          rw [acts, List.replicate_succ, replay, step, hf]
          exact hrun

/-- The task comes to its next action. -/
theorem exists_flight_of_erase {f : Simplefs.Flight} (hf : s.erase.flight tid = some f) :
    ∃ n t rest, replay step (acts n tid) s = some t ∧ t.erase = s.erase ∧
      t.flight tid = some ⟨f.call, f.env, rest⟩ ∧ rest.erase = f.rest ∧
      ∀ n k, rest ≠ .call (.note n) k := by
  obtain ⟨g, hg, rfl⟩ := Option.map_eq_some_iff.mp hf
  exact exists_notes hg

/-- Every step of the system without notes is made, after some notes of its task. -/
theorem exists_step_of_erase {t' : Simplefs.Tasks} (h : s.erase.step l = some t') :
    ∃ tid n t, replay step (acts n tid ++ [l]) s = some t ∧ t.erase = t' := by
  suffices hlast : ∃ tid n t t'', replay step (acts n tid) s = some t ∧ t.step l = some t'' ∧
      t''.erase = t' by
    obtain ⟨tid, n, t, t'', hrun, hstep, hsame⟩ := hlast
    refine ⟨tid, n, t'', ?_, hsame⟩
    rw [replay_append, hrun]
    simp [replay, hstep]
  cases Simplefs.Tasks.moves_of_step h with
  | @call tid c env hidle hcode =>
      have hflight : s.flight tid = none := Option.map_eq_none_iff.mp hidle
      refine ⟨tid, 0, s, _, rfl, by simp only [step, hflight, if_neg hcode]; rfl, ?_⟩
      rw [erase_update, Option.map_some, Flight.erase, erase_code]
      rfl
  | @act tid c env o k r w hf hx =>
      obtain ⟨n, t, rest, hrun, hsame, hflight, hrest, hlast⟩ := exists_flight_of_erase hf
      cases rest with
      | ret reply => cases hrest
      | call o' k' =>
          cases o' with
          | note n => exact absurd rfl (hlast n k')
          | op o' =>
              cases hrest
              have hworld : t.world = s.world := congrArg Simplefs.Tasks.world hsame
              have hdone : exec tid env o t.world = .done r w := hworld ▸ hx
              refine ⟨tid, n, t, _, hrun, by simp only [step, hflight, hdone]; rfl, ?_⟩
              rw [erase_update, hsame]
              exact congrArg (Simplefs.Tasks.mk w _) (congrArg Simplefs.Tasks.made hsame)
  | @ret tid c env reply hf =>
      obtain ⟨n, t, rest, hrun, hsame, hflight, hrest, hlast⟩ := exists_flight_of_erase hf
      cases rest with
      | call o' k' =>
          cases o' with
          | note n => exact absurd rfl (hlast n k')
          | op o' => cases hrest
      | ret reply' =>
          cases hrest
          refine ⟨tid, n, t, _, hrun, by simp only [step, hflight]; rfl, ?_⟩
          rw [erase_update, hsame]
          have hworld : t.world = s.world := congrArg Simplefs.Tasks.world hsame
          have hmade : t.made = s.made := congrArg Simplefs.Tasks.made hsame
          rw [hworld, hmade]
          rfl

/-- Without the notes the reachable states are those of the first system. -/
theorem reachable_erase_iff {w : World} {s' : Simplefs.Tasks} :
    Reachable Simplefs.Tasks.step (.idle w) s' ↔
      ∃ s, Reachable step (idle w) s ∧ s.erase = s' := by
  constructor
  · intro h
    refine h.invariant (P := fun s' => ∃ s, Reachable step (idle w) s ∧ s.erase = s') ?_ ?_
    · exact ⟨idle w, LinuxDevelopment.Reaches.refl, rfl⟩
    rintro _ u' l ⟨t, ht, rfl⟩ hstep
    obtain ⟨tid, n, u, hrun, hu⟩ := exists_step_of_erase hstep
    exact ⟨u, LinuxDevelopment.Reaches.trans ht (Reachable.of_replay hrun), hu⟩
  · rintro ⟨s, hs, rfl⟩
    refine hs.invariant (P := fun s => Reachable Simplefs.Tasks.step (.idle w) s.erase) ?_ ?_
    · exact LinuxDevelopment.Reaches.refl
    intro t u l ht hu
    obtain hnote | hstep := erase_step hu
    · exact hnote ▸ ht
    · exact ht.next hstep

end Erase

section Balance

variable {own : ℕ →₀ Multiset Resource} {lost : List (Multiset Resource)}

/-- A task holds `k`: nothing without a call, and what the rest of its call can
be followed from. -/
def Holds : Option Flight → Multiset Resource → Prop
  | none, k => k = 0
  | some f, k => Accounts f.env (Leaves f.env f.call) f.rest k

/-- The books: what each task holds, and what each call that has returned has
lost. -/
structure Balanced (s : Tasks) (own : ℕ →₀ Multiset Resource) (lost : List (Multiset Resource)) :
    Prop where
  holds : ∀ tid, Holds (s.flight tid) (own tid)
  leaves : List.Forall₂ (fun e k => Leaves e.env e.call e.reply k) s.ended lost
  taken : s.taken = own.sum (fun _ k => k) + lost.sum

theorem holds_update {flight : Nat → Option Flight} {x : Option Flight} {m : Multiset Resource}
    (h : ∀ u, Holds (flight u) (own u)) (hx : Holds x m) (u : Nat) :
    Holds (Function.update flight tid x u) (own.update tid m u) := by
  rw [Finsupp.coe_update]
  by_cases hu : u = tid
  · subst hu
    rw [Function.update_self, Function.update_self]
    exact hx
  · rw [Function.update_of_ne hu, Function.update_of_ne hu]
    exact h u

/-- An action on what its caller holds leaves alone what others hold. -/
theorem effect_add {o : Noted Op Note} {r : Noted.Res Note Op.Res o} {m : Multiset Resource}
    (h : ∀ x ∈ needs o, x ∈ m) (k : Multiset Resource) :
    effect o r (m + k) = effect o r m + k := by
  cases o with
  | note n =>
      cases n with
      | brelse b => exact Multiset.erase_add_left_pos k (h _ rfl)
      | kmemCacheAlloc => exact (Multiset.cons_add _ _ _).symm
  | op o =>
      cases o with
      | sbBread b =>
          cases r with
          | false => rfl
          | true => exact (Multiset.cons_add _ _ _).symm
      | dAdd p v =>
          obtain ⟨iIno, iFop, _ | q⟩ := v
          · rfl
          · exact Multiset.erase_add_left_pos k (h _ rfl)
      | _ => rfl

theorem sum_update {m : Multiset Resource} :
    (own.update tid m).sum (fun _ k => k) + own tid = own.sum (fun _ k => k) + m :=
  Finsupp.sum_update_add own tid m (fun _ k => k) (fun _ => rfl) fun _ _ _ => rfl

/-- What is taken changes as the account of the task that acts. -/
theorem Balanced.effect_taken (h : s.Balanced own lost) {o : Noted Op Note}
    {r : Noted.Res Note Op.Res o} (hneeds : ∀ x ∈ needs o, x ∈ own tid) :
    effect o r s.taken =
      (own.update tid (effect o r (own tid))).sum (fun _ k => k) + lost.sum := by
  have hothers : (own.update tid 0).sum (fun _ k => k) + own tid = own.sum (fun _ k => k) :=
    sum_update.trans (add_zero _)
  have hnew : (own.update tid (effect o r (own tid))).sum (fun _ k => k) =
      effect o r (own tid) + (own.update tid 0).sum (fun _ k => k) := by
    apply add_right_cancel (b := own tid)
    rw [sum_update, ← hothers]
    ac_rfl
  calc effect o r s.taken
      = effect o r (own tid + ((own.update tid 0).sum (fun _ k => k) + lost.sum)) := by
        rw [h.taken, ← hothers]
        congr 1
        ac_rfl
    _ = effect o r (own tid) + ((own.update tid 0).sum (fun _ k => k) + lost.sum) :=
        effect_add hneeds _
    _ = (own.update tid (effect o r (own tid))).sum (fun _ k => k) + lost.sum := by
        rw [hnew, add_assoc]

/-- A task performs an action or a note. -/
theorem Balanced.act (h : s.Balanced own lost) {o : Noted Op Note} {r : Noted.Res Note Op.Res o}
    {w : World} {c : Call} {env : Env} {k : Noted.Res Note Op.Res o → Code Reply}
    (hf : s.flight tid = some ⟨c, env, .call o k⟩) (hr : answers env o r) :
    Balanced { s with
      world := w
      taken := effect o r s.taken
      flight := Function.update s.flight tid (some ⟨c, env, k r⟩) }
      (own.update tid (effect o r (own tid))) lost := by
  have hheld := h.holds tid
  rw [hf] at hheld
  obtain ⟨m, hnext, hrest⟩ := hheld r hr
  obtain ⟨hneeds, hm⟩ := Option.ite_none_right_eq_some.mp hnext
  obtain rfl := Option.some.inj hm
  exact ⟨holds_update h.holds hrest, h.leaves, h.effect_taken hneeds⟩

/-- A call begins. -/
theorem Balanced.call (h : s.Balanced own lost) {c : Call} {env : Env}
    (hidle : s.flight tid = none) :
    Balanced { s with
      flight := Function.update s.flight tid (some ⟨c, env, code c⟩)
      made := (tid, c, env) :: s.made } own lost := by
  have hown : own tid = 0 := by
    have hheld := h.holds tid
    rwa [hidle] at hheld
  have hupdate : own.update tid 0 = own := by
    rw [← hown, Finsupp.update_self]
  refine ⟨?_, h.leaves, h.taken⟩
  have hholds : ∀ u, Holds (Function.update s.flight tid (some ⟨c, env, code c⟩) u)
      (own.update tid 0 u) := holds_update h.holds (accounts_code c)
  rwa [hupdate] at hholds

/-- A call returns, and what it holds is lost. -/
theorem Balanced.ret (h : s.Balanced own lost) {c : Call} {env : Env} {reply : Reply}
    (hf : s.flight tid = some ⟨c, env, .ret reply⟩) :
    Balanced { s with
      flight := Function.update s.flight tid none
      ended := ⟨tid, c, env, reply⟩ :: s.ended } (own.update tid 0) (own tid :: lost) := by
  have hheld := h.holds tid
  rw [hf] at hheld
  have hothers : (own.update tid 0).sum (fun _ k => k) + own tid = own.sum (fun _ k => k) :=
    sum_update.trans (add_zero _)
  refine ⟨holds_update h.holds rfl, .cons hheld h.leaves, ?_⟩
  rw [List.sum_cons, ← add_assoc, hothers]
  exact h.taken

theorem answers_of_exec {env : Env} {o : Op} {r : o.Res} {w w' : World}
    (h : exec tid env o w = .done r w') : answers env (.op o) r := by
  cases o with
  | mutexLockInterruptible site =>
      simp only [exec] at h
      split_ifs at h with hint hfree
      · cases h
        change false = !env.interrupted site
        rw [hint]
        rfl
      · cases h
        change true = !env.interrupted site
        rw [Bool.eq_false_iff.mpr hint]
        rfl
  | sbBread b =>
      cases h
      rfl
  | newInode =>
      cases h
      rfl
  | trap t => cases h
  | _ => trivial

theorem exists_balanced_of_reachable {w : World} (h : Reachable step (idle w) s) :
    ∃ own lost, s.Balanced own lost := by
  refine h.invariant (P := fun s => ∃ own lost, s.Balanced own lost) ?_ ?_
  · exact ⟨0, [], fun _ => rfl, .nil, rfl⟩
  · rintro t u l ⟨own, lost, ht⟩ hstep
    cases moves_of_step hstep with
    | call hidle _ => exact ⟨_, _, ht.call hidle⟩
    | act hf hx => exact ⟨_, _, ht.act hf (answers_of_exec hx)⟩
    | note hf => exact ⟨_, _, ht.act hf trivial⟩
    | ret hf => exact ⟨_, _, ht.ret hf⟩

/-- Every access, release and attachment has an answer the account is kept for. -/
theorem mem_of_follows {env : Env} {o : Noted Op Note} {α : Type}
    {k : Noted.Res Note Op.Res o → Code α} {Q : α → Multiset Resource → Prop}
    {m : Multiset Resource} (h : Accounts env Q (.call o k) m) : ∀ x ∈ needs o, x ∈ m := by
  have hanswer : ∀ r, answers env o r → ∀ x ∈ needs o, x ∈ m := by
    intro r hr
    obtain ⟨_, hnext, -⟩ := h r hr
    exact (Option.ite_none_right_eq_some.mp hnext).1
  cases o with
  | note n => exact hanswer () trivial
  | op o =>
      cases o with
      | load => exact hanswer [] trivial
      | store | markBufferDirty | syncDirtyBuffer | dAdd => exact hanswer () trivial
      | copyFromUser => exact hanswer false trivial
      | copyToUser => exact hanswer none trivial
      | _ => exact fun x hx => absurd hx (Option.not_mem_none x)

end Balance

/-- In every interleaving, what is taken is what the calls in progress hold and
what the calls that have returned have lost, each as the table says. A call
accesses and releases only buffers it holds itself, but for the loads and stores of
block 0 through `s_fs_info`, and attaches only inodes it has allocated. -/
theorem ledger_of_reachable {w : World} (h : Reachable step (idle w) s) :
    ∃ (own : ℕ →₀ Multiset Resource) (lost : List (Multiset Resource)),
      s.taken = own.sum (fun _ k => k) + lost.sum ∧
      List.Forall₂ (fun e k => Leaves e.env e.call e.reply k) s.ended lost ∧
      (∀ tid, s.flight tid = none → own tid = 0) ∧
      ∀ tid o, s.next tid = some o → ∀ x ∈ needs o, x ∈ own tid := by
  obtain ⟨own, lost, hs⟩ := exists_balanced_of_reachable h
  refine ⟨own, lost, hs.taken, hs.leaves, fun tid hf => ?_, fun tid o ho => ?_⟩
  · have hheld := hs.holds tid
    rwa [hf] at hheld
  unfold next at ho
  have hheld := hs.holds tid
  cases hf : s.flight tid with
  | none => simp [hf] at ho
  | some f =>
      obtain ⟨c, env, rest⟩ := f
      cases rest with
      | ret reply => simp [hf] at ho
      | call o' k =>
          rw [hf] at ho hheld
          cases ho
          exact mem_of_follows hheld

/-- A create that is interrupted when it saves its parent. -/
def interruptedCreate : List Label :=
  .call 0 (.create [] [97] 33188) (.interrupting [.inodeSave]) :: acts 42 0 ++ [.ret 0]

theorem ledger_interruptedCreate : ∃ s, Reachable step (idle mountedSample) s ∧
    s.taken = {.buffer 1, .inode} ∧ ∃ (own : ℕ →₀ Multiset Resource)
      (lost : List (Multiset Resource)), s.taken = own.sum (fun _ k => k) + lost.sum ∧
      own 0 = 0 ∧ lost.length = 1 := by
  have hx : (replay step interruptedCreate (idle mountedSample)).any (fun s =>
      decide (s.taken = {.buffer 1, .inode} ∧ (s.flight 0).isNone = true ∧ s.ended.length = 1)) =
        true := by decide +kernel
  obtain ⟨s, hs, htaken, hnone, hended⟩ := exists_of_replay_any hx
  obtain ⟨own, lost, hsum, hleaves, hidle, -⟩ := ledger_of_reachable (Reachable.of_replay hs)
  exact ⟨s, .of_replay hs, htaken, own, lost, hsum, hidle 0 (Option.isNone_iff_eq_none.mp hnone),
    hleaves.length_eq.symm.trans hended⟩

/-- The references to buffers among what is taken. -/
def buffers (m : Multiset Resource) : Nat := m.countP (· ≠ .inode)

/-- The references to buffers a call loses that is not interrupted: one when it
is a lookup, and one when it fails to save an inode. -/
def losesBuffers (e : Event) : Nat :=
  match e.call, e.reply with
  | .lookup .., _ => 1
  | .create .., .ret r | .mkdir .., .ret r =>
      if r = 0 ∨ r = -einval ∨ r = -enomem ∨ r = -enospc then 0 else 1
  | .write .., .wrote r _ => if r = -eio ∨ r = -eintr then 1 else 0
  | _, _ => 0

theorem buffers_createLeaves {env : Env} {full : Bool} {r : Int}
    (hint : ∀ site, env.interrupted site = false) (hfull : full = true → r = -enospc) :
    buffers (createLeaves env full r) =
      if r = 0 ∨ r = -einval ∨ r = -enomem ∨ r = -enospc then 0 else 1 := by
  have hadd : addLeaves env = 0 := by simp [addLeaves, hint]
  have hobject : createLeaves env full r = objectLeaves env full r := if_neg (by simp [hint])
  rw [hobject, objectLeaves]
  by_cases hearly : full = true ∨ r = -einval ∨ r = -enomem
  · have hr : r = 0 ∨ r = -einval ∨ r = -enomem ∨ r = -enospc := by
      obtain h | h | h := hearly
      · exact .inr (.inr (.inr (hfull h)))
      · exact .inr (.inl h)
      · exact .inr (.inr (.inl h))
    rw [if_pos hearly, if_pos hr]
    rfl
  · obtain ⟨-, hinval, hnomem⟩ := by simpa only [not_or] using hearly
    rw [if_neg hearly]
    by_cases hspc : r = -enospc
    · rw [if_pos (.inl hspc), if_pos (.inr (.inr (.inr hspc)))]
      rfl
    · have hblock : ¬ (r = -enospc ∨ env.interrupted .sbGetAFreeblock = true) := by
        simp only [hspc, hint, Bool.false_eq_true, or_self, not_false_eq_true]
      rw [if_neg hblock, tailLeaves, hadd]
      by_cases hzero : r = 0
      · rw [if_pos hzero, if_pos (.inl hzero)]
        rfl
      · have hfails : ¬ (r = 0 ∨ r = -einval ∨ r = -enomem ∨ r = -enospc) := by
          simp only [hzero, hinval, hnomem, hspc, or_self, not_false_eq_true]
        rw [if_neg hzero, if_neg (by simp [hint]), if_neg hfails]
        rfl

theorem buffers_of_leaves {e : Event} {k : Multiset Resource}
    (h : Leaves e.env e.call e.reply k) (hint : ∀ site, e.env.interrupted site = false) :
    buffers k = losesBuffers e := by
  obtain ⟨tid, c, env, reply⟩ := e
  cases c with
  | lookup dir name =>
      obtain ⟨block, rfl⟩ := h
      rfl
  | create dir name mode | mkdir dir name mode =>
      cases reply with
      | ret r =>
          obtain ⟨full, rfl, hfull⟩ := h
          exact buffers_createLeaves hint hfull
      | _ =>
          cases h
          rfl
  | write file buf pos =>
      cases reply with
      | wrote r pos =>
          cases h
          have hwrite : env.interrupted .write = false := hint .write
          simp only [writeLeaves, hwrite, losesBuffers, and_true]
          split_ifs <;> rfl
      | _ =>
          cases h
          rfl
  | _ =>
      cases h
      rfl

theorem buffers_sum {es : List Event} {lost : List (Multiset Resource)}
    (h : List.Forall₂ (fun e k => Leaves e.env e.call e.reply k) es lost)
    (hint : ∀ e ∈ es, ∀ site, e.env.interrupted site = false) :
    buffers lost.sum = (es.map losesBuffers).sum := by
  induction h with
  | nil => rfl
  | @cons e k es lost he _ ih =>
      have hk := buffers_of_leaves he (hint e List.mem_cons_self)
      have hrest := ih fun e' he' => hint e' (List.mem_cons_of_mem _ he')
      rw [List.sum_cons, List.map_cons, List.sum_cons, ← hk, ← hrest]
      exact Multiset.countP_add _ _ _

/-- When no call is in progress and none was interrupted at a lock, one reference
to a buffer is out for each lookup and for each call that could not save an
inode, however the calls were interleaved. -/
theorem buffers_of_quiescent {w : World} (h : Reachable step (idle w) s)
    (hquiet : ∀ tid, s.flight tid = none)
    (hint : ∀ e ∈ s.ended, ∀ site, e.env.interrupted site = false) :
    buffers s.taken = (s.ended.map losesBuffers).sum := by
  obtain ⟨own, lost, hs⟩ := exists_balanced_of_reachable h
  have hown : own = 0 := by
    ext1 tid
    have hheld := hs.holds tid
    rwa [hquiet tid] at hheld
  rw [hs.taken, hown, Finsupp.sum_zero_index, zero_add]
  exact buffers_sum hs.leaves hint

/-- Only tasks that have made a call have one in progress. -/
theorem flight_eq_none_of_reachable {w : World} (h : Reachable step (idle w) s)
    (htid : tid ∉ s.made.map Prod.fst) : s.flight tid = none := by
  revert htid
  refine h.invariant (P := fun s => tid ∉ s.made.map Prod.fst → s.flight tid = none)
    (fun _ => rfl) ?_
  intro t u l ht hstep htid
  have hkeep : t.flight tid = none → ∀ {tid' f} (x : Option Flight), t.flight tid' = some f →
      Function.update t.flight tid' x tid = none := by
    rintro hnone tid' f x hf
    have hne : tid ≠ tid' := by
      rintro rfl
      cases hnone.symm.trans hf
    exact (Function.update_of_ne hne _ _).trans hnone
  cases moves_of_step hstep with
  | call hidle _ =>
      obtain ⟨hne, hold⟩ := not_or.mp (List.mem_cons.not.mp htid)
      exact (Function.update_of_ne hne _ _).trans (ht hold)
  | act hf _ => exact hkeep (ht htid) _ hf
  | note hf => exact hkeep (ht htid) _ hf
  | ret hf => exact hkeep (ht htid) _ hf

/-- A lookup of a name that is not there. -/
def lookupSample : List Label := .call 0 (.lookup [] [98]) .quiet :: acts 3 0 ++ [.ret 0]

/-- The kernel interrupts the call at no lock. -/
def uninterrupted (env : Env) : Bool :=
  [LockSite.inodeAddMgmt, .inodeAddSb, .sbGetAFreeblock, .sbGetObjectsCount, .inodeSave, .write,
    .createChildren, .createMgmt].all fun site => !env.interrupted site

theorem interrupted_of_uninterrupted {env : Env} (h : uninterrupted env = true) (site : LockSite) :
    env.interrupted site = false := by
  have hall := List.all_eq_true.mp h site (by cases site <;> decide)
  simpa using hall

theorem buffers_lookupSample : ∃ s, replay step lookupSample (idle mountedSample) = some s ∧
    buffers s.taken = 1 := by
  have hx : (replay step lookupSample (idle mountedSample)).any (fun s =>
      decide ((s.flight 0).isNone = true ∧ s.made.map Prod.fst = [0] ∧
        s.ended.map losesBuffers = [1] ∧ s.ended.all (fun e => uninterrupted e.env) = true)) =
          true := by decide +kernel
  obtain ⟨s, hs, hnone, hmade, hloses, hall⟩ := exists_of_replay_any hx
  have hreach : Reachable step (idle mountedSample) s := .of_replay hs
  refine ⟨s, hs, ?_⟩
  rw [buffers_of_quiescent hreach, hloses]
  · rfl
  · intro tid
    by_cases htid : tid = 0
    · exact htid ▸ Option.isNone_iff_eq_none.mp hnone
    · exact flight_eq_none_of_reachable hreach (by simp [hmade, htid])
  · exact fun e he => interrupted_of_uninterrupted (List.all_eq_true.mp hall e he)

end Tasks

end LinuxDevelopment.Simplefs.Counted
