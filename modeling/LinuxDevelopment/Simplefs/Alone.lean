import LinuxDevelopment.Simplefs.Locks

/-!
# simplefs: what a task does when it is alone

The buffers and the in-memory inodes are what tasks share besides the mutexes.
`solo` is an action on them by a task that no other one disturbs: it finds
every mutex free. Whatever an action does among other tasks it does to the
caches as `solo` does it; a call that keeps the lock protocol and starts with
all mutexes free runs as its solo execution.
-/

namespace LinuxDevelopment.Simplefs

/-- The buffer cache and the inodes of the dentry cache. -/
structure Caches where
  cache : Image
  dcache : Path → Option VfsInode

def World.caches (w : World) : Caches := ⟨w.cache, w.dcache⟩

/-- The state with these caches in which nothing is locked or dirty. -/
def Caches.alone (m : Caches) : World where
  cache := m.cache
  media := m.cache
  dirty := fun _ => false
  dcache := m.dcache
  owner := fun _ => none

/-- One action of a task that is alone. -/
def solo (env : Env) (o : Op) (m : Caches) : Outcome Caches Trap o.Res :=
  match exec 0 env o m.alone with
  | .done r w => .done r w.caches
  | .stuck t w => .stuck t w.caches

open Tasks

variable {tid : Nat} {env : Env} {k : LockState} {o : Op} {r : o.Res} {w w' : World} {m m' : Caches}

theorem solo_eq_done : solo env o m = .done r m' ↔
    ∃ w, exec 0 env o m.alone = .done r w ∧ w.caches = m' := by
  unfold solo
  cases exec 0 env o m.alone with
  | done a w => simp only [Outcome.done.injEq]; grind
  | stuck t w => simp

theorem solo_lock (site : LockSite) :
    solo env (.mutexLockInterruptible site) m = .done (!env.interrupted site) m := by
  unfold solo
  simp only [exec]
  cases env.interrupted site <;> rfl

/-- The other tasks can only delay an action. -/
theorem solo_of_exec (h : exec tid env o w = .done r w') :
    solo env o w.caches = .done r w'.caches := by
  cases o with
  | mutexLockInterruptible site =>
      obtain ⟨rfl, hw⟩ := exec_lock h
      refine (solo_lock site).trans ?_
      rcases hw with ⟨-, rfl⟩ | ⟨-, -, rfl⟩ <;> rfl
  | simplefsInode p =>
      simp only [solo, exec] at h ⊢
      have hsame : w.caches.alone.simplefsInode p = w.simplefsInode p := rfl
      rw [hsame]
      cases hq : w.simplefsInode p with
      | none => rw [hq] at h; cases h
      | some q => rw [hq] at h; cases h; rfl
  | load | store | copyFromUser =>
      simp only [solo, exec] at h ⊢
      split_ifs at h ⊢
      cases h
      rfl
  | copyToUser b off len =>
      have hsame : w.caches.alone.cache = w.cache := rfl
      simp only [solo, exec, hsame] at h ⊢
      split_ifs at h ⊢ <;> cases h <;> rfl
  | trap => cases h
  | mutexUnlock | sbBread | markBufferDirty | syncDirtyBuffer | newInode | setFileSize | dAdd =>
      cases h
      rfl

/-- An action that finds its mutex free does what it does alone. -/
theorem exec_of_solo (h : solo env o w.caches = .done r m)
    (hfree : ∀ site, o = .mutexLockInterruptible site → w.owner site.mutex = none) :
    ∃ w', exec tid env o w = .done r w' ∧ w'.caches = m := by
  cases hx : exec tid env o w with
  | done r' w' =>
      have hs := solo_of_exec hx
      rw [h] at hs
      cases hs
      exact ⟨w', rfl, rfl⟩
  | stuck t w' =>
      exfalso
      cases o with
      | mutexLockInterruptible site =>
          simp only [exec, hfree site rfl, if_true] at hx
          split_ifs at hx
      | simplefsInode p =>
          have hsame : w.caches.alone.simplefsInode p = w.simplefsInode p := rfl
          simp only [solo, exec, hsame] at h hx
          cases hq : w.simplefsInode p with
          | none => rw [hq] at h; cases h
          | some q => rw [hq] at hx; cases hx
      | load | store | copyFromUser =>
          simp only [solo, exec] at h hx
          split_ifs at h hx
      | copyToUser b off len =>
          have hsame : w.caches.alone.cache = w.cache := rfl
          simp only [solo, exec, hsame] at h hx
          split_ifs at h hx
      | trap => cases h
      | mutexUnlock | sbBread | markBufferDirty | syncDirtyBuffer | newInode | setFileSize
      | dAdd => cases hx

/-- The task holds the mutexes of a state of the lock protocol, and no other
task holds any. -/
structure World.OwnedBy (w : World) (tid : Nat) (k : LockState) : Prop where
  sorted : k.held.Pairwise fun m n => n.rank < m.rank
  own : ∀ m, w.owner m = some tid ↔ m ∈ k.held
  only : ∀ m t, w.owner m = some t → t = tid

theorem World.OwnedBy.free (h : w.OwnedBy tid k) {site : LockSite} {k' : LockState}
    (hn : lockNext k (.mutexLockInterruptible site) true = some k') :
    w.owner site.mutex = none := by
  cases ho : w.owner site.mutex with
  | none => rfl
  | some t =>
      obtain rfl := h.only _ t ho
      have hmem := (h.own _).mp ho
      cases k with
      | working held =>
          obtain ⟨hrank, -⟩ := Option.ite_none_right_eq_some.mp hn
          exact absurd (hrank _ hmem) (Nat.lt_irrefl _)
      | released | added => cases hn

theorem World.OwnedBy.exec (h : w.OwnedBy tid k) {k' : LockState}
    (hn : lockNext k o r = some k') (hx : Simplefs.exec tid env o w = .done r w') :
    w'.OwnedBy tid k' := by
  obtain ⟨hs, hown⟩ := owner_of_exec hx hn h.sorted h.own
  refine ⟨hs, fun m => (hown m).1, fun m t ht => ?_⟩
  by_contra hne
  exact hne (h.only m t (((hown m).2 t hne).mp ht))

/-- A call that keeps the lock protocol is not held up when it is alone. -/
theorem run_of_solo {α : Type} {p : Code α} {a : α} {Q : α → LockState → Prop} {k : LockState}
    (hp : Orderly Q p k) (henv : ∀ site, site.careless = true → env.interrupted site = false)
    (hw : w.OwnedBy tid k) (hrun : p.run (solo env) w.caches = .done a m) :
    ∃ w', p.run (exec tid env) w = .done a w' ∧ w'.caches = m ∧ ∃ k', Q a k' ∧ w'.OwnedBy tid k' := by
  induction p generalizing w k with
  | ret b =>
      cases hrun
      exact ⟨w, rfl, rfl, k, hp, hw⟩
  | call o f ih =>
      obtain ⟨r, n, hr, hf⟩ := Outcome.bind_eq_done.mp hrun
      have hans : answers o r := by
        cases o with
        | mutexLockInterruptible site =>
            intro hcareless
            rw [solo_lock, henv site hcareless] at hr
            cases hr
            rfl
        | _ => trivial
      obtain ⟨k', hn, hrest⟩ := hp r hans
      have hx : ∃ w', exec tid env o w = .done r w' ∧ w'.caches = n := by
        by_cases hlock : ∃ site, o = .mutexLockInterruptible site
        · obtain ⟨site, rfl⟩ := hlock
          rw [solo_lock] at hr
          cases r with
          | false =>
              cases hint : env.interrupted site with
              | false => rw [hint] at hr; cases hr
              | true =>
                  rw [hint] at hr
                  cases hr
                  refine ⟨w, ?_, rfl⟩
                  simp only [exec, hint, if_true]
          | true =>
              exact exec_of_solo (by rw [solo_lock]; exact hr) fun site' h => by
                cases h
                exact hw.free hn
        · exact exec_of_solo hr fun site h => absurd ⟨site, h⟩ hlock
      obtain ⟨w₁, hw₁, rfl⟩ := hx
      obtain ⟨w', hrun', hm, k'', hQ, hown⟩ := ih r hrest (hw.exec hn hw₁) hf
      refine ⟨w', ?_, hm, k'', hQ, hown⟩
      rw [Prog.run_call, hw₁]
      exact hrun'

namespace Caches

variable (m : Caches)

/-- Overwrite bytes of a buffer. -/
@[simps -fullyApplied] def poke (b off : Nat) (bytes : List UInt8) : Caches :=
  { m with cache := Function.update m.cache b ((m.cache b).splice off bytes) }

/-- Change the size word of an in-memory inode. -/
@[simps -fullyApplied] def setFileSize (p : Path) (v : UInt64) : Caches :=
  { m with dcache := Function.update m.dcache p ((m.dcache p).map fun i =>
      { i with iPrivate := i.iPrivate.map fun q => { q with fileSize := v } }) }

@[simps -fullyApplied] def dAdd (p : Path) (v : VfsInode) : Caches :=
  { m with dcache := Function.update m.dcache p (some v) }

def simplefsInode (p : Path) : Option SimplefsInode := (m.dcache p).bind VfsInode.iPrivate

end Caches

/-- The actions that do not change the caches. -/
def Op.still : Op → Prop
  | .store .. | .copyFromUser .. | .setFileSize .. | .dAdd .. => False
  | _ => True

theorem solo_still (ho : o.still) (h : solo env o m = .done r m') : m' = m := by
  obtain ⟨w, hw, rfl⟩ := solo_eq_done.mp h
  cases o with
  | store | copyFromUser | setFileSize | dAdd => exact ho.elim
  | mutexLockInterruptible site =>
      obtain ⟨-, ⟨-, rfl⟩ | ⟨-, -, rfl⟩⟩ := exec_lock hw <;> rfl
  | simplefsInode p =>
      simp only [exec] at hw
      cases hq : m.alone.simplefsInode p with
      | none => rw [hq] at hw; cases hw
      | some q => rw [hq] at hw; cases hw; rfl
  | load =>
      simp only [exec] at hw
      split_ifs at hw
      cases hw
      rfl
  | copyToUser =>
      simp only [exec] at hw
      split_ifs at hw <;> cases hw <;> rfl
  | trap => cases hw
  | mutexUnlock | sbBread | markBufferDirty | syncDirtyBuffer | newInode =>
      cases hw
      rfl

theorem solo_load (b off len : Nat) : solo env (.load b off len) m =
    if inBlock off len then .done ((m.cache b).bytesAt off len) m else .stuck .outOfRange m := by
  simp only [solo, exec]
  split_ifs <;> rfl

theorem solo_store (b off : Nat) (bytes : List UInt8) : solo env (.store b off bytes) m =
    if inBlock off bytes.length then .done () (m.poke b off bytes) else .stuck .outOfRange m := by
  simp only [solo, exec]
  split_ifs <;> rfl

theorem solo_copyFromUser (b off : Nat) (bytes : List UInt8) :
    solo env (.copyFromUser b off bytes) m =
      if inBlock off bytes.length then
        .done ((copied env.copyFault bytes).length == bytes.length)
          (m.poke b off (zeroFilled env.copyFault bytes))
      else .stuck .outOfRange m := by
  simp only [solo, exec]
  split_ifs <;> rfl

theorem solo_simplefsInode (p : Path) : solo env (.simplefsInode p) m =
    match m.simplefsInode p with
    | some q => .done q m
    | none => .stuck .nullPointer m := by
  have hsame : m.alone.simplefsInode p = m.simplefsInode p := rfl
  simp only [solo, exec, hsame]
  cases m.simplefsInode p <;> rfl

end LinuxDevelopment.Simplefs
