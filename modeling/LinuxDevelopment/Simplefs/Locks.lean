import LinuxDevelopment.Base.Protocol
import LinuxDevelopment.Simplefs.AnyRun
import LinuxDevelopment.Simplefs.Interleaving
import Mathlib.Logic.Relation

/-!
# simplefs: the lock discipline

The functions of `simple.c` take the three mutexes in one order and give them
back in the opposite one. When a call has given back the last of them, all it
does is to add the new dentry. `lockNext` states this as a protocol, and every
call follows it, unless it is interrupted at one of the two acquisitions whose
failure the code gets wrong: `simplefs_sb_get_a_freeblock` then releases a
mutex it has not taken, and `simplefs_inode_add` keeps the one it has.
-/

namespace LinuxDevelopment.Simplefs

/-- The order in which the mutexes are taken. -/
def Mutex.rank : Mutex → Nat
  | .directoryChildrenUpdateLock => 0
  | .inodesMgmtLock => 1
  | .sbLock => 2

/-- The acquisitions whose failure is not handled. -/
def LockSite.careless : LockSite → Bool
  | .sbGetAFreeblock | .inodeAddSb => true
  | _ => false

/-- Where a call is with its locks. -/
inductive LockState where
  /-- it holds these mutexes, the last one taken first -/
  | working (held : List Mutex)
  /-- it has given back all mutexes -/
  | released
  /-- it has added the dentry as well -/
  | added
  deriving DecidableEq

/-- The mutexes a call holds. -/
def LockState.held : LockState → List Mutex
  | .working held => held
  | _ => []

/-- The mutex taken last is given back. -/
def LockState.pop : List Mutex → LockState
  | [] => .released
  | held => .working held

/-- The lock protocol. -/
def lockNext : LockState → (o : Op) → o.Res → Option LockState
  | .working held, .mutexLockInterruptible _, false => some (.working held)
  | .working held, .mutexLockInterruptible site, true =>
      if ∀ m ∈ held, m.rank < site.mutex.rank then some (.working (site.mutex :: held)) else none
  | .working (m :: held), .mutexUnlock n, _ => if n = m then some (.pop held) else none
  | .working [], .mutexUnlock _, _ => none
  | .working (_ :: _), .dAdd .., _ => none
  | .working held, _, _ => some (.working held)
  | .released, .dAdd .., _ => some .added
  | _, _, _ => none

/-- The answers of a kernel that interrupts none of the careless acquisitions. -/
def answers : (o : Op) → o.Res → Prop
  | .mutexLockInterruptible site, taken => site.careless = true → taken = true
  | _, _ => True

/-- The code keeps the lock protocol. -/
abbrev Orderly {α : Type} (Q : α → LockState → Prop) (p : Code α) (k : LockState) : Prop :=
  p.Follows answers lockNext Q k

section Functions

variable {α : Type} {p : Code α} {Q : α → LockState → Prop} {held : List Mutex} {m : Mutex}

/-- The actions that are neither about locks nor about dentries. -/
def Op.ordinary : Op → Prop
  | .mutexLockInterruptible _ | .mutexUnlock _ | .dAdd .. => False
  | _ => True

theorem lockNext_ordinary {o : Op} (r : o.Res) (ho : o.ordinary) :
    lockNext (.working held) o r = some (.working held) := by
  cases o with
  | mutexLockInterruptible | mutexUnlock | dAdd => exact ho.elim
  | _ => rfl

/-- Code without locks and dentries may stand anywhere. -/
theorem orderly_of_only (hp : p.Only Op.ordinary) :
    Orderly (fun _ k => k = .working held) p (.working held) :=
  hp.follows (fun _ r ho => lockNext_ordinary r ho) fun _ => rfl

theorem Reads.ordinary (hp : Reads p) : p.Only Op.ordinary := by
  refine hp.mono ?_
  rintro o (ho | ⟨b, rfl⟩)
  · cases o with
    | load | trap | simplefsInode | newInode | copyToUser => trivial
    | _ => exact ho.elim
  · trivial

theorem orderly_bind {β : Type} {f : β → Code α} {p : Code β} (hp : p.Only Op.ordinary)
    (hf : ∀ b, Orderly Q (f b) (.working held)) : Orderly Q (p >>= f) (.working held) := by
  apply (orderly_of_only hp).bind
  rintro b k rfl
  exact hf b

theorem orderly_act_bind {o : Op} {f : o.Res → Code α} (ho : o.ordinary)
    (hf : ∀ r, Orderly Q (f r) (.working held)) : Orderly Q (act o >>= f) (.working held) :=
  orderly_bind (.perform ho) hf

theorem orderly_lock {site : LockSite} {fail rest : Code α}
    (hrank : ∀ n ∈ held, n.rank < site.mutex.rank)
    (hfail : site.careless = false → Orderly Q fail (.working held))
    (hrest : Orderly Q rest (.working (site.mutex :: held))) :
    Orderly Q (mutexLockInterruptible site >>= fun taken => if (!taken) = true then fail else rest)
      (.working held) := by
  intro taken htaken
  cases taken with
  | false => exact ⟨_, rfl, hfail (by simpa [answers] using htaken)⟩
  | true => exact ⟨_, if_pos hrank, hrest⟩

theorem orderly_unlock {f : Unit → Code α} (hf : Orderly Q (f ()) (.pop held)) :
    Orderly Q (mutexUnlock m >>= f) (.working (m :: held)) :=
  fun _ _ => ⟨_, if_pos rfl, hf⟩

theorem ordinary_sbBreadBugOn (b : Nat) : (sbBreadBugOn b).Only Op.ordinary :=
  (reads_sbBreadBugOn b).ordinary

theorem ordinary_load64 (b off : Nat) : (load64 b off).Only Op.ordinary :=
  (loads_load64 b off).reads.ordinary

theorem ordinary_simplefsSbSync : simplefsSbSync.Only Op.ordinary := by
  apply Prog.Only.bind (ordinary_sbBreadBugOn _)
  intro _
  exact .bind (.perform trivial) fun _ => .perform trivial

theorem orderly_simplefsSbGetObjectsCount :
    Orderly (fun _ k => k = .working [.directoryChildrenUpdateLock]) simplefsSbGetObjectsCount
      (.working [.directoryChildrenUpdateLock]) := by
  refine orderly_lock (by decide) (fun _ => rfl) ?_
  apply orderly_bind (ordinary_load64 _ _)
  intro count
  exact orderly_unlock rfl

theorem orderly_simplefsSbGetAFreeblock :
    Orderly (fun _ k => k = .working [.directoryChildrenUpdateLock]) simplefsSbGetAFreeblock
      (.working [.directoryChildrenUpdateLock]) := by
  refine orderly_lock (by decide) (fun h => absurd h (by decide)) ?_
  apply orderly_bind (ordinary_load64 _ _)
  intro freeBlocks
  refine .ite (orderly_unlock rfl) ?_
  apply orderly_act_bind (by trivial)
  intro _
  apply orderly_bind ordinary_simplefsSbSync
  intro _
  exact orderly_unlock rfl

theorem orderly_simplefsInodeAdd (e : SimplefsInode) :
    Orderly (fun _ k => k = .working [.directoryChildrenUpdateLock]) (simplefsInodeAdd e)
      (.working [.directoryChildrenUpdateLock]) := by
  refine orderly_lock (by decide) (fun _ => rfl) ?_
  apply orderly_bind (ordinary_sbBreadBugOn _)
  intro _
  refine orderly_lock (by decide) (fun h => absurd h (by decide)) ?_
  apply orderly_bind (ordinary_load64 _ _)
  intro count
  apply orderly_act_bind (by trivial)
  intro _
  apply orderly_act_bind (by trivial)
  intro _
  apply orderly_act_bind (by trivial)
  intro _
  apply orderly_bind ordinary_simplefsSbSync
  intro _
  apply orderly_unlock
  exact orderly_unlock (f := fun _ => pure ()) rfl

theorem orderly_simplefsInodeSave (inode : Path)
    (hrank : ∀ n ∈ m :: held, n.rank < Mutex.sbLock.rank) :
    Orderly (fun _ k => k = .working (m :: held)) (simplefsInodeSave inode)
      (.working (m :: held)) := by
  apply orderly_bind (ordinary_sbBreadBugOn _)
  intro _
  refine orderly_lock hrank (fun _ => rfl) ?_
  apply orderly_act_bind (by trivial)
  intro sfsInode
  apply orderly_bind (loads_simplefsInodeSearch sfsInode).reads.ordinary
  intro found
  cases found with
  | none => exact orderly_unlock rfl
  | some i =>
      apply orderly_act_bind (by trivial)
      intro _
      apply orderly_act_bind (by trivial)
      intro _
      apply orderly_act_bind (by trivial)
      intro _
      exact orderly_unlock rfl

/-- The states in which a call may return. -/
def Finished {α : Type} (_ : α) (k : LockState) : Prop := k.held = []

theorem orderly_createCommit (dir : Path) (name : Name) (e : SimplefsInode) :
    Orderly Finished (createCommit dir name e) (.working [.directoryChildrenUpdateLock]) := by
  refine orderly_lock (by decide) (fun _ => orderly_unlock rfl) ?_
  apply orderly_act_bind (by trivial)
  intro parentDirInode
  apply orderly_act_bind (by trivial)
  intro _
  apply (orderly_simplefsInodeSave dir (by decide)).bind
  rintro ret _ rfl
  refine .ite ?_ ?_
  · exact orderly_unlock (orderly_unlock rfl)
  · refine orderly_unlock (orderly_unlock ?_)
    exact fun _ _ => ⟨_, rfl, rfl⟩

theorem orderly_createTail (dir : Path) (name : Name) (e : SimplefsInode) :
    Orderly Finished (createTail dir name e) (.working [.directoryChildrenUpdateLock]) := by
  apply (orderly_simplefsInodeAdd e).bind
  rintro _ _ rfl
  apply orderly_act_bind (by trivial)
  intro parentDirInode
  apply orderly_bind (ordinary_sbBreadBugOn _)
  intro _
  apply orderly_act_bind (by trivial)
  intro _
  apply orderly_act_bind (by trivial)
  intro _
  apply orderly_act_bind (by trivial)
  intro _
  apply orderly_act_bind (by trivial)
  intro _
  exact orderly_createCommit dir name e

theorem orderly_simplefsCreateFsObject (dir : Path) (name : Name) (mode : UInt16) :
    Orderly Finished (simplefsCreateFsObject dir name mode) (.working []) := by
  rw [createFsObject_eq]
  refine orderly_lock (by decide) (fun _ => rfl) ?_
  apply orderly_simplefsSbGetObjectsCount.bind
  rintro ⟨ret, count⟩ _ rfl
  refine .ite (orderly_unlock rfl) (.ite (orderly_unlock rfl) (.ite (orderly_unlock rfl) ?_))
  apply orderly_act_bind (by trivial)
  intro inode
  refine .ite (orderly_unlock rfl) ?_
  apply orderly_simplefsSbGetAFreeblock.bind
  rintro ⟨ret, block⟩ _ rfl
  exact .ite (orderly_unlock rfl) (orderly_createTail _ _ _)

theorem orderly_writeCommit (filp : Path) (len pos : Nat) :
    Orderly Finished (writeCommit filp len pos) (.working []) := by
  refine orderly_lock (by decide) (fun _ => rfl) ?_
  apply orderly_act_bind (by trivial)
  intro _
  apply (orderly_simplefsInodeSave filp (by decide)).bind
  rintro retval _ rfl
  exact orderly_unlock rfl

theorem orderly_simplefsWrite (filp : Path) (buf : List UInt8) (ppos : Nat) :
    Orderly Finished (simplefsWrite filp buf ppos) (.working []) := by
  unfold simplefsWrite
  cases genericWriteChecks ppos buf.length simplefsDefaultBlockSize with
  | error retval => rfl
  | ok len =>
      apply orderly_act_bind (by trivial)
      intro sfsInode
      apply orderly_act_bind (by trivial)
      intro readable
      refine .ite rfl ?_
      apply orderly_act_bind (by trivial)
      intro moved
      refine .ite rfl ?_
      apply orderly_act_bind (by trivial)
      intro _
      apply orderly_act_bind (by trivial)
      intro _
      exact orderly_writeCommit filp len (ppos + len)

theorem orderly_dAdd (p : Path) (v : VfsInode) :
    Orderly (fun _ k => k = .working []) (dAdd p v) (.working []) :=
  fun _ _ => ⟨_, rfl, rfl⟩

theorem orderly_simplefsLookup (dir : Path) (name : Name) :
    Orderly (fun _ k => k = .working []) (simplefsLookup dir name) (.working []) := by
  apply orderly_act_bind (by trivial)
  intro parent
  apply orderly_bind (ordinary_sbBreadBugOn _)
  intro _
  apply orderly_bind (loads_lookupLoop _ _ _ _).reads.ordinary
  intro found
  cases found with
  | none => rfl
  | some inodeNo =>
      apply orderly_bind (reads_simplefsGetInode inodeNo).ordinary
      intro sfsInode
      apply orderly_bind loads_newInodeUnchecked.reads.ordinary
      intro _
      cases sfsInode with
      | none => exact orderly_of_only (.perform trivial)
      | some q => exact orderly_dAdd _ _

theorem orderly_simplefsFillSuper :
    Orderly (fun _ k => k = .working []) simplefsFillSuper (.working []) := by
  apply orderly_bind (ordinary_sbBreadBugOn _)
  intro _
  apply orderly_bind (ordinary_load64 _ _)
  intro magic
  refine .ite rfl ?_
  apply orderly_bind (ordinary_load64 _ _)
  intro blockSize
  refine .ite rfl ?_
  apply orderly_bind loads_newInodeUnchecked.reads.ordinary
  intro _
  apply orderly_bind (reads_simplefsGetInode _).ordinary
  intro root
  apply (orderly_dAdd _ _).bind
  rintro _ _ rfl
  rfl

/-- Every call keeps the lock protocol. -/
theorem orderly_code (c : Call) : Orderly Finished c.code (.working []) := by
  cases c with
  | mount =>
      apply orderly_simplefsFillSuper.bind
      rintro r _ rfl
      rfl
  | unmount => rfl
  | lookup dir name =>
      apply (orderly_simplefsLookup dir name).bind
      rintro r _ rfl
      rfl
  | create dir name mode =>
      exact (orderly_simplefsCreateFsObject dir name mode).bind fun _ _ h => h
  | mkdir dir name mode =>
      exact (orderly_simplefsCreateFsObject dir name _).bind fun _ _ h => h
  | iterate dir pos => exact orderly_bind (reads_simplefsIterate dir pos).ordinary fun _ => rfl
  | read file len pos => exact orderly_bind (reads_simplefsRead file len pos).ordinary fun _ => rfl
  | write file buf pos => exact (orderly_simplefsWrite file buf pos).bind fun _ _ h => h

end Functions

/-- An acquisition that is not interrupted takes a free mutex. -/
theorem exec_lock {tid : Nat} {env : Env} {site : LockSite} {taken : Bool} {w w' : World}
    (hx : exec tid env (.mutexLockInterruptible site) w = .done taken w') :
    taken = !env.interrupted site ∧ (taken = false ∧ w' = w ∨
      taken = true ∧ w.owner site.mutex = none ∧ w' = w.setOwner site.mutex (some tid)) := by
  simp only [exec] at hx
  split_ifs at hx with hint hfree
  · cases hx
    exact ⟨by rw [hint]; rfl, .inl ⟨rfl, rfl⟩⟩
  · cases hx
    exact ⟨by simp [hint], .inr ⟨rfl, hfree, rfl⟩⟩

/-- The actions that do not touch the mutexes. -/
theorem exec_owner {tid : Nat} {env : Env} {o : Op} {r : o.Res} {w w' : World}
    (hx : exec tid env o w = .done r w') (ho : o.ordinary ∨ ∃ p v, o = .dAdd p v) :
    w'.owner = w.owner := by
  rcases ho with ho | ⟨p, v, rfl⟩
  · cases o with
    | mutexLockInterruptible | mutexUnlock | dAdd => exact ho.elim
    | load | store | copyFromUser =>
        simp only [exec] at hx
        split_ifs at hx
        cases hx
        rfl
    | copyToUser =>
        simp only [exec] at hx
        split_ifs at hx <;> cases hx <;> rfl
    | simplefsInode p =>
        simp only [exec] at hx
        cases hq : w.simplefsInode p with
        | none => rw [hq] at hx; cases hx
        | some q => rw [hq] at hx; cases hx; rfl
    | trap => cases hx
    | sbBread | markBufferDirty | syncDirtyBuffer | newInode | setFileSize =>
        cases hx
        rfl
  · cases hx
    rfl

/-- A mutex is taken from nobody, and given back by an unlock only. -/
theorem exec_owner_keep {tid t : Nat} {env : Env} {o : Op} {r : o.Res} {w w' : World} {m : Mutex}
    (hx : exec tid env o w = .done r w') (ho : o ≠ .mutexUnlock m) (hm : w.owner m = some t) :
    w'.owner m = some t := by
  by_cases hlock : o.ordinary ∨ ∃ p v, o = .dAdd p v
  · rw [exec_owner hx hlock]
    exact hm
  · cases o with
    | mutexLockInterruptible site =>
        obtain ⟨-, ⟨-, rfl⟩ | ⟨-, hfree, rfl⟩⟩ := exec_lock hx
        · exact hm
        · rw [World.setOwner_owner, Function.update_of_ne]
          · exact hm
          · rintro rfl
            rw [hm] at hfree
            cases hfree
    | mutexUnlock n =>
        cases hx
        rw [World.setOwner_owner, Function.update_of_ne]
        · exact hm
        · rintro rfl
          exact ho rfl
    | dAdd p v => exact absurd (.inr ⟨p, v, rfl⟩) hlock
    | _ => exact absurd (.inl trivial) hlock

theorem exists_answers (o : Op) : ∃ r, answers o r := by
  cases o with
  | mutexLockInterruptible site => exact ⟨true, fun _ => rfl⟩
  | sbBread | newInode | copyFromUser => exact ⟨true, trivial⟩
  | load => exact ⟨[], trivial⟩
  | copyToUser => exact ⟨none, trivial⟩
  | simplefsInode => exact ⟨⟨0, 0, 0, 0⟩, trivial⟩
  | _ => exact ⟨(), trivial⟩

theorem Orderly.ret_of_added {α : Type} {p : Code α} {Q : α → LockState → Prop}
    (h : Orderly Q p .added) : ∃ a, p = .ret a := by
  cases p with
  | ret a => exact ⟨a, rfl⟩
  | call o f =>
      obtain ⟨r, hr⟩ := exists_answers o
      obtain ⟨k, hk, -⟩ := h r hr
      cases o <;> cases hk

/-- All that is left to do without a mutex is to add a dentry. -/
theorem Orderly.released_cases {α : Type} {p : Code α} {Q : α → LockState → Prop}
    (h : Orderly Q p .released) :
    (∃ a, p = .ret a) ∨ ∃ q x f a, p = .call (.dAdd q x) f ∧ f () = .ret a := by
  cases p with
  | ret a => exact .inl ⟨a, rfl⟩
  | call o f =>
      obtain ⟨r, hr⟩ := exists_answers o
      obtain ⟨k, hk, hrest⟩ := h r hr
      cases o with
      | dAdd q x =>
          cases hk
          obtain ⟨a, ha⟩ := Orderly.ret_of_added hrest
          exact .inr ⟨q, x, f, a, rfl, ha⟩
      | _ => cases hk

namespace Tasks

variable {s t : Tasks} {l : Label} {tid : Nat} {held : Nat → LockState}

/-- The acquisition in which the next action of a task is interrupted. -/
def interruptedAt (s : Tasks) (tid : Nat) : Option LockSite :=
  match s.flight tid with
  | some ⟨_, env, .call (.mutexLockInterruptible site) _⟩ =>
      if env.interrupted site then some site else none
  | _ => none

/-- The step is not the failure of a careless acquisition. -/
def Handled (s : Tasks) : Label → Prop
  | .act tid => ∀ site ∈ s.interruptedAt tid, site.careless = false
  | _ => True

instance (s : Tasks) : (l : Label) → Decidable (s.Handled l)
  | .call .. => isTrue trivial
  | .act _ => inferInstanceAs (Decidable (∀ site ∈ _, _ = _))
  | .ret _ => isTrue trivial

/-- The lock discipline: a task releases only what it holds, takes nothing it
holds, and holds nothing when its call returns. -/
structure Disciplined (s : Tasks) : Prop where
  unlock : ∀ tid m, s.next tid = some (.mutexUnlock m) → s.world.owner m = some tid
  lock : ∀ tid site, s.next tid = some (.mutexLockInterruptible site) →
    s.world.owner site.mutex ≠ some tid
  ret : ∀ tid, s.returns tid = true → ∀ m, s.world.owner m ≠ some tid

/-- The mutexes are held as the lock protocol of each call says. -/
structure Held (s : Tasks) (held : Nat → LockState) : Prop where
  idle : ∀ tid, s.flight tid = none → (held tid).held = []
  follows : ∀ tid f, s.flight tid = some f → Orderly Finished f.rest (held tid)
  sorted : ∀ tid, (held tid).held.Pairwise fun m n => n.rank < m.rank
  owner : ∀ m tid, s.world.owner m = some tid ↔ m ∈ (held tid).held

theorem held_of_lockNext {o : Op} {r : o.Res} {k k' : LockState} (hn : lockNext k o r = some k')
    (ho : o.ordinary ∨ ∃ p v, o = .dAdd p v) : k'.held = k.held := by
  rcases ho with ho | ⟨p, v, rfl⟩
  · cases k with
    | working held =>
        rw [lockNext_ordinary r ho] at hn
        cases hn
        rfl
    | released | added =>
        cases o with
        | mutexLockInterruptible | mutexUnlock | dAdd => exact ho.elim
        | _ => cases hn
  · cases k with
    | working held =>
        cases held with
        | nil => cases hn; rfl
        | cons m held => cases hn
    | released => cases hn; rfl
    | added => cases hn

/-- An action changes the owners as the protocol says. -/
theorem owner_of_exec {env : Env} {o : Op} {r : o.Res} {w w' : World} {k k' : LockState}
    (hx : exec tid env o w = .done r w') (hn : lockNext k o r = some k')
    (hs : k.held.Pairwise fun m n => n.rank < m.rank)
    (ho : ∀ m, w.owner m = some tid ↔ m ∈ k.held) :
    (k'.held.Pairwise fun m n => n.rank < m.rank) ∧ ∀ m,
      (w'.owner m = some tid ↔ m ∈ k'.held) ∧
        ∀ u, u ≠ tid → (w'.owner m = some u ↔ w.owner m = some u) := by
  by_cases hlock : o.ordinary ∨ ∃ p v, o = .dAdd p v
  · rw [exec_owner hx hlock, held_of_lockNext hn hlock]
    exact ⟨hs, fun m => ⟨ho m, fun u _ => Iff.rfl⟩⟩
  · cases o with
    | mutexLockInterruptible site =>
        obtain ⟨-, ⟨rfl, rfl⟩ | ⟨rfl, hfree, rfl⟩⟩ := exec_lock hx
        · cases k with
          | working held =>
              cases hn
              exact ⟨hs, fun m => ⟨ho m, fun u _ => Iff.rfl⟩⟩
          | released | added => cases hn
        · cases k with
          | released | added => cases hn
          | working held =>
              obtain ⟨hrank, ⟨⟩⟩ := Option.ite_none_right_eq_some.mp hn
              refine ⟨List.pairwise_cons.mpr ⟨hrank, hs⟩, fun m => ?_⟩
              rw [World.setOwner_owner]
              by_cases hm : m = site.mutex
              · subst hm
                rw [Function.update_self]
                refine ⟨by simp [LockState.held], fun u hu => ?_⟩
                rw [hfree]
                simp [Ne.symm hu]
              · rw [Function.update_of_ne hm]
                refine ⟨?_, fun u _ => Iff.rfl⟩
                rw [ho m]
                simp [LockState.held, hm, -LockSite.mutex]
    | mutexUnlock n =>
        cases hx
        cases k with
        | released | added => cases hn
        | working held =>
            cases held with
            | nil => cases hn
            | cons m₀ held =>
                obtain ⟨rfl, ⟨⟩⟩ := Option.ite_none_right_eq_some.mp hn
                have hpop : (LockState.pop held).held = held := by cases held <;> rfl
                rw [hpop]
                obtain ⟨hlt, hs⟩ := List.pairwise_cons.mp hs
                refine ⟨hs, fun m => ?_⟩
                rw [World.setOwner_owner]
                by_cases hm : m = n
                · subst hm
                  have hown : w.owner m = some tid := (ho m).mpr (by simp [LockState.held])
                  have hnot : m ∉ held := fun hmem => Nat.lt_irrefl _ (hlt m hmem)
                  rw [Function.update_self, hown]
                  exact ⟨by simp [hnot], fun u hu => by simp [Ne.symm hu]⟩
                · rw [Function.update_of_ne hm]
                  refine ⟨?_, fun u _ => Iff.rfl⟩
                  rw [ho m]
                  simp [LockState.held, hm]
    | dAdd p v => exact absurd (.inr ⟨p, v, rfl⟩) hlock
    | _ => exact absurd (.inl trivial) hlock

/-- The answer of an action is one the protocol expects. -/
theorem answers_of_exec {c : Call} {env : Env} {o : Op} {k : o.Res → Code Reply} {r : o.Res}
    {w : World} (hl : s.Handled (.act tid)) (hf : s.flight tid = some ⟨c, env, .call o k⟩)
    (hx : exec tid env o s.world = .done r w) : answers o r := by
  cases o with
  | mutexLockInterruptible site =>
      intro hcareless
      obtain ⟨htaken, -⟩ := exec_lock hx
      rw [htaken]
      cases hint : env.interrupted site with
      | false => rfl
      | true =>
          have hat : site ∈ s.interruptedAt tid := by
            unfold interruptedAt
            rw [hf]
            exact if_pos hint
          rw [hl site hat] at hcareless
          cases hcareless
  | _ => trivial

/-- One task moves on, and the mutexes of the others are left alone. -/
theorem Held.update (h : s.Held held) {f' : Option Flight} {k : LockState}
    (hflight : t.flight = Function.update s.flight tid f') (hidle : f' = none → k.held = [])
    (hfollows : ∀ f, f' = some f → Orderly Finished f.rest k)
    (hsorted : k.held.Pairwise fun m n => n.rank < m.rank)
    (howner : ∀ m, (t.world.owner m = some tid ↔ m ∈ k.held) ∧
      ∀ u, u ≠ tid → (t.world.owner m = some u ↔ s.world.owner m = some u)) :
    t.Held (Function.update held tid k) := by
  constructor
  case idle =>
    intro u hu
    rw [hflight] at hu
    by_cases hut : u = tid
    · subst hut
      rw [Function.update_self] at hu ⊢
      exact hidle hu
    · rw [Function.update_of_ne hut] at hu ⊢
      exact h.idle u hu
  case follows =>
    intro u f hu
    rw [hflight] at hu
    by_cases hut : u = tid
    · subst hut
      rw [Function.update_self] at hu ⊢
      exact hfollows f hu
    · rw [Function.update_of_ne hut] at hu ⊢
      exact h.follows u f hu
  case sorted =>
    intro u
    by_cases hut : u = tid
    · subst hut
      rw [Function.update_self]
      exact hsorted
    · rw [Function.update_of_ne hut]
      exact h.sorted u
  case owner =>
    intro m u
    by_cases hut : u = tid
    · subst hut
      rw [Function.update_self]
      exact (howner m).1
    · rw [Function.update_of_ne hut]
      exact ((howner m).2 u hut).trans (h.owner m u)

theorem Held.moves (h : s.Held held) (hm : s.Moves l t) (hl : s.Handled l) :
    ∃ held', t.Held held' := by
  cases hm with
  | @call tid c env hidle hcode =>
      refine ⟨_, h.update (k := .working []) rfl (fun _ => rfl) ?_ .nil ?_⟩
      · rintro f ⟨⟩
        exact orderly_code c
      · intro m
        refine ⟨?_, fun u _ => Iff.rfl⟩
        rw [h.owner m tid, h.idle tid hidle]
        rfl
  | @act tid c env o k r w hf hx =>
      obtain ⟨k', hn, hrest⟩ := h.follows tid _ hf r (answers_of_exec hl hf hx)
      obtain ⟨hs, hown⟩ := owner_of_exec hx hn (h.sorted tid) fun m => h.owner m tid
      refine ⟨_, h.update rfl (fun hnone => nomatch hnone) ?_ hs hown⟩
      rintro f ⟨⟩
      exact hrest
  | @ret tid c env reply hf =>
      refine ⟨_, h.update (k := held tid) rfl (fun _ => h.follows tid _ hf) ?_ (h.sorted tid) ?_⟩
      · rintro f ⟨⟩
      · exact fun m => ⟨h.owner m tid, fun u _ => Iff.rfl⟩

/-- In the runs that handle every interruption the protocols are kept. -/
theorem held_of_reaches {w : World} (hfree : ∀ m, w.owner m = none)
    (h : Reaches Tasks.step Handled (idle w) s) : ∃ held, s.Held held := by
  refine h.invariant (P := fun s => ∃ held, s.Held held) ?_ ?_
  · refine ⟨fun _ => .working [], fun _ _ => rfl, ?_, fun _ => .nil, ?_⟩
    · intro tid f hf
      cases hf
    · intro m tid
      change w.owner m = some tid ↔ _
      rw [hfree m]
      simp [LockState.held]
  · rintro s t l - ⟨held, hs⟩ hl hst
    exact hs.moves (moves_of_step hst) hl

/-- A task that is to take a mutex holds only mutexes that come before it. -/
theorem Held.rank_lt (h : s.Held held) {site : LockSite}
    (hn : s.next tid = some (.mutexLockInterruptible site)) {m : Mutex}
    (hm : s.world.owner m = some tid) : m.rank < site.mutex.rank := by
  obtain ⟨c, env, k, hf⟩ := next_eq_some.mp hn
  obtain ⟨k', hk, -⟩ := h.follows tid _ hf true fun _ => rfl
  have hmem := (h.owner m tid).mp hm
  cases hs : held tid with
  | working ms =>
      rw [hs] at hk hmem
      exact (Option.ite_none_right_eq_some.mp hk).1 m hmem
  | released | added =>
      rw [hs] at hk
      cases hk

theorem Held.disciplined (h : s.Held held) : s.Disciplined where
  unlock := by
    intro tid m hn
    obtain ⟨c, env, k, hf⟩ := next_eq_some.mp hn
    obtain ⟨k', hk, -⟩ := h.follows tid _ hf () trivial
    rw [h.owner]
    cases hs : held tid with
    | working ms =>
        rw [hs] at hk
        cases ms with
        | nil => cases hk
        | cons m₀ ms =>
            obtain ⟨rfl, -⟩ := Option.ite_none_right_eq_some.mp hk
            simp [LockState.held]
    | released | added =>
        rw [hs] at hk
        cases hk
  lock := fun tid site hn hown => Nat.lt_irrefl _ (h.rank_lt hn hown)
  ret := by
    intro tid hr m hown
    obtain ⟨c, env, reply, hf⟩ := returns_iff.mp hr
    have hdone : (held tid).held = [] := h.follows tid _ hf
    rw [h.owner, hdone] at hown
    cases hown

/-- The mutexes of the other tasks stay theirs. -/
theorem Held.owner_other (h : s.Held held) {c : Call} {env : Env} {o : Op} {k : o.Res → Code Reply}
    {r : o.Res} {w : World} (hf : s.flight tid = some ⟨c, env, .call o k⟩)
    (hx : exec tid env o s.world = .done r w) {a : Nat} (ha : a ≠ tid) {m : Mutex}
    (hm : s.world.owner m = some a) : w.owner m = some a := by
  refine exec_owner_keep hx ?_ hm
  rintro rfl
  have hown := h.disciplined.unlock tid m (next_eq_some.mpr ⟨c, env, k, hf⟩)
  rw [hm] at hown
  exact ha (Option.some.inj hown)

/-- The task `t` is about to take a mutex that `u` holds. -/
def Waits (s : Tasks) (t u : Nat) : Prop :=
  ∃ site, s.next t = some (.mutexLockInterruptible site) ∧ s.world.owner site.mutex = some u

/-- The rank of the mutex a task is about to take, above all of them if it takes none. -/
def level (s : Tasks) (tid : Nat) : Nat :=
  match s.next tid with
  | some (.mutexLockInterruptible site) => site.mutex.rank
  | _ => 3

theorem Held.level_lt (h : s.Held held) {t u : Nat} (hw : s.Waits t u) : s.level t < s.level u := by
  obtain ⟨site, hn, hown⟩ := hw
  have hle : site.mutex.rank < 3 := by cases site <;> decide
  unfold level
  rw [hn]
  cases hu : s.next u with
  | none => exact hle
  | some o =>
      cases o with
      | mutexLockInterruptible site' => exact h.rank_lt hu hown
      | _ => exact hle

/-- Tasks wait for mutexes of ever higher rank, so never in a circle. -/
theorem Held.not_waits_cycle (h : s.Held held) (tid : Nat) :
    ¬ Relation.TransGen s.Waits tid tid := by
  intro hcycle
  have hlt : ∀ {t u}, Relation.TransGen s.Waits t u → s.level t < s.level u := by
    intro t u htu
    induction htu with
    | single hw => exact h.level_lt hw
    | tail _ hw ih => exact ih.trans (h.level_lt hw)
  exact Nat.lt_irrefl _ (hlt hcycle)

/-- Every call keeps the discipline in every interleaving, as long as no
careless acquisition is interrupted. -/
theorem disciplined_of_reaches {w : World} (hfree : ∀ m, w.owner m = none)
    (h : Reaches Tasks.step Handled (idle w) s) : s.Disciplined := by
  obtain ⟨held, hs⟩ := held_of_reaches hfree h
  exact hs.disciplined

/-- Task 0 creates a file while the kernel interrupts the given acquisitions. -/
def interruptedCreate (sites : List LockSite) (n : Nat) : List Label :=
  .call 0 (.create [] [97] 33188) (.interrupting sites) :: acts n 0

/-- Interrupted at its own lock for the parent, the call returns without a mutex. -/
theorem disciplined_interruptedCreate :
    ∃ s, Reaches Tasks.step Handled (idle mountedSample) s ∧ s.returns 0 = true ∧
      s.Disciplined := by
  have hx : (replay (fun s l => if decide (Handled s l) then Tasks.step s l else none)
      (interruptedCreate [.createMgmt] 32) (idle mountedSample)).any
        (fun s => decide (s.returns 0 = true)) = true := by decide +kernel
  obtain ⟨s, hs, hret⟩ := exists_of_replay_any hx
  have hreach : Reaches Tasks.step Handled (idle mountedSample) s :=
    Reaches.append_replay (fun s l => decide (s.Handled l))
      (fun _ _ _ h => of_decide_eq_true h) .refl hs
  exact ⟨s, hreach, hret, disciplined_of_reaches (fun _ => rfl) hreach⟩

/-- Interrupted at the lock for the free map, a call is about to release a mutex
that nobody holds. Interrupted at the second lock of `simplefs_inode_add`, it
is about to take a mutex it holds, or it returns with that mutex. -/
theorem not_disciplined_interruptedCreate :
    (∃ s, Reachable Tasks.step (idle mountedSample) s ∧
      (s.next 0 = some (.mutexUnlock .sbLock) ∧ s.world.owner .sbLock = none) ∧
      ¬ s.Disciplined) ∧
    (∃ s, Reachable Tasks.step (idle mountedSample) s ∧
      (s.next 0 = some (.mutexLockInterruptible .createMgmt) ∧
        s.world.owner .inodesMgmtLock = some 0) ∧ ¬ s.Disciplined) ∧
    (∃ s, Reachable Tasks.step (idle mountedSample) s ∧
      (s.returns 0 = true ∧ s.world.owner .inodesMgmtLock = some 0) ∧ ¬ s.Disciplined) := by
  refine ⟨?_, ?_, ?_⟩
  · have hx : (replay Tasks.step (interruptedCreate [.sbGetAFreeblock] 6)
        (idle mountedSample)).any (fun s => decide (s.next 0 = some (.mutexUnlock .sbLock) ∧
          s.world.owner .sbLock = none)) = true := by decide +kernel
    obtain ⟨s, hs, hnext, hown⟩ := exists_of_replay_any hx
    refine ⟨s, .of_replay hs, ⟨hnext, hown⟩, fun h => ?_⟩
    have hheld := h.unlock 0 _ hnext
    rw [hown] at hheld
    cases hheld
  · have hx : (replay Tasks.step (interruptedCreate [.inodeAddSb] 21) (idle mountedSample)).any
        (fun s => decide (s.next 0 = some (.mutexLockInterruptible .createMgmt) ∧
          s.world.owner .inodesMgmtLock = some 0)) = true := by decide +kernel
    obtain ⟨s, hs, hnext, hown⟩ := exists_of_replay_any hx
    exact ⟨s, .of_replay hs, ⟨hnext, hown⟩, fun h => h.lock 0 _ hnext hown⟩
  · have hx : (replay Tasks.step (interruptedCreate [.inodeAddSb, .createMgmt] 23)
        (idle mountedSample)).any (fun s => decide (s.returns 0 = true ∧
          s.world.owner .inodesMgmtLock = some 0)) = true := by decide +kernel
    obtain ⟨s, hs, hret, hown⟩ := exists_of_replay_any hx
    exact ⟨s, .of_replay hs, ⟨hret, hown⟩, fun h => h.ret 0 hret _ hown⟩

end Tasks

end LinuxDevelopment.Simplefs
