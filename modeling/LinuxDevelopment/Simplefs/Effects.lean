import LinuxDevelopment.Base.WriteBack
import LinuxDevelopment.Simplefs.Calm

/-!
# simplefs: the order of the block writes

What a call does to the buffer cache and the device, as a sequence of
operations on a disk. A call answers and goes on in the same way whenever
blocks are written back, so this sequence is all that a crash can cut.
-/

namespace LinuxDevelopment.Simplefs

/-- What an action does to the blocks. -/
def Op.effects (env : Env) : Op → List (DiskOp Buffer)
  | .store b off bytes => [.edit b fun x => x.splice off bytes]
  | .copyFromUser b off bytes => [.edit b fun x => x.splice off (zeroFilled env.copyFault bytes)]
  | .markBufferDirty b => [.mark b]
  | .syncDirtyBuffer b => [.sync b]
  | _ => []

/-- The buffer cache and the device. -/
def World.disk (w : World) : Disk Buffer := ⟨w.cache, w.media, w.dirty⟩

/-- The states differ at most in what is on the device. -/
structure World.Agrees (w w' : World) : Prop where
  cache : w'.cache = w.cache
  dcache : w'.dcache = w.dcache
  owner : w'.owner = w.owner

variable {tid : Nat} {env : Env} {w w' u u' : World}

theorem World.Agrees.eq (h : w.Agrees w') (hd : w'.disk = w.disk) : w' = w := by
  cases w
  cases w'
  obtain ⟨rfl, rfl, rfl⟩ := h
  cases hd
  rfl

theorem World.Agrees.symm (h : w.Agrees w') : w'.Agrees w :=
  ⟨h.cache.symm, h.dcache.symm, h.owner.symm⟩

theorem exec_disk {o : Op} {r : o.Res} (h : exec tid env o w = .done r u) :
    u.disk = w.disk.applyAll (o.effects env) := by
  cases o with
  | mutexLockInterruptible site =>
      simp only [exec] at h
      split_ifs at h <;> cases h <;> rfl
  | simplefsInode p =>
      simp only [exec] at h
      cases hq : w.simplefsInode p with
      | some q =>
          rw [hq] at h
          cases h
          rfl
      | none =>
          rw [hq] at h
          cases h
  | load | store | copyFromUser =>
      simp only [exec] at h
      split_ifs at h
      cases h
      rfl
  | copyToUser b off len =>
      simp only [exec] at h
      split_ifs at h <;> cases h <;> rfl
  | trap => cases h
  | mutexUnlock | sbBread | markBufferDirty | syncDirtyBuffer | newInode | setFileSize | dAdd =>
      cases h
      rfl

/-- The answers do not depend on what is on the device. -/
theorem exec_of_agrees {o : Op} {r : o.Res} (h : exec tid env o w = .done r u)
    (ha : w.Agrees w') : ∃ u', exec tid env o w' = .done r u' ∧ u.Agrees u' := by
  obtain ⟨cache, media, dirty, dcache, owner⟩ := w
  obtain ⟨cache', media', dirty', dcache', owner'⟩ := w'
  obtain ⟨rfl, rfl, rfl⟩ := ha
  cases o with
  | mutexLockInterruptible site =>
      simp only [exec] at h ⊢
      split_ifs at h ⊢ <;> cases h <;> exact ⟨_, rfl, rfl, rfl, rfl⟩
  | simplefsInode p =>
      simp only [exec, World.simplefsInode] at h ⊢
      cases hq : (dcache' p).bind VfsInode.iPrivate with
      | some q =>
          rw [hq] at h
          cases h
          exact ⟨_, rfl, rfl, rfl, rfl⟩
      | none =>
          rw [hq] at h
          cases h
  | load | store | copyFromUser =>
      simp only [exec] at h ⊢
      split_ifs at h ⊢
      cases h
      exact ⟨_, rfl, rfl, rfl, rfl⟩
  | copyToUser b off len =>
      simp only [exec] at h ⊢
      split_ifs at h ⊢ <;> cases h <;> exact ⟨_, rfl, rfl, rfl, rfl⟩
  | trap => cases h
  | mutexUnlock | sbBread | markBufferDirty | syncDirtyBuffer | newInode | setFileSize | dAdd =>
      cases h
      exact ⟨_, rfl, rfl, rfl, rfl⟩

/-- What a function does to the blocks when it is run in the state `w`. -/
def diskOps {α : Type} (tid : Nat) (env : Env) (p : Prog Op.Res α) (w : World) :
    List (DiskOp Buffer) :=
  p.trace (exec tid env) (Op.effects env) w

/-- The function only reads. -/
def Silent {α : Type} (env : Env) (p : Code α) : Prop := p.Only fun o => o.effects env = []

section Silent

theorem Silent.diskOps {α : Type} {p : Code α} (h : Silent env p) (w : World) :
    diskOps tid env p w = [] :=
  Prog.trace_of_only h w

theorem silent_act {o : Op} (h : o.effects env = []) : Silent env (act o) := Prog.Only.perform h

theorem Reads.silent {α : Type} {p : Code α} (h : Reads p) : Silent env p := by
  refine h.mono ?_
  rintro o (ho | ⟨b, rfl⟩)
  · cases o with
    | load | trap | simplefsInode | newInode | copyToUser => rfl
    | _ => exact ho.elim
  · rfl

theorem silent_load64 (b off : Nat) : Silent env (load64 b off) := (loads_load64 b off).reads.silent

theorem silent_simplefsSbGetObjectsCount : Silent env simplefsSbGetObjectsCount := by
  apply Prog.Only.bind (silent_act rfl)
  intro r
  refine .ite trivial ?_
  apply Prog.Only.bind (silent_load64 _ _)
  intro count
  exact .bind (silent_act rfl) fun _ => trivial

theorem silent_simplefsFillSuper : Silent env simplefsFillSuper := by
  apply Prog.Only.bind (reads_sbBreadBugOn _).silent
  intro _
  apply Prog.Only.bind (silent_load64 _ _)
  intro magic
  refine .ite trivial ?_
  apply Prog.Only.bind (silent_load64 _ _)
  intro blockSize
  refine .ite trivial ?_
  apply Prog.Only.bind loads_newInodeUnchecked.reads.silent
  intro _
  apply Prog.Only.bind (reads_simplefsGetInode _).silent
  intro root
  exact .bind (silent_act rfl) fun _ => trivial

theorem silent_simplefsLookup (dir : Path) (name : Name) :
    Silent env (simplefsLookup dir name) := by
  apply Prog.Only.bind (silent_act rfl)
  intro parent
  apply Prog.Only.bind (reads_sbBreadBugOn _).silent
  intro _
  apply Prog.Only.bind (loads_lookupLoop _ _ _ _).reads.silent
  intro found
  cases found with
  | none => trivial
  | some inodeNo =>
      apply Prog.Only.bind (reads_simplefsGetInode _).silent
      intro sfsInode
      apply Prog.Only.bind loads_newInodeUnchecked.reads.silent
      intro _
      cases sfsInode with
      | none => exact silent_act rfl
      | some q => exact silent_act rfl

end Silent

section Functions

variable {α β : Type}

@[simp] theorem diskOps_pure (a : α) : diskOps tid env (pure a : Prog Op.Res α) w = [] := rfl

theorem diskOps_bind (p : Prog Op.Res α) (f : α → Prog Op.Res β) :
    diskOps tid env (p >>= f) w = diskOps tid env p w ++
      (p.run (exec tid env) w).elim (fun a u => diskOps tid env (f a) u) [] :=
  Prog.trace_bind p f w

/-- Wrapping up the result of a function adds nothing. -/
theorem diskOps_map (p : Prog Op.Res α) (g : α → β) :
    diskOps tid env (p >>= fun a => pure (g a)) w = diskOps tid env p w := by
  rw [diskOps_bind]
  cases p.run (exec tid env) w with
  | done a u => exact List.append_nil _
  | stuck e u => exact List.append_nil _

theorem diskOps_ite (c : Prop) [Decidable c] (p q : Code α) :
    diskOps tid env (if c then p else q) w =
      if c then diskOps tid env p w else diskOps tid env q w := by
  split_ifs <;> rfl

/-- What was done to the blocks is all that happened to them. -/
theorem run_disk {p : Code α} {a : α} (h : p.run (exec tid env) w = .done a u) :
    u.disk = w.disk.applyAll (diskOps tid env p w) := by
  induction p generalizing w with
  | ret b =>
      cases h
      rfl
  | call o k ih =>
      obtain ⟨r, t, hr, hk⟩ := Outcome.bind_eq_done.mp h
      have htrace : diskOps tid env (.call o k) w = o.effects env ++ diskOps tid env (k r) t :=
        Prog.trace_call_of_done hr
      rw [htrace, Disk.applyAll_append, ← exec_disk hr]
      exact ih r hk

theorem diskOps_act {o : Op} {r : o.Res} (h : exec tid env o w = .done r u) :
    diskOps tid env (act o) w = o.effects env := by
  have hx : diskOps tid env (act o) w = o.effects env ++ [] := Prog.trace_call_of_done h
  rw [hx, List.append_nil]

@[simp] theorem diskOps_mutexLockInterruptible (site : LockSite) :
    diskOps tid env (mutexLockInterruptible site) w = [] := (silent_act rfl).diskOps w

@[simp] theorem diskOps_mutexUnlock (m : Mutex) : diskOps tid env (mutexUnlock m) w = [] := rfl

@[simp] theorem diskOps_sbBread (b : Nat) : diskOps tid env (sbBread b) w = [] := rfl

@[simp] theorem diskOps_sbBreadBugOn (b : Nat) : diskOps tid env (sbBreadBugOn b) w = [] :=
  (reads_sbBreadBugOn b).silent.diskOps w

@[simp] theorem diskOps_sbInodesCount : diskOps tid env sbInodesCount w = [] :=
  (silent_load64 _ _).diskOps w

@[simp] theorem diskOps_sbFreeBlocks : diskOps tid env sbFreeBlocks w = [] :=
  (silent_load64 _ _).diskOps w

@[simp] theorem diskOps_newInode : diskOps tid env newInode w = [] := rfl

@[simp] theorem diskOps_simplefsInode (p : Path) : diskOps tid env (simplefsInode p) w = [] :=
  (silent_act rfl).diskOps w

@[simp] theorem diskOps_setFileSize (p : Path) (v : UInt64) :
    diskOps tid env (setFileSize p v) w = [] := rfl

@[simp] theorem diskOps_dAdd (p : Path) (v : VfsInode) : diskOps tid env (dAdd p v) w = [] := rfl

@[simp] theorem diskOps_markBufferDirty (b : Nat) :
    diskOps tid env (markBufferDirty b) w = [.mark b] := rfl

@[simp] theorem diskOps_syncDirtyBuffer (b : Nat) :
    diskOps tid env (syncDirtyBuffer b) w = [.sync b] := rfl

@[simp] theorem diskOps_simplefsInodeSearch (q : SimplefsInode) :
    diskOps tid env (simplefsInodeSearch q) w = [] := (loads_simplefsInodeSearch q).reads.silent.diskOps w

@[simp] theorem diskOps_simplefsSbGetObjectsCount :
    diskOps tid env simplefsSbGetObjectsCount w = [] :=
  silent_simplefsSbGetObjectsCount.diskOps w

theorem diskOps_store {b off : Nat} {bytes : List UInt8} (h : off + bytes.length ≤ 4096) :
    diskOps tid env (store b off bytes) w = [.edit b fun x => x.splice off bytes] := by
  have hx : exec tid env (.store b off bytes) w = .done () (w.store b off bytes) := by
    simp [exec, inBlock, h]
  exact diskOps_act hx

theorem diskOps_store_outOfRange {b off : Nat} {bytes : List UInt8}
    (h : ¬ off + bytes.length ≤ 4096) : diskOps tid env (store b off bytes) w = [] := by
  have hx : exec tid env (.store b off bytes) w = .stuck .outOfRange w := by
    simp [exec, inBlock, h]
  change ((exec tid env (.store b off bytes) w).elim _ []) = []
  rw [hx]
  rfl

/-- Mark a block and write it out. -/
def flushOps (b : Nat) : List (DiskOp Buffer) := [.mark b, .sync b]

/-- Take a block out of the free map. -/
def allocOps (img : Image) : List (DiskOp Buffer) :=
  .edit 0 (fun x => x.splice 32 (toLE 8 (freeAfter (freeBlocks img)).toNat)) :: flushOps 0

/-- Append an entry: the store is only marked, the counter is written out. -/
def addOps (img : Image) (e : SimplefsInode) : List (DiskOp Buffer) :=
  .edit 1 (fun x => x.splice (32 * (inodesCount img).toNat) e.encode) ::
    .edit 0 (fun x => x.splice 24 (toLE 8 (inodesCount img + 1).toNat)) :: .mark 1 :: flushOps 0

/-- Fill in a record of a directory. -/
def recordOps (block k : Nat) (ino : UInt64) (name : Name) : List (DiskOp Buffer) :=
  .edit block (fun x => x.splice (264 * k + 256) (toLE 8 ino.toNat)) ::
    .edit block (fun x => x.splice (264 * k) (cString name)) :: flushOps block

/-- Save an entry. -/
def saveOps (i : Nat) (q : SimplefsInode) : List (DiskOp Buffer) :=
  .edit 1 (fun x => x.splice (32 * i) q.encode) :: flushOps 1

/-- Write the data of a file. -/
def dataOps (block pos : Nat) (bytes : List UInt8) : List (DiskOp Buffer) :=
  .edit block (fun x => x.splice pos bytes) :: flushOps block

theorem diskOps_store64 {b off : Nat} {v : UInt64} (h : off + 8 ≤ 4096) :
    diskOps tid env (store64 b off v) w = [.edit b fun x => x.splice off (toLE 8 v.toNat)] :=
  diskOps_store (by simpa using h)

theorem diskOps_storeInode {i : Nat} {q : SimplefsInode} (h : 32 * i + 32 ≤ 4096) :
    diskOps tid env (storeInode i q) w = [.edit 1 fun x => x.splice (32 * i) q.encode] :=
  diskOps_store (by simpa using h)

theorem diskOps_simplefsSbSync (hb : env.BreadOk) :
    diskOps tid env simplefsSbSync w = flushOps 0 := by
  simp [simplefsSbSync, diskOps_bind, run_sbBreadBugOn (hb _), flushOps]

theorem diskOps_simplefsSbGetAFreeblock (hc : env.Calm) (ho : w.owner .sbLock = none) :
    diskOps tid env simplefsSbGetAFreeblock w =
      if freeblockScan (freeBlocks w.cache) = 64 then [] else allocOps w.cache := by
  have hlock : (mutexLockInterruptible .sbGetAFreeblock).run (exec tid env) w = _ :=
    run_lock_taken (hc.interrupted _) ho
  by_cases hs : freeblockScan (freeBlocks w.cache) = 64
  · simp [simplefsSbGetAFreeblock, diskOps_bind, hlock, run_sbFreeBlocks, hs]
  · simp [simplefsSbGetAFreeblock, diskOps_bind, hlock, run_sbFreeBlocks, hs, run_store64,
      diskOps_store64, run_simplefsSbSync (hc.breadOk _), diskOps_simplefsSbSync hc.breadOk, allocOps,
      freeAfter]

theorem diskOps_simplefsInodeAdd {e : SimplefsInode} (hc : env.Calm)
    (hi : w.owner .inodesMgmtLock = none) (hs : w.owner .sbLock = none)
    (hn : 32 * (inodesCount w.cache).toNat + 32 ≤ 4096) :
    diskOps tid env (simplefsInodeAdd e) w = addOps w.cache e := by
  have hlock₁ : (mutexLockInterruptible .inodeAddMgmt).run (exec tid env) w = _ :=
    run_lock_taken (hc.interrupted _) hi
  have ho : (w.setOwner .inodesMgmtLock (some tid)).owner .sbLock = none := by simpa using hs
  have hlock₂ : (mutexLockInterruptible .inodeAddSb).run (exec tid env)
      (w.setOwner .inodesMgmtLock (some tid)) = _ := run_lock_taken (hc.interrupted _) ho
  simp [simplefsInodeAdd, diskOps_bind, hlock₁, hlock₂, run_sbBreadBugOn (hc.breadOk _),
    run_sbInodesCount, run_storeInode, hn, diskOps_storeInode, run_store64, diskOps_store64,
    diskOps_simplefsSbSync hc.breadOk, run_simplefsSbSync (hc.breadOk _), addOps]

theorem diskOps_simplefsInodeSave {p : Path} {q : SimplefsInode} {i : Nat} (hc : env.Calm)
    (hs : w.owner .sbLock = none) (hq : w.simplefsInode p = some q)
    (hn : (inodesCount w.cache).toNat < 127) (hf : searchEntry w.cache q.inodeNo = some i) :
    diskOps tid env (simplefsInodeSave p) w = saveOps i q := by
  have hlock : (mutexLockInterruptible .inodeSave).run (exec tid env) w = _ :=
    run_lock_taken (hc.interrupted _) hs
  have hsearch : (simplefsInodeSearch q).run (exec tid env) (w.setOwner .sbLock (some tid)) =
      .done (searchEntry w.cache q.inodeNo) (w.setOwner .sbLock (some tid)) :=
    run_simplefsInodeSearch (by simp; omega)
  have hq' : (w.setOwner .sbLock (some tid)).simplefsInode p = some q := hq
  have hi : i < (inodesCount w.cache).toNat + 1 := by
    have := List.mem_of_find?_eq_some hf
    simpa using this
  have hfit : 32 * i + 32 ≤ 4096 := by omega
  simp [simplefsInodeSave, diskOps_bind, run_sbBreadBugOn (hc.breadOk _), hlock,
    run_simplefsInode hq', hsearch, hf, run_storeInode hfit, diskOps_storeInode hfit, saveOps,
    flushOps]

theorem diskOps_createCommit {dir : Path} {name : Name} {e q : SimplefsInode} {i : Nat}
    (hc : env.Calm) (hm : w.owner .inodesMgmtLock = none) (hs : w.owner .sbLock = none)
    (hq : w.simplefsInode dir = some q) (hn : (inodesCount w.cache).toNat < 127)
    (hf : searchEntry w.cache q.inodeNo = some i) :
    diskOps tid env (createCommit dir name e) w =
      saveOps i { q with fileSize := q.fileSize + 1 } := by
  have hlock : (mutexLockInterruptible .createMgmt).run (exec tid env) w = _ :=
    run_lock_taken (hc.interrupted _) hm
  have hq₁ : (w.setOwner .inodesMgmtLock (some tid)).simplefsInode dir = some q := hq
  have hq₂ : ((w.setFileSize dir (q.fileSize + 1)).setOwner .inodesMgmtLock
      (some tid)).simplefsInode dir = some { q with fileSize := q.fileSize + 1 } :=
    simplefsInode_setFileSize hq
  have hs₂ : ((w.setFileSize dir (q.fileSize + 1)).setOwner .inodesMgmtLock
      (some tid)).owner .sbLock = none := by simpa using hs
  have hsave : (simplefsInodeSave dir).run (exec tid env)
      ((w.setFileSize dir (q.fileSize + 1)).setOwner .inodesMgmtLock (some tid)) = _ :=
    run_simplefsInodeSave (hc.breadOk 1) hq₂ hn
  have hops : diskOps tid env (simplefsInodeSave dir)
      ((w.setFileSize dir (q.fileSize + 1)).setOwner .inodesMgmtLock (some tid)) = _ :=
    diskOps_simplefsInodeSave hc hs₂ hq₂ hn hf
  simp only [hc.interrupted, Bool.false_eq_true, if_false, hs₂, if_true, World.setOwner_cache,
    World.setFileSize_cache, hf] at hsave
  simp [createCommit, diskOps_bind, hlock, run_simplefsInode hq₁, hsave, hops]

theorem diskOps_createTail {dir : Path} {name : Name} {e q : SimplefsInode}
    (hc : env.Calm) (hn : ValidName name) (hq : w.simplefsInode dir = some q)
    (hcount : (inodesCount w.cache).toNat < 64) (hm : w.owner .inodesMgmtLock = none)
    (hs : w.owner .sbLock = none) :
    diskOps tid env (createTail dir name e) w = addOps w.cache e ++
      if q.dirChildrenCount < 15 then
        recordOps q.dataBlockNumber.toNat q.dirChildrenCount e.inodeNo name ++
          diskOps tid env (createCommit dir name e) ((w.addInode e).addRecord
            q.dataBlockNumber.toNat q.dirChildrenCount e.inodeNo name)
      else [] := by
  have hfit : 32 * (inodesCount w.cache).toNat + 32 ≤ 4096 := by omega
  have h₁ : (w.addInode e).setOwner .sbLock none = w.addInode e := World.setOwner_eq_self hs
  have h₂ : (w.addInode e).setOwner .inodesMgmtLock none = w.addInode e :=
    World.setOwner_eq_self hm
  have hadd : (simplefsInodeAdd e).run (exec tid env) w = .done () (w.addInode e) := by
    rw [run_simplefsInodeAdd (fun b _ => hc.breadOk b) hfit]
    simp [hc.interrupted, hm, hs, h₁, h₂]
  have hqa : (w.addInode e).simplefsInode dir = some q := hq
  have hlen := length_cString_le hn
  simp only [createTail, diskOps_bind, hadd, diskOps_simplefsInodeAdd hc hm hs hfit,
    Outcome.elim_done, diskOps_simplefsInode, run_simplefsInode hqa, diskOps_sbBreadBugOn,
    run_sbBreadBugOn (hc.breadOk _), List.nil_append, sizeofSimplefsDirRecord]
  split_ifs with room
  · rw [diskOps_store64 (by omega), run_store64 (by omega), Outcome.elim_done, strcpyFilename,
      diskOps_store (by omega), run_store (by omega)]
    rfl
  · have hout : ¬ 264 * q.dirChildrenCount + 256 + (toLE 8 e.inodeNo.toNat).length ≤ 4096 := by
      rw [length_toLE]
      omega
    rw [store64, diskOps_store_outOfRange hout, run_store_outOfRange hout]
    rfl

/-- The calm call up to the block it takes: the checks change nothing. -/
theorem diskOps_simplefsCreateFsObject {dir : Path} {name : Name} {mode : UInt16}
    (hc : env.Calm) (ho : ∀ m, w.owner m = none) :
    diskOps tid env (simplefsCreateFsObject dir name mode) w = [] ∨
      w.Allocates env mode ∧
        diskOps tid env (simplefsCreateFsObject dir name mode) w = allocOps w.cache ++
          diskOps tid env (createTail dir name (newEntry w.cache mode))
            (w.allocBlock.setOwner .directoryChildrenUpdateLock (some tid)) := by
  have hlock : (mutexLockInterruptible .createChildren).run (exec tid env) w = _ :=
    run_lock_taken (hc.interrupted _) (ho _)
  have hdcl : (w.setOwner .directoryChildrenUpdateLock (some tid)).owner .inodesMgmtLock = none ∧
      (w.setOwner .directoryChildrenUpdateLock (some tid)).owner .sbLock = none := by
    simp [ho]
  have hm : (w.setOwner .directoryChildrenUpdateLock (some tid)).setOwner
      .inodesMgmtLock none = w.setOwner .directoryChildrenUpdateLock (some tid) :=
    World.setOwner_eq_self hdcl.1
  have hcount : simplefsSbGetObjectsCount.run (exec tid env)
      (w.setOwner .directoryChildrenUpdateLock (some tid)) =
        .done (0, inodesCount w.cache) (w.setOwner .directoryChildrenUpdateLock (some tid)) := by
    rw [run_simplefsSbGetObjectsCount]
    simp [hc.interrupted, hdcl.1, hm]
  have hfree : simplefsSbGetAFreeblock.run (exec tid env)
      (w.setOwner .directoryChildrenUpdateLock (some tid)) = _ :=
    run_simplefsSbGetAFreeblock (hc.breadOk _)
  simp only [hc.interrupted, Bool.false_eq_true, if_false, hdcl.2, if_true] at hfree
  simp only [createFsObject_eq, diskOps_bind, hlock, hcount, LockSite.mutex, Outcome.elim_done,
    diskOps_mutexLockInterruptible, List.nil_append, diskOps_ite, Bool.not_true,
    Bool.false_eq_true, if_false, diskOps_simplefsSbGetObjectsCount, diskOps_mutexUnlock,
    run_mutexUnlock, diskOps_pure, diskOps_newInode, run_newInode, Int.lt_irrefl,
    simplefsMaxFilesystemObjectsSupported, ge_iff_le]
  by_cases h₁ : 64 ≤ (inodesCount w.cache).toNat
  · exact .inl (by rw [if_pos h₁])
  by_cases h₂ : (!sIsdir mode.toUInt32 && !sIsreg mode.toUInt32) = true
  · exact .inl (by rw [if_neg h₁, if_pos h₂])
  rw [if_neg h₁, if_neg h₂]
  cases h₃ : env.newInodeFails with
  | true => exact .inl rfl
  | false =>
      simp only [Bool.not_false, Bool.not_true, Bool.false_eq_true, if_false]
      rw [diskOps_simplefsSbGetAFreeblock hc hdcl.2, hfree, World.setOwner_cache]
      by_cases h₄ : freeblockScan (freeBlocks w.cache) = 64
      · rw [if_pos h₄, if_pos h₄]
        exact .inl rfl
      · have hsb : (w.allocBlock.setOwner .directoryChildrenUpdateLock (some tid)).setOwner
            .sbLock none = w.allocBlock.setOwner .directoryChildrenUpdateLock (some tid) :=
          World.setOwner_eq_self hdcl.2
        rw [if_neg h₄, if_neg h₄, World.allocBlock_setOwner, hsb]
        refine .inr ⟨⟨hc.interrupted _, hc.interrupted _, hc.interrupted _, ho _, ho _, ho _,
          Nat.lt_of_not_le h₁, ?_, h₃, h₄⟩, rfl⟩
        cases hd : sIsdir mode.toUInt32 with
        | true => exact .inl rfl
        | false =>
            right
            simpa [hd] using h₂

theorem diskOps_writeCommit {p : Path} {q : SimplefsInode} {len pos i : Nat} (hc : env.Calm)
    (hm : w.owner .inodesMgmtLock = none) (hs : w.owner .sbLock = none)
    (hq : w.simplefsInode p = some q) (hn : (inodesCount w.cache).toNat < 127)
    (hf : searchEntry w.cache q.inodeNo = some i) :
    diskOps tid env (writeCommit p len pos) w =
      saveOps i { q with fileSize := UInt64.ofNat pos } := by
  have hlock : (mutexLockInterruptible .write).run (exec tid env) w = _ :=
    run_lock_taken (hc.interrupted _) hm
  have hq₂ : ((w.setFileSize p (UInt64.ofNat pos)).setOwner .inodesMgmtLock
      (some tid)).simplefsInode p = some { q with fileSize := UInt64.ofNat pos } :=
    simplefsInode_setFileSize hq
  have hs₂ : ((w.setFileSize p (UInt64.ofNat pos)).setOwner .inodesMgmtLock
      (some tid)).owner .sbLock = none := by simpa using hs
  have hsave : (simplefsInodeSave p).run (exec tid env)
      ((w.setFileSize p (UInt64.ofNat pos)).setOwner .inodesMgmtLock (some tid)) = _ :=
    run_simplefsInodeSave (hc.breadOk 1) hq₂ hn
  have hops : diskOps tid env (simplefsInodeSave p)
      ((w.setFileSize p (UInt64.ofNat pos)).setOwner .inodesMgmtLock (some tid)) = _ :=
    diskOps_simplefsInodeSave hc hs₂ hq₂ hn hf
  simp only [hc.interrupted, Bool.false_eq_true, if_false, hs₂, if_true, World.setOwner_cache,
    World.setFileSize_cache, hf] at hsave
  simp [writeCommit, diskOps_bind, hlock, hsave, hops]

theorem diskOps_copyFromUser {b off : Nat} {bytes : List UInt8}
    (h : off + bytes.length ≤ 4096) :
    diskOps tid env (copyFromUser b off bytes) w =
      [.edit b fun x => x.splice off (zeroFilled env.copyFault bytes)] := by
  have hx : exec tid env (.copyFromUser b off bytes) w =
      .done ((copied env.copyFault bytes).length == bytes.length)
        (w.store b off (zeroFilled env.copyFault bytes)) := by
    simp [exec, inBlock, h]
  exact diskOps_act hx

theorem diskOps_simplefsWrite {p : Path} {q : SimplefsInode} {buf : List UInt8} {pos : Nat}
    (hb : env.BreadOk) (hq : w.simplefsInode p = some q) :
    diskOps tid env (simplefsWrite p buf pos) w =
      if 4096 ≤ pos ∧ (buf.length ≠ 0 ∨ 4096 < pos) then []
      else if (copied env.copyFault (writeBytes buf pos)).length ≠ writeLength buf pos then
        [.edit q.dataBlockNumber.toNat
          fun x => x.splice pos (zeroFilled env.copyFault (writeBytes buf pos))]
      else dataOps q.dataBlockNumber.toNat pos (writeBytes buf pos) ++
        diskOps tid env (writeCommit p (writeLength buf pos) (pos + writeLength buf pos))
          (w.writeData q.dataBlockNumber.toNat pos (writeBytes buf pos)) := by
  by_cases h₁ : 4096 ≤ pos ∧ (buf.length ≠ 0 ∨ 4096 < pos)
  · simp only [simplefsWrite, genericWriteChecks_error h₁, if_pos h₁, diskOps_pure]
  · have hlen := length_writeBytes buf pos
    have hpos := add_writeLength_le h₁
    have hfit : pos + (writeBytes buf pos).length ≤ 4096 := by omega
    simp only [simplefsWrite, genericWriteChecks_ok h₁, if_neg h₁, diskOps_bind,
      diskOps_simplefsInode, run_simplefsInode hq, Outcome.elim_done, diskOps_sbBread,
      run_sbBread, hb q.dataBlockNumber.toNat, Bool.not_false, Bool.not_true, Bool.false_eq_true,
      if_false, List.nil_append]
    rw [← writeBytes, diskOps_copyFromUser hfit, run_copyFromUser hfit, Outcome.elim_done, hlen]
    by_cases h₂ : (copied env.copyFault (writeBytes buf pos)).length = writeLength buf pos
    · rw [zeroFilled_eq_of_length (h₂.trans hlen.symm), h₂]
      simp only [beq_self_eq_true, Bool.not_true, Bool.false_eq_true, if_false, ne_eq,
        not_true_eq_false]
      rfl
    · simp [h₂]

end Functions

/-- A call that takes a block goes on with the rest of the function. -/
theorem World.Allocates.run_eq {dir : Path} {name : Name} {mode : UInt16}
    (a : w.Allocates env mode) (hb : env.BreadOk) :
    (simplefsCreateFsObject dir name mode).run (exec tid env) w =
      (createTail dir name (newEntry w.cache mode)).run (exec tid env)
        (w.allocBlock.setOwner .directoryChildrenUpdateLock (some tid)) := by
  have hkind : ¬ (!sIsdir mode.toUInt32 && !sIsreg mode.toUInt32) = true := by
    rcases a.kind with hk | hk <;> simp [hk]
  rw [run_simplefsCreateFsObject hb, a.createChildren, if_neg Bool.false_ne_true,
    if_pos a.directoryChildrenUpdateLock, a.sbGetObjectsCount, if_neg Bool.false_ne_true,
    if_pos a.inodesMgmtLock, if_neg (Nat.not_le.mpr a.count), if_neg hkind, a.newInode,
    if_neg Bool.false_ne_true, a.sbGetAFreeblock, if_neg Bool.false_ne_true, if_pos a.sbLock,
    if_neg a.freeblock]

section Settled

variable {v : Volume} {dir p : Path} {name : Name} {mode : UInt16} {buf : List UInt8} {pos : Nat}

open Volume

/-- The order of the block writes of `simplefs_create_fs_object`. Without room
for the record the call runs out of the block after it has added the inode. -/
theorem World.Settled.diskOps_create (h : w.Settled v) (hc : env.Calm) (hd : w.Has dir .dir)
    (hn : ValidName name) (ha : w.Absent dir name) :
    diskOps tid env (simplefsCreateFsObject dir name mode) w = [] ∨
      ∃ i, v.Leads dir i ∧ w.dcache dir = some (v.inode i) ∧ sIsdir (v.entry i).mode = true ∧
        v.alloc.Addable (newEntry w.cache mode) ∧
        (((∃ t u, (simplefsCreateFsObject dir name mode).run (exec tid env) w = .stuck t u) ∧
          diskOps tid env (simplefsCreateFsObject dir name mode) w =
            allocOps w.cache ++ addOps w.cache (newEntry w.cache mode)) ∨
        (v.alloc.Creatable i (newEntry w.cache mode) name ∧
          diskOps tid env (simplefsCreateFsObject dir name mode) w =
            (allocOps w.cache ++ addOps w.cache (newEntry w.cache mode) ++
              recordOps (v.entry i).dataBlockNumber.toNat (v.entry i).dirChildrenCount
                (newEntry w.cache mode).inodeNo name) ++
              saveOps i { v.entry i with fileSize := (v.entry i).fileSize + 1 })) := by
  obtain ⟨i, hl, hdc, hq, hfop⟩ := h.toModels.simplefsInode hd
  have hdir := fopOf_eq_dir.mp hfop
  have hnew := ha.childName_ne h.toModels hn hl hdir hq
  have hstart : diskOps tid env (simplefsCreateFsObject dir name mode) w = [] ∨ _ :=
    diskOps_simplefsCreateFsObject hc h.unowned
  rcases hstart with hnil | ⟨alloc, hops⟩
  · exact .inl hnil
  · refine .inr ⟨i, hl, hdc, hdir, h.toModels.addable alloc, ?_⟩
    have hq' : (w.allocBlock.setOwner .directoryChildrenUpdateLock
        (some tid)).simplefsInode dir = some (v.entry i) := hq
    have hcount : (inodesCount (w.allocBlock.setOwner .directoryChildrenUpdateLock
        (some tid)).cache).toNat < 64 := by
      have := alloc.count
      simpa [World.allocBlock_cache] using this
    have hadd : addOps (w.allocBlock.setOwner .directoryChildrenUpdateLock (some tid)).cache
        (newEntry w.cache mode) = addOps w.cache (newEntry w.cache mode) := by
      unfold addOps
      rw [World.setOwner_cache, World.allocBlock_cache, inodesCount_setFree]
    rw [diskOps_createTail hc hn hq' hcount (by simpa using h.unowned _)
      (by simpa using h.unowned _), hadd] at hops
    by_cases room : (v.entry i).dirChildrenCount < 15
    · have c := h.toModels.creatable alloc hn hl.lt hdir room hnew
      refine .inr ⟨c, ?_⟩
      have hm := h.toModels.allocBlock.recorded c
      have hcommit : diskOps tid env (createCommit dir name (newEntry w.cache mode))
          (((w.allocBlock.setOwner .directoryChildrenUpdateLock (some tid)).addInode
            (newEntry w.cache mode)).addRecord (v.entry i).dataBlockNumber.toNat
              (v.entry i).dirChildrenCount (newEntry w.cache mode).inodeNo name) =
          saveOps i { v.entry i with fileSize := (v.entry i).fileSize + 1 } := by
        have hle := hm.wf.count_le
        rw [hm.shows.count] at hle
        have hsearch := searchEntry_eq hm.wf hm.shows (Nat.lt_succ_of_lt c.lt)
        rw [recorded_entry_of_lt c.lt] at hsearch
        rw [World.addInode_setOwner, World.addRecord_setOwner]
        refine diskOps_createCommit hc ?_ ?_ hq ?_ hsearch
        · simpa using h.unowned _
        · simpa using h.unowned _
        · exact Nat.lt_of_le_of_lt hle (by decide)
      rw [hops, if_pos room, hcommit]
      simp only [List.append_assoc]
    · refine .inl ⟨?_, ?_⟩
      · rw [alloc.run_eq hc.breadOk]
        exact run_createTail_outOfRange hc.breadOk hq' room hcount
      · rw [hops, if_neg room, List.append_nil]

/-- The order of the block writes of `simplefs_write`. -/
theorem World.Settled.diskOps_write (h : w.Settled v) (hc : env.Calm) (hf : w.Has p .file) :
    diskOps tid env (simplefsWrite p buf pos) w = [] ∨
      ∃ j, v.Leads p j ∧ sIsreg (v.entry j).mode = true ∧
        ((diskOps tid env (simplefsWrite p buf pos) w =
          [.edit (v.entry j).dataBlockNumber.toNat
            fun x => x.splice pos (zeroFilled env.copyFault (writeBytes buf pos))]) ∨
        (diskOps tid env (simplefsWrite p buf pos) w =
          dataOps (v.entry j).dataBlockNumber.toNat pos (writeBytes buf pos) ++
            saveOps j { v.entry j with fileSize := UInt64.ofNat (pos + writeLength buf pos) })) := by
  obtain ⟨j, hl, hdc, hq, hfop⟩ := h.toModels.simplefsInode hf
  obtain ⟨-, hr⟩ := fopOf_eq_file.mp hfop
  have hm := h.toModels.storeData hl.lt hr pos (writeBytes buf pos)
  have hle := hm.wf.count_le
  rw [hm.shows.count] at hle
  have hsearch := searchEntry_eq hm.wf hm.shows (j := j) hl.lt
  rw [diskOps_simplefsWrite hc.breadOk hq]
  split_ifs with hbig hshort
  · exact .inl rfl
  · exact .inr ⟨j, hl, hr, .inl rfl⟩
  · refine .inr ⟨j, hl, hr, .inr ?_⟩
    have hcommit : diskOps tid env (writeCommit p (writeLength buf pos) (pos + writeLength buf pos))
        (w.writeData (v.entry j).dataBlockNumber.toNat pos (writeBytes buf pos)) = _ :=
      diskOps_writeCommit hc (h.unowned _) (h.unowned _) hq
        (Nat.lt_of_le_of_lt hle (by decide)) hsearch
    rw [hcommit]

end Settled

end LinuxDevelopment.Simplefs
