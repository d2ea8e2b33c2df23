import LinuxDevelopment.Simplefs.Vfs

/-!
# simplefs: what the functions of `simple.c` do

One lemma per function. The loops are described by searches over ranges of
indices, and the functions that change the state by the stage transformers of
`World`, which later modules reason about without looking at the code again.
All of this is about kernels whose block reads succeed; an environment may
still interrupt locks, fail to allocate an inode and fault user copies.
-/

namespace LinuxDevelopment.Simplefs

/-- Every block can be read. -/
def Env.BreadOk (env : Env) : Prop := ∀ b, env.breadFails b = false

theorem Env.Calm.breadOk {env : Env} (h : env.Calm) : env.BreadOk := h.breadFails

variable {tid : Nat} {env : Env} {w : World}

section Primitives

variable {b off len : Nat} {bytes : List UInt8}

theorem run_lock_interrupted {site : LockSite} (h : env.interrupted site = true) :
    (mutexLockInterruptible site).run (exec tid env) w = .done false w := by
  have hx : exec tid env (.mutexLockInterruptible site) w = .done false w := by
    simp [exec, h]
  exact (Prog.run_perform (exec tid env) _ w).trans hx

theorem run_lock_taken {site : LockSite} (h : env.interrupted site = false)
    (ho : w.owner site.mutex = none) :
    (mutexLockInterruptible site).run (exec tid env) w =
      .done true (w.setOwner site.mutex (some tid)) := by
  have hx : exec tid env (.mutexLockInterruptible site) w =
      .done true (w.setOwner site.mutex (some tid)) := by
    simp [exec, h, ho, -LockSite.mutex]
  exact (Prog.run_perform (exec tid env) _ w).trans hx

theorem run_lock_blocked {site : LockSite} (h : env.interrupted site = false)
    (ho : ¬ w.owner site.mutex = none) :
    (mutexLockInterruptible site).run (exec tid env) w =
      .stuck (.blocked site.mutex) w := by
  have hx : exec tid env (.mutexLockInterruptible site) w = .stuck (.blocked site.mutex) w := by
    simp [exec, h, ho, -LockSite.mutex]
  exact (Prog.run_perform (exec tid env) _ w).trans hx

@[simp] theorem run_mutexUnlock (m : Mutex) :
    (mutexUnlock m).run (exec tid env) w = .done () (w.setOwner m none) := rfl

@[simp] theorem run_sbBread :
    (sbBread b).run (exec tid env) w = .done (!env.breadFails b) w := rfl

@[simp] theorem run_markBufferDirty :
    (markBufferDirty b).run (exec tid env) w = .done () (w.markBufferDirty b) := rfl

@[simp] theorem run_syncDirtyBuffer :
    (syncDirtyBuffer b).run (exec tid env) w = .done () (w.syncDirtyBuffer b) := rfl

@[simp] theorem run_newInode :
    newInode.run (exec tid env) w = .done (!env.newInodeFails) w := rfl

@[simp] theorem run_setFileSize (p : Path) (v : UInt64) :
    (setFileSize p v).run (exec tid env) w = .done () (w.setFileSize p v) := rfl

@[simp] theorem run_dAdd (p : Path) (v : VfsInode) :
    (dAdd p v).run (exec tid env) w = .done () (w.dAdd p v) := rfl

theorem run_simplefsInode {p : Path} {q : SimplefsInode} (h : w.simplefsInode p = some q) :
    (simplefsInode p).run (exec tid env) w = .done q w := by
  have hx : exec tid env (.simplefsInode p) w = .done q w := by
    simp [exec, h]
  exact (Prog.run_perform (exec tid env) _ w).trans hx

theorem run_load (h : off + len ≤ 4096) :
    (load b off len).run (exec tid env) w = .done ((w.cache b).bytesAt off len) w := by
  have hx : exec tid env (.load b off len) w = .done ((w.cache b).bytesAt off len) w := by
    simp [exec, inBlock, h]
  exact (Prog.run_perform (exec tid env) _ w).trans hx

theorem run_load_outOfRange (h : ¬ off + len ≤ 4096) :
    (load b off len).run (exec tid env) w = .stuck .outOfRange w := by
  have hx : exec tid env (.load b off len) w = .stuck .outOfRange w := by
    simp [exec, inBlock, h]
  exact (Prog.run_perform (exec tid env) _ w).trans hx

theorem run_store (h : off + bytes.length ≤ 4096) :
    (store b off bytes).run (exec tid env) w = .done () (w.store b off bytes) := by
  have hx : exec tid env (.store b off bytes) w = .done () (w.store b off bytes) := by
    simp [exec, inBlock, h]
  exact (Prog.run_perform (exec tid env) _ w).trans hx

theorem run_store_outOfRange (h : ¬ off + bytes.length ≤ 4096) :
    (store b off bytes).run (exec tid env) w = .stuck .outOfRange w := by
  have hx : exec tid env (.store b off bytes) w = .stuck .outOfRange w := by
    simp [exec, inBlock, h]
  exact (Prog.run_perform (exec tid env) _ w).trans hx

theorem run_load64 (h : off + 8 ≤ 4096) :
    (load64 b off).run (exec tid env) w = .done ((w.cache b).get64 off) w := by
  simp [load64, run_load h, Buffer.get64]

theorem run_store64 {v : UInt64} (h : off + 8 ≤ 4096) :
    (store64 b off v).run (exec tid env) w = .done () (w.store b off (toLE 8 v.toNat)) :=
  run_store (by simpa using h)

theorem run_loadInode {i : Nat} (h : 32 * i + 32 ≤ 4096) :
    (loadInode i).run (exec tid env) w = .done (entryAt w.cache i) w := by
  simp [loadInode, run_load h, entryAt, inodeAt]

theorem run_storeInode {i : Nat} {e : SimplefsInode} (h : 32 * i + 32 ≤ 4096) :
    (storeInode i e).run (exec tid env) w = .done () (w.store 1 (32 * i) e.encode) :=
  run_store (by simpa using h)

theorem run_sbInodesCount :
    sbInodesCount.run (exec tid env) w = .done (inodesCount w.cache) w :=
  run_load64 (by simp)

theorem run_sbFreeBlocks :
    sbFreeBlocks.run (exec tid env) w = .done (freeBlocks w.cache) w :=
  run_load64 (by simp)

theorem run_sbBreadBugOn (h : env.breadFails b = false) :
    (sbBreadBugOn b).run (exec tid env) w = .done () w := by
  simp [sbBreadBugOn, h]

theorem run_newInodeUnchecked :
    newInodeUnchecked.run (exec tid env) w =
      if env.newInodeFails then .stuck .nullInode w else .done () w := by
  have hx : newInodeUnchecked.run (exec tid env) w =
      (if (!(!env.newInodeFails)) = true then act (.trap .nullInode) else pure ()).run
        (exec tid env) w := rfl
  rw [hx, Bool.not_not]
  cases env.newInodeFails <;> rfl

theorem run_copyFromUser (h : off + bytes.length ≤ 4096) :
    (copyFromUser b off bytes).run (exec tid env) w =
      .done ((copied env.copyFault bytes).length == bytes.length)
        (w.store b off (zeroFilled env.copyFault bytes)) := by
  have hx : exec tid env (.copyFromUser b off bytes) w =
      .done ((copied env.copyFault bytes).length == bytes.length)
        (w.store b off (zeroFilled env.copyFault bytes)) := by
    simp [exec, inBlock, h]
  exact (Prog.run_perform (exec tid env) _ w).trans hx

theorem run_copyToUser (h : off + len ≤ 4096) :
    (copyToUser b off len).run (exec tid env) w =
      .done (if (copied env.copyFault ((w.cache b).bytesAt off len)).length < len then none
        else some ((w.cache b).bytesAt off len)) w := by
  have hx : exec tid env (.copyToUser b off len) w =
      .done (if (copied env.copyFault ((w.cache b).bytesAt off len)).length < len then none
        else some ((w.cache b).bytesAt off len)) w := by
    simp only [exec, inBlock, h, decide_true, if_true]
    split <;> simp [*]
  exact (Prog.run_perform (exec tid env) _ w).trans hx

end Primitives

section Loops

variable {block i left : Nat} {name : Name} {ino : UInt64}

/-- The search also compares the entry behind the last counted one. -/
theorem run_inodeSearchLoop (h : 32 * (i + left) + 32 ≤ 4096) :
    (inodeSearchLoop ino left i).run (exec tid env) w =
      .done ((List.range' i (left + 1)).find? fun j => (entryAt w.cache j).inodeNo = ino) w := by
  induction left generalizing i with
  | zero =>
      have hr : List.range' i (0 + 1) = [i] := rfl
      rw [hr]
      simp only [inodeSearchLoop, Prog.run_bind, simplefsInodestoreBlockNumber,
        sizeofSimplefsInode]
      rw [run_load64 (by omega)]
      simp only [Outcome.bind_done, Prog.run_pure, List.find?, entryAt, inodeNo_inodeAt]
      split <;> simp_all
  | succ left ih =>
      rw [List.range'_succ]
      simp only [inodeSearchLoop, Prog.run_bind, simplefsInodestoreBlockNumber,
        sizeofSimplefsInode]
      rw [run_load64 (by omega)]
      simp only [Outcome.bind_done, Prog.run_ite, Prog.run_pure, List.find?_cons, entryAt,
        inodeNo_inodeAt]
      by_cases hc : (w.cache 1).get64 (32 * i + 8) = ino
      · simp [hc]
      · have := ih (i := i + 1) (by omega)
        simp [hc, this, entryAt, inodeNo_inodeAt]

theorem run_simplefsInodeSearch {q : SimplefsInode}
    (h : 32 * (inodesCount w.cache).toNat + 32 ≤ 4096) :
    (simplefsInodeSearch q).run (exec tid env) w =
      .done ((List.range' 0 ((inodesCount w.cache).toNat + 1)).find?
        fun j => (entryAt w.cache j).inodeNo = q.inodeNo) w := by
  simp only [simplefsInodeSearch, Prog.run_bind, run_sbInodesCount, Outcome.bind_done]
  exact run_inodeSearchLoop (by omega)

theorem run_getInodeLoop (h : 32 * (i + left) ≤ 4096) :
    (getInodeLoop ino left i).run (exec tid env) w =
      .done (((List.range' i left).find? fun j => (entryAt w.cache j).inodeNo = ino).map
        (entryAt w.cache)) w := by
  induction left generalizing i with
  | zero => rfl
  | succ left ih =>
      rw [List.range'_succ]
      simp only [getInodeLoop, Prog.run_bind, simplefsInodestoreBlockNumber, sizeofSimplefsInode]
      rw [run_load64 (by omega)]
      have hno : (entryAt w.cache i).inodeNo = (w.cache 1).get64 (32 * i + 8) := inodeNo_inodeAt
      simp only [Outcome.bind_done, Prog.run_ite, Prog.run_bind, Prog.run_pure, List.find?_cons,
        hno]
      by_cases hc : (w.cache 1).get64 (32 * i + 8) = ino
      · simp [hc, run_loadInode (w := w) (i := i) (by omega)]
      · simp [hc, ih (i := i + 1) (by omega)]

/-- The first entry with the number, among the counted ones. -/
def findEntry (img : Image) (ino : UInt64) : Option Nat :=
  (List.range' 0 (inodesCount img).toNat).find? fun j => (entryAt img j).inodeNo = ino

theorem run_simplefsGetInode (hb : env.breadFails 1 = false) (h : 32 * (inodesCount w.cache).toNat ≤ 4096) :
    (simplefsGetInode ino).run (exec tid env) w =
      .done ((findEntry w.cache ino).map (entryAt w.cache)) w := by
  simp only [simplefsGetInode, simplefsInodestoreBlockNumber, Prog.run_bind, run_sbBreadBugOn hb,
    run_sbInodesCount, Outcome.bind_done]
  exact run_getInodeLoop (by omega)

theorem run_strcmpLoop {off : Nat} {s : List UInt8} (h : off + s.length ≤ 4096) :
    (strcmpLoop block off s).run (exec tid env) w =
      .done (decide ((w.cache block).bytesAt off s.length = s)) w := by
  induction s generalizing off with
  | nil => simp [strcmpLoop, Buffer.bytesAt]
  | cons c s ih =>
      have hlen : (c :: s).length = 1 + s.length := Nat.add_comm _ _
      have hone : (w.cache block).bytesAt off 1 = [w.cache block off] := rfl
      rw [hlen] at h ⊢
      rw [Buffer.bytesAt_add, hone]
      simp only [strcmpLoop, Prog.run_bind]
      rw [run_load (by omega)]
      simp only [Outcome.bind_done, Prog.run_ite, Prog.run_pure, hone]
      by_cases hc : w.cache block off = c
      · simp [hc, @ih (off + 1) (by omega)]
      · simp [hc]

/-- The first record of a directory block with the name, among the first `n`. -/
def findRecord (dir : Buffer) (name : Name) (n : Nat) : Option Nat :=
  (List.range' 0 n).find? fun k => dir.HasCString (264 * k) name

theorem run_lookupLoop (hn : ValidName name) (h : 264 * (i + left) ≤ 4096) :
    (lookupLoop block name left i).run (exec tid env) w =
      .done (((List.range' i left).find? fun k => (w.cache block).HasCString (264 * k) name).map
        (recordIno (w.cache block))) w := by
  have hc : cString name = name ++ [0] := cString_of_nulFree hn.nulFree
  have hl : (name ++ [0]).length = name.length + 1 := by simp
  induction left generalizing i with
  | zero => rfl
  | succ left ih =>
      rw [List.range'_succ]
      have hle := hn.le
      simp only [lookupLoop, Prog.run_bind, hc, sizeofSimplefsDirRecord]
      rw [run_strcmpLoop (by rw [hl]; omega)]
      simp only [Outcome.bind_done, Prog.run_ite, Prog.run_bind, Prog.run_pure, List.find?_cons,
        hl, decide_eq_true_eq]
      by_cases hx : (w.cache block).HasCString (264 * i) name
      · have hx' : (w.cache block).bytesAt (264 * i) (name.length + 1) = name ++ [0] := hx
        rw [run_load64 (by omega)]
        simp [hx, hx', recordIno]
      · have hx' : ¬ (w.cache block).bytesAt (264 * i) (name.length + 1) = name ++ [0] := hx
        simp [hx, hx', ih (i := i + 1) (by omega)]

theorem run_iterateLoop (h : 264 * (i + left) ≤ 4096) :
    (iterateLoop block left i).run (exec tid env) w =
      .done ((List.range' i left).map fun k =>
        ⟨(w.cache block).bytesAt (264 * k) 255, recordIno (w.cache block) k⟩) w := by
  induction left generalizing i with
  | zero => rfl
  | succ left ih =>
      rw [List.range'_succ]
      simp only [iterateLoop, Prog.run_bind, sizeofSimplefsDirRecord, simplefsFilenameMaxlen]
      rw [run_load (by omega)]
      simp only [Outcome.bind_done]
      rw [run_load64 (by omega)]
      simp [ih (i := i + 1) (by omega), recordIno]

end Loops

namespace World

variable (w : World)

/-- Write a buffer that was just changed to the device. -/
def flush (b : Nat) : World := (w.markBufferDirty b).syncDirtyBuffer b

/-- Take the block the scan found out of the free map. -/
def allocBlock : World :=
  (w.store 0 32 (toLE 8 (freeBlocks w.cache &&&
    ~~~freeblockMask (freeblockScan (freeBlocks w.cache))).toNat)).flush 0

/-- Append an entry to the inode store and count it. -/
def addInode (e : SimplefsInode) : World :=
  (((w.store 1 (32 * (inodesCount w.cache).toNat) e.encode).store 0 24
    (toLE 8 (inodesCount w.cache + 1).toNat)).markBufferDirty 1).flush 0

/-- Fill in the record with index `k` of the directory block `block`. -/
def addRecord (block k : Nat) (ino : UInt64) (name : Name) : World :=
  ((w.store block (264 * k + 256) (toLE 8 ino.toNat)).store block (264 * k)
    (cString name)).flush block

/-- Overwrite the store entry with index `i`. -/
def saveInode (i : Nat) (q : SimplefsInode) : World := (w.store 1 (32 * i) q.encode).flush 1

/-- Copy bytes into the data block of a file. -/
def writeData (block pos : Nat) (bytes : List UInt8) : World :=
  (w.store block pos bytes).flush block

section Stages

variable {w}

@[simp] theorem flush_cache (b : Nat) : (w.flush b).cache = w.cache := rfl

@[simp] theorem flush_media (b : Nat) :
    (w.flush b).media = Function.update w.media b (w.cache b) := by
  simp [flush]

@[simp] theorem flush_dirty (b : Nat) :
    (w.flush b).dirty = Function.update w.dirty b false := by
  simp [flush]

theorem allocBlock_cache : w.allocBlock.cache = setFree w.cache (freeBlocks w.cache &&&
    ~~~freeblockMask (freeblockScan (freeBlocks w.cache))) := rfl

theorem addInode_cache (e : SimplefsInode) : (w.addInode e).cache =
    setCount (setEntry w.cache (inodesCount w.cache).toNat e) (inodesCount w.cache + 1) := rfl

theorem saveInode_cache (i : Nat) (q : SimplefsInode) :
    (w.saveInode i q).cache = setEntry w.cache i q := rfl

theorem writeData_cache (block pos : Nat) (bytes : List UInt8) :
    (w.writeData block pos bytes).cache =
      Function.update w.cache block ((w.cache block).splice pos bytes) := rfl

@[simp] theorem allocBlock_owner : w.allocBlock.owner = w.owner := rfl

@[simp] theorem addInode_owner (e : SimplefsInode) : (w.addInode e).owner = w.owner := rfl

@[simp] theorem addRecord_owner (block k : Nat) (ino : UInt64) (name : Name) :
    (w.addRecord block k ino name).owner = w.owner := rfl

@[simp] theorem saveInode_owner (i : Nat) (q : SimplefsInode) :
    (w.saveInode i q).owner = w.owner := rfl

end Stages

end World

section Owners

variable {m : Mutex} {t u : Option Nat}

@[simp] theorem World.setOwner_setOwner :
    (w.setOwner m t).setOwner m u = w.setOwner m u := by
  simp [World.setOwner]

/-- Only the last change of the owner of a mutex counts. -/
@[simp] theorem World.setOwner_setOwner_setOwner {n : Mutex} {v : Option Nat} :
    ((w.setOwner m t).setOwner n u).setOwner m v = (w.setOwner n u).setOwner m v := by
  simp only [World.setOwner, World.mk.injEq, true_and]
  funext x
  by_cases hm : x = m
  · simp [hm]
  · by_cases hn : x = n
    · subst hn
      simp [hm]
    · simp [hm, hn]

theorem World.setOwner_eq_self (h : w.owner m = t) : w.setOwner m t = w := by
  cases w
  simp only [World.setOwner, World.mk.injEq, true_and]
  subst h
  exact Function.update_eq_self _ _

@[simp] theorem World.store_setOwner (b off : Nat) (bytes : List UInt8) :
    (w.setOwner m t).store b off bytes = (w.store b off bytes).setOwner m t := rfl

@[simp] theorem World.markBufferDirty_setOwner (b : Nat) :
    (w.setOwner m t).markBufferDirty b = (w.markBufferDirty b).setOwner m t := rfl

@[simp] theorem World.syncDirtyBuffer_setOwner (b : Nat) :
    (w.setOwner m t).syncDirtyBuffer b = (w.syncDirtyBuffer b).setOwner m t := rfl

@[simp] theorem World.allocBlock_setOwner :
    (w.setOwner m t).allocBlock = w.allocBlock.setOwner m t := rfl

@[simp] theorem World.addInode_setOwner (e : SimplefsInode) :
    (w.setOwner m t).addInode e = (w.addInode e).setOwner m t := rfl

@[simp] theorem World.flush_setOwner (b : Nat) :
    (w.setOwner m t).flush b = (w.flush b).setOwner m t := rfl

@[simp] theorem World.addRecord_setOwner (block k : Nat) (ino : UInt64) (name : Name) :
    (w.setOwner m t).addRecord block k ino name =
      (w.addRecord block k ino name).setOwner m t := rfl

@[simp] theorem World.saveInode_setOwner (i : Nat) (q : SimplefsInode) :
    (w.setOwner m t).saveInode i q = (w.saveInode i q).setOwner m t := rfl

@[simp] theorem World.setFileSize_setOwner (p : Path) (v : UInt64) :
    (w.setOwner m t).setFileSize p v = (w.setFileSize p v).setOwner m t := rfl

@[simp] theorem World.dAdd_setOwner (p : Path) (v : VfsInode) :
    (w.setOwner m t).dAdd p v = (w.dAdd p v).setOwner m t := rfl

end Owners

section Functions

theorem run_simplefsSbSync (hb : env.breadFails 0 = false) :
    simplefsSbSync.run (exec tid env) w = .done () (w.flush 0) := by
  simp [simplefsSbSync, run_sbBreadBugOn hb, World.flush]

/-- The entry a search by number finds, the one behind the counted ones included. -/
def searchEntry (img : Image) (ino : UInt64) : Option Nat :=
  (List.range' 0 ((inodesCount img).toNat + 1)).find? fun j => (entryAt img j).inodeNo = ino

theorem run_simplefsSbGetObjectsCount :
    simplefsSbGetObjectsCount.run (exec tid env) w =
      if env.interrupted .sbGetObjectsCount then .done (-4, 0) w
      else if w.owner .inodesMgmtLock = none then
        .done (0, inodesCount w.cache) (w.setOwner .inodesMgmtLock none)
      else .stuck (.blocked .inodesMgmtLock) w := by
  simp only [simplefsSbGetObjectsCount, Prog.run_bind]
  cases h₁ : env.interrupted .sbGetObjectsCount with
  | true => simp [run_lock_interrupted h₁]
  | false =>
      by_cases h₂ : w.owner .inodesMgmtLock = none
      · simp [run_lock_taken h₁ h₂, h₂, run_sbInodesCount]
      · simp [run_lock_blocked h₁ h₂, h₂]

/-- The mutex is released at `end` even when it was not taken. -/
theorem run_simplefsSbGetAFreeblock (hb : env.breadFails 0 = false) :
    simplefsSbGetAFreeblock.run (exec tid env) w =
      if env.interrupted .sbGetAFreeblock then .done (-4, 0) (w.setOwner .sbLock none)
      else if w.owner .sbLock = none then
        if freeblockScan (freeBlocks w.cache) = 64 then
          .done (-28, 0) (w.setOwner .sbLock none)
        else
          .done (0, UInt64.ofNat (freeblockScan (freeBlocks w.cache)))
            (w.allocBlock.setOwner .sbLock none)
      else .stuck (.blocked .sbLock) w := by
  simp only [simplefsSbGetAFreeblock, Prog.run_bind]
  cases h₁ : env.interrupted .sbGetAFreeblock with
  | true => simp [run_lock_interrupted h₁]
  | false =>
      by_cases h₂ : w.owner .sbLock = none
      · by_cases h₃ : freeblockScan (freeBlocks w.cache) = 64
        · simp [run_lock_taken h₁ h₂, h₂, h₃, run_sbFreeBlocks]
        · simp [run_lock_taken h₁ h₂, h₂, h₃, run_sbFreeBlocks, run_store64,
            run_simplefsSbSync hb, World.allocBlock]
      · simp [run_lock_blocked h₁ h₂, h₂]

/-- Interrupted at its first lock the function does nothing; interrupted at
its second it keeps the first. -/
theorem run_simplefsInodeAdd {e : SimplefsInode} (hb : ∀ b < 2, env.breadFails b = false)
    (hc : 32 * (inodesCount w.cache).toNat + 32 ≤ 4096) :
    (simplefsInodeAdd e).run (exec tid env) w =
      if env.interrupted .inodeAddMgmt then .done () w
      else if w.owner .inodesMgmtLock = none then
        if env.interrupted .inodeAddSb then .done () (w.setOwner .inodesMgmtLock (some tid))
        else if w.owner .sbLock = none then
          .done () (((w.addInode e).setOwner .sbLock none).setOwner .inodesMgmtLock none)
        else .stuck (.blocked .sbLock) (w.setOwner .inodesMgmtLock (some tid))
      else .stuck (.blocked .inodesMgmtLock) w := by
  simp only [simplefsInodeAdd, Prog.run_bind]
  cases h₁ : env.interrupted .inodeAddMgmt with
  | true => simp [run_lock_interrupted h₁]
  | false =>
      by_cases h₂ : w.owner .inodesMgmtLock = none
      · cases h₃ : env.interrupted .inodeAddSb with
        | true =>
            simp [run_lock_taken h₁ h₂, run_lock_interrupted h₃, h₂, run_sbBreadBugOn (hb 1 (by decide))]
        | false =>
            by_cases h₄ : w.owner .sbLock = none
            · have ho : (w.setOwner .inodesMgmtLock (some tid)).owner .sbLock = none := by
                simpa using h₄
              simp [run_lock_taken h₁ h₂, run_lock_taken h₃ ho, h₂, h₄, hc, run_sbBreadBugOn (hb 1 (by decide)),
                run_sbInodesCount, run_storeInode, run_store64, run_simplefsSbSync (hb 0 (by decide)),
                World.addInode]
            · have ho : ¬ (w.setOwner .inodesMgmtLock (some tid)).owner .sbLock = none := by
                simpa using h₄
              simp [run_lock_taken h₁ h₂, run_lock_blocked h₃ ho, h₂, h₄, run_sbBreadBugOn (hb 1 (by decide))]
      · simp [run_lock_blocked h₁ h₂, h₂]

/-- An interrupted save changes nothing; an inode that is not in the store
gives `-EIO`. -/
theorem run_simplefsInodeSave {p : Path} {q : SimplefsInode} (hb : env.breadFails 1 = false)
    (hq : w.simplefsInode p = some q) (hc : (inodesCount w.cache).toNat < 127) :
    (simplefsInodeSave p).run (exec tid env) w =
      if env.interrupted .inodeSave then .done (-4) w
      else if w.owner .sbLock = none then
        match searchEntry w.cache q.inodeNo with
        | some i => .done 0 ((w.saveInode i q).setOwner .sbLock none)
        | none => .done (-5) (w.setOwner .sbLock none)
      else .stuck (.blocked .sbLock) w := by
  simp only [simplefsInodeSave, Prog.run_bind, simplefsInodestoreBlockNumber, run_sbBreadBugOn hb,
    Outcome.bind_done]
  cases h₁ : env.interrupted .inodeSave with
  | true => simp [run_lock_interrupted h₁]
  | false =>
      by_cases h₂ : w.owner .sbLock = none
      · have hs : (simplefsInodeSearch q).run (exec tid env) (w.setOwner .sbLock (some tid)) =
            .done (searchEntry w.cache q.inodeNo) (w.setOwner .sbLock (some tid)) :=
          run_simplefsInodeSearch (by simp; omega)
        have hq' : (w.setOwner .sbLock (some tid)).simplefsInode p = some q := hq
        simp only [run_lock_taken h₁ h₂, h₂, Outcome.bind_done, Bool.not_true,
          Bool.false_eq_true, if_false, if_true, Prog.run_bind, LockSite.mutex]
        rw [run_simplefsInode hq', Outcome.bind_done, hs, Outcome.bind_done]
        cases hf : searchEntry w.cache q.inodeNo with
        | none => simp
        | some i =>
            have hi : i < (inodesCount w.cache).toNat + 1 := by
              have := List.mem_of_find?_eq_some hf
              simpa using this
            simp [run_storeInode (show 32 * i + 32 ≤ 4096 by omega), World.saveInode, World.flush]
      · simp [run_lock_blocked h₁ h₂, h₂]

theorem run_simplefsIterate {p : Path} {q : SimplefsInode} {pos : Nat}
    (hb : env.breadFails q.dataBlockNumber.toNat = false) (hq : w.simplefsInode p = some q)
    (hd : sIsdir q.mode = true) (hc : q.dirChildrenCount ≤ 15) :
    (simplefsIterate p pos).run (exec tid env) w =
      if pos ≠ 0 then .done (0, [], pos) w
      else .done (0, (List.range' 0 q.dirChildrenCount).map (fun k =>
        ⟨(w.cache q.dataBlockNumber.toNat).bytesAt (264 * k) 255,
          recordIno (w.cache q.dataBlockNumber.toNat) k⟩), 264 * q.dirChildrenCount) w := by
  by_cases hp : pos = 0
  · simp [simplefsIterate, hp, run_simplefsInode hq, hd, run_sbBreadBugOn hb,
      run_iterateLoop (i := 0) (w := w) (show 264 * (0 + q.dirChildrenCount) ≤ 4096 by omega)]
  · simp [simplefsIterate, hp]

theorem run_simplefsRead {p : Path} {q : SimplefsInode} {len pos : Nat} (hb : env.BreadOk)
    (hq : w.simplefsInode p = some q) (hs : q.fileSize.toNat ≤ 4096) :
    (simplefsRead p len pos).run (exec tid env) w =
      if pos ≥ q.fileSize.toNat then .done (0, [], pos) w
      else if (copied env.copyFault ((w.cache q.dataBlockNumber.toNat).bytesAt 0
          (min q.fileSize.toNat len))).length < min q.fileSize.toNat len then
        .done (-14, [], pos) w
      else .done ((min q.fileSize.toNat len : Nat), (w.cache q.dataBlockNumber.toNat).bytesAt 0
        (min q.fileSize.toNat len), pos + min q.fileSize.toNat len) w := by
  by_cases hp : pos ≥ q.fileSize.toNat
  · simp [simplefsRead, run_simplefsInode hq, hp]
  · simp only [simplefsRead, Prog.run_bind, run_simplefsInode hq, Outcome.bind_done,
      Prog.run_ite, if_neg hp, run_sbBread, hb q.dataBlockNumber.toNat]
    rw [run_copyToUser (show 0 + min q.fileSize.toNat len ≤ 4096 by omega)]
    by_cases hf : (copied env.copyFault ((w.cache q.dataBlockNumber.toNat).bytesAt 0
        (min q.fileSize.toNat len))).length < min q.fileSize.toNat len
    · simp [hf]
    · rw [if_neg hf, if_neg hf]
      rfl

theorem run_simplefsLookup {p : Path} {name : Name} {q : SimplefsInode} (hb : env.BreadOk)
    (hn : ValidName name) (hq : w.simplefsInode p = some q) (hc : q.dirChildrenCount ≤ 15)
    (hi : (inodesCount w.cache).toNat ≤ 128) :
    (simplefsLookup p name).run (exec tid env) w =
      match findRecord (w.cache q.dataBlockNumber.toNat) name q.dirChildrenCount with
      | none => .done () w
      | some k =>
          if env.newInodeFails then .stuck .nullInode w
          else match findEntry w.cache (recordIno (w.cache q.dataBlockNumber.toNat) k) with
          | none => .stuck .nullPointer w
          | some j => .done () (w.dAdd (name :: p)
              ⟨recordIno (w.cache q.dataBlockNumber.toNat) k, fopOf (entryAt w.cache j).mode,
                some (entryAt w.cache j)⟩) := by
  simp only [simplefsLookup, Prog.run_bind, run_simplefsInode hq, run_sbBreadBugOn (hb _),
    Outcome.bind_done]
  have hl : (lookupLoop q.dataBlockNumber.toNat name q.dirChildrenCount 0).run (exec tid env) w =
      .done ((findRecord (w.cache q.dataBlockNumber.toNat) name q.dirChildrenCount).map
        (recordIno (w.cache q.dataBlockNumber.toNat))) w := run_lookupLoop hn (by omega)
  rw [hl, Outcome.bind_done]
  cases findRecord (w.cache q.dataBlockNumber.toNat) name q.dirChildrenCount with
  | none => rfl
  | some k =>
      simp only [Option.map_some, Prog.run_bind]
      rw [run_simplefsGetInode (hb 1) (by omega), Outcome.bind_done, run_newInodeUnchecked]
      cases env.newInodeFails with
      | true => rfl
      | false =>
          cases findEntry w.cache (recordIno (w.cache q.dataBlockNumber.toNat) k) with
          | none => rfl
          | some j => rfl

theorem run_simplefsFillSuper (hb : env.BreadOk) (hm : (w.cache 0).get64 8 = simplefsMagic)
    (hs : (w.cache 0).get64 16 = 4096) (hc : (inodesCount w.cache).toNat ≤ 128) :
    simplefsFillSuper.run (exec tid env) w =
      if env.newInodeFails then .stuck .nullInode w
      else .done 0 (w.dAdd [] ⟨1, some .dir, (findEntry w.cache 1).map (entryAt w.cache)⟩) := by
  simp only [simplefsFillSuper, Prog.run_bind, run_sbBreadBugOn (hb _), Outcome.bind_done,
    simplefsSuperblockBlockNumber]
  rw [run_load64 (by omega)]
  simp only [Outcome.bind_done, hm, ne_eq, not_true_eq_false, if_false, Prog.run_bind]
  rw [run_load64 (by omega)]
  have hg : (simplefsGetInode 1).run (exec tid env) w =
      .done ((findEntry w.cache 1).map (entryAt w.cache)) w := run_simplefsGetInode (hb 1) (by omega)
  cases h : env.newInodeFails <;> simp [hs, hg, run_newInodeUnchecked, h]

/-- The end of `simplefs_create_fs_object`: count the record that was written. -/
def createCommit (dir : Path) (name : Name) (e : SimplefsInode) : Code Int := do
  if !(← mutexLockInterruptible .createMgmt) then
    mutexUnlock .directoryChildrenUpdateLock
    return -eintr
  let parentDirInode ← simplefsInode dir
  setFileSize dir (parentDirInode.fileSize + 1)
  let ret ← simplefsInodeSave dir
  if ret ≠ 0 then
    mutexUnlock .inodesMgmtLock
    mutexUnlock .directoryChildrenUpdateLock
    return ret
  mutexUnlock .inodesMgmtLock
  mutexUnlock .directoryChildrenUpdateLock
  dAdd (name :: dir) ⟨e.inodeNo, fopOf e.mode, some e⟩
  return 0

/-- The part of `simplefs_create_fs_object` that starts when it has a block. -/
def createTail (dir : Path) (name : Name) (e : SimplefsInode) : Code Int := do
  simplefsInodeAdd e
  let parentDirInode ← simplefsInode dir
  let block := parentDirInode.dataBlockNumber.toNat
  sbBreadBugOn block
  let record := sizeofSimplefsDirRecord * parentDirInode.dirChildrenCount
  store64 block (record + 256) e.inodeNo
  strcpyFilename block record name
  markBufferDirty block
  syncDirtyBuffer block
  createCommit dir name e

/-- The inode `simplefs_create_fs_object` fills in. -/
def newEntry (img : Image) (mode : UInt16) : SimplefsInode where
  mode := mode.toUInt32
  inodeNo := inodesCount img + simplefsStartIno - simplefsReservedInodes + 1
  dataBlockNumber := UInt64.ofNat (freeblockScan (freeBlocks img))
  fileSize := 0

theorem createFsObject_eq (dir : Path) (name : Name) (mode : UInt16) :
    simplefsCreateFsObject dir name mode = (do
      if !(← mutexLockInterruptible .createChildren) then
        return -eintr
      let (ret, count) ← simplefsSbGetObjectsCount
      if ret < 0 then
        mutexUnlock .directoryChildrenUpdateLock
        return ret
      if count.toNat ≥ simplefsMaxFilesystemObjectsSupported then
        mutexUnlock .directoryChildrenUpdateLock
        return -enospc
      if !sIsdir mode.toUInt32 && !sIsreg mode.toUInt32 then
        mutexUnlock .directoryChildrenUpdateLock
        return -einval
      if !(← newInode) then
        mutexUnlock .directoryChildrenUpdateLock
        return -enomem
      let (ret, dataBlockNumber) ← simplefsSbGetAFreeblock
      if ret < 0 then
        mutexUnlock .directoryChildrenUpdateLock
        return ret
      createTail dir name ⟨mode.toUInt32,
        count + simplefsStartIno - simplefsReservedInodes + 1, dataBlockNumber, 0⟩) := rfl

theorem simplefsInode_setFileSize {p : Path} {q : SimplefsInode} {v : UInt64}
    (hq : w.simplefsInode p = some q) :
    (w.setFileSize p v).simplefsInode p = some { q with fileSize := v } := by
  unfold World.simplefsInode at hq ⊢
  cases hd : w.dcache p with
  | none => simp [hd] at hq
  | some i =>
      simp only [hd, Option.bind_some] at hq
      simp [hd, hq]

theorem run_createCommit {dir : Path} {name : Name} {e q : SimplefsInode} (hb : env.BreadOk)
    (hq : w.simplefsInode dir = some q) (hc : (inodesCount w.cache).toNat < 127)
    (hs : w.owner .sbLock = none) :
    (createCommit dir name e).run (exec tid env) w =
      if env.interrupted .createMgmt then .done (-4) (w.setOwner .directoryChildrenUpdateLock none)
      else if w.owner .inodesMgmtLock = none then
        let wc := (w.setFileSize dir (q.fileSize + 1)).setOwner .directoryChildrenUpdateLock none
        if env.interrupted .inodeSave then .done (-4) wc
        else
          match searchEntry w.cache q.inodeNo with
          | none => .done (-5) wc
          | some i => .done 0 ((wc.saveInode i { q with fileSize := q.fileSize + 1 }).dAdd
              (name :: dir) ⟨e.inodeNo, fopOf e.mode, some e⟩)
      else .stuck (.blocked .inodesMgmtLock) w := by
  simp only [createCommit, Prog.run_bind]
  cases h₁ : env.interrupted .createMgmt with
  | true => simp [run_lock_interrupted h₁]
  | false =>
      by_cases h₂ : w.owner .inodesMgmtLock = none
      · have hq₁ : (w.setOwner .inodesMgmtLock (some tid)).simplefsInode dir = some q := hq
        have hq₂ : ((w.setFileSize dir (q.fileSize + 1)).setOwner .inodesMgmtLock
            (some tid)).simplefsInode dir = some { q with fileSize := q.fileSize + 1 } :=
          simplefsInode_setFileSize hq
        have hs₂ : ((w.setFileSize dir (q.fileSize + 1)).setOwner .inodesMgmtLock
            (some tid)).owner .sbLock = none := by simpa using hs
        simp only [run_lock_taken h₁ h₂, Outcome.bind_done, Bool.not_true, Bool.false_eq_true,
          if_false, Prog.run_bind, LockSite.mutex, run_simplefsInode hq₁, run_setFileSize,
          World.setFileSize_setOwner, h₂, if_true]
        rw [run_simplefsInodeSave (hb 1) hq₂ (by simpa using hc)]
        have hsb : ∀ x : World, x.owner = w.owner → x.setOwner .sbLock none = x :=
          fun x hx => World.setOwner_eq_self (by rw [hx, hs])
        have him : ∀ x : World, x.owner = w.owner → x.setOwner .inodesMgmtLock none = x :=
          fun x hx => World.setOwner_eq_self (by rw [hx, h₂])
        simp only [hs₂, if_true]
        cases h₃ : env.interrupted .inodeSave with
        | true => simp [him]
        | false =>
            cases hf : searchEntry w.cache q.inodeNo with
            | none => simp [hf, him, hsb]
            | some i => simp [hf, him, hsb]
      · simp [run_lock_blocked h₁ h₂, h₂]

/-- The state behind `simplefs_inode_add`, with the locks it leaves. -/
def afterAdd (tid : Nat) (env : Env) (w : World) (e : SimplefsInode) : World :=
  if env.interrupted .inodeAddMgmt then w
  else if env.interrupted .inodeAddSb then w.setOwner .inodesMgmtLock (some tid)
  else w.addInode e

theorem run_createTail {dir : Path} {name : Name} {e q : SimplefsInode} (hb : env.BreadOk)
    (hn : ValidName name) (hq : w.simplefsInode dir = some q) (hk : q.dirChildrenCount < 15)
    (hc : (inodesCount w.cache).toNat < 64) (hi : w.owner .inodesMgmtLock = none)
    (hs : w.owner .sbLock = none) :
    (createTail dir name e).run (exec tid env) w =
      (createCommit dir name e).run (exec tid env) ((afterAdd tid env w e).addRecord
        q.dataBlockNumber.toNat q.dirChildrenCount e.inodeNo name) := by
  have hadd : (simplefsInodeAdd e).run (exec tid env) w = .done () (afterAdd tid env w e) := by
    rw [run_simplefsInodeAdd (fun b _ => hb b) (by omega)]
    unfold afterAdd
    cases env.interrupted .inodeAddMgmt with
    | true => simp
    | false =>
        cases env.interrupted .inodeAddSb with
        | true => simp [hi]
        | false =>
            have h₁ : (w.addInode e).setOwner .sbLock none = w.addInode e :=
              World.setOwner_eq_self hs
            have h₂ : (w.addInode e).setOwner .inodesMgmtLock none = w.addInode e :=
              World.setOwner_eq_self hi
            simp [hi, hs, h₁, h₂]
  have hqa : (afterAdd tid env w e).simplefsInode dir = some q := by
    unfold afterAdd
    split_ifs <;> exact hq
  have hlen := length_cString_le hn
  simp only [createTail, Prog.run_bind, hadd, Outcome.bind_done, run_simplefsInode hqa,
    run_sbBreadBugOn (hb _), sizeofSimplefsDirRecord]
  rw [run_store64 (by omega), Outcome.bind_done, strcpyFilename, run_store (by omega)]
  rfl

/-- A record that does not fit into the block is the only way out of range. -/
theorem run_createTail_outOfRange {dir : Path} {name : Name} {e q : SimplefsInode}
    (hb : env.BreadOk) (hq : w.simplefsInode dir = some q) (hk : ¬ q.dirChildrenCount < 15)
    (hc : (inodesCount w.cache).toNat < 64) :
    ∃ t w', (createTail dir name e).run (exec tid env) w = .stuck t w' := by
  have hstore : ∀ {v : World}, (store64 q.dataBlockNumber.toNat
      (264 * q.dirChildrenCount + 256) e.inodeNo).run (exec tid env) v = .stuck .outOfRange v :=
    fun {v} => run_store_outOfRange (by simp; omega)
  have hrest : ∀ {v : World}, v.dcache = w.dcache → ∃ t w',
      ((simplefsInode dir >>= fun parentDirInode => do
        let block := parentDirInode.dataBlockNumber.toNat
        sbBreadBugOn block
        let record := sizeofSimplefsDirRecord * parentDirInode.dirChildrenCount
        store64 block (record + 256) e.inodeNo
        strcpyFilename block record name
        markBufferDirty block
        syncDirtyBuffer block
        createCommit dir name e : Code Int)).run (exec tid env) v = .stuck t w' := by
    intro v hv
    have hqv : v.simplefsInode dir = some q := by
      rw [World.simplefsInode, hv]
      exact hq
    simp only [Prog.run_bind, run_simplefsInode hqv, Outcome.bind_done, run_sbBreadBugOn (hb _),
      sizeofSimplefsDirRecord, hstore, Outcome.bind_stuck]
    exact ⟨_, _, rfl⟩
  simp only [createTail]
  rw [Prog.run_bind, run_simplefsInodeAdd (fun b _ => hb b) (by omega)]
  split_ifs
  · exact hrest rfl
  · exact hrest rfl
  · exact hrest rfl
  · exact ⟨_, _, rfl⟩
  · exact ⟨_, _, rfl⟩

/-- The checks at the start of `simplefs_create_fs_object`, up to the block it
takes out of the free map. -/
theorem run_simplefsCreateFsObject {dir : Path} {name : Name} {mode : UInt16}
    (hb : env.BreadOk) :
    (simplefsCreateFsObject dir name mode).run (exec tid env) w =
      if env.interrupted .createChildren then .done (-4) w
      else if w.owner .directoryChildrenUpdateLock = none then
        if env.interrupted .sbGetObjectsCount then .done (-4) w
        else if w.owner .inodesMgmtLock = none then
          if 64 ≤ (inodesCount w.cache).toNat then .done (-28) w
          else if !sIsdir mode.toUInt32 && !sIsreg mode.toUInt32 then .done (-22) w
          else if env.newInodeFails then .done (-12) w
          else if env.interrupted .sbGetAFreeblock then .done (-4) (w.setOwner .sbLock none)
          else if w.owner .sbLock = none then
            if freeblockScan (freeBlocks w.cache) = 64 then .done (-28) w
            else (createTail dir name (newEntry w.cache mode)).run (exec tid env)
              (w.allocBlock.setOwner .directoryChildrenUpdateLock (some tid))
          else .stuck (.blocked .sbLock) (w.setOwner .directoryChildrenUpdateLock (some tid))
        else .stuck (.blocked .inodesMgmtLock)
          (w.setOwner .directoryChildrenUpdateLock (some tid))
      else .stuck (.blocked .directoryChildrenUpdateLock) w := by
  rw [createFsObject_eq, Prog.run_bind]
  cases h₁ : env.interrupted .createChildren with
  | true => simp [run_lock_interrupted h₁]
  | false =>
    by_cases h₂ : w.owner .directoryChildrenUpdateLock = none
    · have hw : w.setOwner .directoryChildrenUpdateLock none = w := World.setOwner_eq_self h₂
      simp only [run_lock_taken h₁ h₂, Outcome.bind_done, Bool.not_true, Bool.false_eq_true,
        if_false, Prog.run_bind, LockSite.mutex, run_simplefsSbGetObjectsCount, h₂, if_true]
      cases h₃ : env.interrupted .sbGetObjectsCount with
      | true => simp [hw]
      | false =>
        by_cases h₄ : w.owner .inodesMgmtLock = none
        · have hm : (w.setOwner .directoryChildrenUpdateLock (some tid)).setOwner
              .inodesMgmtLock none = w.setOwner .directoryChildrenUpdateLock (some tid) :=
            World.setOwner_eq_self (by simpa using h₄)
          have ho : (w.setOwner .directoryChildrenUpdateLock (some tid)).owner .inodesMgmtLock =
              none := by simpa using h₄
          have hs : (w.setOwner .directoryChildrenUpdateLock (some tid)).owner .sbLock =
              w.owner .sbLock := by simp
          simp only [ho, h₄, if_true, Bool.false_eq_true, if_false, Outcome.bind_done, hm,
            Prog.run_ite, Prog.run_bind, run_newInode, run_simplefsSbGetAFreeblock (hb 0), hs]
          have hsd : (w.setOwner .sbLock none).setOwner .directoryChildrenUpdateLock none =
              w.setOwner .sbLock none := World.setOwner_eq_self (by simpa using h₂)
          by_cases h₅ : 64 ≤ (inodesCount w.cache).toNat
          · simp [h₅, hw]
          by_cases h₆ : (!sIsdir mode.toUInt32 && !sIsreg mode.toUInt32) = true
          · simp [h₅, h₆, hw]
          cases h₇ : env.newInodeFails with
          | true => simp [h₅, h₆, hw]
          | false =>
            cases h₈ : env.interrupted .sbGetAFreeblock with
            | true => simp [h₅, h₆, hsd]
            | false =>
              by_cases h₉ : w.owner .sbLock = none
              · have hn : w.setOwner .sbLock none = w := World.setOwner_eq_self h₉
                have ha : (w.allocBlock.setOwner .directoryChildrenUpdateLock
                    (some tid)).setOwner .sbLock none =
                    w.allocBlock.setOwner .directoryChildrenUpdateLock (some tid) :=
                  World.setOwner_eq_self (by simpa using h₉)
                by_cases hf : freeblockScan (freeBlocks w.cache) = 64
                · simp [h₅, h₆, h₉, hf, hn, hw]
                · simp [h₅, h₆, h₉, hf, ha, newEntry]
              · simp [h₅, h₆, h₉]
        · simp [h₄]
    · simp [run_lock_blocked h₁ h₂, h₂]

theorem inodesCount_writeData {block pos : Nat} {bytes : List UInt8} (h : block ≠ 0) :
    inodesCount (w.writeData block pos bytes).cache = inodesCount w.cache := by
  simp [inodesCount, World.writeData, Function.update_of_ne h.symm]

/-- The number of bytes `generic_write_checks` lets through. -/
def writeLength (buf : List UInt8) (pos : Nat) : Nat := min buf.length (4096 - pos)

theorem copied_eq_of_length {fault : Option Nat} {bytes : List UInt8}
    (h : (copied fault bytes).length = bytes.length) : copied fault bytes = bytes := by
  cases fault with
  | none => rfl
  | some k =>
      simp only [copied, List.length_take] at h ⊢
      exact List.take_of_length_le (by omega)

theorem zeroFilled_eq_of_length {fault : Option Nat} {bytes : List UInt8}
    (h : (copied fault bytes).length = bytes.length) : zeroFilled fault bytes = bytes := by
  rw [zeroFilled, copied_eq_of_length h, Nat.sub_self, List.replicate_zero, List.append_nil]

/-- The end of `simplefs_write`: record the new size. -/
def writeCommit (filp : Path) (len pos : Nat) : Code (Int × Nat) := do
  if !(← mutexLockInterruptible .write) then
    return (-eintr, pos)
  setFileSize filp (UInt64.ofNat pos)
  let retval ← simplefsInodeSave filp
  mutexUnlock .inodesMgmtLock
  return (if retval ≠ 0 then retval else (len : Int), pos)

theorem run_writeCommit {p : Path} {q : SimplefsInode} {len pos : Nat}
    (hb : env.breadFails 1 = false)
    (hq : w.simplefsInode p = some q) (hc : (inodesCount w.cache).toNat < 127) :
    (writeCommit p len pos).run (exec tid env) w =
      if env.interrupted .write then .done (-4, pos) w
      else if w.owner .inodesMgmtLock = none then
        let ws := w.setFileSize p (UInt64.ofNat pos)
        if env.interrupted .inodeSave then .done (-4, pos) ws
        else if w.owner .sbLock = none then
          match searchEntry w.cache q.inodeNo with
          | none => .done (-5, pos) ws
          | some i => .done (len, pos) (ws.saveInode i { q with fileSize := UInt64.ofNat pos })
        else .stuck (.blocked .sbLock) (ws.setOwner .inodesMgmtLock (some tid))
      else .stuck (.blocked .inodesMgmtLock) w := by
  simp only [writeCommit, Prog.run_bind]
  cases h₁ : env.interrupted .write with
  | true => simp [run_lock_interrupted h₁]
  | false =>
      by_cases h₂ : w.owner .inodesMgmtLock = none
      · have hq₂ : ((w.setFileSize p (UInt64.ofNat pos)).setOwner .inodesMgmtLock
            (some tid)).simplefsInode p = some { q with fileSize := UInt64.ofNat pos } :=
          simplefsInode_setFileSize hq
        have ho : ((w.setFileSize p (UInt64.ofNat pos)).setOwner .inodesMgmtLock
            (some tid)).owner .sbLock = w.owner .sbLock := by simp
        have him : ∀ x : World, x.owner = w.owner → x.setOwner .inodesMgmtLock none = x :=
          fun x hx => World.setOwner_eq_self (by rw [hx, h₂])
        simp only [run_lock_taken h₁ h₂, Outcome.bind_done, Bool.not_true, Bool.false_eq_true,
          if_false, Prog.run_bind, LockSite.mutex, run_setFileSize, World.setFileSize_setOwner,
          h₂, if_true]
        rw [run_simplefsInodeSave hb hq₂ (by simpa using hc)]
        simp only [ho]
        cases h₃ : env.interrupted .inodeSave with
        | true => simp [him]
        | false =>
            by_cases h₄ : w.owner .sbLock = none
            · have hsb : ∀ x : World, x.owner = w.owner → x.setOwner .sbLock none = x :=
                fun x hx => World.setOwner_eq_self (by rw [hx, h₄])
              cases hf : searchEntry w.cache q.inodeNo with
              | none => simp [h₄, hf, him, hsb]
              | some i => simp [h₄, hf, him, hsb]
            · simp [h₄]
      · simp [run_lock_blocked h₁ h₂, h₂]

theorem genericWriteChecks_error {buf : List UInt8} {pos : Nat}
    (h : 4096 ≤ pos ∧ (buf.length ≠ 0 ∨ 4096 < pos)) :
    genericWriteChecks pos buf.length simplefsDefaultBlockSize = .error (-27) := by
  unfold genericWriteChecks
  exact if_pos h

theorem genericWriteChecks_ok {buf : List UInt8} {pos : Nat}
    (h : ¬ (4096 ≤ pos ∧ (buf.length ≠ 0 ∨ 4096 < pos))) :
    genericWriteChecks pos buf.length simplefsDefaultBlockSize = .ok (writeLength buf pos) := by
  unfold genericWriteChecks
  exact if_neg h

theorem length_take_writeLength (buf : List UInt8) (pos : Nat) :
    (buf.take (writeLength buf pos)).length = writeLength buf pos := by
  simp [writeLength]

theorem add_writeLength_le {buf : List UInt8} {pos : Nat}
    (h : ¬ (4096 ≤ pos ∧ (buf.length ≠ 0 ∨ 4096 < pos))) : pos + writeLength buf pos ≤ 4096 := by
  unfold writeLength
  omega

/-- The copy into the data block, and the write-back of the block. -/
theorem run_simplefsWrite {p : Path} {q : SimplefsInode} {buf : List UInt8} {pos : Nat}
    (hq : w.simplefsInode p = some q) :
    (simplefsWrite p buf pos).run (exec tid env) w =
      if 4096 ≤ pos ∧ (buf.length ≠ 0 ∨ 4096 < pos) then .done (-27, pos) w
      else if env.breadFails q.dataBlockNumber.toNat then .done (0, pos) w
      else if (copied env.copyFault (buf.take (writeLength buf pos))).length ≠
          writeLength buf pos then
        .done (-14, pos) (w.store q.dataBlockNumber.toNat pos
          (zeroFilled env.copyFault (buf.take (writeLength buf pos))))
      else (writeCommit p (writeLength buf pos) (pos + writeLength buf pos)).run (exec tid env)
        (w.writeData q.dataBlockNumber.toNat pos (buf.take (writeLength buf pos))) := by
  by_cases h₁ : 4096 ≤ pos ∧ (buf.length ≠ 0 ∨ 4096 < pos)
  · simp only [simplefsWrite, genericWriteChecks_error h₁, if_pos h₁, Prog.run_pure]
  · have hlen := length_take_writeLength buf pos
    have hpos := add_writeLength_le h₁
    simp only [simplefsWrite, genericWriteChecks_ok h₁, if_neg h₁, Prog.run_bind,
      run_simplefsInode hq, Outcome.bind_done, run_sbBread]
    cases hb : env.breadFails q.dataBlockNumber.toNat with
    | true => rfl
    | false =>
        simp only [Bool.not_false, Bool.not_true, Bool.false_eq_true, if_false, Prog.run_bind]
        rw [run_copyFromUser (by omega), Outcome.bind_done, hlen]
        by_cases h₂ : (copied env.copyFault (buf.take (writeLength buf pos))).length =
            writeLength buf pos
        · rw [zeroFilled_eq_of_length (h₂.trans hlen.symm), h₂]
          simp only [ beq_self_eq_true, Bool.not_true, Bool.false_eq_true, if_false, ne_eq,
            not_true_eq_false, Prog.run_bind, run_markBufferDirty, run_syncDirtyBuffer,
            Outcome.bind_done, writeCommit, World.writeData, World.flush]
        · simp [h₂]

end Functions

end LinuxDevelopment.Simplefs
