import LinuxDevelopment.Base.Notes
import LinuxDevelopment.Simplefs.Vfs

/-!
# simplefs: references to buffers and memory of the inode cache

`sb_bread` takes a reference to a buffer and `brelse` drops one; the inodes in
memory are objects of `sfs_inode_cachep`. The functions of `simple.c` that deal
with either are given here a second time, with the calls of `brelse` and
`kmem_cache_alloc` where the source has them, as notes. Without the notes each
of them is the function of the first model.
-/

namespace LinuxDevelopment.Simplefs.Counted

/-- The calls that show in the books only. -/
inductive Note where
  | brelse (b : Nat)
  | kmemCacheAlloc
  deriving DecidableEq

/-- The functions of `simple.c` with their notes. -/
abbrev Code (α : Type) := Prog (Noted.Res Note Op.Res) α

def brelse (b : Nat) : Code Unit := Prog.note (.brelse b)

/-- `kmem_cache_alloc` of an inode; it is taken to succeed. -/
def kmemCacheAlloc : Code Unit := Prog.note .kmemCacheAlloc

def simplefsSbSync : Code Unit := do
  sbBreadBugOn simplefsSuperblockBlockNumber
  markBufferDirty simplefsSuperblockBlockNumber
  syncDirtyBuffer simplefsSuperblockBlockNumber
  brelse simplefsSuperblockBlockNumber

/-- Both early returns leave the function without `brelse`; the second one has
a buffer. -/
def simplefsInodeAdd (inode : SimplefsInode) : Code Unit := do
  if !(← mutexLockInterruptible .inodeAddMgmt) then
    return ()
  sbBreadBugOn simplefsInodestoreBlockNumber
  if !(← mutexLockInterruptible .inodeAddSb) then
    return ()
  let inodesCount ← sbInodesCount
  storeInode inodesCount.toNat inode
  store64 simplefsSuperblockBlockNumber 24 (inodesCount + 1)
  markBufferDirty simplefsInodestoreBlockNumber
  simplefsSbSync
  brelse simplefsInodestoreBlockNumber
  mutexUnlock .sbLock
  mutexUnlock .inodesMgmtLock

def simplefsSbGetAFreeblock : Code (Int × UInt64) := do
  if !(← mutexLockInterruptible .sbGetAFreeblock) then
    mutexUnlock .sbLock
    return (-eintr, 0)
  let freeBlocks ← sbFreeBlocks
  let i := freeblockScan freeBlocks
  if i = simplefsMaxFilesystemObjectsSupported then
    mutexUnlock .sbLock
    return (-enospc, 0)
  store64 simplefsSuperblockBlockNumber 32 (freeBlocks &&& ~~~freeblockMask i)
  simplefsSbSync
  mutexUnlock .sbLock
  return (0, UInt64.ofNat i)

def simplefsIterate (filp : Path) (pos : Nat) : Code (Int × List DirEmit × Nat) := do
  if pos ≠ 0 then
    return (0, [], pos)
  let sfsInode ← simplefsInode filp
  if !sIsdir sfsInode.mode then
    return (-enotdir, [], pos)
  let block := sfsInode.dataBlockNumber.toNat
  sbBreadBugOn block
  let emits ← iterateLoop block sfsInode.dirChildrenCount 0
  brelse block
  return (0, emits, pos + sizeofSimplefsDirRecord * emits.length)

/-- The loop of `simplefs_get_inode`; the copy is made in a new object. -/
def getInodeLoop (inodeNo : UInt64) : (left i : Nat) → Code (Option SimplefsInode)
  | 0, _ => return none
  | left + 1, i => do
      let entryNo ← load64 simplefsInodestoreBlockNumber (sizeofSimplefsInode * i + 8)
      if entryNo = inodeNo then
        kmemCacheAlloc
        let inodeBuffer ← loadInode i
        return some inodeBuffer
      getInodeLoop inodeNo left (i + 1)

def simplefsGetInode (inodeNo : UInt64) : Code (Option SimplefsInode) := do
  sbBreadBugOn simplefsInodestoreBlockNumber
  let inodesCount ← sbInodesCount
  let inodeBuffer ← getInodeLoop inodeNo inodesCount.toNat 0
  brelse simplefsInodestoreBlockNumber
  return inodeBuffer

def simplefsRead (filp : Path) (len ppos : Nat) : Code (Int × List UInt8 × Nat) := do
  let inode ← simplefsInode filp
  if ppos ≥ inode.fileSize.toNat then
    return (0, [], ppos)
  let block := inode.dataBlockNumber.toNat
  if !(← sbBread block) then
    return (0, [], ppos)
  let nbytes := min inode.fileSize.toNat len
  match ← copyToUser block 0 nbytes with
  | none =>
      brelse block
      return (-efault, [], ppos)
  | some bytes =>
      brelse block
      return (nbytes, bytes, ppos + nbytes)

/-- Only the way to the end passes `brelse`. -/
def simplefsInodeSave (inode : Path) : Code Int := do
  sbBreadBugOn simplefsInodestoreBlockNumber
  if !(← mutexLockInterruptible .inodeSave) then
    return -eintr
  let sfsInode ← simplefsInode inode
  match ← simplefsInodeSearch sfsInode with
  | some i =>
      storeInode i sfsInode
      markBufferDirty simplefsInodestoreBlockNumber
      syncDirtyBuffer simplefsInodestoreBlockNumber
      brelse simplefsInodestoreBlockNumber
      mutexUnlock .sbLock
      return 0
  | none =>
      mutexUnlock .sbLock
      return -eio

def simplefsWrite (filp : Path) (buf : List UInt8) (ppos : Nat) : Code (Int × Nat) := do
  match genericWriteChecks ppos buf.length simplefsDefaultBlockSize with
  | .error retval => return (retval, ppos)
  | .ok len =>
      let sfsInode ← simplefsInode filp
      let block := sfsInode.dataBlockNumber.toNat
      if !(← sbBread block) then
        return (0, ppos)
      if !(← copyFromUser block ppos (buf.take len)) then
        brelse block
        return (-efault, ppos)
      markBufferDirty block
      syncDirtyBuffer block
      brelse block
      if !(← mutexLockInterruptible .write) then
        return (-eintr, ppos + len)
      setFileSize filp (UInt64.ofNat (ppos + len))
      let retval ← simplefsInodeSave filp
      mutexUnlock .inodesMgmtLock
      return (if retval ≠ 0 then retval else (len : Int), ppos + len)

/-- `simplefs_create_fs_object` from the moment when it has a block. -/
def createTail (dir : Path) (name : Name) (sfsInode : SimplefsInode) : Code Int := do
  simplefsInodeAdd sfsInode
  let parentDirInode ← simplefsInode dir
  let block := parentDirInode.dataBlockNumber.toNat
  sbBreadBugOn block
  let record := sizeofSimplefsDirRecord * parentDirInode.dirChildrenCount
  store64 block (record + 256) sfsInode.inodeNo
  strcpyFilename block record name
  markBufferDirty block
  syncDirtyBuffer block
  brelse block
  if !(← mutexLockInterruptible .createMgmt) then
    mutexUnlock .directoryChildrenUpdateLock
    return -eintr
  let parentDirInode ← simplefsInode dir
  setFileSize dir (parentDirInode.fileSize + 1)
  let ret ← simplefsInodeSave dir
  if ret ≠ 0 then
    mutexUnlock .inodesMgmtLock
    mutexUnlock .directoryChildrenUpdateLock
    return ret
  mutexUnlock .inodesMgmtLock
  mutexUnlock .directoryChildrenUpdateLock
  dAdd (name :: dir) ⟨sfsInode.inodeNo, fopOf sfsInode.mode, some sfsInode⟩
  return 0

/-- `simplefs_create_fs_object` from the moment when it knows the number of
objects. -/
def createObject (dir : Path) (name : Name) (mode : UInt16) (count : UInt64) : Code Int := do
  if count.toNat ≥ simplefsMaxFilesystemObjectsSupported then
    mutexUnlock .directoryChildrenUpdateLock
    return -enospc
  if !sIsdir mode.toUInt32 && !sIsreg mode.toUInt32 then
    mutexUnlock .directoryChildrenUpdateLock
    return -einval
  if !(← newInode) then
    mutexUnlock .directoryChildrenUpdateLock
    return -enomem
  let iIno := count + simplefsStartIno - simplefsReservedInodes + 1
  kmemCacheAlloc
  let (ret, dataBlockNumber) ← simplefsSbGetAFreeblock
  if ret < 0 then
    mutexUnlock .directoryChildrenUpdateLock
    return ret
  createTail dir name ⟨mode.toUInt32, iIno, dataBlockNumber, 0⟩

def simplefsCreateFsObject (dir : Path) (name : Name) (mode : UInt16) : Code Int := do
  if !(← mutexLockInterruptible .createChildren) then
    return -eintr
  let (ret, count) ← simplefsSbGetObjectsCount
  if ret < 0 then
    mutexUnlock .directoryChildrenUpdateLock
    return ret
  createObject dir name mode count

def simplefsMkdir (dir : Path) (name : Name) (mode : UInt16) : Code Int :=
  simplefsCreateFsObject dir name (sIfdir ||| mode)

def simplefsCreate (dir : Path) (name : Name) (mode : UInt16) : Code Int :=
  simplefsCreateFsObject dir name mode

/-- The buffer of the directory is never released. -/
def simplefsLookup (parentInode : Path) (name : Name) : Code Unit := do
  let parent ← simplefsInode parentInode
  let block := parent.dataBlockNumber.toNat
  sbBreadBugOn block
  match ← lookupLoop block name parent.dirChildrenCount 0 with
  | none => return ()
  | some inodeNo =>
      let sfsInode ← simplefsGetInode inodeNo
      newInodeUnchecked
      match sfsInode with
      | none => act (.trap .nullPointer)
      | some sfsInode =>
          dAdd (name :: parentInode) ⟨inodeNo, fopOf sfsInode.mode, some sfsInode⟩

/-- `s_fs_info` keeps pointing into the buffer that is released at the end. -/
def simplefsFillSuper : Code Int := do
  sbBreadBugOn simplefsSuperblockBlockNumber
  let magic ← load64 simplefsSuperblockBlockNumber 8
  if magic ≠ simplefsMagic then
    brelse simplefsSuperblockBlockNumber
    return -eperm
  let blockSize ← load64 simplefsSuperblockBlockNumber 16
  if blockSize.toNat ≠ simplefsDefaultBlockSize then
    brelse simplefsSuperblockBlockNumber
    return -eperm
  newInodeUnchecked
  let root ← simplefsGetInode simplefsRootdirInodeNumber
  dAdd [] ⟨simplefsRootdirInodeNumber, some .dir, root⟩
  brelse simplefsSuperblockBlockNumber
  return 0

/-- The code behind a call. -/
def code : Call → Code Reply
  | .mount => do return .ret (← simplefsFillSuper)
  | .unmount => return .unit
  | .lookup dir name => do
      simplefsLookup dir name
      return .unit
  | .create dir name mode => do return .ret (← simplefsCreate dir name mode)
  | .mkdir dir name mode => do return .ret (← simplefsMkdir dir name mode)
  | .iterate dir pos => do
      let (r, emits, pos) ← simplefsIterate dir pos
      return .listing r emits pos
  | .read file len pos => do
      let (r, bytes, pos) ← simplefsRead file len pos
      return .data r bytes pos
  | .write file buf pos => do
      let (r, pos) ← simplefsWrite file buf pos
      return .wrote r pos

section Erase

@[simp] theorem erase_brelse (b : Nat) : (brelse b).erase = pure () := rfl

@[simp] theorem erase_kmemCacheAlloc : kmemCacheAlloc.erase = pure () := rfl

theorem erase_simplefsSbSync : simplefsSbSync.erase = Simplefs.simplefsSbSync := by
  simp only [simplefsSbSync, Simplefs.simplefsSbSync, Prog.monadLift_eq, Prog.erase_bind,
    Prog.erase_lift, erase_brelse]
  exact Prog.bind_congr_right fun _ => Prog.bind_congr_right fun _ => Prog.bind_pure_self _

theorem erase_simplefsInodeAdd (inode : SimplefsInode) :
    (simplefsInodeAdd inode).erase = Simplefs.simplefsInodeAdd inode := by
  simp only [simplefsInodeAdd, Simplefs.simplefsInodeAdd, Prog.monadLift_eq, Prog.erase_bind,
    Prog.erase_lift, Prog.erase_ite, Prog.erase_pure, erase_brelse, erase_simplefsSbSync,
    Prog.pure_bind]

theorem erase_simplefsSbGetAFreeblock :
    simplefsSbGetAFreeblock.erase = Simplefs.simplefsSbGetAFreeblock := by
  simp only [simplefsSbGetAFreeblock, Simplefs.simplefsSbGetAFreeblock, Prog.monadLift_eq,
    Prog.erase_bind, Prog.erase_lift, Prog.erase_ite, Prog.erase_pure, erase_simplefsSbSync]

theorem erase_simplefsIterate (filp : Path) (pos : Nat) :
    (simplefsIterate filp pos).erase = Simplefs.simplefsIterate filp pos := by
  simp only [simplefsIterate, Simplefs.simplefsIterate, Prog.monadLift_eq, Prog.erase_bind,
    Prog.erase_lift, Prog.erase_ite, Prog.erase_pure, erase_brelse, Prog.pure_bind]

theorem erase_getInodeLoop (inodeNo : UInt64) (left i : Nat) :
    (getInodeLoop inodeNo left i).erase = Simplefs.getInodeLoop inodeNo left i := by
  induction left generalizing i with
  | zero => rfl
  | succ left ih =>
      simp only [getInodeLoop, Simplefs.getInodeLoop, Prog.monadLift_eq, Prog.erase_bind,
        Prog.erase_lift, Prog.erase_ite, Prog.erase_pure, erase_kmemCacheAlloc, Prog.pure_bind, ih]

theorem erase_simplefsGetInode (inodeNo : UInt64) :
    (simplefsGetInode inodeNo).erase = Simplefs.simplefsGetInode inodeNo := by
  simp only [simplefsGetInode, Simplefs.simplefsGetInode, Prog.monadLift_eq, Prog.erase_bind,
    Prog.erase_lift, Prog.erase_pure, erase_brelse, Prog.pure_bind, erase_getInodeLoop,
    Prog.bind_pure_self]

theorem erase_simplefsRead (filp : Path) (len ppos : Nat) :
    (simplefsRead filp len ppos).erase = Simplefs.simplefsRead filp len ppos := by
  simp only [simplefsRead, Simplefs.simplefsRead, Prog.monadLift_eq, Prog.erase_bind,
    Prog.erase_lift, Prog.erase_ite, Prog.erase_pure]
  refine Prog.bind_congr_right fun inode => if_congr Iff.rfl rfl ?_
  refine Prog.bind_congr_right fun readable => if_congr Iff.rfl rfl ?_
  exact Prog.bind_congr_right fun moved => by cases moved <;> rfl

theorem erase_simplefsInodeSave (inode : Path) :
    (simplefsInodeSave inode).erase = Simplefs.simplefsInodeSave inode := by
  simp only [simplefsInodeSave, Simplefs.simplefsInodeSave, Prog.monadLift_eq, Prog.erase_bind,
    Prog.erase_lift, Prog.erase_ite, Prog.erase_pure]
  refine Prog.bind_congr_right fun _ => Prog.bind_congr_right fun taken => if_congr Iff.rfl rfl ?_
  refine Prog.bind_congr_right fun sfsInode => Prog.bind_congr_right fun found => ?_
  cases found with
  | none => rfl
  | some i =>
      simp only [Prog.erase_bind, Prog.erase_lift, Prog.erase_pure, erase_brelse, Prog.pure_bind]

theorem erase_simplefsWrite (filp : Path) (buf : List UInt8) (ppos : Nat) :
    (simplefsWrite filp buf ppos).erase = Simplefs.simplefsWrite filp buf ppos := by
  unfold simplefsWrite Simplefs.simplefsWrite
  cases genericWriteChecks ppos buf.length simplefsDefaultBlockSize with
  | error retval => rfl
  | ok len =>
      simp only [Prog.monadLift_eq, Prog.erase_bind, Prog.erase_lift, Prog.erase_ite,
        Prog.erase_pure, erase_brelse, Prog.pure_bind, erase_simplefsInodeSave]

theorem erase_simplefsCreateFsObject (dir : Path) (name : Name) (mode : UInt16) :
    (simplefsCreateFsObject dir name mode).erase =
      Simplefs.simplefsCreateFsObject dir name mode := by
  simp only [simplefsCreateFsObject, createObject, createTail, Simplefs.simplefsCreateFsObject,
    Prog.monadLift_eq, Prog.erase_bind, Prog.erase_lift, Prog.erase_ite, Prog.erase_pure,
    erase_brelse, erase_kmemCacheAlloc, Prog.pure_bind, erase_simplefsInodeAdd,
    erase_simplefsInodeSave, erase_simplefsSbGetAFreeblock]

theorem erase_simplefsLookup (dir : Path) (name : Name) :
    (simplefsLookup dir name).erase = Simplefs.simplefsLookup dir name := by
  simp only [simplefsLookup, Simplefs.simplefsLookup, Prog.monadLift_eq, Prog.erase_bind,
    Prog.erase_lift]
  refine Prog.bind_congr_right fun parent => Prog.bind_congr_right fun _ =>
    Prog.bind_congr_right fun found => ?_
  cases found with
  | none => rfl
  | some inodeNo =>
      simp only [Prog.erase_bind, erase_simplefsGetInode, Prog.erase_lift]
      refine Prog.bind_congr_right fun sfsInode => Prog.bind_congr_right fun _ => ?_
      cases sfsInode <;> exact Prog.erase_lift _

theorem erase_simplefsFillSuper : simplefsFillSuper.erase = Simplefs.simplefsFillSuper := by
  simp only [simplefsFillSuper, Simplefs.simplefsFillSuper, Prog.monadLift_eq, Prog.erase_bind,
    Prog.erase_lift, Prog.erase_ite, Prog.erase_pure, erase_brelse, Prog.pure_bind,
    erase_simplefsGetInode]

/-- Without its notes the code behind a call is that of the first model. -/
theorem erase_code (c : Call) : (code c).erase = c.code := by
  cases c <;> simp only [code, Call.code, simplefsCreate, simplefsMkdir, Simplefs.simplefsCreate,
    Simplefs.simplefsMkdir, Prog.erase_bind, Prog.erase_pure, erase_simplefsFillSuper,
    erase_simplefsLookup, erase_simplefsCreateFsObject, erase_simplefsIterate, erase_simplefsRead,
    erase_simplefsWrite]

end Erase

end LinuxDevelopment.Simplefs.Counted
