import LinuxDevelopment.Simplefs.Kernel

/-!
# simplefs: the functions of `simple.c`

Every definition below is one function of `simple.c`, statement by statement.
An `inode` argument is the path of its dentry. A loop is a recursion on the
number of iterations its bound still allows; the bound is read once, which is
what a reader of an unchanging field sees. `printk` and the time stamps are
left out.
-/

namespace LinuxDevelopment.Simplefs

/-- The error numbers the module returns, as negative results. -/
@[simp] def eperm : Int := 1
@[simp] def eintr : Int := 4
@[simp] def eio : Int := 5
@[simp] def enomem : Int := 12
@[simp] def efault : Int := 14
@[simp] def enotdir : Int := 20
@[simp] def einval : Int := 22
@[simp] def efbig : Int := 27
@[simp] def enospc : Int := 28

/-- `mutex_lock_interruptible`, true when the mutex is taken. -/
def mutexLockInterruptible (site : LockSite) : Code Bool := act (.mutexLockInterruptible site)

def mutexUnlock (m : Mutex) : Code Unit := act (.mutexUnlock m)

/-- `sb_bread`, true when the buffer could be read. -/
def sbBread (b : Nat) : Code Bool := act (.sbBread b)

/-- `bh = sb_bread(...); BUG_ON(!bh);` -/
def sbBreadBugOn (b : Nat) : Code Unit := do
  if !(← sbBread b) then
    act (.trap .bug)

def markBufferDirty (b : Nat) : Code Unit := act (.markBufferDirty b)

def syncDirtyBuffer (b : Nat) : Code Unit := act (.syncDirtyBuffer b)

/-- Read bytes of the buffer of block `b`. -/
def load (b off len : Nat) : Code (List UInt8) := act (.load b off len)

/-- Copy bytes into the buffer of block `b`. -/
def store (b off : Nat) (bytes : List UInt8) : Code Unit := act (.store b off bytes)

/-- Read a 64-bit field of the buffer of block `b`. -/
def load64 (b off : Nat) : Code UInt64 := do
  let bytes ← load b off 8
  return UInt64.ofNat (ofLE bytes)

/-- Assign to a 64-bit field of the buffer of block `b`. -/
def store64 (b off : Nat) (v : UInt64) : Code Unit := store b off (toLE 8 v.toNat)

/-- Copy the store entry with index `i` out of the inode store. -/
def loadInode (i : Nat) : Code SimplefsInode := do
  let bytes ← load simplefsInodestoreBlockNumber (sizeofSimplefsInode * i) sizeofSimplefsInode
  return .decode bytes

/-- Copy an inode over the store entry with index `i`. -/
def storeInode (i : Nat) (inode : SimplefsInode) : Code Unit :=
  store simplefsInodestoreBlockNumber (sizeofSimplefsInode * i) inode.encode

/-- `SIMPLEFS_INODE(inode)`, followed by an access through the pointer. -/
def simplefsInode (inode : Path) : Code SimplefsInode := act (.simplefsInode inode)

/-- Assign to the size word of the in-memory inode. -/
def setFileSize (inode : Path) (v : UInt64) : Code Unit := act (.setFileSize inode v)

/-- `new_inode`, true when it succeeds. -/
def newInode : Code Bool := act .newInode

/-- `new_inode`, with a result that is used without a test for `NULL`. -/
def newInodeUnchecked : Code Unit := do
  if !(← newInode) then
    act (.trap .nullInode)

/-- Attach an inode to a dentry. -/
def dAdd (dentry : Path) (inode : VfsInode) : Code Unit := act (.dAdd dentry inode)

/-- `copy_from_user` into the buffer of block `b`, true when nothing is left over. -/
def copyFromUser (b off : Nat) (bytes : List UInt8) : Code Bool := act (.copyFromUser b off bytes)

/-- `copy_to_user` from the buffer of block `b`: the bytes, when nothing is left over. -/
def copyToUser (b off len : Nat) : Code (Option (List UInt8)) := act (.copyToUser b off len)

/-- `sb->inodes_count`. -/
def sbInodesCount : Code UInt64 := load64 simplefsSuperblockBlockNumber 24

/-- `sb->free_blocks`. -/
def sbFreeBlocks : Code UInt64 := load64 simplefsSuperblockBlockNumber 32

/-- `bh->b_data` is already the memory of `sb`, so only the write is left. -/
def simplefsSbSync : Code Unit := do
  sbBreadBugOn simplefsSuperblockBlockNumber
  markBufferDirty simplefsSuperblockBlockNumber
  syncDirtyBuffer simplefsSuperblockBlockNumber

/-- The loop of `simplefs_inode_search`, `left` iterations before `count`
reaches the bound; the entry behind the last counted one is compared too. -/
def inodeSearchLoop (inodeNo : UInt64) : (left i : Nat) → Code (Option Nat)
  | 0, i => do
      let startNo ← load64 simplefsInodestoreBlockNumber (sizeofSimplefsInode * i + 8)
      return if startNo = inodeNo then some i else none
  | left + 1, i => do
      let startNo ← load64 simplefsInodestoreBlockNumber (sizeofSimplefsInode * i + 8)
      if startNo = inodeNo then
        return some i
      inodeSearchLoop inodeNo left (i + 1)

/-- The index of the entry found, started at the first entry of the store. -/
def simplefsInodeSearch (search : SimplefsInode) : Code (Option Nat) := do
  let inodesCount ← sbInodesCount
  inodeSearchLoop search.inodeNo inodesCount.toNat 0

def simplefsInodeAdd (inode : SimplefsInode) : Code Unit := do
  if !(← mutexLockInterruptible .inodeAddMgmt) then
    return ()
  sbBreadBugOn simplefsInodestoreBlockNumber
  if !(← mutexLockInterruptible .inodeAddSb) then
    return ()
  let inodesCount ← sbInodesCount
  storeInode inodesCount.toNat inode
  store64 simplefsSuperblockBlockNumber 24 (inodesCount + 1)
  markBufferDirty simplefsInodestoreBlockNumber
  simplefsSbSync
  mutexUnlock .sbLock
  mutexUnlock .inodesMgmtLock

/-- `(uint64_t)(1 << i)`: a shift of a 32-bit `int`, whose count x86 takes
modulo 32, converted with sign extension. -/
def freeblockMask (i : Nat) : UInt64 := ⟨((1#32) <<< (i % 32)).signExtend 64⟩

/-- The loop of `simplefs_sb_get_a_freeblock`: the first `i` whose mask meets
the free map, or the bound of the loop. -/
def freeblockLoop (freeBlocks : UInt64) : (left i : Nat) → Nat
  | 0, i => i
  | left + 1, i =>
      if freeBlocks &&& freeblockMask i ≠ 0 then i else freeblockLoop freeBlocks left (i + 1)

/-- The value of `i` behind the loop, which starts from 3. -/
def freeblockScan (freeBlocks : UInt64) : Nat :=
  freeblockLoop freeBlocks (simplefsMaxFilesystemObjectsSupported - 3) 3

/-- `ret` and `*out`. The label `end` is also reached when the lock was not
taken. -/
def simplefsSbGetAFreeblock : Code (Int × UInt64) := do
  if !(← mutexLockInterruptible .sbGetAFreeblock) then
    mutexUnlock .sbLock
    return (-eintr, 0)
  let freeBlocks ← sbFreeBlocks
  let i := freeblockScan freeBlocks
  if i = simplefsMaxFilesystemObjectsSupported then
    mutexUnlock .sbLock
    return (-enospc, 0)
  store64 simplefsSuperblockBlockNumber 32 (freeBlocks &&& ~~~freeblockMask i)
  simplefsSbSync
  mutexUnlock .sbLock
  return (0, UInt64.ofNat i)

/-- `ret` and `*out`. -/
def simplefsSbGetObjectsCount : Code (Int × UInt64) := do
  if !(← mutexLockInterruptible .sbGetObjectsCount) then
    return (-eintr, 0)
  let inodesCount ← sbInodesCount
  mutexUnlock .inodesMgmtLock
  return (0, inodesCount)

/-- One entry handed to `dir_emit`: the bytes of the name and the inode number. -/
structure DirEmit where
  name : List UInt8
  ino : UInt64
  deriving DecidableEq, Repr

/-- The loop of `simplefs_iterate`: the calls of `dir_emit`, whose result is
not looked at. -/
def iterateLoop (block : Nat) : (left i : Nat) → Code (List DirEmit)
  | 0, _ => return []
  | left + 1, i => do
      let filename ← load block (sizeofSimplefsDirRecord * i) simplefsFilenameMaxlen
      let inodeNo ← load64 block (sizeofSimplefsDirRecord * i + 256)
      let rest ← iterateLoop block left (i + 1)
      return ⟨filename, inodeNo⟩ :: rest

/-- The result, the calls of `dir_emit` and the new `ctx->pos`. -/
def simplefsIterate (filp : Path) (pos : Nat) : Code (Int × List DirEmit × Nat) := do
  if pos ≠ 0 then
    return (0, [], pos)
  let sfsInode ← simplefsInode filp
  if !sIsdir sfsInode.mode then
    return (-enotdir, [], pos)
  let block := sfsInode.dataBlockNumber.toNat
  sbBreadBugOn block
  let emits ← iterateLoop block sfsInode.dirChildrenCount 0
  return (0, emits, pos + sizeofSimplefsDirRecord * emits.length)

/-- The loop of `simplefs_get_inode`. -/
def getInodeLoop (inodeNo : UInt64) : (left i : Nat) → Code (Option SimplefsInode)
  | 0, _ => return none
  | left + 1, i => do
      let entryNo ← load64 simplefsInodestoreBlockNumber (sizeofSimplefsInode * i + 8)
      if entryNo = inodeNo then
        let inodeBuffer ← loadInode i
        return some inodeBuffer
      getInodeLoop inodeNo left (i + 1)

/-- A copy of the first entry with the number, or `NULL`. -/
def simplefsGetInode (inodeNo : UInt64) : Code (Option SimplefsInode) := do
  sbBreadBugOn simplefsInodestoreBlockNumber
  let inodesCount ← sbInodesCount
  getInodeLoop inodeNo inodesCount.toNat 0

/-- The result, the bytes copied to the user and the new `*ppos`. -/
def simplefsRead (filp : Path) (len ppos : Nat) : Code (Int × List UInt8 × Nat) := do
  let inode ← simplefsInode filp
  if ppos ≥ inode.fileSize.toNat then
    return (0, [], ppos)
  let block := inode.dataBlockNumber.toNat
  if !(← sbBread block) then
    return (0, [], ppos)
  let nbytes := min inode.fileSize.toNat len
  match ← copyToUser block 0 nbytes with
  | none => return (-efault, [], ppos)
  | some bytes => return (nbytes, bytes, ppos + nbytes)

/-- Save the modified in-memory inode behind a dentry. -/
def simplefsInodeSave (inode : Path) : Code Int := do
  sbBreadBugOn simplefsInodestoreBlockNumber
  if !(← mutexLockInterruptible .inodeSave) then
    return -eintr
  let sfsInode ← simplefsInode inode
  match ← simplefsInodeSearch sfsInode with
  | some i =>
      storeInode i sfsInode
      markBufferDirty simplefsInodestoreBlockNumber
      syncDirtyBuffer simplefsInodestoreBlockNumber
      mutexUnlock .sbLock
      return 0
  | none =>
      mutexUnlock .sbLock
      return -eio

/-- `generic_write_checks` of the kernel for a regular file, with no resource
limit and after `O_APPEND` has set the position: the length to write. -/
def genericWriteChecks (ppos len sMaxbytes : Nat) : Except Int Nat :=
  if ppos ≥ sMaxbytes ∧ (len ≠ 0 ∨ ppos > sMaxbytes) then .error (-efbig)
  else .ok (min len (sMaxbytes - ppos))

/-- The result and the new `*ppos`. -/
def simplefsWrite (filp : Path) (buf : List UInt8) (ppos : Nat) : Code (Int × Nat) := do
  match genericWriteChecks ppos buf.length simplefsDefaultBlockSize with
  | .error retval => return (retval, ppos)
  | .ok len =>
      let sfsInode ← simplefsInode filp
      let block := sfsInode.dataBlockNumber.toNat
      if !(← sbBread block) then
        return (0, ppos)
      if !(← copyFromUser block ppos (buf.take len)) then
        return (-efault, ppos)
      markBufferDirty block
      syncDirtyBuffer block
      if !(← mutexLockInterruptible .write) then
        return (-eintr, ppos + len)
      setFileSize filp (UInt64.ofNat (ppos + len))
      let retval ← simplefsInodeSave filp
      mutexUnlock .inodesMgmtLock
      return (if retval ≠ 0 then retval else (len : Int), ppos + len)

/-- The `file_operations` table for a mode. -/
def fopOf (mode : UInt32) : Option FileOps :=
  if sIsdir mode then some .dir else if sIsreg mode then some .file else none

/-- Write the name with its terminator into the record, as `strcpy` does. -/
def strcpyFilename (block off : Nat) (name : Name) : Code Unit :=
  store block off (cString name)

def simplefsCreateFsObject (dir : Path) (name : Name) (mode : UInt16) : Code Int := do
  if !(← mutexLockInterruptible .createChildren) then
    return -eintr
  let (ret, count) ← simplefsSbGetObjectsCount
  if ret < 0 then
    mutexUnlock .directoryChildrenUpdateLock
    return ret
  if count.toNat ≥ simplefsMaxFilesystemObjectsSupported then
    mutexUnlock .directoryChildrenUpdateLock
    return -enospc
  if !sIsdir mode.toUInt32 && !sIsreg mode.toUInt32 then
    mutexUnlock .directoryChildrenUpdateLock
    return -einval
  if !(← newInode) then
    mutexUnlock .directoryChildrenUpdateLock
    return -enomem
  let iIno := count + simplefsStartIno - simplefsReservedInodes + 1
  let (ret, dataBlockNumber) ← simplefsSbGetAFreeblock
  if ret < 0 then
    mutexUnlock .directoryChildrenUpdateLock
    return ret
  -- both union members are set to 0 in the source, each in its own branch
  let sfsInode : SimplefsInode := ⟨mode.toUInt32, iIno, dataBlockNumber, 0⟩
  simplefsInodeAdd sfsInode
  let parentDirInode ← simplefsInode dir
  let block := parentDirInode.dataBlockNumber.toNat
  sbBreadBugOn block
  let record := sizeofSimplefsDirRecord * parentDirInode.dirChildrenCount
  store64 block (record + 256) sfsInode.inodeNo
  strcpyFilename block record name
  markBufferDirty block
  syncDirtyBuffer block
  if !(← mutexLockInterruptible .createMgmt) then
    mutexUnlock .directoryChildrenUpdateLock
    return -eintr
  let parentDirInode ← simplefsInode dir
  setFileSize dir (parentDirInode.fileSize + 1)
  let ret ← simplefsInodeSave dir
  if ret ≠ 0 then
    mutexUnlock .inodesMgmtLock
    mutexUnlock .directoryChildrenUpdateLock
    return ret
  mutexUnlock .inodesMgmtLock
  mutexUnlock .directoryChildrenUpdateLock
  dAdd (name :: dir) ⟨iIno, fopOf mode.toUInt32, some sfsInode⟩
  return 0

def simplefsMkdir (dir : Path) (name : Name) (mode : UInt16) : Code Int :=
  simplefsCreateFsObject dir name (sIfdir ||| mode)

def simplefsCreate (dir : Path) (name : Name) (mode : UInt16) : Code Int :=
  simplefsCreateFsObject dir name mode

/-- `!strcmp(p, s)` for the string at an offset of a block and the bytes of a
terminated string. -/
def strcmpLoop (block : Nat) : (off : Nat) → (s : List UInt8) → Code Bool
  | _, [] => return true
  | off, c :: s => do
      let x ← load block off 1
      if x ≠ [c] then
        return false
      strcmpLoop block (off + 1) s

/-- The loop of `simplefs_lookup`: the inode number of the first record with
the name. -/
def lookupLoop (block : Nat) (name : Name) : (left i : Nat) → Code (Option UInt64)
  | 0, _ => return none
  | left + 1, i => do
      if ← strcmpLoop block (sizeofSimplefsDirRecord * i) (cString name) then
        let inodeNo ← load64 block (sizeofSimplefsDirRecord * i + 256)
        return some inodeNo
      lookupLoop block name left (i + 1)

/-- The function returns `NULL` in all cases; what it finds is the inode it
adds to the dentry. The results of `simplefs_get_inode` and `new_inode` are used
without a test for `NULL`. -/
def simplefsLookup (parentInode : Path) (name : Name) : Code Unit := do
  let parent ← simplefsInode parentInode
  let block := parent.dataBlockNumber.toNat
  sbBreadBugOn block
  match ← lookupLoop block name parent.dirChildrenCount 0 with
  | none => return ()
  | some inodeNo =>
      let sfsInode ← simplefsGetInode inodeNo
      newInodeUnchecked
      match sfsInode with
      | none => act (.trap .nullPointer)
      | some sfsInode =>
          dAdd (name :: parentInode) ⟨inodeNo, fopOf sfsInode.mode, some sfsInode⟩

/-- Mount the image in the buffer cache; the root dentry is `[]`. -/
def simplefsFillSuper : Code Int := do
  sbBreadBugOn simplefsSuperblockBlockNumber
  let magic ← load64 simplefsSuperblockBlockNumber 8
  if magic ≠ simplefsMagic then
    return -eperm
  let blockSize ← load64 simplefsSuperblockBlockNumber 16
  if blockSize.toNat ≠ simplefsDefaultBlockSize then
    return -eperm
  newInodeUnchecked
  let root ← simplefsGetInode simplefsRootdirInodeNumber
  dAdd [] ⟨simplefsRootdirInodeNumber, some .dir, root⟩
  return 0

end LinuxDevelopment.Simplefs
