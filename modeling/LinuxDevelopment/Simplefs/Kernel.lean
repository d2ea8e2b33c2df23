import LinuxDevelopment.Base.Program
import LinuxDevelopment.Simplefs.Layout
import Mathlib.Tactic.Simps.Basic

/-!
# simplefs: the kernel services the module is written against

The state is what outlives a call: the buffer cache and the device behind it,
the in-memory inodes hanging off the dentry tree, and the owners of the three
mutexes. `Op` lists the primitive actions of `simple.c`; each access to a
buffer checks that it stays inside the 4096 bytes of its block. The answers
the module does not control (an interrupted lock, a failed read of a block, a
fault of a user copy) come from `Env`.

## Implementation notes

`s_fs_info` points into the buffer of block 0, so the super block in memory is
the cached block 0 and no second copy of it is kept. A dentry is named by its
path; without rename, link and unlink there is one in-memory inode per dentry,
and no step drops a dentry before the unmount. The references to buffers and the
memory of `sfs_inode_cachep` are added in `References`.
-/

namespace LinuxDevelopment.Simplefs

/-- The three static mutexes of `simple.c`. -/
inductive Mutex where
  | sbLock
  | inodesMgmtLock
  | directoryChildrenUpdateLock
  deriving DecidableEq, Repr

/-- The calls of `mutex_lock_interruptible` in `simple.c`, by enclosing function. -/
inductive LockSite where
  | inodeAddMgmt
  | inodeAddSb
  | sbGetAFreeblock
  | sbGetObjectsCount
  | inodeSave
  | write
  | createChildren
  | createMgmt
  deriving DecidableEq, Repr

/-- The mutex a call of `mutex_lock_interruptible` is for. -/
@[simp] def LockSite.mutex : LockSite → Mutex
  | .inodeAddMgmt => .inodesMgmtLock
  | .inodeAddSb => .sbLock
  | .sbGetAFreeblock => .sbLock
  | .sbGetObjectsCount => .inodesMgmtLock
  | .inodeSave => .sbLock
  | .write => .inodesMgmtLock
  | .createChildren => .directoryChildrenUpdateLock
  | .createMgmt => .inodesMgmtLock

/-- A file name: the bytes of `d_name.name` without the terminator. -/
abbrev Name := List UInt8

/-- A dentry, by the names that lead to it, innermost first. The root is `[]`. -/
abbrev Path := List Name

/-- The two `file_operations` tables. -/
inductive FileOps where
  | dir
  | file
  deriving DecidableEq, Repr

/-- The fields of `struct inode` the module sets. -/
structure VfsInode where
  iIno : UInt64
  iFop : Option FileOps
  iPrivate : Option SimplefsInode
  deriving DecidableEq, Repr

/-- The state that outlives a call. -/
structure World where
  /-- the buffer cache: what `sb_bread` hands out -/
  cache : Image
  /-- the device itself -/
  media : Image
  /-- the buffers marked dirty and not written back yet -/
  dirty : Nat → Bool
  /-- the inodes of the positive dentries; empty when nothing is mounted -/
  dcache : Path → Option VfsInode
  /-- the task that holds a mutex -/
  owner : Mutex → Option Nat

/-- What the rest of the kernel answers during one call. -/
structure Env where
  /-- the calls of `mutex_lock_interruptible` that return `-EINTR` -/
  interrupted : LockSite → Bool
  /-- the blocks whose `sb_bread` returns `NULL` -/
  breadFails : Nat → Bool
  /-- `new_inode` returns `NULL` -/
  newInodeFails : Bool
  /-- the user copy faults after this many bytes -/
  copyFault : Option Nat

/-- Why a call does not return. -/
inductive Trap where
  /-- it sleeps on a mutex that is held -/
  | blocked (m : Mutex)
  /-- it accesses bytes outside the block it works on -/
  | outOfRange
  /-- it follows a `NULL` pointer -/
  | nullPointer
  /-- it follows the `NULL` of `new_inode` -/
  | nullInode
  /-- `BUG_ON` -/
  | bug
  deriving DecidableEq, Repr

/-- The primitive actions of `simple.c`. -/
inductive Op where
  | mutexLockInterruptible (site : LockSite)
  | mutexUnlock (m : Mutex)
  | sbBread (b : Nat)
  | trap (t : Trap)
  | load (b off len : Nat)
  | store (b off : Nat) (bytes : List UInt8)
  | markBufferDirty (b : Nat)
  | syncDirtyBuffer (b : Nat)
  | newInode
  | simplefsInode (p : Path)
  | setFileSize (p : Path) (v : UInt64)
  | dAdd (p : Path) (v : VfsInode)
  | copyFromUser (b off : Nat) (bytes : List UInt8)
  | copyToUser (b off len : Nat)
  deriving DecidableEq

/-- What an action answers: whether a lock was taken, a block read or an inode
allocated, the bytes loaded, the in-memory inode, whether a copy succeeded. -/
def Op.Res : Op → Type
  | .mutexLockInterruptible _ | .sbBread _ | .newInode | .copyFromUser .. => Bool
  | .load .. => List UInt8
  | .simplefsInode _ => SimplefsInode
  | .copyToUser .. => Option (List UInt8)
  | _ => Unit

/-- The functions of `simple.c` that return an `α`. -/
abbrev Code (α : Type) := Prog Op.Res α

/-- Perform one action. -/
def act (o : Op) : Code o.Res := Prog.perform o

namespace World

variable (w : World)

/-- Write bytes into the buffer of block `b`. -/
@[simps -fullyApplied] def store (b off : Nat) (bytes : List UInt8) : World :=
  { w with cache := Function.update w.cache b ((w.cache b).splice off bytes) }

@[simps -fullyApplied] def markBufferDirty (b : Nat) : World :=
  { w with dirty := Function.update w.dirty b true }

/-- Write a dirty buffer to the device and wait for it. -/
@[simps -fullyApplied] def syncDirtyBuffer (b : Nat) : World :=
  { w with
    media := Function.update w.media b (if w.dirty b then w.cache b else w.media b)
    dirty := Function.update w.dirty b false }

@[simps -fullyApplied] def setOwner (m : Mutex) (t : Option Nat) : World :=
  { w with owner := Function.update w.owner m t }

@[simps -fullyApplied] def dAdd (p : Path) (v : VfsInode) : World :=
  { w with dcache := Function.update w.dcache p (some v) }

/-- The in-memory inode behind a dentry, as `SIMPLEFS_INODE` finds it. -/
def simplefsInode (p : Path) : Option SimplefsInode :=
  (w.dcache p).bind VfsInode.iPrivate

/-- Change the size word of the in-memory inode behind a dentry. -/
@[simps -fullyApplied] def setFileSize (p : Path) (v : UInt64) : World :=
  { w with dcache := Function.update w.dcache p ((w.dcache p).map fun i =>
      { i with iPrivate := i.iPrivate.map fun q => { q with fileSize := v } }) }

end World

/-- A buffer holds one block. -/
def inBlock (off len : Nat) : Bool := off + len ≤ 4096

/-- The bytes a user copy moves before it ends or faults. -/
def copied (fault : Option Nat) (bytes : List UInt8) : List UInt8 :=
  match fault with
  | some k => bytes.take k
  | none => bytes

/-- What a copy from the user leaves in the kernel: the bytes it has moved, and
zeros for those behind a fault. -/
def zeroFilled (fault : Option Nat) (bytes : List UInt8) : List UInt8 :=
  copied fault bytes ++ List.replicate (bytes.length - (copied fault bytes).length) 0

/-- One primitive action of the task `tid`. -/
def exec (tid : Nat) (env : Env) : (o : Op) → World → Outcome World Trap o.Res
  | .mutexLockInterruptible site, w =>
      if env.interrupted site then .done false w
      else if w.owner site.mutex = none then .done true (w.setOwner site.mutex (some tid))
      else .stuck (.blocked site.mutex) w
  | .mutexUnlock m, w => .done () (w.setOwner m none)
  | .sbBread b, w => .done (!env.breadFails b) w
  | .trap t, w => .stuck t w
  | .load b off len, w =>
      if inBlock off len then .done ((w.cache b).bytesAt off len) w else .stuck .outOfRange w
  | .store b off bytes, w =>
      if inBlock off bytes.length then .done () (w.store b off bytes) else .stuck .outOfRange w
  | .markBufferDirty b, w => .done () (w.markBufferDirty b)
  | .syncDirtyBuffer b, w => .done () (w.syncDirtyBuffer b)
  | .newInode, w => .done (!env.newInodeFails) w
  | .simplefsInode p, w =>
      match w.simplefsInode p with
      | some i => .done i w
      | none => .stuck .nullPointer w
  | .setFileSize p v, w => .done () (w.setFileSize p v)
  | .dAdd p v, w => .done () (w.dAdd p v)
  | .copyFromUser b off bytes, w =>
      if inBlock off bytes.length then
        .done ((copied env.copyFault bytes).length == bytes.length)
          (w.store b off (zeroFilled env.copyFault bytes))
      else .stuck .outOfRange w
  | .copyToUser b off len, w =>
      let bytes := (w.cache b).bytesAt off len
      if (copied env.copyFault bytes).length < len then .done none w
      else if inBlock off len then .done (some bytes) w
      else .stuck .outOfRange w

end LinuxDevelopment.Simplefs
