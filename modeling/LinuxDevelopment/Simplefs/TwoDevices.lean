import LinuxDevelopment.Simplefs.Agreement
import LinuxDevelopment.Simplefs.Bounds
import LinuxDevelopment.Simplefs.Listing

/-!
# simplefs: the same calls on two devices

The functions of the module are performed on two file systems whose caches are
`Known` to agree on what is stored. `Both` is the triple for such pairs: every
function keeps `Known` and returns the same value on both sides, as long as no
lock is interrupted and a write does not start behind the end of the file.
-/

namespace LinuxDevelopment.Simplefs

open Volume

/-- An assertion about the caches of two file systems with the same inodes in
memory. -/
abbrev Assertion := Image → Image → Dentries → Prop

/-- Two states with the same inodes in memory and the same mutexes held, whose
caches satisfy the assertion. -/
structure Paired (I : Assertion) (w₁ w₂ : World) : Prop where
  dcache : w₁.dcache = w₂.dcache
  owner : w₁.owner = w₂.owner
  images : I w₁.cache w₂.cache w₁.dcache

/-- The function performed on both sides: it gets stuck for the same reason, or
returns the same value, and the caches go from `I` to `J`. -/
abbrev Both (tid : Nat) (env : Env) (I : Assertion) {α : Type} (p : Code α) (J : α → Assertion) :
    Prop :=
  p.Lockstep (exec tid env) (Paired I) fun a => Paired (J a)

section Rules

variable {tid : Nat} {env : Env} {I I' : Assertion} {α β : Type} {p : Code α} {J J' : α → Assertion}

theorem both_pure {a : α} (h : ∀ c₁ c₂ d, I c₁ c₂ d → J a c₁ c₂ d) : Both tid env I (pure a) J :=
  Prog.lockstep_pure fun _ _ hI => ⟨hI.dcache, hI.owner, h _ _ _ hI.images⟩

/-- What the assertion says about values may be used in the proof. -/
theorem both_and {φ : Prop} (h : φ → Both tid env I p J) :
    Both tid env (fun c₁ c₂ d => φ ∧ I c₁ c₂ d) p J :=
  Prog.lockstep_of_forall (fun _ _ hI => hI.images.1) fun hφ =>
    (h hφ).pre fun _ _ hI => ⟨hI.dcache, hI.owner, hI.images.2⟩

theorem Both.pre (h : Both tid env I p J) (hI : ∀ c₁ c₂ d, I' c₁ c₂ d → I c₁ c₂ d) :
    Both tid env I' p J :=
  Prog.Lockstep.pre h fun _ _ hI' => ⟨hI'.dcache, hI'.owner, hI _ _ _ hI'.images⟩

theorem Both.post (h : Both tid env I p J) (hJ : ∀ a c₁ c₂ d, J a c₁ c₂ d → J' a c₁ c₂ d) :
    Both tid env I p J' :=
  Prog.Lockstep.post h fun a _ _ hJa => ⟨hJa.dcache, hJa.owner, hJ a _ _ _ hJa.images⟩

theorem both_of_not (h : ∀ c₁ c₂ d, ¬ I c₁ c₂ d) : Both tid env I p J :=
  fun _ _ hI => absurd hI.images (h _ _ _)

end Rules

/-- The actions that leave the caches and the inodes in memory alone. -/
def Op.quiet : Op → Prop
  | .mutexUnlock _ | .sbBread _ | .trap _ | .markBufferDirty _ | .syncDirtyBuffer _ | .newInode =>
      True
  | _ => False

section Actions

variable {tid : Nat} {env : Env} {I J : Assertion} {b off len : Nat} {bytes : List UInt8} {p : Path}

theorem owner_setOwner_congr {w₁ w₂ : World} (h : w₁.owner = w₂.owner) (m : Mutex)
    (t : Option Nat) : (w₁.setOwner m t).owner = (w₂.setOwner m t).owner := by
  rw [World.setOwner_owner, World.setOwner_owner, h]

theorem both_quiet {o : Op} (ho : o.quiet) : Both tid env I (act o) fun _ => I := by
  refine Prog.lockstep_perform ?_
  intro w₁ w₂ hI
  cases o with
  | mutexUnlock m =>
      exact .done ⟨rfl, hI.dcache, owner_setOwner_congr hI.owner m none, hI.images⟩
  | sbBread b | newInode => exact .done ⟨rfl, hI⟩
  | trap t => exact .stuck t
  | markBufferDirty b | syncDirtyBuffer b => exact .done ⟨rfl, hI.dcache, hI.owner, hI.images⟩
  | _ => exact ho.elim

theorem both_lock {site : LockSite} (h : env.interrupted site = false) :
    Both tid env I (mutexLockInterruptible site) fun taken c₁ c₂ d =>
      taken = true ∧ I c₁ c₂ d := by
  refine Prog.lockstep_perform ?_
  intro w₁ w₂ hI
  dsimp only [exec]
  rw [h, if_neg Bool.false_ne_true, if_neg Bool.false_ne_true, ← hI.owner]
  split_ifs
  · exact .done ⟨rfl, hI.dcache, owner_setOwner_congr hI.owner _ _, rfl, hI.images⟩
  · exact .stuck _

theorem both_load (h : ∀ c₁ c₂ d, I c₁ c₂ d → Agree c₁ c₂ b off len) :
    Both tid env I (load b off len) fun x c₁ c₂ d =>
      x = (c₁ b).bytesAt off len ∧ I c₁ c₂ d := by
  refine Prog.lockstep_perform ?_
  intro w₁ w₂ hI
  dsimp only [exec]
  split_ifs
  · exact .done ⟨(h _ _ _ hI.images).bytesAt_eq, hI.dcache, hI.owner, rfl, hI.images⟩
  · exact .stuck _

theorem both_load64 (h : ∀ c₁ c₂ d, I c₁ c₂ d → Agree c₁ c₂ b off 8) :
    Both tid env I (load64 b off) fun x c₁ c₂ d => x = (c₁ b).get64 off ∧ I c₁ c₂ d := by
  refine (both_load h).bind ?_
  intro x
  refine both_pure ?_
  rintro c₁ c₂ d ⟨rfl, hI⟩
  exact ⟨rfl, hI⟩

theorem both_store (h : ∀ c₁ c₂ d, I c₁ c₂ d → off + bytes.length ≤ 4096 →
    J (put c₁ b off bytes) (put c₂ b off bytes) d) :
    Both tid env I (store b off bytes) fun _ => J := by
  refine Prog.lockstep_perform ?_
  intro w₁ w₂ hI
  dsimp only [exec]
  split_ifs with hin
  · exact .done ⟨rfl, hI.dcache, hI.owner, h _ _ _ hI.images (by simpa [inBlock] using hin)⟩
  · exact .stuck _

theorem both_simplefsInode :
    Both tid env I (simplefsInode p) fun q c₁ c₂ d => inMemory d p = some q ∧ I c₁ c₂ d := by
  refine Prog.lockstep_perform ?_
  intro w₁ w₂ hI
  have hsame : w₂.simplefsInode p = w₁.simplefsInode p := by
    unfold World.simplefsInode
    rw [hI.dcache]
  dsimp only [exec]
  rw [hsame]
  cases hq : w₁.simplefsInode p with
  | none => exact .stuck _
  | some q => exact .done ⟨rfl, hI.dcache, hI.owner, hq, hI.images⟩

theorem both_setFileSize {v : UInt64} (h : ∀ c₁ c₂ d, I c₁ c₂ d → J c₁ c₂ (resize d p v)) :
    Both tid env I (setFileSize p v) fun _ => J := by
  refine Prog.lockstep_perform ?_
  intro w₁ w₂ hI
  refine .done ⟨rfl, ?_, hI.owner, h _ _ _ hI.images⟩
  exact congrArg (resize · p v) hI.dcache

theorem both_dAdd {x : VfsInode}
    (h : ∀ c₁ c₂ d, I c₁ c₂ d → J c₁ c₂ (Function.update d p (some x))) :
    Both tid env I (dAdd p x) fun _ => J := by
  refine Prog.lockstep_perform ?_
  intro w₁ w₂ hI
  refine .done ⟨rfl, ?_, hI.owner, h _ _ _ hI.images⟩
  exact congrArg (Function.update · p (some x)) hI.dcache

theorem both_copyFromUser (h : ∀ c₁ c₂ d, I c₁ c₂ d →
    off + bytes.length ≤ 4096 → J (put c₁ b off (zeroFilled env.copyFault bytes))
      (put c₂ b off (zeroFilled env.copyFault bytes)) d) :
    Both tid env I (copyFromUser b off bytes) fun ok c₁ c₂ d =>
      ok = ((copied env.copyFault bytes).length == bytes.length) ∧ J c₁ c₂ d := by
  refine Prog.lockstep_perform ?_
  intro w₁ w₂ hI
  dsimp only [exec]
  split_ifs with hin
  · exact .done ⟨rfl, hI.dcache, hI.owner, rfl, h _ _ _ hI.images (by simpa [inBlock] using hin)⟩
  · exact .stuck _

theorem both_newInodeUnchecked : Both tid env I newInodeUnchecked fun _ => I := by
  refine (both_quiet (o := .newInode) trivial).bind fun ok => ?_
  refine .ite (fun _ => both_quiet (o := .trap .nullInode) trivial) fun _ => ?_
  exact both_pure fun _ _ _ hI => hI

theorem both_copyToUser (h : ∀ c₁ c₂ d, I c₁ c₂ d → Agree c₁ c₂ b off len) :
    Both tid env I (copyToUser b off len) fun _ => I := by
  refine Prog.lockstep_perform ?_
  intro w₁ w₂ hI
  dsimp only [exec]
  rw [(h _ _ _ hI.images).bytesAt_eq]
  split_ifs
  · exact .done ⟨rfl, hI⟩
  · exact .done ⟨rfl, hI⟩
  · exact .stuck _

theorem both_sbBreadBugOn : Both tid env I (sbBreadBugOn b) fun _ => I := by
  refine (both_quiet (o := .sbBread b) trivial).bind ?_
  intro ok
  refine .ite (fun _ => both_quiet (o := .trap .bug) trivial) fun _ => ?_
  exact both_pure fun _ _ _ hI => hI

end Actions

section Functions

variable {tid : Nat} {env : Env} {I : Assertion} {K : Nat → Nat → Prop} {E : SimplefsInode → Prop}
  {F : Dentries → Prop} {p : Path} {q e : SimplefsInode} {n : UInt64}

/-- Behind a lock that is not interrupted. -/
theorem both_lock_bind {site : LockSite} {β : Type} {f : Bool → Code β} {J : β → Assertion}
    (h : env.Uninterrupted) (hf : Both tid env I (f true) J) :
    Both tid env I (mutexLockInterruptible site >>= f) J := by
  refine (both_lock (h site)).bind ?_
  intro taken
  refine both_and ?_
  rintro rfl
  exact hf

theorem both_unlock {m : Mutex} : Both tid env I (mutexUnlock m) fun _ => I :=
  both_quiet (o := .mutexUnlock m) trivial

theorem both_markBufferDirty {b : Nat} : Both tid env I (markBufferDirty b) fun _ => I :=
  both_quiet (o := .markBufferDirty b) trivial

theorem both_syncDirtyBuffer {b : Nat} : Both tid env I (syncDirtyBuffer b) fun _ => I :=
  both_quiet (o := .syncDirtyBuffer b) trivial

theorem both_simplefsSbSync : Both tid env I simplefsSbSync fun _ => I :=
  both_sbBreadBugOn.bind fun _ => both_markBufferDirty.bind fun _ => both_syncDirtyBuffer

theorem both_sbInodesCount (h : ∀ c₁ c₂ d, I c₁ c₂ d → Agree c₁ c₂ 0 0 4096) :
    Both tid env I sbInodesCount fun x c₁ c₂ d => x = inodesCount c₁ ∧ I c₁ c₂ d :=
  both_load64 fun c₁ c₂ d hI => (h c₁ c₂ d hI).sub (Nat.zero_le _) (by decide)

theorem both_sbFreeBlocks (h : ∀ c₁ c₂ d, I c₁ c₂ d → Agree c₁ c₂ 0 0 4096) :
    Both tid env I sbFreeBlocks fun x c₁ c₂ d => x = freeBlocks c₁ ∧ I c₁ c₂ d :=
  both_load64 fun c₁ c₂ d hI => (h c₁ c₂ d hI).sub (Nat.zero_le _) (by decide)

theorem both_simplefsSbGetObjectsCount (henv : env.Uninterrupted)
    (h : ∀ c₁ c₂ d, I c₁ c₂ d → Agree c₁ c₂ 0 0 4096) :
    Both tid env I simplefsSbGetObjectsCount fun x c₁ c₂ d =>
      x.1 = 0 ∧ x.2 = inodesCount c₁ ∧ I c₁ c₂ d := by
  refine both_lock_bind henv ?_
  refine (both_sbInodesCount h).bind ?_
  intro count
  refine both_unlock.bind ?_
  intro _
  exact both_pure fun c₁ c₂ d hI => ⟨rfl, hI⟩

/-- What a block that was handed out is good for: the inode with the number that
belongs to the count `n` can be appended. -/
def Allocated (n : UInt64) (x : Int × UInt64) (c : Image) : Prop :=
  0 ≤ x.1 → ∀ mode : UInt16, (inodesCount c).toNat < 64 →
    (sIsdir mode.toUInt32 = true ∨ sIsreg mode.toUInt32 = true) →
      (ofImage c).Addable
        ⟨mode.toUInt32, n + simplefsStartIno - simplefsReservedInodes + 1, x.2, 0⟩

theorem allocated_setFree {c : Image} (h : (ofImage c).StoreWf)
    (hscan : freeblockScan (freeBlocks c) ≠ 64) :
    Allocated (inodesCount c) (0, UInt64.ofNat (freeblockScan (freeBlocks c)))
      (setFree c (freeBlocks c &&& ~~~freeblockMask (freeblockScan (freeBlocks c)))) := by
  intro _ mode hroom hkind
  rw [inodesCount_setFree] at hroom
  have a : (ofImage c).alloc.Addable (newEntry c mode) := h.addable rfl rfl hroom hkind hscan
  constructor
  case room =>
    rw [ofImage_count, inodesCount_setFree]
    exact hroom
  case ino =>
    rw [ofImage_count, inodesCount_setFree]
    exact a.ino
  case placed => exact a.placed
  case taken =>
    rw [ofImage_free, freeBlocks_setFree]
    exact a.taken
  case unused =>
    intro i hi
    rw [ofImage_count, inodesCount_setFree] at hi
    rw [ofImage_entry, entryAt_setFree]
    exact a.unused i hi
  case kind => exact hkind
  case empty => rfl

theorem both_simplefsSbGetAFreeblock (henv : env.Uninterrupted) :
    Both tid env (fun c₁ c₂ d => n = inodesCount c₁ ∧ F d ∧ Known K E c₁ c₂ d)
      simplefsSbGetAFreeblock fun x c₁ c₂ d =>
        n = inodesCount c₁ ∧ Allocated n x c₁ ∧ F d ∧ Known K E c₁ c₂ d := by
  refine both_lock_bind henv ?_
  refine (both_sbFreeBlocks fun _ _ _ hI => hI.2.2.super).bind ?_
  intro free
  refine .ite (fun _ => ?_) fun hscan => ?_
  · refine both_unlock.bind fun _ => both_pure ?_
    rintro c₁ c₂ d ⟨-, hn, hknown⟩
    refine ⟨hn, ?_, hknown⟩
    intro hneg
    exact absurd hneg (by decide)
  · have hstore : Both tid env
        (fun c₁ c₂ d => free = freeBlocks c₁ ∧ n = inodesCount c₁ ∧ F d ∧ Known K E c₁ c₂ d)
        (store64 simplefsSuperblockBlockNumber 32 (free &&& ~~~freeblockMask (freeblockScan free)))
        fun _ c₁ c₂ d => n = inodesCount c₁ ∧
          Allocated n (0, UInt64.ofNat (freeblockScan free)) c₁ ∧ F d ∧ Known K E c₁ c₂ d := by
      refine both_store ?_
      rintro c₁ c₂ d ⟨rfl, rfl, hF, hknown⟩ -
      refine ⟨inodesCount_setFree.symm, ?_, hF, hknown.setFree _⟩
      exact allocated_setFree hknown.wf hscan
    refine hstore.bind fun _ => both_simplefsSbSync.bind fun _ => both_unlock.bind fun _ => ?_
    exact both_pure fun c₁ c₂ d hI => hI

theorem both_simplefsInodeAdd (henv : env.Uninterrupted) :
    Both tid env (fun c₁ c₂ d => (ofImage c₁).Addable e ∧ F d ∧ Known K E c₁ c₂ d)
      (simplefsInodeAdd e) fun _ c₁ c₂ d => F d ∧ Known K (· = e) c₁ c₂ d := by
  refine both_lock_bind henv ?_
  refine both_sbBreadBugOn.bind fun _ => both_lock_bind henv ?_
  refine (both_sbInodesCount fun _ _ _ hI => hI.2.2.super).bind ?_
  intro count
  -- between the two stores the images are described by what the second one makes of them
  have hentry : Both tid env
      (fun c₁ c₂ d => count = inodesCount c₁ ∧ (ofImage c₁).Addable e ∧ F d ∧ Known K E c₁ c₂ d)
      (storeInode count.toNat e) fun _ c₁ c₂ d =>
        F d ∧ Known K (· = e) (setCount c₁ (count + 1)) (setCount c₂ (count + 1)) d := by
    refine both_store ?_
    rintro c₁ c₂ d ⟨rfl, a, hF, hknown⟩ -
    exact ⟨hF, hknown.addEntry a⟩
  have hcount : Both tid env
      (fun c₁ c₂ d => F d ∧ Known K (· = e) (setCount c₁ (count + 1)) (setCount c₂ (count + 1)) d)
      (store64 simplefsSuperblockBlockNumber 24 (count + 1))
      fun _ c₁ c₂ d => F d ∧ Known K (· = e) c₁ c₂ d :=
    both_store fun _ _ _ hI _ => hI
  refine hentry.bind fun _ => hcount.bind fun _ => both_markBufferDirty.bind fun _ => ?_
  exact both_simplefsSbSync.bind fun _ => both_unlock.bind fun _ => both_unlock

/-- The search finds the entry of a tracked inode, at the same index. -/
theorem both_simplefsInodeSearch :
    Both tid env (fun c₁ c₂ d => Tracked c₁ c₂ q ∧ Known K E c₁ c₂ d) (simplefsInodeSearch q)
      fun found c₁ c₂ d => (∃ i, found = some i ∧ i < (inodesCount c₁).toNat ∧
        (entryAt c₁ i).Same q) ∧ Tracked c₁ c₂ q ∧ Known K E c₁ c₂ d := by
  intro w₁ w₂ hI
  obtain ⟨ht, hknown⟩ := hI.images
  obtain ⟨j, hj, hs⟩ := ht.stored
  have hle := hknown.count_le
  have hfound₁ := searchEntry_eq_findEntry fun _ => ⟨j, hj, hs.inodeNo⟩
  have hfound₂ : searchEntry w₂.cache q.inodeNo = findEntry w₂.cache q.inodeNo := by
    refine searchEntry_eq_findEntry fun _ => ⟨j, ?_, ?_⟩
    · rw [hknown.inodesCount_eq]
      exact hj
    · rw [hknown.entryAt_eq hj, hs.inodeNo]
  obtain ⟨i, hi⟩ := findEntry_isSome hj hs.inodeNo
  have hrun₁ : (simplefsInodeSearch q).run (exec tid env) w₁ = .done (some i) w₁ := by
    rw [← hi, ← hfound₁]
    exact run_simplefsInodeSearch (by omega)
  have hrun₂ : (simplefsInodeSearch q).run (exec tid env) w₂ = .done (some i) w₂ := by
    rw [← hi, ← hknown.findEntry_eq, ← hfound₂]
    exact run_simplefsInodeSearch (by rw [hknown.inodesCount_eq]; omega)
  have hno : (entryAt w₁.cache i).inodeNo = q.inodeNo := searchEntry_inodeNo (hfound₁.trans hi)
  have hij : i = j :=
    hknown.wf.ino_inj i (findEntry_lt hi) j hj (hno.trans hs.inodeNo.symm)
  refine Prog.related_of_run hrun₁ hrun₂ ⟨rfl, hI.dcache, hI.owner, ?_, ht, hknown⟩
  exact ⟨i, rfl, findEntry_lt hi, hij ▸ hs⟩

/-- A save finds its entry and changes nothing that is not known. -/
theorem both_simplefsInodeSave (henv : env.Uninterrupted) :
    Both tid env (Known K E) (simplefsInodeSave p) fun r c₁ c₂ d =>
      r = 0 ∧ Known K E c₁ c₂ d := by
  refine both_sbBreadBugOn.bind fun _ => both_lock_bind henv ?_
  refine both_simplefsInode.bind ?_
  intro q
  have hsearch := (@both_simplefsInodeSearch tid env K E q).pre
    fun c₁ c₂ d (hI : inMemory d p = some q ∧ Known K E c₁ c₂ d) => ⟨hI.2.tracked hI.1, hI.2⟩
  refine hsearch.bind ?_
  rintro (_ | i)
  · refine both_of_not ?_
    rintro c₁ c₂ d ⟨⟨i, hnone, -⟩, -⟩
    exact nomatch hnone
  · have hstore : Both tid env (fun c₁ c₂ d => (∃ j, some i = some j ∧ j < (inodesCount c₁).toNat ∧
        (entryAt c₁ j).Same q) ∧ Tracked c₁ c₂ q ∧ Known K E c₁ c₂ d) (storeInode i q)
        fun _ => Known K E := by
      refine both_store ?_
      rintro c₁ c₂ d ⟨⟨_, ⟨⟩, hi, hs⟩, ht, hknown⟩ -
      exact hknown.setEntry hi hs ht.backed
    refine hstore.bind fun _ => both_markBufferDirty.bind fun _ => ?_
    refine both_syncDirtyBuffer.bind fun _ => both_unlock.bind fun _ => ?_
    exact both_pure fun _ _ _ hknown => ⟨rfl, hknown⟩

end Functions

/-- The dentry has an inode with the operations `fop`. -/
def Opens (d : Dentries) (p : Path) (fop : FileOps) : Prop := ∃ x, d p = some x ∧ x.iFop = some fop

section Objects

variable {tid : Nat} {env : Env} {K : Nat → Nat → Prop} {E : SimplefsInode → Prop} {c₁ c₂ : Image}
  {d : Dentries} {p dir : Path} {name : Name} {q e : SimplefsInode} {fop : FileOps}

theorem Known.fopOf_mode (h : Known K E c₁ c₂ d) (ho : Opens d p fop)
    (hq : inMemory d p = some q) : fopOf q.mode = some fop := by
  obtain ⟨x, hx, hfop⟩ := ho
  obtain ⟨y, hy, hprivate⟩ := Option.bind_eq_some_iff.mp hq
  obtain rfl : x = y := Option.some.inj (hx.symm.trans hy)
  rw [← (h.memory p x q hx hprivate).1, hfop]

theorem Known.settle (h : Known K E c₁ c₂ d) : Known K (fun _ => False) c₁ c₂ d :=
  ⟨h.super, h.wf, h.store, h.entries, h.memory, fun _ hE => hE.elim, h.kept⟩

/-- A directory to which a record was appended. -/
theorem Backed.append {ino : UInt64} (h : Backed c₁ c₂ q) (hd : fopOf q.mode = some .dir)
    (hn : ValidName name) (hroom : q.dirChildrenCount < 15) :
    Backed (Simplefs.putRecord c₁ q.dataBlockNumber.toNat q.dirChildrenCount ino name)
      (Simplefs.putRecord c₂ q.dataBlockNumber.toNat q.dirChildrenCount ino name)
      { q with fileSize := q.fileSize + 1 } := by
  have hcount : (q.fileSize + 1).toNat = q.fileSize.toNat + 1 := by
    have hlt : q.fileSize.toNat < 15 := hroom
    rw [UInt64.toNat_add]
    change (q.fileSize.toNat + 1) % 2 ^ 64 = _
    omega
  constructor
  case file =>
    intro hf
    exact nomatch hd.symm.trans hf
  case fits =>
    intro _
    change (q.fileSize + 1).toNat ≤ 15
    rw [hcount]
    exact hroom
  case records =>
    intro _ k hk
    change k < (q.fileSize + 1).toNat at hk
    rw [hcount] at hk
    by_cases hlast : k = q.dirChildrenCount
    · exact record_putRecord hn (.inl ⟨rfl, hlast⟩)
    · have hlt : k < q.dirChildrenCount := by
        change k < q.fileSize.toNat
        change k ≠ q.fileSize.toNat at hlast
        omega
      exact record_putRecord hn (.inr (h.records hd k hlt))

/-- The record is written; it is counted next. -/
def Appended (K : Nat → Nat → Prop) (dir : Path) (e : SimplefsInode) : Assertion := fun c₁ c₂ d =>
  (∀ q, inMemory d dir = some q → Backed c₁ c₂ { q with fileSize := q.fileSize + 1 }) ∧
    Known K (· = e) c₁ c₂ d

theorem both_createCommit (henv : env.Uninterrupted) :
    Both tid env (Appended K dir e) (createCommit dir name e) fun _ => Known K fun _ => False := by
  refine both_lock_bind henv ?_
  refine both_simplefsInode.bind ?_
  intro q
  have hsize : Both tid env (fun c₁ c₂ d => inMemory d dir = some q ∧ Appended K dir e c₁ c₂ d)
      (setFileSize dir (q.fileSize + 1)) fun _ => Known K (· = e) := by
    refine both_setFileSize ?_
    rintro c₁ c₂ d ⟨hq, hback, hknown⟩
    exact hknown.resize hq (hback q hq)
  refine hsize.bind fun _ => (both_simplefsInodeSave henv).bind ?_
  intro r
  refine both_and ?_
  rintro rfl
  have hadd : Both tid env (Known K (· = e))
      (dAdd (name :: dir) ⟨e.inodeNo, fopOf e.mode, some e⟩) fun _ => Known K fun _ => False := by
    refine both_dAdd ?_
    intro c₁ c₂ d hknown
    refine (hknown.dAdd ?_).settle
    rintro q ⟨⟩
    exact ⟨rfl, hknown.pending e rfl⟩
  refine both_unlock.bind fun _ => both_unlock.bind fun _ => hadd.bind fun _ => ?_
  exact both_pure fun _ _ _ hknown => hknown

theorem both_createTail (henv : env.Uninterrupted) (hn : ValidName name) :
    Both tid env
      (fun c₁ c₂ d => (ofImage c₁).Addable e ∧ Opens d dir .dir ∧ Known K E c₁ c₂ d)
      (createTail dir name e) fun _ => Known K fun _ => False := by
  have hadd := @both_simplefsInodeAdd tid env K E (fun d => Opens d dir .dir) e henv
  refine hadd.bind fun _ => both_simplefsInode.bind ?_
  intro q
  -- after the inode number is stored the name is still to come
  have hino : Both tid env
      (fun c₁ c₂ d => inMemory d dir = some q ∧ Opens d dir .dir ∧ Known K (· = e) c₁ c₂ d)
      (store64 q.dataBlockNumber.toNat (264 * q.dirChildrenCount + 256) e.inodeNo)
      fun _ c₁ c₂ d =>
        Appended K dir e
          (put c₁ q.dataBlockNumber.toNat (264 * q.dirChildrenCount) (cString name))
          (put c₂ q.dataBlockNumber.toNat (264 * q.dirChildrenCount) (cString name)) d := by
    refine both_store ?_
    rintro c₁ c₂ d ⟨hq, ho, hknown⟩ hin
    have hroom : q.dirChildrenCount < 15 := by
      rw [length_toLE] at hin
      omega
    have ht := hknown.tracked hq
    refine ⟨?_, hknown.putRecord ht hn⟩
    intro q' hq'
    obtain rfl : q = q' := Option.some.inj (hq.symm.trans hq')
    exact ht.backed.append (hknown.fopOf_mode ho hq) hn hroom
  have hname : Both tid env
      (fun c₁ c₂ d => Appended K dir e
        (put c₁ q.dataBlockNumber.toNat (264 * q.dirChildrenCount) (cString name))
        (put c₂ q.dataBlockNumber.toNat (264 * q.dirChildrenCount) (cString name)) d)
      (strcpyFilename q.dataBlockNumber.toNat (264 * q.dirChildrenCount) name)
      fun _ => Appended K dir e :=
    both_store fun _ _ _ hI _ => hI
  refine both_sbBreadBugOn.bind fun _ => hino.bind fun _ => hname.bind fun _ => ?_
  refine both_markBufferDirty.bind fun _ => both_syncDirtyBuffer.bind fun _ => ?_
  exact both_createCommit henv

theorem both_simplefsCreateFsObject {mode : UInt16} (henv : env.Uninterrupted)
    (hn : ValidName name) :
    Both tid env (fun c₁ c₂ d => Opens d dir .dir ∧ Known K (fun _ => False) c₁ c₂ d)
      (simplefsCreateFsObject dir name mode) fun _ => Known K fun _ => False := by
  rw [createFsObject_eq]
  refine both_lock_bind henv ?_
  have hcount := @both_simplefsSbGetObjectsCount tid env
    (fun c₁ c₂ d => Opens d dir .dir ∧ Known K (fun _ => False) c₁ c₂ d) henv
    fun _ _ _ hI => hI.2.super
  refine hcount.bind ?_
  rintro ⟨r, count⟩
  refine both_and ?_
  rintro rfl
  have hleave : ∀ r : Int, Both tid env
      (fun c₁ c₂ d => count = inodesCount c₁ ∧ Opens d dir .dir ∧ Known K (fun _ => False) c₁ c₂ d)
      (do mutexUnlock .directoryChildrenUpdateLock; return r) fun _ => Known K fun _ => False :=
    fun r => both_unlock.bind fun _ => both_pure fun _ _ _ hI => hI.2.2
  refine .ite (fun _ => hleave 0) fun _ => .ite (fun _ => hleave _) fun hroom => ?_
  refine .ite (fun _ => hleave _) fun hkind => ?_
  refine (both_quiet (o := .newInode) trivial).bind ?_
  intro ok
  refine .ite (fun _ => hleave _) fun _ => ?_
  have hblock := @both_simplefsSbGetAFreeblock tid env K (fun _ => False)
    (fun d => Opens d dir .dir) count henv
  refine hblock.bind ?_
  rintro ⟨r, block⟩
  refine .ite (fun _ => ?_) fun hr => ?_
  · exact both_unlock.bind fun _ => both_pure fun _ _ _ hI => hI.2.2.2
  · refine (both_createTail (E := fun _ => False) henv hn).pre ?_
    rintro c₁ c₂ d ⟨hn, halloc, hI⟩
    refine ⟨halloc (Int.not_lt.mp hr) mode ?_ ?_, hI⟩
    · rw [← hn]
      exact Nat.lt_of_not_le hroom
    · cases hd : sIsdir mode.toUInt32 <;> cases hr : sIsreg mode.toUInt32 <;>
        simp [hd, hr] at hkind ⊢

/-- A file into which `bytes` were copied at `pos`, which is not behind its end. -/
theorem Backed.extend {pos : Nat} {bytes : List UInt8} (h : Backed c₁ c₂ q)
    (hf : fopOf q.mode = some .file) (hpos : pos ≤ q.fileSize.toNat)
    (hfit : pos + bytes.length ≤ 4096) :
    Backed (Simplefs.put c₁ q.dataBlockNumber.toNat pos bytes)
      (Simplefs.put c₂ q.dataBlockNumber.toNat pos bytes)
      { q with fileSize := UInt64.ofNat (pos + bytes.length) } := by
  have hsize : (UInt64.ofNat (pos + bytes.length)).toNat = pos + bytes.length := by
    apply UInt64.toNat_ofNat_of_lt'
    change _ < 2 ^ 64
    omega
  constructor
  case file =>
    intro _ i _ hi
    change i < 0 + (UInt64.ofNat (pos + bytes.length)).toNat at hi
    rw [hsize] at hi
    by_cases hlt : i < pos
    · exact put_congr (h.file hf i (Nat.zero_le _) (by omega))
    · exact agree_put c₁ c₂ _ pos bytes i (by omega) (by omega)
  case fits =>
    intro hd
    exact nomatch hf.symm.trans hd
  case records =>
    intro hd
    exact nomatch hf.symm.trans hd

theorem both_writeCommit {len pos : Nat} (henv : env.Uninterrupted) :
    Both tid env
      (fun c₁ c₂ d => (inMemory d p = some q ∧
        Backed c₁ c₂ { q with fileSize := UInt64.ofNat pos }) ∧ Known K E c₁ c₂ d)
      (writeCommit p len pos) fun _ => Known K E := by
  refine both_lock_bind henv ?_
  have hsize : Both tid env
      (fun c₁ c₂ d => (inMemory d p = some q ∧
        Backed c₁ c₂ { q with fileSize := UInt64.ofNat pos }) ∧ Known K E c₁ c₂ d)
      (setFileSize p (UInt64.ofNat pos)) fun _ => Known K E := by
    refine both_setFileSize ?_
    rintro c₁ c₂ d ⟨⟨hq, hb⟩, hknown⟩
    exact hknown.resize hq hb
  refine hsize.bind fun _ => (both_simplefsInodeSave henv).bind ?_
  intro r
  refine both_and fun _ => both_unlock.bind fun _ => ?_
  exact both_pure fun _ _ _ hknown => hknown

/-- A write that does not start behind the end of the file. -/
theorem both_simplefsWrite {buf : List UInt8} {pos : Nat} (henv : env.Uninterrupted) :
    Both tid env
      (fun c₁ c₂ d => ((∀ q, inMemory d p = some q → pos ≤ q.fileSize.toNat) ∧ Opens d p .file) ∧
        Known K E c₁ c₂ d)
      (simplefsWrite p buf pos) fun _ => Known K E := by
  unfold simplefsWrite
  by_cases hbig : 4096 ≤ pos ∧ (buf.length ≠ 0 ∨ 4096 < pos)
  · rw [genericWriteChecks_error hbig]
    exact both_pure fun _ _ _ hI => hI.2
  rw [genericWriteChecks_ok hbig]
  refine both_simplefsInode.bind ?_
  intro q
  refine (both_quiet (o := .sbBread q.dataBlockNumber.toNat) trivial).bind ?_
  intro ok
  refine .ite (fun _ => both_pure fun _ _ _ hI => hI.2.2) fun _ => ?_
  have hcopy : Both tid env
      (fun c₁ c₂ d => inMemory d p = some q ∧
        ((∀ q, inMemory d p = some q → pos ≤ q.fileSize.toNat) ∧ Opens d p .file) ∧
          Known K E c₁ c₂ d)
      (copyFromUser q.dataBlockNumber.toNat pos (buf.take (writeLength buf pos)))
      fun ok c₁ c₂ d =>
        ok = ((copied env.copyFault (buf.take (writeLength buf pos))).length ==
          (buf.take (writeLength buf pos)).length) ∧
        (((copied env.copyFault (buf.take (writeLength buf pos))).length =
            (buf.take (writeLength buf pos)).length → inMemory d p = some q ∧
          Backed c₁ c₂ { q with fileSize := UInt64.ofNat (pos + writeLength buf pos) }) ∧
        Known K E c₁ c₂ d) := by
    refine both_copyFromUser ?_
    rintro c₁ c₂ d ⟨hq, ⟨hpos, ho⟩, hknown⟩ hfit
    have ht := hknown.tracked hq
    have hf := hknown.fopOf_mode ho hq
    refine ⟨fun hall => ⟨hq, ?_⟩, hknown.putFile ht hf⟩
    have hback := ht.backed.extend hf (hpos q hq) hfit
    rwa [length_take_writeLength, ← zeroFilled_eq_of_length hall] at hback
  refine hcopy.bind ?_
  intro ok
  refine both_and ?_
  rintro rfl
  refine .ite (fun _ => both_pure fun _ _ _ hI => hI.2) fun hall => ?_
  refine both_markBufferDirty.bind fun _ => both_syncDirtyBuffer.bind fun _ => ?_
  refine (both_writeCommit (q := q) henv).pre ?_
  rintro c₁ c₂ d ⟨hback, hknown⟩
  exact ⟨hback (by simpa using hall), hknown⟩

theorem both_simplefsRead {len pos : Nat} :
    Both tid env (fun c₁ c₂ d => Opens d p .file ∧ Known K E c₁ c₂ d) (simplefsRead p len pos)
      fun _ => Known K E := by
  refine both_simplefsInode.bind ?_
  intro q
  refine .ite (fun _ => both_pure fun _ _ _ hI => hI.2.2) fun _ => ?_
  refine (both_quiet (o := .sbBread q.dataBlockNumber.toNat) trivial).bind ?_
  intro ok
  refine .ite (fun _ => both_pure fun _ _ _ hI => hI.2.2) fun _ => ?_
  refine (both_copyToUser ?_).bind ?_
  · rintro c₁ c₂ d ⟨hq, ho, hknown⟩
    have hfile := (hknown.tracked hq).backed.file (hknown.fopOf_mode ho hq)
    exact hfile.sub (Nat.le_refl _) (by omega)
  · rintro (_ | bytes)
    · exact both_pure fun _ _ _ hI => hI.2.2
    · exact both_pure fun _ _ _ hI => hI.2.2

/-- Both sides find the inode at the same entry. -/
theorem both_simplefsGetInode {ino : UInt64} :
    Both tid env (Known K E) (simplefsGetInode ino) fun found c₁ c₂ d =>
      found = (findEntry c₁ ino).map (entryAt c₁) ∧ Known K E c₁ c₂ d := by
  refine both_sbBreadBugOn.bind fun _ => ?_
  refine (both_sbInodesCount fun _ _ _ hI => hI.super).bind ?_
  intro count w₁ w₂ hI
  obtain ⟨rfl, hknown⟩ := hI.images
  have hle := hknown.count_le
  have hrun₁ : (getInodeLoop ino (inodesCount w₁.cache).toNat 0).run (exec tid env) w₁ =
      .done ((findEntry w₁.cache ino).map (entryAt w₁.cache)) w₁ := run_getInodeLoop (by omega)
  have hrun₂ : (getInodeLoop ino (inodesCount w₁.cache).toNat 0).run (exec tid env) w₂ =
      .done ((findEntry w₁.cache ino).map (entryAt w₁.cache)) w₂ := by
    have hmap : (findEntry w₁.cache ino).map (entryAt w₁.cache) =
        (findEntry w₂.cache ino).map (entryAt w₂.cache) := by
      rw [hknown.findEntry_eq]
      cases hf : findEntry w₁.cache ino with
      | none => rfl
      | some i => rw [Option.map_some, Option.map_some, hknown.entryAt_eq (findEntry_lt hf)]
    rw [hmap, ← hknown.inodesCount_eq]
    refine run_getInodeLoop ?_
    rw [hknown.inodesCount_eq]
    omega
  exact Prog.related_of_run hrun₁ hrun₂ ⟨rfl, hI.dcache, hI.owner, rfl, hknown⟩

/-- What `simplefs_get_inode` returns may be attached to a dentry. -/
theorem Known.tracked_found {ino : UInt64} (h : Known K E c₁ c₂ d)
    (hq : some q = (findEntry c₁ ino).map (entryAt c₁)) : Tracked c₁ c₂ q := by
  obtain ⟨i, hi, rfl⟩ := Option.map_eq_some_iff.mp hq.symm
  exact h.tracked_entry (findEntry_lt hi)

/-- Both sides find the record with a name at the same place, or both do not. -/
theorem Known.findRecord_eq (h : Known K E c₁ c₂ d) (hn : ValidName name)
    (ho : Opens d dir .dir) (hq : inMemory d dir = some q) :
    findRecord (c₂ q.dataBlockNumber.toNat) name q.dirChildrenCount =
      findRecord (c₁ q.dataBlockNumber.toNat) name q.dirChildrenCount := by
  unfold findRecord
  apply List.find?_congr
  intro k hk
  have hrec := (h.tracked hq).backed.records (h.fopOf_mode ho hq) k (by simpa using hk)
  rw [decide_eq_decide, hasCString_iff hn, hasCString_iff hn, hrec.2]

theorem both_lookupLoop (hn : ValidName name) :
    Both tid env
      (fun c₁ c₂ d => inMemory d dir = some q ∧ Opens d dir .dir ∧ Known K E c₁ c₂ d)
      (lookupLoop q.dataBlockNumber.toNat name q.dirChildrenCount 0) fun _ => Known K E := by
  intro w₁ w₂ hI
  obtain ⟨hq, ho, hknown⟩ := hI.images
  have hb := (hknown.tracked hq).backed
  have hd := hknown.fopOf_mode ho hq
  have hfits := hb.fits hd
  have hrun : ∀ w : World,
      (lookupLoop q.dataBlockNumber.toNat name q.dirChildrenCount 0).run (exec tid env) w =
        .done ((findRecord (w.cache q.dataBlockNumber.toNat) name q.dirChildrenCount).map
          (recordIno (w.cache q.dataBlockNumber.toNat))) w :=
    fun w => run_lookupLoop hn (by omega)
  refine Prog.related_of_run (hrun w₁) (hrun w₂) ⟨?_, hI.dcache, hI.owner, hknown⟩
  rw [hknown.findRecord_eq hn ho hq]
  cases hf : findRecord (w₁.cache q.dataBlockNumber.toNat) name q.dirChildrenCount with
  | none => rw [Option.map_none, Option.map_none]
  | some k =>
      have hk : k < q.dirChildrenCount := by
        unfold findRecord at hf
        have := List.mem_of_find?_eq_some hf
        simpa using this
      rw [Option.map_some, Option.map_some, (hb.records hd k hk).1]

theorem both_simplefsLookup (hn : ValidName name) :
    Both tid env (fun c₁ c₂ d => Opens d dir .dir ∧ Known K E c₁ c₂ d) (simplefsLookup dir name)
      fun _ => Known K E := by
  refine both_simplefsInode.bind fun q => both_sbBreadBugOn.bind fun _ => ?_
  refine (both_lookupLoop hn).bind ?_
  rintro (_ | ino)
  · exact both_pure fun _ _ _ hknown => hknown
  refine both_simplefsGetInode.bind fun e => both_newInodeUnchecked.bind fun _ => ?_
  cases e with
  | none => exact (both_quiet (o := .trap .nullPointer) trivial).post fun _ _ _ _ hI => hI.2
  | some q =>
    refine both_dAdd ?_
    rintro c₁ c₂ d ⟨hfound, hknown⟩
    refine hknown.dAdd ?_
    rintro e ⟨⟩
    exact ⟨rfl, hknown.tracked_found hfound⟩

/-- The inode with the number of the root directory is a directory. -/
theorem Known.fopOf_root (h : Known K E c₁ c₂ d)
    (hq : some q = (findEntry c₁ simplefsRootdirInodeNumber).map (entryAt c₁)) :
    fopOf q.mode = some .dir := by
  obtain ⟨i, hi, rfl⟩ := Option.map_eq_some_iff.mp hq.symm
  obtain ⟨j, hj, hone, hdir⟩ := h.wf.root
  have hno : (entryAt c₁ i).inodeNo = 1 := findEntry_inodeNo hi
  have hij : i = j := h.wf.ino_inj i (findEntry_lt hi) j hj (hno.trans hone.symm)
  rw [hij]
  exact fopOf_eq_dir.mpr hdir

theorem both_simplefsFillSuper :
    Both tid env (Known K E) simplefsFillSuper fun _ => Known K E := by
  refine both_sbBreadBugOn.bind fun _ => ?_
  have hload : ∀ off ≤ 4088, Both tid env (Known K E) (load64 simplefsSuperblockBlockNumber off)
      fun _ => Known K E := by
    intro off hoff
    refine (both_load64 ?_).post fun _ _ _ _ hI => hI.2
    exact fun c₁ c₂ d hknown => hknown.super.sub (Nat.zero_le _) (by omega)
  refine (hload 8 (by decide)).bind fun magic => ?_
  refine .ite (fun _ => both_pure fun _ _ _ hI => hI) fun _ => ?_
  refine (hload 16 (by decide)).bind fun size => ?_
  refine .ite (fun _ => both_pure fun _ _ _ hI => hI) fun _ => ?_
  refine both_newInodeUnchecked.bind fun _ => both_simplefsGetInode.bind ?_
  intro root
  have hadd : Both tid env
      (fun c₁ c₂ d => root = (findEntry c₁ simplefsRootdirInodeNumber).map (entryAt c₁) ∧
        Known K E c₁ c₂ d)
      (dAdd [] ⟨simplefsRootdirInodeNumber, some .dir, root⟩) fun _ => Known K E := by
    refine both_dAdd ?_
    rintro c₁ c₂ d ⟨hfound, hknown⟩
    refine hknown.dAdd ?_
    rintro q hq
    have hroot : some q = _ := hq.symm.trans hfound
    exact ⟨(hknown.fopOf_root hroot).symm, hknown.tracked_found hroot⟩
  exact hadd.bind fun _ => both_pure fun _ _ _ hI => hI

end Objects

/-- All bytes handed out for the record with index `k` are stored ones: the
record is among those at the positions `K`, or its name fills the field. -/
def Filled (K : Nat → Nat → Prop) (c : Image) (b k : Nat) : Prop :=
  (∀ i, 264 * k ≤ i → i < 264 * k + 255 → K b i) ∨ 254 ≤ (recordName (c b) k).length

/-- All records of a directory are filled. -/
def World.ListsFilled (w : World) (K : Nat → Nat → Prop) (dir : Path) : Prop :=
  ∀ q, w.simplefsInode dir = some q → ∀ k < q.dirChildrenCount,
    Filled K w.cache q.dataBlockNumber.toNat k

/-- Two answers of `simplefs_iterate`: the same names and numbers, and the same
bytes when all of them are stored ones. -/
structure ListsAlike (K : Nat → Nat → Prop) (w : World) (dir : Path)
    (x y : Int × List DirEmit × Nat) : Prop where
  ret : x.1 = y.1
  entries : x.2.1.map DirEmit.entry = y.2.1.map DirEmit.entry
  pos : x.2.2 = y.2.2
  bytes : w.ListsFilled K dir → x = y

section Listing

variable {tid : Nat} {env : Env} {K : Nat → Nat → Prop} {E : SimplefsInode → Prop} {c₁ c₂ : Image}
  {d : Dentries} {dir : Path} {q : SimplefsInode}

theorem ListsAlike.refl (w : World) (x : Int × List DirEmit × Nat) : ListsAlike K w dir x x :=
  ⟨rfl, rfl, rfl, fun _ => rfl⟩

/-- The name that is handed out is the same string on both sides. -/
theorem takeWhile_filename_eq {b k : Nat} (h : recordName (c₁ b) k = recordName (c₂ b) k) :
    ((c₁ b).bytesAt (264 * k) 255).takeWhile (· != 0) =
      ((c₂ b).bytesAt (264 * k) 255).takeWhile (· != 0) := by
  have hcut : ∀ c : Buffer, (c.bytesAt (264 * k) 255).takeWhile (· != 0) =
      (recordName c k).take 255 := by
    intro c
    rw [Buffer.takeWhile_bytesAt, recordName, Buffer.take_cStringAt (by decide)]
  rw [hcut, hcut, h]

theorem Known.filename_eq {b k : Nat} (h : Known K E c₁ c₂ d)
    (hname : recordName (c₁ b) k = recordName (c₂ b) k) (hk : Filled K c₁ b k) :
    (c₁ b).bytesAt (264 * k) 255 = (c₂ b).bytesAt (264 * k) 255 := by
  rcases hk with hK | hlen
  · exact Buffer.bytesAt_congr fun i hlo hhi => h.kept b i (hK i hlo hhi)
  · unfold recordName at hname hlen
    exact Buffer.bytesAt_eq_of_cStringAt hname (by decide) (by omega)

/-- The calls of `dir_emit` for the first `n` records of a block. -/
def emits (b : Buffer) (n : Nat) : List DirEmit :=
  (List.range' 0 n).map fun k => ⟨b.bytesAt (264 * k) 255, recordIno b k⟩

theorem listsAlike_emits {w₁ w₂ : World} {pos : Nat}
    (hknown : Known K E w₁.cache w₂.cache w₁.dcache) (hq : w₁.simplefsInode dir = some q)
    (hd : fopOf q.mode = some .dir) :
    ListsAlike K w₁ dir
      (0, emits (w₁.cache q.dataBlockNumber.toNat) q.dirChildrenCount, pos)
      (0, emits (w₂.cache q.dataBlockNumber.toNat) q.dirChildrenCount, pos) := by
  have hrec := (hknown.tracked hq).backed.records hd
  refine ⟨rfl, ?_, rfl, fun hfilled => ?_⟩
  · unfold emits
    rw [List.map_map, List.map_map]
    apply List.map_congr_left
    intro k hk
    obtain ⟨hino, hname⟩ := hrec k (by simpa using hk)
    simp only [Function.comp_apply, DirEmit.entry, takeWhile_filename_eq hname, hino]
  · rw [Prod.mk.injEq, Prod.mk.injEq]
    refine ⟨rfl, List.map_congr_left ?_, rfl⟩
    intro k hk
    have hlt : k < q.dirChildrenCount := by simpa using hk
    obtain ⟨hino, hname⟩ := hrec k hlt
    rw [hino, hknown.filename_eq hname (hfilled q hq k hlt)]

theorem related_simplefsIterate {pos : Nat} {w₁ w₂ : World}
    (hI : Paired (fun c₁ c₂ d => Opens d dir .dir ∧ Known K E c₁ c₂ d) w₁ w₂) :
    Prog.Related (exec tid env)
      (fun x y u v => ListsAlike K w₁ dir x y ∧ Paired (Known K E) u v)
      (simplefsIterate dir pos) (simplefsIterate dir pos) w₁ w₂ := by
  obtain ⟨ho, hknown⟩ := hI.images
  -- nothing is stored, so that the assertion can name the caches
  let I : Assertion := fun c₁ c₂ d => c₁ = w₁.cache ∧ c₂ = w₂.cache ∧ d = w₁.dcache
  have hstart : Paired I w₁ w₂ := ⟨hI.dcache, hI.owner, rfl, rfl, rfl⟩
  have hend : ∀ {u v : World}, Paired I u v → Paired (Known K E) u v := by
    rintro u v ⟨hdc, hown, hc₁, hc₂, hd⟩
    refine ⟨hdc, hown, ?_⟩
    rw [hc₁, hc₂, hd]
    exact hknown
  unfold simplefsIterate
  by_cases hpos : pos ≠ 0
  · rw [if_pos hpos]
    exact Prog.related_pure ⟨.refl _ _, hend hstart⟩
  rw [if_neg hpos]
  refine ((both_simplefsInode (I := I)) w₁ w₂ hstart).bind ?_
  rintro q _ u v ⟨rfl, hdc, hown, hmem, hu⟩
  have hq : w₁.simplefsInode dir = some q := by
    rw [hu.2.2] at hmem
    exact hmem
  have hfop := hknown.fopOf_mode ho hq
  have hdir : (!sIsdir q.mode) = false := by
    rw [fopOf_eq_dir.mp hfop]
    rfl
  have hfits := (hknown.tracked hq).backed.fits hfop
  rw [if_neg (by rw [hdir]; exact Bool.false_ne_true)]
  refine ((both_sbBreadBugOn (I := I)) u v ⟨hdc, hown, hu⟩).bind ?_
  rintro _ _ u v ⟨-, hpair⟩
  have hrun : ∀ w : World, (iterateLoop q.dataBlockNumber.toNat q.dirChildrenCount 0).run
      (exec tid env) w = .done (emits (w.cache q.dataBlockNumber.toNat) q.dirChildrenCount) w :=
    fun w => run_iterateLoop (by omega)
  obtain ⟨hc₁, hc₂, -⟩ := hpair.images
  unfold Prog.Related
  rw [Prog.run_bind, Prog.run_bind, hrun, hrun, hc₁, hc₂]
  have hlen : ∀ b : Buffer, (emits b q.dirChildrenCount).length = q.dirChildrenCount := by
    intro b
    simp [emits]
  simp only [Outcome.bind_done, Prog.run_pure, hlen]
  exact .done ⟨listsAlike_emits hknown hq hfop, hend hpair⟩

end Listing

end LinuxDevelopment.Simplefs
