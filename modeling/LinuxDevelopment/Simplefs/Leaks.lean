import LinuxDevelopment.Simplefs.References
import Mathlib.Algebra.Order.Group.Multiset

/-!
# simplefs: who holds which reference

A call holds the buffers it has read and not released and the inodes it has
allocated and not attached to a dentry. `ledgerNext` keeps this account along
the code of the call. It has no transition for an access to a buffer the call
does not hold, with one exception: the super block is reached through
`s_fs_info`, which no reference protects. Every call of the module can be
followed in this way, and what is on its account when it returns is lost: the
table is `Leaves`.
-/

namespace LinuxDevelopment.Simplefs.Counted

/-- What a call takes and has to give back. -/
inductive Resource where
  | buffer (b : Nat)
  | inode
  deriving DecidableEq

/-- How the resources that are taken change. An inode that is attached to a
dentry belongs to the dentry. -/
def effect : (o : Noted Op Note) → Noted.Res Note Op.Res o → Multiset Resource → Multiset Resource
  | .op (.sbBread b), true, m => .buffer b ::ₘ m
  | .op (.dAdd _ ⟨_, _, some _⟩), _, m => m.erase .inode
  | .note (.brelse b), _, m => m.erase (.buffer b)
  | .note .kmemCacheAlloc, _, m => .inode ::ₘ m
  | _, _, m => m

/-- What the caller must hold. `s_fs_info` points into block 0 and is used when the mount
has released its buffer, so loads and stores of this block need nothing. -/
def needs : Noted Op Note → Option Resource
  | .op (.load b _ _) | .op (.store b _ _) => if b = 0 then none else some (.buffer b)
  | .op (.markBufferDirty b) | .op (.syncDirtyBuffer b) | .op (.copyFromUser b _ _)
  | .op (.copyToUser b _ _) | .note (.brelse b) => some (.buffer b)
  | .op (.dAdd _ ⟨_, _, some _⟩) => some .inode
  | _ => none

/-- Keep the account of a call. -/
def ledgerNext (m : Multiset Resource) (o : Noted Op Note) (r : Noted.Res Note Op.Res o) :
    Option (Multiset Resource) :=
  if ∀ x ∈ needs o, x ∈ m then some (effect o r m) else none

/-- The answers of a kernel. -/
def answers (env : Env) : (o : Noted Op Note) → Noted.Res Note Op.Res o → Prop
  | .op (.mutexLockInterruptible site), taken => taken = !env.interrupted site
  | .op (.sbBread b), read => read = !env.breadFails b
  | .op .newInode, allocated => allocated = !env.newInodeFails
  | .op (.trap _), _ => False
  | _, _ => True

/-- The code can be followed from the account `m` on and returns with one that
satisfies `Q`. -/
abbrev Accounts {α : Type} (env : Env) (Q : α → Multiset Resource → Prop) (p : Code α)
    (m : Multiset Resource) : Prop :=
  p.Follows (answers env) ledgerNext Q m

section Rules

variable {env : Env} {α β : Type} {Q : α → Multiset Resource → Prop} {m : Multiset Resource}

/-- The actions that leave an account alone and are covered by it. -/
def Covered (m : Multiset Resource) : Op → Prop
  | .sbBread _ | .dAdd _ ⟨_, _, some _⟩ => False
  | .load b _ _ | .store b _ _ => b = 0 ∨ .buffer b ∈ m
  | .markBufferDirty b | .syncDirtyBuffer b | .copyFromUser b _ _ | .copyToUser b _ _ =>
      .buffer b ∈ m
  | _ => True

theorem ledgerNext_of_covered {o : Op} (ho : Covered m o) (r : o.Res) :
    ledgerNext m (.op o) r = some m := by
  cases o with
  | sbBread => exact ho.elim
  | dAdd p v =>
      obtain ⟨iIno, iFop, _ | q⟩ := v
      · exact if_pos fun x hx => absurd hx (Option.not_mem_none x)
      · exact ho.elim
  | load b | store b =>
      refine if_pos fun x hx => ?_
      by_cases hb : b = 0
      · simp [needs, hb] at hx
      · simp only [needs, hb, if_false, Option.mem_some_iff] at hx
        exact hx ▸ ho.resolve_left hb
  | markBufferDirty | syncDirtyBuffer | copyFromUser | copyToUser =>
      exact if_pos fun x hx => Option.mem_some_iff.mp hx ▸ ho
  | _ => exact if_pos fun x hx => absurd hx (Option.not_mem_none x)

theorem accounts_bind {p : Simplefs.Code β} {f : β → Code α} (hp : p.Only (Covered m))
    (hf : ∀ b, Accounts env Q (f b) m) : Accounts env Q (p.lift >>= f) m := by
  have hlift : Accounts env (fun _ k => k = m) p.lift m :=
    Prog.follows_lift.mpr (hp.follows (fun _ r ho => ledgerNext_of_covered ho r) fun _ => rfl)
  apply hlift.bind
  rintro b _ rfl
  exact hf b

theorem accounts_act {o : Op} {f : o.Res → Code α} (ho : Covered m o)
    (hf : ∀ r, Accounts env Q (f r) m) : Accounts env Q ((act o).lift >>= f) m :=
  accounts_bind (.perform ho) hf

theorem accounts_lock {site : LockSite} {fail rest : Code α}
    (hfail : env.interrupted site = true → Accounts env Q fail m)
    (hrest : env.interrupted site = false → Accounts env Q rest m) :
    Accounts env Q ((mutexLockInterruptible site).lift >>= fun taken =>
      if (!taken) = true then fail else rest) m := by
  rintro taken rfl
  refine ⟨m, ledgerNext_of_covered (o := .mutexLockInterruptible site) trivial _, ?_⟩
  cases h : env.interrupted site with
  | true => exact hfail h
  | false => exact hrest h

theorem accounts_sbBread {b : Nat} {fail rest : Code α} (hfail : Accounts env Q fail m)
    (hrest : Accounts env Q rest (.buffer b ::ₘ m)) :
    Accounts env Q ((sbBread b).lift >>= fun read => if (!read) = true then fail else rest) m := by
  intro read _
  cases read with
  | false => exact ⟨m, if_pos fun x hx => absurd hx (Option.not_mem_none x), hfail⟩
  | true => exact ⟨_, if_pos fun x hx => absurd hx (Option.not_mem_none x), hrest⟩

theorem accounts_sbBreadBugOn {b : Nat} {f : Unit → Code α}
    (hf : Accounts env Q (f ()) (.buffer b ::ₘ m)) :
    Accounts env Q ((sbBreadBugOn b).lift >>= f) m := by
  intro read _
  cases read with
  | false => exact ⟨m, if_pos fun x hx => absurd hx (Option.not_mem_none x), fun _ h => h.elim⟩
  | true => exact ⟨_, if_pos fun x hx => absurd hx (Option.not_mem_none x), hf⟩

theorem accounts_brelse {b : Nat} {f : Unit → Code α} (hf : Accounts env Q (f ()) m) :
    Accounts env Q (brelse b >>= f) (.buffer b ::ₘ m) := by
  refine fun _ _ => ⟨m, ?_, hf⟩
  have hheld : ∀ x ∈ needs (.note (.brelse b)), x ∈ Resource.buffer b ::ₘ m :=
    fun x hx => Option.mem_some_iff.mp hx ▸ Multiset.mem_cons_self _ _
  rw [ledgerNext, if_pos hheld, effect, Multiset.erase_cons_head]

theorem accounts_kmemCacheAlloc {f : Unit → Code α} (hf : Accounts env Q (f ()) (.inode ::ₘ m)) :
    Accounts env Q (kmemCacheAlloc >>= f) m :=
  fun _ _ => ⟨_, if_pos fun x hx => absurd hx (Option.not_mem_none x), hf⟩

theorem accounts_dAdd {p : Path} {iIno : UInt64} {iFop : Option FileOps} {q : SimplefsInode}
    {f : Unit → Code α} (hf : Accounts env Q (f ()) m) :
    Accounts env Q ((dAdd p ⟨iIno, iFop, some q⟩).lift >>= f) (.inode ::ₘ m) := by
  refine fun _ _ => ⟨m, ?_, hf⟩
  have hheld : ∀ x ∈ needs (.op (.dAdd p ⟨iIno, iFop, some q⟩)), x ∈ Resource.inode ::ₘ m :=
    fun x hx => Option.mem_some_iff.mp hx ▸ Multiset.mem_cons_self _ _
  rw [ledgerNext, if_pos hheld, effect, Multiset.erase_cons_head]

end Rules

section Loads

variable {m : Multiset Resource}

theorem covered_load64 {b off : Nat} (hb : b = 0 ∨ .buffer b ∈ m) :
    (load64 b off).Only (Covered m) :=
  .bind (.perform hb) fun _ => trivial

theorem covered_loadInode {i : Nat} (hm : .buffer 1 ∈ m) : (loadInode i).Only (Covered m) :=
  .bind (.perform (.inr hm)) fun _ => trivial

theorem covered_newInodeUnchecked : newInodeUnchecked.Only (Covered m) :=
  .bind (.perform trivial) fun _ => .ite (.perform trivial) trivial

theorem covered_inodeSearchLoop (inodeNo : UInt64) (left i : Nat) (hm : .buffer 1 ∈ m) :
    (inodeSearchLoop inodeNo left i).Only (Covered m) := by
  induction left generalizing i with
  | zero => exact .bind (covered_load64 (.inr hm)) fun _ => trivial
  | succ left ih =>
      apply Prog.Only.bind (covered_load64 (.inr hm))
      intro startNo
      exact .ite trivial (ih (i + 1))

theorem covered_simplefsInodeSearch (search : SimplefsInode) (hm : .buffer 1 ∈ m) :
    (simplefsInodeSearch search).Only (Covered m) :=
  .bind (covered_load64 (.inl rfl)) fun _ => covered_inodeSearchLoop _ _ _ hm

theorem covered_iterateLoop {block : Nat} (left i : Nat) (hm : .buffer block ∈ m) :
    (iterateLoop block left i).Only (Covered m) := by
  induction left generalizing i with
  | zero => trivial
  | succ left ih =>
      apply Prog.Only.bind (.perform (.inr hm))
      intro filename
      apply Prog.Only.bind (covered_load64 (.inr hm))
      intro inodeNo
      exact .bind (ih (i + 1)) fun _ => trivial

theorem covered_strcmpLoop {block : Nat} (off : Nat) (s : List UInt8) (hm : .buffer block ∈ m) :
    (strcmpLoop block off s).Only (Covered m) := by
  induction s generalizing off with
  | nil => trivial
  | cons c s ih =>
      have hload : (load block off 1).Only (Covered m) := .perform (.inr hm)
      apply Prog.Only.bind hload
      intro x
      exact .ite trivial (ih (off + 1))

theorem covered_lookupLoop {block : Nat} (name : Name) (left i : Nat) (hm : .buffer block ∈ m) :
    (lookupLoop block name left i).Only (Covered m) := by
  induction left generalizing i with
  | zero => trivial
  | succ left ih =>
      apply Prog.Only.bind (covered_strcmpLoop _ _ hm)
      intro same
      exact .ite (.bind (covered_load64 (.inr hm)) fun _ => trivial) (ih (i + 1))

end Loads

section Functions

variable {env : Env} {m : Multiset Resource}

theorem accounts_simplefsSbSync : Accounts env (fun _ k => k = m) simplefsSbSync m := by
  apply accounts_sbBreadBugOn
  have hheld : Resource.buffer 0 ∈ .buffer 0 ::ₘ m := Multiset.mem_cons_self _ _
  apply accounts_act (by exact hheld)
  intro _
  apply accounts_act (by exact hheld)
  intro _
  exact accounts_brelse (f := pure) rfl

/-- What `simplefs_inode_add` leaves when it does not get its second lock. -/
def addLeaves (env : Env) : Multiset Resource :=
  if env.interrupted .inodeAddMgmt = false ∧ env.interrupted .inodeAddSb = true then
    {.buffer simplefsInodestoreBlockNumber}
  else 0

theorem accounts_simplefsInodeAdd (inode : SimplefsInode) :
    Accounts env (fun _ k => k = addLeaves env + m) (simplefsInodeAdd inode) m := by
  refine accounts_lock (fun hmgmt => ?_) fun hmgmt => ?_
  · simp [addLeaves, hmgmt]
  apply accounts_sbBreadBugOn
  refine accounts_lock (fun hsb => ?_) fun hsb => ?_
  · simp [addLeaves, hmgmt, hsb]
  have hheld : Resource.buffer 1 ∈ .buffer 1 ::ₘ m := Multiset.mem_cons_self _ _
  apply accounts_bind (covered_load64 (.inl rfl))
  intro count
  apply accounts_act (by exact .inr hheld)
  intro _
  apply accounts_act (by exact .inl rfl)
  intro _
  apply accounts_act (by exact hheld)
  intro _
  apply accounts_simplefsSbSync.bind
  rintro _ _ rfl
  apply accounts_brelse
  apply accounts_act (by trivial)
  intro _
  apply accounts_act (f := pure) (by trivial)
  intro _
  change m = addLeaves env + m
  simp [addLeaves, hsb]

/-- The block is taken, or the function fails without a trace on the account. -/
theorem accounts_simplefsSbGetAFreeblock :
    Accounts env (fun x k => k = m ∧ ((x.1 = -eintr ∧ env.interrupted .sbGetAFreeblock = true) ∨
      ((x.1 = -enospc ∨ x.1 = 0) ∧ env.interrupted .sbGetAFreeblock = false)))
      simplefsSbGetAFreeblock m := by
  refine accounts_lock (fun hint => ?_) fun hint => ?_
  · apply accounts_act (by trivial)
    intro _
    exact ⟨rfl, .inl ⟨rfl, hint⟩⟩
  apply accounts_bind (covered_load64 (.inl rfl))
  intro freeBlocks
  refine .ite ?_ ?_
  · apply accounts_act (by trivial)
    intro _
    exact ⟨rfl, .inr ⟨.inl rfl, hint⟩⟩
  · apply accounts_act (by exact .inl rfl)
    intro _
    apply accounts_simplefsSbSync.bind
    rintro _ _ rfl
    apply accounts_act (by trivial)
    intro _
    exact ⟨rfl, .inr ⟨.inr rfl, hint⟩⟩

theorem accounts_simplefsSbGetObjectsCount :
    Accounts env (fun x k => k = m ∧ ((x.1 = -eintr ∧ env.interrupted .sbGetObjectsCount = true) ∨
      (x.1 = 0 ∧ env.interrupted .sbGetObjectsCount = false)))
      simplefsSbGetObjectsCount.lift m := by
  simp only [simplefsSbGetObjectsCount, Prog.lift_bind, Prog.lift_ite]
  refine accounts_lock (fun hint => ⟨rfl, .inl ⟨rfl, hint⟩⟩) fun hint => ?_
  apply accounts_bind (covered_load64 (.inl rfl))
  intro count
  apply accounts_act (by trivial)
  intro _
  exact ⟨rfl, .inr ⟨rfl, hint⟩⟩

theorem accounts_simplefsIterate (filp : Path) (pos : Nat) :
    Accounts env (fun _ k => k = m) (simplefsIterate filp pos) m := by
  refine .ite rfl ?_
  apply accounts_act (by trivial)
  intro sfsInode
  refine .ite rfl ?_
  apply accounts_sbBreadBugOn
  apply accounts_bind (covered_iterateLoop _ _ (Multiset.mem_cons_self _ _))
  intro emits
  exact accounts_brelse rfl

/-- A copy of an entry is a new object. -/
theorem accounts_getInodeLoop (inodeNo : UInt64) (left i : Nat) (hm : .buffer 1 ∈ m) :
    Accounts env (fun x k => k = (if x.isSome then {.inode} else 0) + m)
      (getInodeLoop inodeNo left i) m := by
  induction left generalizing i with
  | zero => simp [getInodeLoop]
  | succ left ih =>
      apply accounts_bind (covered_load64 (.inr hm))
      intro entryNo
      refine .ite ?_ (ih (i + 1))
      apply accounts_kmemCacheAlloc
      apply accounts_bind (covered_loadInode (Multiset.mem_cons_of_mem hm))
      intro inodeBuffer
      simp

theorem accounts_simplefsGetInode (inodeNo : UInt64) :
    Accounts env (fun x k => k = (if x.isSome then {.inode} else 0) + m)
      (simplefsGetInode inodeNo) m := by
  apply accounts_sbBreadBugOn
  apply accounts_bind (covered_load64 (.inl rfl))
  intro count
  apply (accounts_getInodeLoop inodeNo _ _ (Multiset.mem_cons_self _ _)).bind
  rintro found _ rfl
  rw [Multiset.add_cons]
  exact accounts_brelse rfl

theorem accounts_simplefsRead (filp : Path) (len ppos : Nat) :
    Accounts env (fun _ k => k = m) (simplefsRead filp len ppos) m := by
  apply accounts_act (by trivial)
  intro inode
  refine .ite rfl ?_
  refine accounts_sbBread rfl ?_
  apply accounts_act (by exact Multiset.mem_cons_self _ _)
  intro moved
  cases moved with
  | none => exact accounts_brelse rfl
  | some bytes => exact accounts_brelse rfl

/-- Every failure of `simplefs_inode_save` leaves the buffer of the store. -/
theorem accounts_simplefsInodeSave (inode : Path) :
    Accounts env (fun r k => (r = 0 ∧ k = m) ∨
      ((r = -eintr ∨ r = -eio) ∧ k = .buffer simplefsInodestoreBlockNumber ::ₘ m))
      (simplefsInodeSave inode) m := by
  apply accounts_sbBreadBugOn
  have hheld : Resource.buffer 1 ∈ .buffer 1 ::ₘ m := Multiset.mem_cons_self _ _
  refine accounts_lock (fun _ => .inr ⟨.inl rfl, rfl⟩) fun _ => ?_
  apply accounts_act (by trivial)
  intro sfsInode
  apply accounts_bind (covered_simplefsInodeSearch sfsInode hheld)
  intro found
  cases found with
  | none =>
      apply accounts_act (by trivial)
      intro _
      exact .inr ⟨.inr rfl, rfl⟩
  | some i =>
      apply accounts_act (by exact .inr hheld)
      intro _
      apply accounts_act (by exact hheld)
      intro _
      apply accounts_act (by exact hheld)
      intro _
      apply accounts_brelse
      apply accounts_act (by trivial)
      intro _
      exact .inl ⟨rfl, rfl⟩

/-- What a write leaves. -/
def writeLeaves (env : Env) (r : Int) : Multiset Resource :=
  if r = -eio ∨ (r = -eintr ∧ env.interrupted .write = false) then
    {.buffer simplefsInodestoreBlockNumber}
  else 0

theorem accounts_simplefsWrite (filp : Path) (buf : List UInt8) (ppos : Nat) :
    Accounts env (fun x k => k = writeLeaves env x.1 + m) (simplefsWrite filp buf ppos) m := by
  unfold simplefsWrite
  cases hchecks : genericWriteChecks ppos buf.length simplefsDefaultBlockSize with
  | error retval =>
      unfold genericWriteChecks at hchecks
      split_ifs at hchecks
      cases hchecks
      simp [writeLeaves]
  | ok len =>
      apply accounts_act (by trivial)
      intro sfsInode
      refine accounts_sbBread (by simp [writeLeaves]) ?_
      have hheld : Resource.buffer sfsInode.dataBlockNumber.toNat ∈
        .buffer sfsInode.dataBlockNumber.toNat ::ₘ m := Multiset.mem_cons_self _ _
      apply accounts_act (by exact hheld)
      intro moved
      refine .ite (accounts_brelse (by simp [writeLeaves])) ?_
      apply accounts_act (by exact hheld)
      intro _
      apply accounts_act (by exact hheld)
      intro _
      apply accounts_brelse
      refine accounts_lock (fun hint => by simp [writeLeaves, hint]) fun hint => ?_
      apply accounts_act (by trivial)
      intro _
      apply (accounts_simplefsInodeSave filp).bind
      rintro retval k hend
      apply accounts_act (by trivial)
      intro _
      obtain ⟨rfl, rfl⟩ | ⟨rfl | rfl, rfl⟩ := hend
      · have hlen : ¬ (len : Int) = -5 ∧ ¬ (len : Int) = -4 := by omega
        simp [writeLeaves, hlen]
      · simp [writeLeaves, hint]
      · simp [writeLeaves]

/-- What is left when an object has got its block. -/
def tailLeaves (env : Env) (r : Int) : Multiset Resource :=
  if r = 0 then addLeaves env
  else if env.interrupted .createMgmt = true then .inode ::ₘ addLeaves env
  else .buffer simplefsInodestoreBlockNumber ::ₘ .inode ::ₘ addLeaves env

theorem accounts_createTail (dir : Path) (name : Name) (sfsInode : SimplefsInode) :
    Accounts env (fun r k => k = tailLeaves env r + m ∧ (r = 0 ∨ r = -eintr ∨ r = -eio))
      (createTail dir name sfsInode) (.inode ::ₘ m) := by
  apply (accounts_simplefsInodeAdd sfsInode).bind
  rintro _ _ rfl
  apply accounts_act (by trivial)
  intro parentDirInode
  apply accounts_sbBreadBugOn
  have hheld : Resource.buffer parentDirInode.dataBlockNumber.toNat ∈
    .buffer parentDirInode.dataBlockNumber.toNat ::ₘ (addLeaves env + .inode ::ₘ m) :=
      Multiset.mem_cons_self _ _
  apply accounts_act (by exact .inr hheld)
  intro _
  apply accounts_act (by exact .inr hheld)
  intro _
  apply accounts_act (by exact hheld)
  intro _
  apply accounts_act (by exact hheld)
  intro _
  apply accounts_brelse
  refine accounts_lock (fun hint => ?_) fun hint => ?_
  · apply accounts_act (by trivial)
    intro _
    exact ⟨by simp [tailLeaves, hint], .inr (.inl rfl)⟩
  apply accounts_act (by trivial)
  intro parentDirInode
  apply accounts_act (by trivial)
  intro _
  apply (accounts_simplefsInodeSave dir).bind
  rintro retval k hend
  obtain ⟨rfl, rfl⟩ | ⟨hr, rfl⟩ := hend
  · rw [if_neg (by decide)]
    apply accounts_act (by trivial)
    intro _
    apply accounts_act (by trivial)
    intro _
    rw [Multiset.add_cons]
    exact accounts_dAdd ⟨rfl, .inl rfl⟩
  · have hne : retval ≠ 0 := by
      rintro rfl
      exact absurd hr (by decide)
    rw [if_pos hne]
    apply accounts_act (by trivial)
    intro _
    apply accounts_act (by trivial)
    intro _
    exact ⟨by simp [tailLeaves, hne, hint], .inr hr⟩

/-- What is left when the number of objects is known. -/
def objectLeaves (env : Env) (full : Bool) (r : Int) : Multiset Resource :=
  if full = true ∨ r = -einval ∨ r = -enomem then 0
  else if r = -enospc ∨ env.interrupted .sbGetAFreeblock = true then {.inode}
  else tailLeaves env r

/-- There are too many objects already. -/
def isFull (count : UInt64) : Bool := count.toNat ≥ simplefsMaxFilesystemObjectsSupported

theorem accounts_createObject (dir : Path) (name : Name) (mode : UInt16) (count : UInt64) :
    Accounts env (fun r k => k = objectLeaves env (isFull count) r + m ∧
      (isFull count = true → r = -enospc)) (createObject dir name mode count) m := by
  unfold createObject
  by_cases hfull : isFull count = true
  · rw [if_pos (by simpa [isFull] using hfull)]
    apply accounts_act (by trivial)
    intro _
    exact ⟨by simp [objectLeaves, hfull], fun _ => rfl⟩
  · have hcount : ∀ r : Int, isFull count = true → r = -enospc := fun r h => absurd h hfull
    rw [if_neg (by simpa [isFull] using hfull)]
    refine .ite ?_ ?_
    · apply accounts_act (by trivial)
      intro _
      exact ⟨by simp [objectLeaves], hcount _⟩
    apply accounts_act (by trivial)
    intro allocated
    refine .ite ?_ ?_
    · apply accounts_act (by trivial)
      intro _
      exact ⟨by simp [objectLeaves], hcount _⟩
    apply accounts_kmemCacheAlloc
    apply accounts_simplefsSbGetAFreeblock.bind
    rintro ⟨ret, block⟩ _ ⟨rfl, hret⟩
    obtain ⟨rfl, hint⟩ | ⟨rfl | rfl, hint⟩ := hret
    · dsimp only
      rw [if_pos (by decide)]
      apply accounts_act (by trivial)
      intro _
      exact ⟨by simp [objectLeaves, hfull, hint], hcount _⟩
    · dsimp only
      rw [if_pos (by decide)]
      apply accounts_act (by trivial)
      intro _
      exact ⟨by simp [objectLeaves, hfull], hcount _⟩
    · dsimp only
      rw [if_neg (by decide)]
      refine (accounts_createTail dir name _).mono ?_
      rintro r _ ⟨rfl, hr⟩
      refine ⟨?_, hcount r⟩
      have hother : r ≠ -22 ∧ r ≠ -12 ∧ r ≠ -28 := by
        obtain rfl | rfl | rfl := hr <;> decide
      simp [objectLeaves, hfull, hint, hother]

/-- What an attempt to make an object leaves. -/
def createLeaves (env : Env) (full : Bool) (r : Int) : Multiset Resource :=
  if env.interrupted .createChildren = true ∨ env.interrupted .sbGetObjectsCount = true then 0
  else objectLeaves env full r

theorem accounts_simplefsCreateFsObject (dir : Path) (name : Name) (mode : UInt16) :
    Accounts env (fun r k => ∃ full, k = createLeaves env full r + m ∧ (full = true → r = -enospc))
      (simplefsCreateFsObject dir name mode) m := by
  refine accounts_lock (fun hint => ?_) fun hint => ?_
  · exact ⟨false, by simp [createLeaves, hint], by simp⟩
  apply accounts_simplefsSbGetObjectsCount.bind
  rintro ⟨ret, count⟩ _ ⟨rfl, hret⟩
  obtain ⟨rfl, hcount⟩ | ⟨rfl, hcount⟩ := hret
  · dsimp only
    rw [if_pos (by decide)]
    apply accounts_act (by trivial)
    intro _
    exact ⟨false, by simp [createLeaves, hcount], by simp⟩
  · dsimp only
    rw [if_neg (by decide)]
    refine (accounts_createObject dir name mode count).mono ?_
    rintro r _ ⟨rfl, hfull⟩
    exact ⟨isFull count, by simp [createLeaves, hint, hcount], hfull⟩

/-- A lookup leaves the buffer of the directory, whether it finds the name or not. -/
theorem accounts_simplefsLookup (dir : Path) (name : Name) :
    Accounts env (fun _ k => ∃ block, k = .buffer block ::ₘ m) (simplefsLookup dir name) m := by
  apply accounts_act (by trivial)
  intro parent
  apply accounts_sbBreadBugOn
  apply accounts_bind (covered_lookupLoop _ _ _ (Multiset.mem_cons_self _ _))
  intro found
  cases found with
  | none => exact ⟨_, rfl⟩
  | some inodeNo =>
      apply (accounts_simplefsGetInode inodeNo).bind
      rintro sfsInode _ rfl
      apply accounts_bind covered_newInodeUnchecked
      intro _
      cases sfsInode with
      | none => exact fun _ h => h.elim
      | some q => exact accounts_dAdd (f := pure) ⟨_, rfl⟩

theorem accounts_simplefsFillSuper :
    Accounts env (fun _ k => k = m) simplefsFillSuper m := by
  apply accounts_sbBreadBugOn
  apply accounts_bind (covered_load64 (.inl rfl))
  intro magic
  refine .ite (accounts_brelse rfl) ?_
  apply accounts_bind (covered_load64 (.inl rfl))
  intro blockSize
  refine .ite (accounts_brelse rfl) ?_
  apply accounts_bind covered_newInodeUnchecked
  intro _
  apply (accounts_simplefsGetInode simplefsRootdirInodeNumber).bind
  rintro root _ rfl
  cases root with
  | none =>
      rw [Option.isSome_none, if_neg Bool.false_ne_true, zero_add]
      apply accounts_act (by trivial)
      intro _
      exact accounts_brelse rfl
  | some q => exact accounts_dAdd (accounts_brelse rfl)

/-- What is left on the account of a call that has returned. -/
def Leaves (env : Env) : Call → Reply → Multiset Resource → Prop
  | .lookup .., _, k => ∃ block, k = {.buffer block}
  | .create .., .ret r, k | .mkdir .., .ret r, k =>
      ∃ full, k = createLeaves env full r ∧ (full = true → r = -enospc)
  | .write .., .wrote r _, k => k = writeLeaves env r
  | _, _, k => k = 0

/-- Every call can be followed, and leaves what the table says. -/
theorem accounts_code (c : Call) : Accounts env (Leaves env c) (code c) 0 := by
  cases c with
  | mount =>
      apply accounts_simplefsFillSuper.bind
      rintro r _ rfl
      rfl
  | unmount => rfl
  | lookup dir name => exact (accounts_simplefsLookup dir name).bind fun _ _ h => h
  | create dir name mode =>
      apply (accounts_simplefsCreateFsObject dir name mode).bind
      rintro r _ ⟨full, rfl, hfull⟩
      exact ⟨full, add_zero _, hfull⟩
  | mkdir dir name mode =>
      apply (accounts_simplefsCreateFsObject dir name _).bind
      rintro r _ ⟨full, rfl, hfull⟩
      exact ⟨full, add_zero _, hfull⟩
  | iterate dir pos =>
      apply (accounts_simplefsIterate dir pos).bind
      rintro r _ rfl
      rfl
  | read file len pos =>
      apply (accounts_simplefsRead file len pos).bind
      rintro r _ rfl
      rfl
  | write file buf pos =>
      apply (accounts_simplefsWrite file buf pos).bind
      rintro r _ rfl
      exact add_zero (writeLeaves env r.1)

end Functions

end LinuxDevelopment.Simplefs.Counted
