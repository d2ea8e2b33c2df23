import LinuxDevelopment.Simplefs.AnyRun

/-!
# simplefs: where the writes of a call land

Three capacities are involved: 128 entries in the store block, 15 records in a
directory block and 255 bytes in the `filename` of a record. The limit of 64
objects protects the store. Nothing protects a directory block from a 16th
record, or a `filename` from the terminator of a name of 255 bytes.
-/

namespace LinuxDevelopment.Simplefs

/-- What an action writes stays inside its block, and a string put at the start
of a directory record inside the 255 bytes of `filename`. -/
def Op.Fits : Op → Prop
  | .store b off bytes =>
      off + bytes.length ≤ 4096 ∧ (2 ≤ b → off % 264 = 0 → bytes.length ≤ 255)
  | .copyFromUser _ off bytes => off + bytes.length ≤ 4096
  | _ => True

instance : (o : Op) → Decidable o.Fits
  | .store .. => inferInstanceAs (Decidable (_ ∧ (_ → _ → _)))
  | .copyFromUser .. => inferInstanceAs (Decidable (_ ≤ _))
  | .mutexLockInterruptible _ | .mutexUnlock _ | .sbBread _ | .trap _ | .load .. => isTrue trivial
  | .markBufferDirty _ | .syncDirtyBuffer _ | .newInode | .simplefsInode _ => isTrue trivial
  | .setFileSize .. | .dAdd .. | .copyToUser .. => isTrue trivial

/-- Everything a program writes in an execution stays in range. -/
abbrev Fits {α : Type} (tid : Nat) (env : Env) (p : Code α) (w : World) : Prop :=
  p.Along (exec tid env) (fun o _ => o.Fits) w

/-- Whatever the answers are, the function writes in range. -/
def Stays {α : Type} (p : Code α) : Prop := p.Only Op.Fits

/-- No call of `mutex_lock_interruptible` is interrupted. -/
def Env.Uninterrupted (env : Env) : Prop := ∀ site, env.interrupted site = false

section Static

variable {α β : Type} {p : Code α}

theorem Stays.fits (hp : Stays p) {tid : Nat} {env : Env} {w : World} : Fits tid env p w :=
  Prog.Only.along hp w

theorem Stays.fits_bind (hp : Stays p) {f : α → Prog Op.Res β} {tid : Nat} {env : Env}
    {w : World} : Fits tid env (p >>= f) w ↔
      ∀ a w', p.run (exec tid env) w = .done a w' → Fits tid env (f a) w' :=
  Prog.Only.along_bind hp

theorem stays_act {o : Op} (h : o.Fits) : Stays (act o) := .perform h

theorem stays_lock (site : LockSite) : Stays (mutexLockInterruptible site) := stays_act trivial

theorem Reads.stays (hp : Reads p) : Stays p := by
  refine hp.mono ?_
  rintro o (ho | ⟨b, rfl⟩)
  · cases o with
    | store => exact ho.elim
    | copyFromUser => exact ho.elim
    | _ => trivial
  · trivial

theorem stays_storeInode {i : Nat} (h : i < 128) (e : SimplefsInode) : Stays (storeInode i e) := by
  refine stays_act ⟨?_, ?_⟩
  · rw [SimplefsInode.length_encode]
    simp only [sizeofSimplefsInode]
    omega
  · simp

theorem stays_sbStore64 {off : Nat} (h : off ≤ 4088) (v : UInt64) :
    Stays (store64 simplefsSuperblockBlockNumber off v) := by
  refine stays_act ⟨?_, ?_⟩
  · rw [length_toLE]
    omega
  · simp

theorem stays_simplefsSbSync : Stays simplefsSbSync := by
  apply Prog.Only.bind (reads_sbBreadBugOn _).stays
  intro _
  exact .bind (stays_act trivial) fun _ => stays_act trivial

theorem stays_simplefsSbGetObjectsCount : Stays simplefsSbGetObjectsCount := by
  apply Prog.Only.bind (stays_lock _)
  intro taken
  refine .ite trivial ?_
  apply Prog.Only.bind (loads_load64 _ _).reads.stays
  intro inodesCount
  exact .bind (stays_act trivial) fun _ => trivial

theorem stays_simplefsSbGetAFreeblock : Stays simplefsSbGetAFreeblock := by
  apply Prog.Only.bind (stays_lock _)
  intro taken
  refine .ite (.bind (stays_act trivial) fun _ => trivial) ?_
  apply Prog.Only.bind (loads_load64 _ _).reads.stays
  intro freeBlocks
  refine .ite (.bind (stays_act trivial) fun _ => trivial) ?_
  apply Prog.Only.bind (stays_sbStore64 (by decide) _)
  intro _
  apply Prog.Only.bind stays_simplefsSbSync
  intro _
  exact .bind (stays_act trivial) fun _ => trivial

theorem stays_simplefsLookup (dir : Path) (name : Name) : Stays (simplefsLookup dir name) := by
  apply Prog.Only.bind (reads_simplefsInode _).stays
  intro parent
  apply Prog.Only.bind (reads_sbBreadBugOn _).stays
  intro _
  apply Prog.Only.bind (loads_lookupLoop _ _ _ _).reads.stays
  intro found
  cases found with
  | none => trivial
  | some inodeNo =>
      apply Prog.Only.bind (reads_simplefsGetInode _).stays
      intro sfsInode
      apply Prog.Only.bind loads_newInodeUnchecked.reads.stays
      intro _
      cases sfsInode with
      | none => exact stays_act trivial
      | some q => exact stays_act trivial

theorem stays_simplefsFillSuper : Stays simplefsFillSuper := by
  apply Prog.Only.bind (reads_sbBreadBugOn _).stays
  intro _
  apply Prog.Only.bind (loads_load64 _ _).reads.stays
  intro magic
  refine .ite trivial ?_
  apply Prog.Only.bind (loads_load64 _ _).reads.stays
  intro blockSize
  refine .ite trivial ?_
  apply Prog.Only.bind loads_newInodeUnchecked.reads.stays
  intro _
  apply Prog.Only.bind (reads_simplefsGetInode _).stays
  intro root
  exact .bind (stays_act trivial) fun _ => trivial

end Static

section Dynamic

variable {tid : Nat} {env : Env} {w w' : World}

/-- A search stops at an entry it has read, so the entry is in the block. -/
theorem lt_of_run_inodeSearchLoop {ino : UInt64} {left i j : Nat}
    (h : (inodeSearchLoop ino left i).run (exec tid env) w = .done (some j) w') : j < 128 := by
  have hload : ∀ {k v u}, (load64 simplefsInodestoreBlockNumber (sizeofSimplefsInode * k + 8)).run
      (exec tid env) w = .done v u → u = w ∧ k < 128 := by
    intro k v u hk
    refine ⟨(loads_load64 _ _).reads.run_eq hk, ?_⟩
    by_contra hlarge
    have hout := @run_load_outOfRange tid env w simplefsInodestoreBlockNumber
      (sizeofSimplefsInode * k + 8) 8 (by simp only [sizeofSimplefsInode]; omega)
    simp only [load64, Prog.run_bind, hout] at hk
    cases hk
  induction left generalizing i with
  | zero =>
      obtain ⟨v, u, hv, hret⟩ := (Prog.run_bind_eq_done _).mp h
      obtain ⟨rfl, hi⟩ := hload hv
      split_ifs at hret with hno
      · cases hret
        exact hi
      · cases hret
  | succ left ih =>
      obtain ⟨v, u, hv, hrest⟩ := (Prog.run_bind_eq_done _).mp h
      obtain ⟨rfl, hi⟩ := hload hv
      split_ifs at hrest with hno
      · cases hrest
        exact hi
      · exact ih hrest

theorem fits_simplefsInodeSave (inode : Path) : Fits tid env (simplefsInodeSave inode) w := by
  refine (reads_sbBreadBugOn _).stays.fits_bind.mpr ?_
  intro _ w₁ _
  refine (stays_lock _).fits_bind.mpr ?_
  intro taken w₂ _
  cases taken with
  | false => trivial
  | true =>
      refine (reads_simplefsInode inode).stays.fits_bind.mpr ?_
      intro sfsInode w₃ _
      refine (loads_simplefsInodeSearch sfsInode).reads.stays.fits_bind.mpr ?_
      intro found w₄ hfound
      cases found with
      | none =>
          have hend : Stays (mutexUnlock .sbLock >>= fun _ => pure (-eio) : Prog Op.Res Int) :=
            .bind (stays_act trivial) fun _ => trivial
          exact hend.fits
      | some i =>
          obtain ⟨count, u, -, hloop⟩ := (Prog.run_bind_eq_done _).mp hfound
          have hi : i < 128 := lt_of_run_inodeSearchLoop hloop
          refine Prog.Only.along ?_ w₄
          apply Prog.Only.bind (stays_storeInode hi _)
          intro _
          refine Prog.Only.bind (stays_act trivial) ?_
          intro _
          refine Prog.Only.bind (stays_act trivial) ?_
          intro _
          exact .bind (stays_act trivial) fun _ => trivial

theorem fits_createCommit (dir : Path) (name : Name) (e : SimplefsInode) :
    Fits tid env (createCommit dir name e) w := by
  refine (stays_lock _).fits_bind.mpr ?_
  intro taken w₁ _
  cases taken with
  | false =>
      have hend : Stays (mutexUnlock .directoryChildrenUpdateLock >>= fun _ =>
          pure (-eintr) : Prog Op.Res Int) := .bind (stays_act trivial) fun _ => trivial
      exact hend.fits
  | true =>
      refine (reads_simplefsInode dir).stays.fits_bind.mpr ?_
      intro parentDirInode w₂ _
      have hset : Stays (setFileSize dir (parentDirInode.fileSize + 1)) := stays_act trivial
      refine hset.fits_bind.mpr ?_
      intro _ w₃ _
      refine Prog.along_bind.mpr ⟨fits_simplefsInodeSave dir, ?_⟩
      intro ret w₄ _
      refine Prog.Only.along ?_ w₄
      refine .ite ?_ ?_
      · refine .bind (stays_act trivial) ?_
        intro _
        exact .bind (stays_act trivial) fun _ => trivial
      · refine .bind (stays_act trivial) ?_
        intro _
        refine .bind (stays_act trivial) ?_
        intro _
        exact .bind (stays_act trivial) fun _ => trivial

theorem fits_writeCommit (filp : Path) (len pos : Nat) :
    Fits tid env (writeCommit filp len pos) w := by
  refine (stays_lock _).fits_bind.mpr ?_
  intro taken w₁ _
  cases taken with
  | false => trivial
  | true =>
      have hset : Stays (setFileSize filp (UInt64.ofNat pos)) := stays_act trivial
      refine hset.fits_bind.mpr ?_
      intro _ w₂ _
      refine Prog.along_bind.mpr ⟨fits_simplefsInodeSave filp, ?_⟩
      intro retval w₃ _
      refine Prog.Only.along ?_ w₃
      exact .bind (stays_act trivial) fun _ => trivial

/-- `generic_write_checks` keeps the copy inside the block of the file. -/
theorem fits_simplefsWrite (filp : Path) (buf : List UInt8) (pos : Nat) :
    Fits tid env (simplefsWrite filp buf pos) w := by
  unfold simplefsWrite
  by_cases hbig : 4096 ≤ pos ∧ (buf.length ≠ 0 ∨ 4096 < pos)
  · rw [genericWriteChecks_error hbig]
    trivial
  · rw [genericWriteChecks_ok hbig]
    refine (reads_simplefsInode filp).stays.fits_bind.mpr ?_
    intro sfsInode w₁ _
    refine (reads_sbBread _).stays.fits_bind.mpr ?_
    intro read w₂ _
    cases read with
    | false => trivial
    | true =>
        have hcopy : Stays (copyFromUser sfsInode.dataBlockNumber.toNat pos
            (buf.take (writeLength buf pos))) := by
          refine stays_act ?_
          change pos + (buf.take (writeLength buf pos)).length ≤ 4096
          rw [length_take_writeLength]
          exact add_writeLength_le hbig
        refine hcopy.fits_bind.mpr ?_
        intro copied w₃ _
        cases copied with
        | false => trivial
        | true =>
            refine ⟨trivial, fun _ w₄ _ => ⟨trivial, fun _ w₅ _ => ?_⟩⟩
            exact fits_writeCommit filp _ _

theorem cache_of_run_lock {site : LockSite} {taken : Bool}
    (h : (mutexLockInterruptible site).run (exec tid env) w = .done taken w') :
    w'.cache = w.cache := by
  cases hi : env.interrupted site with
  | true =>
      rw [run_lock_interrupted hi] at h
      cases h
      rfl
  | false =>
      by_cases ho : w.owner site.mutex = none
      · rw [run_lock_taken hi ho] at h
        cases h
        rfl
      · rw [run_lock_blocked hi ho] at h
        cases h

/-- The limit of 64 objects keeps the new entry inside the store block. -/
theorem fits_simplefsInodeAdd (hc : (inodesCount w.cache).toNat < 64) (e : SimplefsInode) :
    Fits tid env (simplefsInodeAdd e) w := by
  refine (stays_lock _).fits_bind.mpr ?_
  intro taken w₁ h₁
  cases taken with
  | false => trivial
  | true =>
      refine (reads_sbBreadBugOn _).stays.fits_bind.mpr ?_
      intro _ w₂ h₂
      obtain rfl := (reads_sbBreadBugOn _).run_eq h₂
      refine (stays_lock _).fits_bind.mpr ?_
      intro taken' w₃ h₃
      cases taken' with
      | false => trivial
      | true =>
          refine (loads_load64 _ _).reads.stays.fits_bind.mpr ?_
          intro count w₄ h₄
          have hcount : count = inodesCount w.cache := by
            have hread : inodesCount w₃.cache = count :=
              (Outcome.done.inj (run_sbInodesCount.symm.trans h₄)).1
            rw [← hread, cache_of_run_lock h₃, cache_of_run_lock h₁]
          refine Prog.Only.along ?_ w₄
          apply Prog.Only.bind (stays_storeInode (by rw [hcount]; omega) e)
          intro _
          apply Prog.Only.bind (stays_sbStore64 (by decide) _)
          intro _
          refine .bind (stays_act trivial) ?_
          intro _
          apply Prog.Only.bind stays_simplefsSbSync
          intro _
          refine .bind (stays_act trivial) ?_
          intro _
          exact stays_act trivial

/-- An uninterrupted `simplefs_inode_add` that returns has read both metadata blocks. -/
theorem readable_of_run_simplefsInodeAdd {e : SimplefsInode} {u : Unit} (hu : env.Uninterrupted)
    (h : (simplefsInodeAdd e).run (exec tid env) w = .done u w') :
    ∀ b < 2, env.breadFails b = false := by
  have htaken : ∀ {site x v v'}, (mutexLockInterruptible site).run (exec tid env) v = .done x v' →
      x = true := by
    intro site x v v' hx
    by_cases ho : v.owner site.mutex = none
    · rw [run_lock_taken (hu site) ho] at hx
      cases hx
      rfl
    · rw [run_lock_blocked (hu site) ho] at hx
      cases hx
  obtain ⟨x, w₁, h₁, h⟩ := (Prog.run_bind_eq_done _).mp h
  obtain rfl := htaken h₁
  obtain ⟨_, w₂, hstore, h⟩ := (Prog.run_bind_eq_done _).mp h
  obtain ⟨y, w₃, h₃, h⟩ := (Prog.run_bind_eq_done _).mp h
  obtain rfl := htaken h₃
  obtain ⟨_, w₄, _, h⟩ := (Prog.run_bind_eq_done _).mp h
  obtain ⟨_, w₅, _, h⟩ := (Prog.run_bind_eq_done _).mp h
  obtain ⟨_, w₆, _, h⟩ := (Prog.run_bind_eq_done _).mp h
  obtain ⟨_, w₇, _, h⟩ := (Prog.run_bind_eq_done _).mp h
  obtain ⟨_, w₈, hsync, _⟩ := (Prog.run_bind_eq_done _).mp h
  obtain ⟨_, w₉, hsb, _⟩ := (Prog.run_bind_eq_done _).mp hsync
  intro b hb
  obtain rfl | rfl : b = 0 ∨ b = 1 := by omega
  · exact readable_of_run hsb
  · exact readable_of_run hstore

theorem length_cString {name : Name} (hn : ValidName name) :
    (cString name).length = name.length + 1 := by
  rw [cString_of_nulFree hn.nulFree, List.length_append, List.length_singleton]

/-- A record has its place in the block and its name the place in the record. -/
theorem fits_record_iff {dir : Path} {name : Name} {e q : SimplefsInode} (hn : ValidName name)
    (hq2 : 2 ≤ q.dataBlockNumber.toNat) :
    Fits tid env (do
        store64 q.dataBlockNumber.toNat (sizeofSimplefsDirRecord * q.dirChildrenCount + 256)
          e.inodeNo
        strcpyFilename q.dataBlockNumber.toNat (sizeofSimplefsDirRecord * q.dirChildrenCount) name
        markBufferDirty q.dataBlockNumber.toNat
        syncDirtyBuffer q.dataBlockNumber.toNat
        createCommit dir name e) w ↔
      q.dirChildrenCount < 15 ∧ name.length < 255 := by
  have hlen := length_cString hn
  constructor
  · intro h
    obtain ⟨⟨hrecord, -⟩, h⟩ := h
    rw [length_toLE] at hrecord
    simp only [sizeofSimplefsDirRecord] at hrecord h
    obtain ⟨⟨-, hname⟩, -⟩ := h () _ (if_pos (by simpa [inBlock] using hrecord))
    have hstart : 264 * q.dirChildrenCount % 264 = 0 := Nat.mul_mod_right _ _
    have := hname hq2 hstart
    omega
  · rintro ⟨hk, hshort⟩
    refine ⟨⟨?_, ?_⟩, fun _ w₁ _ => ⟨⟨?_, ?_⟩, fun _ w₂ _ => ?_⟩⟩
    · rw [length_toLE]
      simp only [sizeofSimplefsDirRecord]
      omega
    · intro _ hstart
      simp only [sizeofSimplefsDirRecord] at hstart
      omega
    · simp only [sizeofSimplefsDirRecord]
      omega
    · intro _ _
      omega
    · exact ⟨trivial, fun _ w₃ _ => ⟨trivial, fun _ w₄ _ => fits_createCommit dir name e⟩⟩

/-- Where the blocks can be read, the new object stays in range exactly if the
directory has room for its record and the record for its name. -/
theorem fits_createTail_iff {dir : Path} {name : Name} {e q : SimplefsInode}
    (hu : env.Uninterrupted) (hn : ValidName name) (hq : w.simplefsInode dir = some q)
    (hq2 : 2 ≤ q.dataBlockNumber.toNat) (hc : (inodesCount w.cache).toNat < 64)
    (hi : w.owner .inodesMgmtLock = none) (hs : w.owner .sbLock = none) :
    Fits tid env (createTail dir name e) w ↔
      ((∀ b < 2, env.breadFails b = false) → env.breadFails q.dataBlockNumber.toNat = false →
        q.dirChildrenCount < 15 ∧ name.length < 255) := by
  have hrun : (∀ b < 2, env.breadFails b = false) → (simplefsInodeAdd e).run (exec tid env) w =
      .done () (((w.addInode e).setOwner .sbLock none).setOwner .inodesMgmtLock none) := by
    intro hmeta
    rw [run_simplefsInodeAdd hmeta (by omega)]
    simp only [hu .inodeAddMgmt, hu .inodeAddSb, hi, hs, Bool.false_eq_true, if_false, if_true]
  have hstate : ∀ {u w₁}, (simplefsInodeAdd e).run (exec tid env) w = .done u w₁ →
      w₁.simplefsInode dir = some q := by
    intro u w₁ hadd
    cases (hrun (readable_of_run_simplefsInodeAdd hu hadd)).symm.trans hadd
    exact hq
  unfold createTail
  refine Iff.trans Prog.along_bind ?_
  constructor
  · rintro ⟨-, h⟩ hmeta hparent
    have hadd := hrun hmeta
    have h := h () _ hadd
    have h := (reads_simplefsInode dir).stays.fits_bind.mp h q _
      (run_simplefsInode (hstate hadd))
    have h := (reads_sbBreadBugOn _).stays.fits_bind.mp h () _ (run_sbBreadBugOn hparent)
    exact (fits_record_iff hn hq2).mp h
  · intro hroom
    refine ⟨fits_simplefsInodeAdd hc e, ?_⟩
    intro u w₁ hadd
    refine (reads_simplefsInode dir).stays.fits_bind.mpr ?_
    intro parentDirInode w₂ hparent
    rw [run_simplefsInode (hstate hadd)] at hparent
    cases hparent
    refine (reads_sbBreadBugOn _).stays.fits_bind.mpr ?_
    intro _ w₃ hread
    exact (fits_record_iff hn hq2).mpr
      (hroom (readable_of_run_simplefsInodeAdd hu hadd) (readable_of_run hread))

section Bind

variable {β : Type}

theorem fits_lock_bind {site : LockSite} {f : Bool → Prog Op.Res β}
    (hu : env.interrupted site = false) :
    Fits tid env (mutexLockInterruptible site >>= f) w ↔ (w.owner site.mutex = none →
      Fits tid env (f true) (w.setOwner site.mutex (some tid))) := by
  refine (stays_lock site).fits_bind.trans ⟨?_, ?_⟩
  · intro h ho
    exact h true _ (run_lock_taken hu ho)
  · intro h taken w₁ hrun
    by_cases ho : w.owner site.mutex = none
    · cases (run_lock_taken hu ho).symm.trans hrun
      exact h ho
    · cases (run_lock_blocked hu ho).symm.trans hrun

theorem fits_objectsCount_bind {f : Int × UInt64 → Prog Op.Res β} (hu : env.Uninterrupted) :
    Fits tid env (simplefsSbGetObjectsCount >>= f) w ↔ (w.owner .inodesMgmtLock = none →
      Fits tid env (f (0, inodesCount w.cache)) (w.setOwner .inodesMgmtLock none)) := by
  refine stays_simplefsSbGetObjectsCount.fits_bind.trans ?_
  simp only [run_simplefsSbGetObjectsCount, hu .sbGetObjectsCount, Bool.false_eq_true, if_false]
  constructor
  · intro h ho
    exact h _ _ (if_pos ho)
  · intro h a w₁ hrun
    split_ifs at hrun with ho
    cases hrun
    exact h ho

theorem readable_of_run_simplefsSbGetAFreeblock {a : Int × UInt64} (hu : env.Uninterrupted)
    (hs : w.owner .sbLock = none) (hf : freeblockScan (freeBlocks w.cache) ≠ 64)
    (h : simplefsSbGetAFreeblock.run (exec tid env) w = .done a w') :
    env.breadFails 0 = false := by
  obtain ⟨x, w₁, h₁, h⟩ := (Prog.run_bind_eq_done _).mp h
  cases (run_lock_taken (hu _) hs).symm.trans h₁
  obtain ⟨free, w₂, h₂, h⟩ := (Prog.run_bind_eq_done _).mp h
  obtain ⟨rfl, rfl⟩ := Outcome.done.inj (run_sbFreeBlocks.symm.trans h₂)
  simp only [World.setOwner_cache, simplefsMaxFilesystemObjectsSupported, if_neg hf] at h
  obtain ⟨_, w₃, _, h⟩ := (Prog.run_bind_eq_done _).mp h
  obtain ⟨_, w₄, hsync, _⟩ := (Prog.run_bind_eq_done _).mp h
  obtain ⟨_, w₅, hsb, _⟩ := (Prog.run_bind_eq_done _).mp hsync
  exact readable_of_run hsb

/-- Only what follows a block found in the free map can leave the range. -/
theorem fits_freeblock_bind {f : Int × UInt64 → Prog Op.Res β} (hu : env.Uninterrupted)
    (hfull : ∀ v, Fits tid env (f (-28, 0)) v) :
    Fits tid env (simplefsSbGetAFreeblock >>= f) w ↔
      (w.owner .sbLock = none → freeblockScan (freeBlocks w.cache) ≠ 64 →
        env.breadFails 0 = false →
        Fits tid env (f (0, UInt64.ofNat (freeblockScan (freeBlocks w.cache))))
          (w.allocBlock.setOwner .sbLock none)) := by
  refine stays_simplefsSbGetAFreeblock.fits_bind.trans ⟨?_, ?_⟩
  · intro h hs hf hb
    apply h
    rw [run_simplefsSbGetAFreeblock hb, hu .sbGetAFreeblock, if_neg Bool.false_ne_true, if_pos hs,
      if_neg hf]
  · intro h a w₁ hrun
    have hread := bugsOnNull_simplefsSbGetAFreeblock.run_readable hrun
    rw [run_simplefsSbGetAFreeblock rfl] at hread
    simp only [Env.readable, hu .sbGetAFreeblock, Bool.false_eq_true, if_false] at hread
    split_ifs at hread with hs hf
    · cases hread
      exact hfull _
    · cases hread
      exact h hs hf (readable_of_run_simplefsSbGetAFreeblock hu hs hf hrun)

theorem fits_newInode_bind {f : Bool → Prog Op.Res β} :
    Fits tid env (newInode >>= f) w ↔ Fits tid env (f (!env.newInodeFails)) w := by
  have hstays : Stays newInode := stays_act trivial
  refine hstays.fits_bind.trans ⟨?_, ?_⟩
  · intro h
    exact h _ w rfl
  · intro h a w₁ hrun
    cases hrun
    exact h

theorem fits_ite {c : Prop} [Decidable c] {p p' : Prog Op.Res β} :
    Fits tid env (if c then p else p') w ↔ (c → Fits tid env p w) ∧ (¬ c → Fits tid env p' w) := by
  split_ifs with hc <;> simp [hc]

theorem fits_back (m : Mutex) (b : β) :
    Fits tid env (mutexUnlock m >>= fun _ => (pure b : Prog Op.Res β)) w :=
  ⟨trivial, fun _ _ _ => trivial⟩

end Bind

/-- A call of `simplefs_create_fs_object` gets as far as writing a record into
the block of the directory, whose in-memory inode is `q`. -/
structure World.Records (w : World) (env : Env) (q : SimplefsInode) (mode : UInt16) : Prop
    extends w.Allocates env mode where
  metadata : ∀ b < 2, env.breadFails b = false
  parent : env.breadFails q.dataBlockNumber.toNat = false

theorem fits_createFsObject_iff {dir : Path} {name : Name} {q : SimplefsInode} {mode : UInt16}
    (hu : env.Uninterrupted) (hn : ValidName name) (hq : w.simplefsInode dir = some q)
    (hq2 : 2 ≤ q.dataBlockNumber.toNat) :
    Fits tid env (simplefsCreateFsObject dir name mode) w ↔
      (w.Records env q mode → q.dirChildrenCount < 15 ∧ name.length < 255) := by
  have hkind : ¬ (!sIsdir mode.toUInt32 && !sIsreg mode.toUInt32) = true ↔
      sIsdir mode.toUInt32 = true ∨ sIsreg mode.toUInt32 = true := by
    cases sIsdir mode.toUInt32 <;> cases sIsreg mode.toUInt32 <;> decide
  have halloc : ∀ {ino v}, Fits tid env (simplefsSbGetAFreeblock >>= fun x =>
      if x.1 < 0 then mutexUnlock .directoryChildrenUpdateLock >>= fun _ => pure x.1
      else createTail dir name ⟨mode.toUInt32, ino, x.2, 0⟩ : Prog Op.Res Int) v ↔
        (v.owner .sbLock = none → freeblockScan (freeBlocks v.cache) ≠ 64 →
          env.breadFails 0 = false → Fits tid env (createTail dir name ⟨mode.toUInt32, ino,
            UInt64.ofNat (freeblockScan (freeBlocks v.cache)), 0⟩)
            (v.allocBlock.setOwner .sbLock none)) := by
    intro ino v
    rw [fits_freeblock_bind hu]
    · simp only [Int.lt_irrefl, if_false]
    · intro v'
      exact fits_back _ _
  rw [createFsObject_eq, fits_lock_bind (hu _)]
  simp only [Bool.not_true, Bool.false_eq_true, if_false, fits_objectsCount_bind hu, fits_ite,
    fits_back, fits_newInode_bind, halloc, implies_true, true_and, Int.lt_irrefl, hkind,
    Bool.not_not, Bool.not_eq_true]
  -- the state in which the tail starts, whichever task holds the directory
  have htail : ∀ {e : SimplefsInode}, (inodesCount w.cache).toNat < 64 →
      w.owner .inodesMgmtLock = none → w.owner .sbLock = none →
      (Fits tid env (createTail dir name e) (((w.setOwner LockSite.createChildren.mutex
        (some tid)).setOwner .inodesMgmtLock none).allocBlock.setOwner .sbLock none) ↔
      ((∀ b < 2, env.breadFails b = false) → env.breadFails q.dataBlockNumber.toNat = false →
        q.dirChildrenCount < 15 ∧ name.length < 255)) := by
    intro e hc hi hs
    refine fits_createTail_iff hu hn hq hq2 ?_ ?_ ?_
    · change (inodesCount w.allocBlock.cache).toNat < 64
      rw [World.allocBlock_cache, inodesCount_setFree]
      exact hc
    · simp
    · simp
  constructor
  · intro h hr
    have hfits := h hr.directoryChildrenUpdateLock (by simpa using hr.inodesMgmtLock)
      (Nat.not_le.mpr hr.count) hr.kind hr.newInode (by simpa using hr.sbLock) hr.freeblock
      (hr.metadata 0 (by decide))
    exact (htail hr.count hr.inodesMgmtLock hr.sbLock).mp hfits hr.metadata hr.parent
  · intro h hd hi hc hk hnew hs hf _
    have hi' : w.owner .inodesMgmtLock = none := by simpa using hi
    have hs' : w.owner .sbLock = none := by simpa using hs
    have hc' : (inodesCount w.cache).toNat < 64 := Nat.not_le.mp hc
    refine (htail hc' hi' hs').mpr ?_
    intro hmeta hparent
    exact h ⟨⟨hu _, hu _, hu _, hd, hi', hs', hc', hk, hnew, hf⟩, hmeta, hparent⟩

end Dynamic

/-- Everything a call writes stays inside the block and the field it is for. -/
def Call.StaysInRange (c : Call) (tid : Nat) (env : Env) (w : World) : Prop :=
  Fits tid env c.code w

/-- If the call gets as far as writing a directory record, the directory has
fewer than 15 records and the name fewer than 255 bytes. -/
def Call.HasRoom (c : Call) (env : Env) (w : World) : Prop :=
  ∀ dir name mode q, c.makes = some (dir, name, mode) → w.simplefsInode dir = some q →
    w.Records env q mode → q.dirChildrenCount < 15 ∧ name.length < 255

/-- In every state a run can reach, an uninterrupted call writes in range
exactly if there is room for the record it adds and for the name in it. -/
theorem staysInRange_iff_of_run {dev : Image} {es : List Event} {w : World} {c : Call} {tid : Nat}
    {env : Env} (h : Run (World.ofImage (mkfs dev)) es w) (ha : c.Allowed w)
    (hu : env.Uninterrupted) : c.StaysInRange tid env w ↔ c.HasRoom env w := by
  have hnone : c.makes = none → Fits tid env c.code w → (c.StaysInRange tid env w ↔
      c.HasRoom env w) := by
    intro hm hf
    refine iff_of_true hf ?_
    intro dir name mode q hm'
    rw [hm] at hm'
    cases hm'
  have hmakes : ∀ {dir name mode}, w.Has dir .dir → ValidName name →
      c.makes = some (dir, name, mode) →
      c.code = (simplefsCreateFsObject dir name mode >>= fun r => pure (Reply.ret r)) →
      (c.StaysInRange tid env w ↔ c.HasRoom env w) := by
    intro dir name mode hd hn hm hcode
    obtain ⟨q, hq, hq2⟩ := h.sane.simplefsInode hd
    have hcreate : c.StaysInRange tid env w ↔
        Fits tid env (simplefsCreateFsObject dir name mode) w := by
      unfold Call.StaysInRange
      rw [hcode]
      refine Prog.along_bind.trans (and_iff_left ?_)
      exact fun _ _ _ => trivial
    rw [hcreate, fits_createFsObject_iff hu hn hq hq2]
    constructor
    · intro hroom dir' name' mode' q' hm' hq' hr
      cases hm.symm.trans hm'
      cases hq.symm.trans hq'
      exact hroom hr
    · intro hroom hr
      exact hroom dir name mode q hm hq hr
  cases c with
  | mount =>
      refine hnone rfl (stays_simplefsFillSuper.fits_bind.mpr ?_)
      exact fun _ _ _ => trivial
  | unmount => exact hnone rfl trivial
  | lookup dir name =>
      refine hnone rfl ((stays_simplefsLookup dir name).fits_bind.mpr ?_)
      exact fun _ _ _ => trivial
  | create dir name mode => exact hmakes ha.1 ha.2.1 rfl rfl
  | mkdir dir name mode => exact hmakes ha.1 ha.2.1 rfl rfl
  | iterate dir pos => exact hnone rfl (reads_iterate dir pos).stays.fits
  | read file len pos => exact hnone rfl (reads_read file len pos).stays.fits
  | write file buf pos =>
      refine hnone rfl (Prog.along_bind.mpr ⟨fits_simplefsWrite file buf pos, ?_⟩)
      exact fun _ _ _ => trivial

instance (c : Call) (tid : Nat) (env : Env) (w : World) : Decidable (c.StaysInRange tid env w) :=
  inferInstanceAs (Decidable (Prog.Along _ _ _ _))

/-- A name of 254 bytes in a fresh root directory. -/
theorem staysInRange_mountedSample :
    (Call.create [] (List.replicate 254 97) 0o100644).StaysInRange 0 .quiet mountedSample := by
  refine (staysInRange_iff_of_run run_mountedSample (by decide +kernel) fun _ => rfl).mpr ?_
  intro dir name mode q hm hq _
  obtain ⟨rfl, hname⟩ := Prod.mk.inj (Option.some.inj hm)
  obtain ⟨rfl, -⟩ := Prod.mk.inj hname
  have hcount : (mountedSample.simplefsInode []).map SimplefsInode.dirChildrenCount = some 1 := by
    decide +kernel
  rw [hq] at hcount
  have hone : q.dirChildrenCount = 1 := Option.some.inj hcount
  refine ⟨by omega, ?_⟩
  rw [List.length_replicate]
  omega

/-- Fourteen files in the root directory, next to the file of `mkfs`. -/
def fullRootCalls : List Call :=
  .mount :: (List.range 14).map fun i => .create [] [UInt8.ofNat (97 + i)] 0o100644

/-- The sixteenth record of a directory leaves its block, and the terminator of
a name of 255 bytes leaves `filename`. -/
theorem not_staysInRange :
    (∃ es w, Run (World.ofImage (mkfs fun _ _ => 0)) es w ∧ CalmRun es ∧
      (Call.create [] [122] 0o100644).Allowed w ∧
      ¬ (Call.create [] [122] 0o100644).StaysInRange 0 .quiet w) ∧
    (Call.create [] (List.replicate 255 97) 0o100644).Allowed mountedSample ∧
      ¬ (Call.create [] (List.replicate 255 97) 0o100644).StaysInRange 0 .quiet mountedSample := by
  refine ⟨?_, by decide +kernel, by decide +kernel⟩
  have hx : (runCalls (World.ofImage (mkfs fun _ _ => 0)) (quietly fullRootCalls)).map
      (fun x => decide ((Call.create [] [122] 0o100644).Allowed x.2 ∧
        ¬ (Call.create [] [122] 0o100644).StaysInRange 0 .quiet x.2)) = some true := by
    decide +kernel
  obtain ⟨⟨es, w⟩, hcalls, hout⟩ := Option.map_eq_some_iff.mp hx
  obtain ⟨hallowed, hrange⟩ := of_decide_eq_true hout
  exact ⟨es, w, run_of_runCalls hcalls,
    env_of_runCalls hcalls (env_quietly Env.calm_quiet _), hallowed, hrange⟩

end LinuxDevelopment.Simplefs
