import LinuxDevelopment.Simplefs.Format

/-!
# simplefs: what holds in every run

Interrupted locks leave entries out of the store, records uncounted and one
mutex locked, so that little of the consistency of a calm run is left.
`World.Sane` is what no choice of interruptions and failures can break: data
blocks are never the two metadata blocks, the store has at most 64 entries, and
two of the three mutexes are free between the calls.
-/

namespace LinuxDevelopment.Simplefs

open Volume

/-- What holds between two calls of every run. -/
structure World.Sane (w : World) : Prop where
  count_le : (inodesCount w.cache).toNat ≤ 64
  store : ∀ i < (inodesCount w.cache).toNat, 2 ≤ (entryAt w.cache i).dataBlockNumber.toNat
  root : ∃ i < (inodesCount w.cache).toNat, (entryAt w.cache i).inodeNo = 1
  memory : ∀ p x, w.dcache p = some x → ∃ q, x.iPrivate = some q ∧ 2 ≤ q.dataBlockNumber.toNat
  sbLock : w.owner .sbLock = none
  childrenLock : w.owner .directoryChildrenUpdateLock = none
  /-- the metadata blocks are on the device, or will be -/
  current : ∀ b < 2, w.dirty b = true ∨ w.media b = w.cache b

section Lookup

variable {tid : Nat} {env : Env} {w w' : World} {dir : Path} {name : Name} {r : Int}

/-- What a finished lookup has done: nothing, or an entry of the store is in memory. -/
theorem lookup_cases (hc : (inodesCount w.cache).toNat ≤ 64)
    (hrun : (simplefsLookup dir name).run (exec tid env) w = .done () w') :
    w' = w ∨ ∃ ino j, findEntry w.cache ino = some j ∧
      w' = w.dAdd (name :: dir) ⟨ino, fopOf (entryAt w.cache j).mode, some (entryAt w.cache j)⟩ := by
  have hrun' := (bugsOnNull_simplefsLookup dir name).run_readable hrun
  unfold simplefsLookup at hrun'
  simp only [Prog.run_bind, run_sbBreadBugOn (env.breadOk_readable _), Outcome.bind_done] at hrun'
  obtain ⟨q, u, hq, hrest⟩ := Outcome.bind_eq_done.mp hrun'
  obtain rfl := (reads_simplefsInode dir).run_eq hq
  obtain ⟨found, x, hloop, hend⟩ := Outcome.bind_eq_done.mp hrest
  obtain rfl := (loads_lookupLoop _ _ _ _).reads.run_eq hloop
  cases found with
  | none =>
      cases hend
      exact .inl rfl
  | some ino =>
      rw [Prog.run_bind, run_simplefsGetInode (env.breadOk_readable _) (by omega),
        Outcome.bind_done] at hend
      obtain ⟨_, y, hnew, hend⟩ := (Prog.run_bind_eq_done _).mp hend
      obtain rfl := loads_newInodeUnchecked.reads.run_eq hnew
      cases hf : findEntry y.cache ino with
      | none =>
          rw [hf] at hend
          cases hend
      | some j =>
          rw [hf] at hend
          cases hend
          exact .inr ⟨ino, j, hf, rfl⟩

theorem mount_cases (hc : (inodesCount w.cache).toNat ≤ 64)
    (hrun : simplefsFillSuper.run (exec tid env) w = .done r w') :
    w' = w ∨ w' = w.dAdd [] ⟨1, some .dir, (findEntry w.cache 1).map (entryAt w.cache)⟩ := by
  have hrun' := bugsOnNull_simplefsFillSuper.run_readable hrun
  have hget : (simplefsGetInode 1).run (exec tid env.readable) w =
      .done ((findEntry w.cache 1).map (entryAt w.cache)) w :=
    run_simplefsGetInode (env.breadOk_readable _) (by omega)
  simp only [simplefsFillSuper, Prog.run_bind, run_sbBreadBugOn (env.breadOk_readable _),
    Outcome.bind_done, simplefsSuperblockBlockNumber, simplefsRootdirInodeNumber] at hrun'
  rw [run_load64 (by omega), Outcome.bind_done] at hrun'
  split_ifs at hrun' with hmagic
  · cases hrun'
    exact .inl rfl
  · rw [Prog.run_bind, run_load64 (by omega), Outcome.bind_done] at hrun'
    split_ifs at hrun' with hsize
    · cases hrun'
      exact .inl rfl
    · obtain ⟨_, x, hnew, hend⟩ := (Prog.run_bind_eq_done _).mp hrun'
      obtain rfl := loads_newInodeUnchecked.reads.run_eq hnew
      rw [Prog.run_bind, hget] at hend
      cases hend
      exact .inr rfl

theorem findEntry_isSome {img : Image} {ino : UInt64} {i : Nat} (hi : i < (inodesCount img).toNat)
    (hno : (entryAt img i).inodeNo = ino) : ∃ j, findEntry img ino = some j := by
  apply Option.isSome_iff_exists.mp
  unfold findEntry
  rw [List.find?_isSome]
  exact ⟨i, by simpa using hi, by simpa using hno⟩

end Lookup

namespace World.Sane

variable {w w' : World} {q e : SimplefsInode} {p : Path}

theorem setOwner (h : w.Sane) {m : Mutex} {t : Option Nat} (hm : m = .inodesMgmtLock ∨ t = none) :
    (w.setOwner m t).Sane := by
  have hfree : ∀ n, n ≠ .inodesMgmtLock → w.owner n = none → (w.setOwner m t).owner n = none := by
    intro n hn ho
    change Function.update w.owner m t n = none
    by_cases hnm : n = m
    · subst hnm
      rw [Function.update_self]
      exact hm.resolve_left hn
    · rw [Function.update_of_ne hnm]
      exact ho
  exact ⟨h.count_le, h.store, h.root, h.memory, hfree _ (by decide) h.sbLock,
    hfree _ (by decide) h.childrenLock, h.current⟩

theorem allocBlock (h : w.Sane) : w.allocBlock.Sane where
  count_le := by
    rw [World.allocBlock_cache, inodesCount_setFree]
    exact h.count_le
  store := by
    intro i hi
    rw [World.allocBlock_cache, inodesCount_setFree] at hi
    rw [World.allocBlock_cache, entryAt_setFree]
    exact h.store i hi
  root := by
    simp only [World.allocBlock_cache, inodesCount_setFree, entryAt_setFree]
    exact h.root
  memory := h.memory
  sbLock := h.sbLock
  childrenLock := h.childrenLock
  current := by
    intro b hb
    obtain rfl | rfl : b = 0 ∨ b = 1 := by omega
    · right
      simp [World.allocBlock]
    · simpa [World.allocBlock] using h.current 1 hb

theorem addInode (h : w.Sane) (hc : (inodesCount w.cache).toNat < 64)
    (he : 2 ≤ e.dataBlockNumber.toNat) : (w.addInode e).Sane where
  count_le := by
    rw [World.addInode_cache, inodesCount_setCount, toNat_succ rfl (by omega)]
    exact hc
  store := by
    intro i hi
    rw [World.addInode_cache, inodesCount_setCount, toNat_succ rfl (by omega)] at hi
    rw [World.addInode_cache, entryAt_setCount]
    rcases Nat.lt_succ_iff_lt_or_eq.mp hi with hlt | hlast
    · rw [entryAt_setEntry_of_ne (Nat.ne_of_lt hlt)]
      exact h.store i hlt
    · rw [hlast, entryAt_setEntry_self]
      exact he
  root := by
    obtain ⟨i, hi, hno⟩ := h.root
    refine ⟨i, ?_, ?_⟩
    · rw [World.addInode_cache, inodesCount_setCount, toNat_succ rfl (by omega)]
      exact Nat.lt_succ_of_lt hi
    · rw [World.addInode_cache, entryAt_setCount, entryAt_setEntry_of_ne (Nat.ne_of_lt hi)]
      exact hno
  memory := h.memory
  sbLock := h.sbLock
  childrenLock := h.childrenLock
  current := by
    intro b hb
    obtain rfl | rfl : b = 0 ∨ b = 1 := by omega
    · right
      simp [World.addInode]
    · left
      simp [World.addInode]

/-- Data blocks are not part of this. -/
theorem data (h : w.Sane) {b : Nat} {x : Buffer} (hb : 2 ≤ b)
    (hcache : w'.cache = Function.update w.cache b x) (hdcache : w'.dcache = w.dcache)
    (howner : w'.owner = w.owner)
    (hdev : ∀ c, c ≠ b → w'.dirty c = w.dirty c ∧ w'.media c = w.media c) : w'.Sane where
  count_le := by
    rw [hcache, inodesCount_update hb]
    exact h.count_le
  store := by
    intro i hi
    rw [hcache, inodesCount_update hb] at hi
    rw [hcache, entryAt_update hb]
    exact h.store i hi
  root := by
    simp only [hcache, inodesCount_update hb, entryAt_update hb]
    exact h.root
  memory := by
    rw [hdcache]
    exact h.memory
  sbLock := by
    rw [howner]
    exact h.sbLock
  childrenLock := by
    rw [howner]
    exact h.childrenLock
  current := by
    intro c hc
    have hcb : c ≠ b := by omega
    rw [(hdev c hcb).1, (hdev c hcb).2, hcache, Function.update_of_ne hcb]
    exact h.current c hc

theorem addRecord (h : w.Sane) {b k : Nat} {ino : UInt64} {name : Name} (hb : 2 ≤ b) :
    (w.addRecord b k ino name).Sane := by
  refine h.data hb (World.addRecord_cache b k ino) rfl rfl ?_
  intro c hc
  simp [World.addRecord, hc]

theorem storeData (h : w.Sane) {b pos : Nat} {bytes : List UInt8} (hb : 2 ≤ b) :
    (w.store b pos bytes).Sane :=
  h.data hb rfl rfl rfl fun _ _ => ⟨rfl, rfl⟩

theorem writeData (h : w.Sane) {b pos : Nat} {bytes : List UInt8} (hb : 2 ≤ b) :
    (w.writeData b pos bytes).Sane := by
  refine h.data hb (World.writeData_cache b pos bytes) rfl rfl ?_
  intro c hc
  simp [World.writeData, hc]

theorem setFileSize (h : w.Sane) (s : UInt64) : (w.setFileSize p s).Sane := by
  refine ⟨h.count_le, h.store, h.root, ?_, h.sbLock, h.childrenLock, h.current⟩
  intro a x hx
  by_cases hap : a = p
  · subst hap
    rw [World.setFileSize_dcache, Function.update_self] at hx
    obtain ⟨y, hy, rfl⟩ := Option.map_eq_some_iff.mp hx
    obtain ⟨q, hq, hb⟩ := h.memory a y hy
    refine ⟨{ q with fileSize := s }, ?_, hb⟩
    rw [hq]
    rfl
  · rw [World.setFileSize_dcache, Function.update_of_ne hap] at hx
    exact h.memory a x hx

theorem saveInode (h : w.Sane) {i : Nat} (hno : (entryAt w.cache i).inodeNo = q.inodeNo)
    (hq : 2 ≤ q.dataBlockNumber.toNat) : (w.saveInode i q).Sane where
  count_le := by
    rw [World.saveInode_cache, inodesCount_setEntry]
    exact h.count_le
  store := by
    intro j hj
    rw [World.saveInode_cache, inodesCount_setEntry] at hj
    rw [World.saveInode_cache]
    by_cases hji : j = i
    · subst hji
      rw [entryAt_setEntry_self]
      exact hq
    · rw [entryAt_setEntry_of_ne hji]
      exact h.store j hj
  root := by
    obtain ⟨j, hj, hroot⟩ := h.root
    refine ⟨j, ?_, ?_⟩
    · rw [World.saveInode_cache, inodesCount_setEntry]
      exact hj
    · rw [World.saveInode_cache]
      by_cases hji : j = i
      · subst hji
        rw [entryAt_setEntry_self, ← hno]
        exact hroot
      · rw [entryAt_setEntry_of_ne hji]
        exact hroot
  memory := h.memory
  sbLock := h.sbLock
  childrenLock := h.childrenLock
  current := by
    intro b hb
    obtain rfl | rfl : b = 0 ∨ b = 1 := by omega
    · simpa [World.saveInode] using h.current 0 hb
    · right
      simp [World.saveInode]

theorem dAdd (h : w.Sane) {x : VfsInode} (hx : x.iPrivate = some q)
    (hq : 2 ≤ q.dataBlockNumber.toNat) : (w.dAdd p x).Sane := by
  refine ⟨h.count_le, h.store, h.root, ?_, h.sbLock, h.childrenLock, h.current⟩
  intro a y hy
  by_cases hap : a = p
  · subst hap
    rw [World.dAdd_dcache, Function.update_self] at hy
    cases hy
    exact ⟨q, hx, hq⟩
  · rw [World.dAdd_dcache, Function.update_of_ne hap] at hy
    exact h.memory a y hy

/-- The metadata survives an unmount. -/
theorem unmount_eq (h : w.Sane) {b : Nat} (hb : b < 2) : w.unmount.cache b = w.cache b := by
  change (if w.dirty b then w.cache b else w.media b) = w.cache b
  rcases h.current b hb with hd | hm
  · rw [if_pos hd]
  · rw [hm, ite_self]

theorem unmount (h : w.Sane) : w.unmount.Sane := by
  have hcount : inodesCount w.unmount.cache = inodesCount w.cache := by
    unfold inodesCount
    rw [h.unmount_eq (by decide)]
  have hentry : ∀ i, entryAt w.unmount.cache i = entryAt w.cache i := by
    intro i
    unfold entryAt
    rw [h.unmount_eq (by decide)]
  refine ⟨?_, ?_, ?_, ?_, h.sbLock, h.childrenLock, ?_⟩
  · rw [hcount]
    exact h.count_le
  · intro i hi
    rw [hcount] at hi
    rw [hentry]
    exact h.store i hi
  · simp only [hcount, hentry]
    exact h.root
  · intro p x hx
    cases hx
  · exact fun b _ => .inr rfl

theorem simplefsInode (h : w.Sane) {fop : FileOps} (hp : w.Has p fop) :
    ∃ q, w.simplefsInode p = some q ∧ 2 ≤ q.dataBlockNumber.toNat := by
  obtain ⟨x, hx, -⟩ := hp
  obtain ⟨q, hq, hb⟩ := h.memory p x hx
  refine ⟨q, ?_, hb⟩
  unfold World.simplefsInode
  rw [hx]
  exact hq

variable {tid : Nat} {env : Env} {dir : Path} {name : Name} {mode : UInt16} {r : Int}
  {buf : List UInt8} {pos pos' : Nat}

theorem two_le_newEntry (img : Image) (mode : UInt16) :
    2 ≤ (newEntry img mode).dataBlockNumber.toNat := by
  rw [toNat_newEntry_block]
  exact Nat.le_of_succ_le (freeblockScan_ge _)

theorem recorded (h : w.Sane) (a : w.Allocates env mode) (hq : 2 ≤ q.dataBlockNumber.toNat) :
    (w.recorded tid env q mode name).Sane := by
  unfold World.recorded afterAdd
  apply addRecord _ hq
  split_ifs
  · exact h.allocBlock
  · exact h.allocBlock.setOwner (.inl rfl)
  · refine h.allocBlock.addInode ?_ (two_le_newEntry _ _)
    rw [World.allocBlock_cache, inodesCount_setFree]
    exact a.count

theorem create (h : w.Sane) (hd : w.Has dir .dir) (hn : ValidName name)
    (hrun : (simplefsCreateFsObject dir name mode).run (exec tid env) w = .done r w') :
    w'.Sane := by
  obtain ⟨q, hq, hq2⟩ := h.simplefsInode hd
  cases create_cases hn hq hq2 hrun with
  | refused => exact h
  | released => exact h.setOwner (.inr rfl)
  | uncounted alloc => exact h.recorded alloc hq2
  | unsaved _ alloc => exact (h.recorded alloc hq2).setFileSize _
  | created alloc _ _ _ _ found =>
      have hs : ((w.recorded tid env q mode name).setFileSize dir (q.fileSize + 1)).Sane :=
        (h.recorded alloc hq2).setFileSize _
      refine World.Sane.dAdd ?_ rfl (two_le_newEntry w.cache mode)
      exact hs.saveInode (searchEntry_inodeNo found) hq2

theorem write (h : w.Sane) (hf : w.Has p .file)
    (hrun : (simplefsWrite p buf pos).run (exec tid env) w = .done (r, pos') w') : w'.Sane := by
  obtain ⟨q, hq, hq2⟩ := h.simplefsInode hf
  have hc := h.count_le
  cases write_cases hq hq2 (by omega) hrun with
  | tooBig => exact h
  | unread => exact h
  | fault => exact h.storeData hq2
  | unsized => exact h.writeData hq2
  | unsaved => exact (h.writeData hq2).setFileSize _
  | written _ _ _ found =>
      exact ((h.writeData hq2).setFileSize _).saveInode (searchEntry_inodeNo found) hq2

theorem lookup (h : w.Sane)
    (hrun : (simplefsLookup dir name).run (exec tid env) w = .done () w') : w'.Sane := by
  rcases lookup_cases h.count_le hrun with rfl | ⟨ino, j, hf, rfl⟩
  · exact h
  · exact h.dAdd rfl (h.store j (findEntry_lt hf))

theorem mount (h : w.Sane) (hrun : simplefsFillSuper.run (exec tid env) w = .done r w') :
    w'.Sane := by
  rcases mount_cases h.count_le hrun with rfl | rfl
  · exact h
  · obtain ⟨i, hi, hno⟩ := h.root
    obtain ⟨j, hf⟩ := findEntry_isSome hi hno
    rw [hf]
    exact h.dAdd rfl (h.store j (findEntry_lt hf))

/-- Every call that ends keeps this, whatever the kernel answered. -/
theorem step (h : w.Sane) {c : Call} {reply : Reply} (ha : c.Allowed w)
    (hrun : c.run tid env w = .done reply w') : w'.Sane := by
  cases Call.ran_of_run hrun with
  | mount run => exact h.mount run
  | unmount => exact h.unmount
  | lookup run => exact h.lookup run
  | create run => exact h.create ha.1 ha.2.1 run
  | mkdir run => exact h.create ha.1 ha.2.1 run
  | iterate => exact h
  | read => exact h
  | write run => exact h.write ha run

end World.Sane

theorem mkfs_sane (dev : Image) : (World.ofImage (mkfs dev)).Sane := by
  have hs := mkfs_settled dev
  have hcount := hs.shows.count
  refine ⟨?_, ?_, ?_, ?_, rfl, rfl, fun _ _ => .inr rfl⟩
  · rw [← hcount]
    exact hs.wf.count_le
  · intro i hi
    rw [← hcount] at hi
    rw [hs.saved i hi]
    exact hs.wf.block_ge i hi
  · obtain ⟨i, hi, hno, -⟩ := hs.wf.root
    refine ⟨i, by rwa [← hcount], ?_⟩
    rw [hs.saved i hi]
    exact hno
  · intro p x hx
    cases hx

/-- The states of every run of a fresh device are sane. -/
theorem Run.sane {dev : Image} {es : List Event} {w : World}
    (h : Run (World.ofImage (mkfs dev)) es w) : w.Sane := by
  generalize hw : World.ofImage (mkfs dev) = w₀ at h
  induction h with
  | nil =>
      rw [← hw]
      exact mkfs_sane dev
  | snoc _ allowed step ih => exact ih.step allowed step

/-- A mounted fresh file system. -/
def mountedSample : World := (Call.mount.run 0 .quiet (World.ofImage (mkfs fun _ _ => 0))).state

theorem run_mountedSample :
    Run (World.ofImage (mkfs fun _ _ => 0)) [⟨0, .mount, .quiet, .ret 0⟩] mountedSample :=
  .snoc (.nil _) rfl rfl

end LinuxDevelopment.Simplefs
