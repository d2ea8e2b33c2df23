import LinuxDevelopment.Base.TwoRuns
import LinuxDevelopment.Simplefs.Atomicity

/-!
# simplefs: the blocks of files and of directories

Whatever is interrupted or fails, the map hands out no block twice, so that each
data block belongs to files or to directories for ever. Lookups read the store and
the blocks of directories. What they find after a remount does therefore not
depend on the block of a file.
-/

namespace LinuxDevelopment.Simplefs

open Volume

/-- The inode is of the kind of its block, which is not handed out again, and the
number of the root belongs to a directory. -/
structure SimplefsInode.Placed (q : SimplefsInode) (kind : Nat → FileOps) (free : UInt64) :
    Prop where
  fop : fopOf q.mode = some (kind q.dataBlockNumber.toNat)
  taken : Taken free q.dataBlockNumber.toNat
  root : q.inodeNo = 1 → fopOf q.mode = some .dir

section Alloc

variable {q : SimplefsInode} {kind : Nat → FileOps} {free : UInt64} {f : FileOps} {img : Image}
  {mode : UInt16}

/-- The kinds once the next free block has been given to an object with the operations `f`. -/
def withNext (kind : Nat → FileOps) (free : UInt64) (f : FileOps) : Nat → FileOps :=
  Function.update kind (freeblockScan free) f

theorem SimplefsInode.Placed.alloc (h : q.Placed kind free) (hs : freeblockScan free ≠ 64) :
    q.Placed (withNext kind free f) (freeAfter free) := by
  refine ⟨?_, h.taken.and _, h.root⟩
  rw [withNext, Function.update_of_ne (scan_ne_of_taken h.taken hs).symm]
  exact h.fop

/-- The new object has the block that was handed out. -/
theorem placed_newEntry (hc : (inodesCount img).toNat < 64)
    (hf : fopOf mode.toUInt32 = some f) :
    (newEntry img mode).Placed (withNext kind (freeBlocks img) f) (freeAfter (freeBlocks img)) := by
  constructor
  case fop =>
    rw [toNat_newEntry_block, withNext, Function.update_self]
    exact hf
  case taken =>
    rw [toNat_newEntry_block]
    exact taken_scan
  case root =>
    intro hone
    have hno := congrArg UInt64.toNat hone
    simp only [newEntry, simplefsStartIno, simplefsReservedInodes] at hno
    rw [UInt64.toNat_add, UInt64.toNat_sub, UInt64.toNat_add] at hno
    change ((18446744073709551616 - 3 + ((inodesCount img).toNat + 10) % 18446744073709551616) %
      18446744073709551616 + 1) % 18446744073709551616 = 1 at hno
    omega

theorem fopOf_of_kind (h : sIsdir mode.toUInt32 = true ∨ sIsreg mode.toUInt32 = true) :
    ∃ f, fopOf mode.toUInt32 = some f := by
  unfold fopOf
  rcases h with h | h
  · exact ⟨_, if_pos h⟩
  · split_ifs
    · exact ⟨_, rfl⟩
    · exact ⟨_, rfl⟩

end Alloc

/-- Each inode of the store and each inode in memory is of the kind of its block. -/
structure World.Kinded (w : World) (kind : Nat → FileOps) : Prop where
  store : ∀ i < (inodesCount w.cache).toNat,
    (entryAt w.cache i).Placed kind (freeBlocks w.cache)
  memory : ∀ p x, w.dcache p = some x → ∃ q, x.iPrivate = some q ∧
    q.Placed kind (freeBlocks w.cache) ∧ x.iFop = some (kind q.dataBlockNumber.toNat)

namespace World.Kinded

variable {w w' : World} {kind : Nat → FileOps} {q e : SimplefsInode} {p : Path}

theorem placed (h : w.Kinded kind) (hq : w.simplefsInode p = some q) :
    q.Placed kind (freeBlocks w.cache) := by
  obtain ⟨x, hx, hxq⟩ := Option.bind_eq_some_iff.mp hq
  obtain ⟨q', hq', hplaced, -⟩ := h.memory p x hx
  cases hxq.symm.trans hq'
  exact hplaced

/-- A state with the same metadata and the same inodes in memory. -/
theorem congr (h : w.Kinded kind) (hcount : inodesCount w'.cache = inodesCount w.cache)
    (hfree : freeBlocks w'.cache = freeBlocks w.cache)
    (hentry : ∀ i, entryAt w'.cache i = entryAt w.cache i) (hdcache : w'.dcache = w.dcache) :
    w'.Kinded kind where
  store := by
    intro i hi
    rw [hcount] at hi
    rw [hentry, hfree]
    exact h.store i hi
  memory := by
    rw [hdcache, hfree]
    exact h.memory

/-- Data blocks are not part of this. -/
theorem data (h : w.Kinded kind) {b : Nat} {x : Buffer} (hb : 2 ≤ b)
    (hcache : w'.cache = Function.update w.cache b x) (hdcache : w'.dcache = w.dcache) :
    w'.Kinded kind := by
  refine h.congr ?_ ?_ (fun i => ?_) hdcache
  · rw [hcache, inodesCount_update hb]
  · rw [hcache, freeBlocks_update hb]
  · rw [hcache, entryAt_update hb]

theorem setFileSize (h : w.Kinded kind) (s : UInt64) : (w.setFileSize p s).Kinded kind := by
  refine ⟨h.store, ?_⟩
  intro a x hx
  by_cases hap : a = p
  · subst hap
    rw [World.setFileSize_dcache, Function.update_self] at hx
    obtain ⟨y, hy, rfl⟩ := Option.map_eq_some_iff.mp hx
    obtain ⟨q, hq, hplaced, hfop⟩ := h.memory a y hy
    refine ⟨{ q with fileSize := s }, ?_, ⟨hplaced.fop, hplaced.taken, hplaced.root⟩, hfop⟩
    rw [hq]
    rfl
  · rw [World.setFileSize_dcache, Function.update_of_ne hap] at hx
    exact h.memory a x hx

theorem saveInode (h : w.Kinded kind) (hq : q.Placed kind (freeBlocks w.cache)) (i : Nat) :
    (w.saveInode i q).Kinded kind where
  store := by
    intro j hj
    rw [World.saveInode_cache, inodesCount_setEntry] at hj
    rw [World.saveInode_cache, freeBlocks_setEntry]
    by_cases hji : j = i
    · subst hji
      rw [entryAt_setEntry_self]
      exact hq
    · rw [entryAt_setEntry_of_ne hji]
      exact h.store j hj
  memory := by
    rw [World.saveInode_cache, freeBlocks_setEntry]
    exact h.memory

theorem addInode (h : w.Kinded kind) (hc : (inodesCount w.cache).toNat < 64)
    (he : e.Placed kind (freeBlocks w.cache)) : (w.addInode e).Kinded kind where
  store := by
    intro i hi
    rw [World.addInode_cache, inodesCount_setCount, toNat_succ rfl (by omega)] at hi
    rw [World.addInode_cache, entryAt_setCount, freeBlocks_setCount, freeBlocks_setEntry]
    rcases Nat.lt_succ_iff_lt_or_eq.mp hi with hlt | hlast
    · rw [entryAt_setEntry_of_ne (Nat.ne_of_lt hlt)]
      exact h.store i hlt
    · rw [hlast, entryAt_setEntry_self]
      exact he
  memory := by
    rw [World.addInode_cache, freeBlocks_setCount, freeBlocks_setEntry]
    exact h.memory

theorem dAdd {x : VfsInode} (h : w.Kinded kind) (hx : x.iPrivate = some q)
    (hq : q.Placed kind (freeBlocks w.cache))
    (hfop : x.iFop = some (kind q.dataBlockNumber.toNat)) : (w.dAdd p x).Kinded kind := by
  refine ⟨h.store, ?_⟩
  intro a y hy
  by_cases hap : a = p
  · subst hap
    rw [World.dAdd_dcache, Function.update_self] at hy
    cases hy
    exact ⟨q, hx, hq, hfop⟩
  · rw [World.dAdd_dcache, Function.update_of_ne hap] at hy
    exact h.memory a y hy

theorem unmount (h : w.Kinded kind) (hs : w.Sane) : w.unmount.Kinded kind where
  store := by
    intro i hi
    have hcount : inodesCount w.unmount.cache = inodesCount w.cache := by
      unfold inodesCount
      rw [hs.unmount_eq (by decide)]
    have hfree : freeBlocks w.unmount.cache = freeBlocks w.cache := by
      unfold freeBlocks
      rw [hs.unmount_eq (by decide)]
    have hentry : entryAt w.unmount.cache i = entryAt w.cache i := by
      unfold entryAt
      rw [hs.unmount_eq (by decide)]
    rw [hcount] at hi
    rw [hfree, hentry]
    exact h.store i hi
  memory := by
    intro p x hx
    cases hx

variable {tid : Nat} {env : Env} {dir : Path} {name : Name} {mode : UInt16} {r : Int}
  {f : FileOps} {buf : List UInt8} {pos pos' : Nat}

theorem allocBlock (h : w.Kinded kind) (hs : freeblockScan (freeBlocks w.cache) ≠ 64) :
    w.allocBlock.Kinded (withNext kind (freeBlocks w.cache) f) where
  store := by
    intro i hi
    rw [World.allocBlock_cache, inodesCount_setFree] at hi
    rw [World.allocBlock_cache, freeBlocks_setFree, entryAt_setFree]
    exact (h.store i hi).alloc hs
  memory := by
    intro p x hx
    obtain ⟨q, hq, hplaced, hfop⟩ := h.memory p x hx
    rw [World.allocBlock_cache, freeBlocks_setFree]
    refine ⟨q, hq, hplaced.alloc hs, ?_⟩
    rw [hfop, ← hplaced.fop]
    exact (hplaced.alloc hs).fop

theorem recorded (h : w.Kinded kind) (a : w.Allocates env mode)
    (hf : fopOf mode.toUInt32 = some f) (hq : 2 ≤ q.dataBlockNumber.toNat) :
    (w.recorded tid env q mode name).Kinded (withNext kind (freeBlocks w.cache) f) := by
  have halloc : w.allocBlock.Kinded (withNext kind (freeBlocks w.cache) f) :=
    h.allocBlock a.freeblock
  have hadd : (afterAdd tid env w.allocBlock (newEntry w.cache mode)).Kinded
      (withNext kind (freeBlocks w.cache) f) := by
    unfold afterAdd
    split_ifs
    · exact halloc
    · exact halloc.congr rfl rfl (fun _ => rfl) rfl
    · refine halloc.addInode ?_ ?_
      · rw [World.allocBlock_cache, inodesCount_setFree]
        exact a.count
      · rw [World.allocBlock_cache, freeBlocks_setFree]
        exact placed_newEntry a.count hf
  exact hadd.data hq (World.addRecord_cache _ _ _) rfl

theorem create (h : w.Kinded kind) (hs : w.Sane) (hd : w.Has dir .dir) (hn : ValidName name)
    (hrun : (simplefsCreateFsObject dir name mode).run (exec tid env) w = .done r w') :
    ∃ kind', w'.Kinded kind' := by
  obtain ⟨q, hq, hq2⟩ := hs.simplefsInode hd
  cases create_cases hn hq hq2 hrun with
  | refused => exact ⟨kind, h⟩
  | released => exact ⟨kind, h.congr rfl rfl (fun _ => rfl) rfl⟩
  | uncounted alloc =>
      obtain ⟨f, hf⟩ := fopOf_of_kind alloc.kind
      exact ⟨_, h.recorded alloc hf hq2⟩
  | unsaved _ alloc =>
      obtain ⟨f, hf⟩ := fopOf_of_kind alloc.kind
      exact ⟨_, (h.recorded alloc hf hq2).setFileSize _⟩
  | created alloc =>
      obtain ⟨f, hf⟩ := fopOf_of_kind alloc.kind
      have hsized : ((w.recorded tid env q mode name).setFileSize dir (q.fileSize + 1)).Kinded
          (withNext kind (freeBlocks w.cache) f) := (h.recorded alloc hf hq2).setFileSize _
      have hparent := hsized.placed (simplefsInode_setFileSize (recorded_simplefsInode hq))
      have hfree : freeBlocks (w.recorded tid env q mode name).cache =
          freeAfter (freeBlocks w.cache) := freeBlocks_recorded hq2
      have hnew : (newEntry w.cache mode).Placed (withNext kind (freeBlocks w.cache) f)
          (freeAfter (freeBlocks w.cache)) := placed_newEntry alloc.count hf
      refine ⟨_, (hsized.saveInode hparent _).dAdd rfl ?_ hnew.fop⟩
      rw [World.saveInode_cache, freeBlocks_setEntry, World.setFileSize_cache, hfree]
      exact hnew

theorem write (h : w.Kinded kind) (hs : w.Sane) (hf : w.Has p .file)
    (hrun : (simplefsWrite p buf pos).run (exec tid env) w = .done (r, pos') w') :
    w'.Kinded kind := by
  obtain ⟨q, hq, hq2⟩ := hs.simplefsInode hf
  have hc := hs.count_le
  have hcopied : (w.copiedIn q buf pos).Kinded kind :=
    h.data hq2 (World.writeData_cache _ _ _) rfl
  cases write_cases hq hq2 (by omega) hrun with
  | tooBig => exact h
  | unread => exact h
  | fault => exact h.data hq2 rfl rfl
  | unsized => exact hcopied
  | unsaved => exact hcopied.setFileSize _
  | written =>
      have hsized := hcopied.setFileSize (p := p) (UInt64.ofNat (pos + writeLength buf pos))
      have hself : (w.copiedIn q buf pos).simplefsInode p = some q := hq
      exact hsized.saveInode (hsized.placed (simplefsInode_setFileSize hself)) _

theorem lookup (h : w.Kinded kind) (hs : w.Sane)
    (hrun : (simplefsLookup dir name).run (exec tid env) w = .done () w') : w'.Kinded kind := by
  rcases lookup_cases hs.count_le hrun with rfl | ⟨ino, j, hf, rfl⟩
  · exact h
  · have hplaced := h.store j (findEntry_lt hf)
    exact h.dAdd rfl hplaced hplaced.fop

theorem mount (h : w.Kinded kind) (hs : w.Sane)
    (hrun : simplefsFillSuper.run (exec tid env) w = .done r w') : w'.Kinded kind := by
  rcases mount_cases hs.count_le hrun with rfl | rfl
  · exact h
  · obtain ⟨i, hi, hno⟩ := hs.root
    obtain ⟨j, hf⟩ := findEntry_isSome hi hno
    have hplaced := h.store j (findEntry_lt hf)
    have hdir := hplaced.root (findEntry_inodeNo hf)
    rw [hf]
    exact h.dAdd rfl hplaced (hdir.symm.trans hplaced.fop)

/-- Every call that ends keeps this, with one more block in use at most. -/
theorem step (h : w.Kinded kind) (hs : w.Sane) {c : Call} {reply : Reply} (ha : c.Allowed w)
    (hrun : c.run tid env w = .done reply w') : ∃ kind', w'.Kinded kind' := by
  cases Call.ran_of_run hrun with
  | mount run => exact ⟨kind, h.mount hs run⟩
  | unmount => exact ⟨kind, h.unmount hs⟩
  | lookup run => exact ⟨kind, h.lookup hs run⟩
  | create run => exact h.create hs ha.1 ha.2.1 run
  | mkdir run => exact h.create hs ha.1 ha.2.1 run
  | iterate => exact ⟨kind, h⟩
  | read => exact ⟨kind, h⟩
  | write run => exact ⟨kind, h.write hs ha run⟩

end World.Kinded

/-- Two states over two images with the same inodes in memory. -/
structure Alike (c₁ c₂ : Image) (w₁ w₂ : World) : Prop where
  left : w₁.cache = c₁
  right : w₂.cache = c₂
  dcache : w₂.dcache = w₁.dcache

theorem Alike.simplefsInode {c₁ c₂ : Image} {w₁ w₂ : World} (h : Alike c₁ c₂ w₁ w₂) (p : Path) :
    w₂.simplefsInode p = w₁.simplefsInode p := by
  rw [World.simplefsInode, h.dcache]
  rfl

section Avoids

variable {b block off : Nat}

end Avoids

section Remount

variable {b tid : Nat} {env : Env} {c₁ c₂ : Image} {w w' w₁ w₂ : World} {kind : Nat → FileOps}
  {dir p : Path} {name : Name}

/-- Unmount, mount and look the path up. -/
def World.reopened (w : World) (tid : Nat) (env : Env) (p : Path) :
    Outcome World Trap (Option VfsInode) :=
  (Call.mount.run tid env w.unmount).bind fun _ v => v.pathLookup tid env p

end Remount

end LinuxDevelopment.Simplefs
