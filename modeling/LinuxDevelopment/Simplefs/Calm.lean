import LinuxDevelopment.Simplefs.Calls

/-!
# simplefs: runs without interruptions

Between two calls of a run in which no lock is interrupted and every block can
be read, the store in the cache is up to date, all mutexes are free, nothing is
dirty, and the device holds the metadata of the cache. `World.Settled` states
this, and every call leaves a settled state behind.
-/

namespace LinuxDevelopment.Simplefs

open Volume

/-- Between two calls of a calm run. -/
structure World.Settled (w : World) (v : Volume) : Prop extends w.Models v where
  saved : v.Exact w.cache
  magic : (w.cache 0).get64 8 = simplefsMagic
  blockSize : (w.cache 0).get64 16 = 4096
  unowned : ∀ m, w.owner m = none
  clean : ∀ b, w.dirty b = false
  /-- only the data of regular files may differ, after a faulting copy -/
  stored : ∀ b, w.media b = w.cache b ∨
    ∃ i < v.count, sIsreg (v.entry i).mode = true ∧ (v.entry i).dataBlockNumber.toNat = b

/-- The state when the object `e` has been created in the directory `dir`, which
is `q` in memory and the store entry `i`. -/
def World.created (w : World) (dir : Path) (i : Nat) (q e : SimplefsInode) (name : Name) : World :=
  (((((w.allocBlock.addInode e).addRecord q.dataBlockNumber.toNat q.dirChildrenCount e.inodeNo
    name).setFileSize dir (q.fileSize + 1)).saveInode i { q with fileSize := q.fileSize + 1 }).dAdd
      (name :: dir) ⟨e.inodeNo, fopOf e.mode, some e⟩)

section Create

variable {w w' : World} {v : Volume} {env : Env} {dir : Path} {i j : Nat} {q e : SimplefsInode}
  {name : Name} {mode : UInt16} {tid : Nat} {r : Int}

theorem toNat_newIno {c : UInt64} (hc : c.toNat < 64) : (c + 10 - 3 + 1).toNat = c.toNat + 8 := by
  have h₁ : (c + 10).toNat = c.toNat + 10 := by
    rw [UInt64.toNat_add]
    change (c.toNat + 10) % 2 ^ 64 = _
    omega
  have h₂ : (c + 10 - 3).toNat = c.toNat + 7 := by
    rw [UInt64.toNat_sub_of_le, h₁]
    · change c.toNat + 10 - 3 = _
      omega
    · rw [UInt64.le_iff_toNat_le, h₁]
      change 3 ≤ _
      omega
  rw [UInt64.toNat_add, h₂]
  change (c.toNat + 7 + 1) % 2 ^ 64 = _
  omega

/-- The inode a call fills in fits into the volume it took a block from. -/
theorem Volume.StoreWf.addable {img : Image} (h : v.StoreWf)
    (hcount : v.count = (inodesCount img).toNat) (hfree : v.free = freeBlocks img)
    (hroom : (inodesCount img).toNat < 64)
    (hkind : sIsdir mode.toUInt32 = true ∨ sIsreg mode.toUInt32 = true)
    (hscan : freeblockScan (freeBlocks img) ≠ 64) : v.alloc.Addable (newEntry img mode) := by
  have hge := freeblockScan_ge (freeBlocks img)
  have hle := freeblockScan_le (freeBlocks img)
  have hblock := toNat_newEntry_block img mode
  constructor
  case room =>
    change v.count < 64
    rw [hcount]
    exact hroom
  case ino =>
    change (inodesCount img + 10 - 3 + 1).toNat = v.count + 8
    rw [toNat_newIno hroom, hcount]
  case placed => omega
  case taken =>
    rw [hblock, alloc_free, hfree]
    exact taken_scan
  case unused =>
    intro j hj heq
    have ht := h.taken j hj
    have heq' : (v.entry j).dataBlockNumber = (newEntry img mode).dataBlockNumber := heq
    rw [heq', hblock, hfree] at ht
    exact scan_ne_of_taken ht hscan rfl
  case kind => exact hkind
  case empty => rfl

theorem World.Models.addable (h : w.Models v) (a : w.Allocates env mode) :
    v.alloc.Addable (newEntry w.cache mode) :=
  h.wf.toStoreWf.addable h.shows.count h.shows.free a.count a.kind a.freeblock

theorem World.Models.creatable (h : w.Models v) (a : w.Allocates env mode)
    (hn : ValidName name) (hi : i < v.count) (hd : sIsdir (v.entry i).mode = true)
    (room : (v.entry i).dirChildrenCount < 15)
    (hnew : ∀ k, v.Live i k → v.childName i k ≠ name) :
    v.alloc.Creatable i (newEntry w.cache mode) name :=
  ⟨h.addable a, hn, hi, hd, room, hnew⟩

/-- The entry is in the store and its record is written. -/
theorem World.Models.recorded (h : w.Models v) (c : v.Creatable i e name) :
    ((w.addInode e).addRecord (v.entry i).dataBlockNumber.toNat (v.entry i).dirChildrenCount
      e.inodeNo name).Models (v.recorded i e name) := by
  have hent : (v.add e).entry i = v.entry i := add_entry_of_lt c.lt
  have hrec : ((w.addInode e).addRecord ((v.add e).entry i).dataBlockNumber.toNat
      (v.entry i).dirChildrenCount e.inodeNo name).Models (v.recorded i e name) :=
    (h.addInode c.add).addRecord c.valid (Nat.lt_succ_of_lt c.lt)
      (Nat.le_of_eq (add_children_of_lt c.lt))
  rwa [hent] at hrec

theorem World.Models.linked (h : w.Models v) (c : v.Creatable i e name) (hl : v.Leads dir i)
    (hp : w.dcache dir = some (v.inode i)) :
    (((w.addInode e).addRecord (v.entry i).dataBlockNumber.toNat (v.entry i).dirChildrenCount
      e.inodeNo name).setFileSize dir ((v.entry i).fileSize + 1)).Models (v.created i e name) := by
  have hent : (v.recorded i e name).entry i = v.entry i := recorded_entry_of_lt c.lt
  have hlead : (v.recorded i e name).Leads dir i :=
    (hl.add c.add).setRecord (h.wf.add c.add) c.valid (Nat.lt_succ_of_lt c.lt)
      (Nat.le_of_eq (add_children_of_lt c.lt))
  have hin : w.dcache dir = some ((v.recorded i e name).inode i) := by
    unfold inode
    rw [hent]
    exact hp
  have hlink := (h.recorded c).link hlead hin (c.linkable h.wf)
  rwa [hent] at hlink

/-- The stages of a successful call, one after the other. -/
theorem World.Models.created (h : w.Models v) (c : v.alloc.Creatable i e name)
    (hl : v.Leads dir i) (hp : w.dcache dir = some (v.inode i)) :
    (w.created dir i (v.entry i) e name).Models (v.alloc.created i e name) := by
  have hsave := (h.allocBlock.linked c hl.alloc hp).saveInode (i := i)
  rw [created_entry_self c.lt] at hsave
  have hadd := hsave.dAdd (c.leads_new h.allocBlock.wf hl.alloc)
  unfold inode at hadd
  rw [created_entry_new c.lt] at hadd
  exact hadd

theorem World.addRecord_cache (b k : Nat) (ino : UInt64) :
    (w.addRecord b k ino name).cache =
      Function.update w.cache b (withRecord (w.cache b) k ino name) := by
  simp [World.addRecord, withRecord]

theorem World.created_cache :
    (w.created dir i q e name).cache = setEntry (Function.update (w.allocBlock.addInode e).cache
      q.dataBlockNumber.toNat (withRecord ((w.allocBlock.addInode e).cache q.dataBlockNumber.toNat)
        q.dirChildrenCount e.inodeNo name)) i { q with fileSize := q.fileSize + 1 } := by
  rw [← World.addRecord_cache]
  rfl

theorem World.created_cache_zero (hq : 2 ≤ q.dataBlockNumber.toNat) :
    (w.created dir i q e name).cache 0 = (w.allocBlock.addInode e).cache 0 := by
  rw [World.created_cache, setEntry_of_ne (by decide), Function.update_of_ne (by omega)]

/-- The fields in front of the counter are constants of the volume. -/
theorem World.get64_addInode_zero {off : Nat} (hoff : off + 8 ≤ 24) :
    ((w.allocBlock.addInode e).cache 0).get64 off = (w.cache 0).get64 off := by
  rw [World.addInode_cache, setCount, Function.update_self,
    Buffer.get64_splice_outside (by omega), setEntry_of_ne (by decide), World.allocBlock_cache,
    setFree, Function.update_self, Buffer.get64_splice_outside (by omega)]

/-- The blocks a successful call changes, and those it leaves alone. -/
theorem World.created_media (hq : 2 ≤ q.dataBlockNumber.toNat) (b : Nat) :
    (w.created dir i q e name).media b = (w.created dir i q e name).cache b ∨
      (w.created dir i q e name).media b = w.media b ∧
        (w.created dir i q e name).cache b = w.cache b := by
  by_cases h₁ : b = 1
  · left
    simp [World.created, World.saveInode, h₁]
  · by_cases h₀ : b = 0
    · left
      subst h₀
      have hne : 0 ≠ q.dataBlockNumber.toNat := by omega
      simp [World.created, World.saveInode, World.addRecord, World.addInode, hne]
    · by_cases hbq : b = q.dataBlockNumber.toNat
      · left
        subst hbq
        simp [World.created, World.saveInode, World.addRecord, h₁]
      · right
        simp [World.created, World.saveInode, World.addRecord, World.addInode, World.allocBlock,
          h₁, h₀, hbq]

/-- On the device only the block of the directory changes, besides the metadata. -/
theorem World.created_media_of_ge (hq : 2 ≤ q.dataBlockNumber.toNat) {b : Nat} (hb : 2 ≤ b) :
    (w.created dir i q e name).media b =
      Function.update w.media q.dataBlockNumber.toNat (withRecord
        (w.cache q.dataBlockNumber.toNat) q.dirChildrenCount e.inodeNo name) b := by
  have h₀ : b ≠ 0 := by omega
  have h₁ : b ≠ 1 := by omega
  by_cases hbq : b = q.dataBlockNumber.toNat
  · have hne₀ : q.dataBlockNumber.toNat ≠ 0 := by omega
    have hne₁ : q.dataBlockNumber.toNat ≠ 1 := by omega
    subst hbq
    simp [World.created, World.saveInode, World.addRecord, World.addInode, World.allocBlock,
      withRecord, hne₀, hne₁]
  · simp [World.created, World.saveInode, World.addRecord, World.addInode, World.allocBlock,
      h₁, h₀, hbq]

theorem World.Settled.created (h : w.Settled v) (c : v.alloc.Creatable i e name)
    (hl : v.Leads dir i) (hp : w.dcache dir = some (v.inode i)) :
    (w.created dir i (v.entry i) e name).Settled (v.alloc.created i e name) := by
  have hb := h.wf.block_ge i hl.lt
  constructor
  case toModels => exact h.toModels.created c hl hp
  case saved =>
    intro j hj
    rw [World.created_cache]
    by_cases hji : j = i
    · subst hji
      rw [entryAt_setEntry_self, created_entry_self c.lt]
      rfl
    · rw [entryAt_setEntry_of_ne hji, entryAt_update hb, World.addInode_cache, entryAt_setCount,
        World.allocBlock_cache, inodesCount_setFree, ← h.shows.count]
      by_cases hjc : j = v.count
      · subst hjc
        rw [entryAt_setEntry_self]
        exact (created_entry_new c.lt).symm
      · have hlt : j < v.alloc.count := by
          have : j < v.count + 1 := hj
          change j < v.count
          omega
        rw [entryAt_setEntry_of_ne hjc, entryAt_setFree, created_entry_of_ne hlt hji]
        exact h.saved j hlt
  case magic =>
    rw [World.created_cache_zero hb, World.get64_addInode_zero (by decide)]
    exact h.magic
  case blockSize =>
    rw [World.created_cache_zero hb, World.get64_addInode_zero (by decide)]
    exact h.blockSize
  case unowned => exact h.unowned
  case clean =>
    intro b
    have hc := h.clean b
    by_cases h₁ : b = 1
    · simp [World.created, World.saveInode, h₁]
    · by_cases h₀ : b = 0
      · subst h₀
        have hne : 0 ≠ (v.entry i).dataBlockNumber.toNat := by omega
        simp [World.created, World.saveInode, World.addRecord, World.addInode, hne]
      · simp [World.created, World.saveInode, World.addRecord, World.addInode, World.allocBlock,
          Function.update_apply, h₁, h₀, hc]
  case stored =>
    intro b
    rcases World.created_media hb b with heq | ⟨hm, hc⟩
    · exact .inl heq
    · rcases h.stored b with heq | ⟨j, hj, hr, hjb⟩
      · exact .inl (by rw [hm, hc, heq])
      · have hs : ((v.alloc.created i e name).entry j).Same (v.entry j) :=
          created_same (v := v.alloc) hj
        refine .inr ⟨j, Nat.lt_succ_of_lt hj, ?_, ?_⟩
        · rw [hs.mode]
          exact hr
        · rw [hs.dataBlockNumber]
          exact hjb

/-- A call in a calm run fails without a trace or creates the object. -/
theorem World.Settled.create_cases (h : w.Settled v) (hc : env.Calm) (hd : w.Has dir .dir)
    (hn : ValidName name) (ha : w.Absent dir name)
    (hrun : (simplefsCreateFsObject dir name mode).run (exec tid env) w = .done r w') :
    (r < 0 ∧ w' = w) ∨
      (r = 0 ∧ ∃ i, v.Leads dir i ∧ w.dcache dir = some (v.inode i) ∧
        v.alloc.Creatable i (newEntry w.cache mode) name ∧
        w' = w.created dir i (v.entry i) (newEntry w.cache mode) name) := by
  obtain ⟨i, hl, hdc, hq, hfop⟩ := h.toModels.simplefsInode hd
  have hdir := fopOf_eq_dir.mp hfop
  have hnew := ha.childName_ne h.toModels hn hl hdir hq
  have hrec : w.recorded tid env (v.entry i) mode name =
      (w.allocBlock.addInode (newEntry w.cache mode)).addRecord
        (v.entry i).dataBlockNumber.toNat (v.entry i).dirChildrenCount
        (newEntry w.cache mode).inodeNo name := by
    unfold World.recorded afterAdd
    simp only [hc.interrupted, Bool.false_eq_true, if_false]
  have hsearch : ∀ c : v.alloc.Creatable i (newEntry w.cache mode) name,
      searchEntry (w.recorded tid env (v.entry i) mode name).cache (v.entry i).inodeNo =
        some i := by
    intro c
    have hm := h.toModels.allocBlock.recorded c
    rw [hrec]
    have hs := searchEntry_eq hm.wf hm.shows (Nat.lt_succ_of_lt c.lt)
    rwa [recorded_entry_of_lt c.lt] at hs
  cases Simplefs.create_cases hn hq (h.wf.block_ge i hl.lt) hrun with
  | refused neg _ => exact .inl ⟨neg, rfl⟩
  | released site => simp [hc.interrupted] at site
  | uncounted _ _ site => simp [hc.interrupted] at site
  | unsaved neg alloc room site free why =>
      have c := h.toModels.creatable alloc hn hl.lt hdir room hnew
      rcases why with hint | hnone
      · simp [hc.interrupted] at hint
      · rw [hsearch c] at hnone
        cases hnone
  | created alloc room site save free found =>
      have c := h.toModels.creatable alloc hn hl.lt hdir room hnew
      rw [hsearch c] at found
      cases found
      refine .inr ⟨rfl, i, hl, hdc, c, ?_⟩
      rw [hrec]
      rfl

end Create

/-- The state when the bytes of a write and the new size have been recorded; the
file is `q` in memory and the store entry `j`. -/
def World.wrote (w : World) (p : Path) (j : Nat) (q : SimplefsInode) (buf : List UInt8)
    (pos : Nat) : World :=
  ((w.copiedIn q buf pos).setFileSize p (UInt64.ofNat (pos + writeLength buf pos))).saveInode j
    { q with fileSize := UInt64.ofNat (pos + writeLength buf pos) }

section Write

variable {w w' : World} {v : Volume} {env : Env} {p : Path} {j : Nat} {buf : List UInt8}
  {pos pos' : Nat} {tid : Nat} {r : Int}

theorem World.Models.wrote (h : w.Models v) (hl : v.Leads p j)
    (hp : w.dcache p = some (v.inode j)) (hr : sIsreg (v.entry j).mode = true)
    (hfit : pos + writeLength buf pos ≤ 4096) :
    (w.wrote p j (v.entry j) buf pos).Models (v.wrote j pos (writeBytes buf pos)) := by
  have hsize : (UInt64.ofNat (pos + writeLength buf pos)).toNat ≤ 4096 := by
    rw [UInt64.toNat_ofNat_of_lt']
    · exact hfit
    · change _ < 2 ^ 64
      omega
  have hdata := (h.storeData hl.lt hr pos (writeBytes buf pos)).flush
    (v.entry j).dataBlockNumber.toNat
  have hset := (hdata.setFileSize_file (hl.setBlock_file h.wf hl.lt hr) hp hr hsize).saveInode
    (i := j)
  rw [setSize_entry_self, ← length_writeBytes] at hset
  unfold World.wrote
  rw [← length_writeBytes]
  exact hset

theorem World.Settled.storedData {bytes : List UInt8} (h : w.Settled v) (hj : j < v.count)
    (hr : sIsreg (v.entry j).mode = true) :
    (w.store (v.entry j).dataBlockNumber.toNat pos bytes).Settled (v.stored j pos bytes) := by
  have hb := h.wf.block_ge j hj
  have h₀ : (w.store (v.entry j).dataBlockNumber.toNat pos bytes).cache 0 = w.cache 0 :=
    Function.update_of_ne (by omega) _ _
  constructor
  case toModels => exact h.toModels.storeData hj hr pos bytes
  case saved =>
    intro i hi
    rw [World.store_cache, entryAt_update hb]
    exact h.saved i hi
  case magic =>
    rw [h₀]
    exact h.magic
  case blockSize =>
    rw [h₀]
    exact h.blockSize
  case unowned => exact h.unowned
  case clean => exact h.clean
  case stored =>
    intro b
    by_cases hbj : (v.entry j).dataBlockNumber.toNat = b
    · exact .inr ⟨j, hj, hr, hbj⟩
    · rw [World.store_cache, Function.update_of_ne (Ne.symm hbj)]
      exact h.stored b

theorem World.Settled.wrote (h : w.Settled v) (hl : v.Leads p j)
    (hp : w.dcache p = some (v.inode j)) (hr : sIsreg (v.entry j).mode = true)
    (hfit : pos + writeLength buf pos ≤ 4096) :
    (w.wrote p j (v.entry j) buf pos).Settled (v.wrote j pos (writeBytes buf pos)) := by
  have hb := h.wf.block_ge j hl.lt
  have hcache : (w.wrote p j (v.entry j) buf pos).cache = setEntry (Function.update w.cache
      (v.entry j).dataBlockNumber.toNat ((w.cache (v.entry j).dataBlockNumber.toNat).splice pos
        (writeBytes buf pos))) j
      { v.entry j with fileSize := UInt64.ofNat (pos + writeLength buf pos) } := rfl
  have h₀ : (w.wrote p j (v.entry j) buf pos).cache 0 = w.cache 0 := by
    rw [hcache, setEntry_of_ne (by decide), Function.update_of_ne (by omega)]
  constructor
  case toModels => exact h.toModels.wrote hl hp hr hfit
  case saved =>
    intro i hi
    rw [hcache]
    by_cases hij : i = j
    · subst hij
      unfold Volume.wrote
      rw [entryAt_setEntry_self, setSize_entry_self, length_writeBytes]
      rfl
    · have he : (v.wrote j pos (writeBytes buf pos)).entry i = v.entry i := setSize_entry_of_ne hij
      rw [entryAt_setEntry_of_ne hij, entryAt_update hb, he]
      exact h.saved i hi
  case magic =>
    rw [h₀]
    exact h.magic
  case blockSize =>
    rw [h₀]
    exact h.blockSize
  case unowned => exact h.unowned
  case clean =>
    intro b
    simp [World.wrote, World.copiedIn, World.writeData, World.saveInode, Function.update_apply,
      h.clean b]
  case stored =>
    intro b
    by_cases hbj : (v.entry j).dataBlockNumber.toNat = b
    · refine .inr ⟨j, hl.lt, ?_, ?_⟩
      · rw [Volume.wrote, (setSize_same j).mode]
        exact hr
      · rw [Volume.wrote, (setSize_same j).dataBlockNumber]
        exact hbj
    · by_cases h₁ : b = 1
      · left
        simp [World.wrote, World.saveInode, h₁]
      · have hm : (w.wrote p j (v.entry j) buf pos).media b = w.media b := by
          simp [World.wrote, World.copiedIn, World.writeData, World.saveInode, h₁, Ne.symm hbj]
        have hc : (w.wrote p j (v.entry j) buf pos).cache b = w.cache b := by
          rw [hcache, setEntry_of_ne h₁, Function.update_of_ne (Ne.symm hbj)]
        rw [hm, hc]
        rcases h.stored b with heq | ⟨a, ha, hra, hab⟩
        · exact .inl heq
        · have hs : ((v.wrote j pos (writeBytes buf pos)).entry a).Same (v.entry a) :=
            setSize_same a
          refine .inr ⟨a, ha, ?_, ?_⟩
          · rw [hs.mode]
            exact hra
          · rw [hs.dataBlockNumber]
            exact hab

/-- A write in a calm run is refused, faults in the middle of the copy, or is
carried out. -/
theorem World.Settled.write_cases (h : w.Settled v) (hc : env.Calm) (hf : w.Has p .file)
    (hrun : (simplefsWrite p buf pos).run (exec tid env) w = .done (r, pos') w') :
    ∃ j, v.Leads p j ∧ w.dcache p = some (v.inode j) ∧ sIsreg (v.entry j).mode = true ∧
      ((r = -27 ∧ pos' = pos ∧ (4096 ≤ pos ∧ (buf.length ≠ 0 ∨ 4096 < pos)) ∧ w' = w) ∨
        (r = -14 ∧ pos' = pos ∧
          (copied env.copyFault (writeBytes buf pos)).length ≠ writeLength buf pos ∧
          w' = w.store (v.entry j).dataBlockNumber.toNat pos
            (zeroFilled env.copyFault (writeBytes buf pos))) ∨
        (r = writeLength buf pos ∧ pos' = pos + writeLength buf pos ∧
          pos + writeLength buf pos ≤ 4096 ∧ w' = w.wrote p j (v.entry j) buf pos)) := by
  obtain ⟨j, hl, hdc, hq, hfop⟩ := h.toModels.simplefsInode hf
  obtain ⟨-, hr⟩ := fopOf_eq_file.mp hfop
  have hb := h.wf.block_ge j hl.lt
  have hcount := h.shows.count
  have hle := h.wf.count_le
  have hsearch : searchEntry (w.copiedIn (v.entry j) buf pos).cache (v.entry j).inodeNo =
      some j := by
    have hm := h.toModels.storeData hl.lt hr pos (writeBytes buf pos)
    have hs := searchEntry_eq hm.wf hm.shows (j := j) hl.lt
    exact hs
  refine ⟨j, hl, hdc, hr, ?_⟩
  cases Simplefs.write_cases hq hb (by omega) hrun with
  | tooBig large => exact .inl ⟨rfl, rfl, large, rfl⟩
  | unread fails => simp [hc.breadFails] at fails
  | fault _ short => exact .inr (.inl ⟨rfl, rfl, short, rfl⟩)
  | unsized _ site => simp [hc.interrupted] at site
  | unsaved _ _ why =>
      rcases why with hint | hnone
      · simp [hc.interrupted] at hint
      · rw [hsearch] at hnone
        cases hnone
  | written fit _ _ found =>
      rw [hsearch] at found
      cases found
      exact .inr (.inr ⟨rfl, rfl, fit, rfl⟩)

end Write

section Mount

variable {w : World} {v : Volume} {p : Path} {i j : Nat}

theorem World.Settled.dAdd (h : w.Settled v) (hl : v.Leads p i) :
    (w.dAdd p (v.inode i)).Settled v :=
  ⟨h.toModels.dAdd hl, h.saved, h.magic, h.blockSize, h.unowned, h.clean, h.stored⟩

/-- The device holds the metadata blocks. -/
theorem World.Settled.media_of_lt (h : w.Settled v) {b : Nat} (hb : b < 2) :
    w.media b = w.cache b := by
  rcases h.stored b with heq | ⟨j, hj, -, hjb⟩
  · exact heq
  · have := h.wf.block_ge j hj
    omega

theorem World.Settled.media_of_dir (h : w.Settled v) (hi : i < v.count)
    (hd : sIsdir (v.entry i).mode = true) :
    w.media (v.entry i).dataBlockNumber.toNat = v.data i := by
  rw [h.data_eq hi]
  rcases h.stored (v.entry i).dataBlockNumber.toNat with heq | ⟨j, hj, hr, hjb⟩
  · exact heq
  · obtain rfl := h.wf.toNat_block_inj hj hi hjb
    rw [not_sIsreg_of_sIsdir hd] at hr
    exact absurd hr Bool.false_ne_true

theorem World.Settled.entryAt_media (h : w.Settled v) (i : Nat) :
    entryAt w.media i = entryAt w.cache i := by
  unfold entryAt
  rw [h.media_of_lt (by decide)]

/-- The volume as the device has it: the data of files may be older. -/
def Volume.onDevice (v : Volume) (media : Image) : Volume := { v with block := media }

theorem World.Settled.onDevice_data (h : w.Settled v) (hi : i < v.count)
    (hd : sIsdir (v.entry i).mode = true) : (v.onDevice w.media).data i = v.data i :=
  h.media_of_dir hi hd

theorem World.Settled.onDevice_child (h : w.Settled v) {k : Nat} (hl : v.Live i k) :
    (v.onDevice w.media).childIno i k = v.childIno i k ∧
      (v.onDevice w.media).childName i k = v.childName i k := by
  unfold childIno childName
  rw [h.onDevice_data hl.1 hl.2.1]
  exact ⟨rfl, rfl⟩

theorem World.Settled.onDevice_wf (h : w.Settled v) : (v.onDevice w.media).Wf :=
  h.wf.mono rfl (fun _ hb => hb) (fun _ _ => .refl _) h.wf.size_le (fun _ _ _ => Nat.le_refl _)
    (fun _ _ hl => h.onDevice_child hl)

theorem World.Settled.onDevice_shows (h : w.Settled v) : (v.onDevice w.media).Shows w.media := by
  have h₀ := h.media_of_lt (b := 0) (by decide)
  constructor
  case count =>
    unfold inodesCount
    rw [h₀]
    exact h.shows.count
  case free =>
    unfold freeBlocks
    rw [h₀]
    exact h.shows.free
  case block => exact fun _ _ => rfl
  case same =>
    intro i hi
    rw [h.entryAt_media]
    exact h.shows.same i hi
  case children =>
    intro i hi hd
    rw [h.entryAt_media]
    exact h.shows.children i hi hd
  case size =>
    intro i hi hr
    rw [h.entryAt_media]
    exact h.shows.size i hi hr

theorem World.Settled.onDevice_leads (h : w.Settled v) :
    (v.onDevice w.media).Leads p i ↔ v.Leads p i := by
  constructor
  · intro hl
    refine hl.mono (Nat.le_refl _) (fun _ _ => rfl) (fun _ _ hk => hk) ?_
    intro a k hk
    have hchild := h.onDevice_child hk
    exact ⟨hchild.1.symm, hchild.2.symm⟩
  · intro hl
    exact hl.mono (Nat.le_refl _) (fun _ _ => rfl) (fun _ _ hk => hk)
      (fun _ _ hk => h.onDevice_child hk)

/-- What is on the device can be mounted again. -/
theorem World.Settled.unmount (h : w.Settled v) : w.unmount.Settled (v.onDevice w.media) := by
  have hcache : w.unmount.cache = w.media := by
    funext b
    simp [World.unmount, h.clean b]
  have hmedia : w.unmount.media = w.media := by
    funext b
    simp [World.unmount, h.clean b]
  have h₀ := h.media_of_lt (b := 0) (by decide)
  have hexact : (v.onDevice w.media).Exact w.unmount.cache := by
    intro i hi
    rw [hcache, h.entryAt_media]
    exact h.saved i hi
  constructor
  case toModels =>
    refine ⟨?_, h.onDevice_wf, ?_, ?_⟩
    · rw [hcache]
      exact h.onDevice_shows
    · intro p x hx
      cases hx
    · intro i hi hne
      exact absurd (hexact i hi) hne
  case saved => exact hexact
  case magic =>
    rw [hcache, h₀]
    exact h.magic
  case blockSize =>
    rw [hcache, h₀]
    exact h.blockSize
  case unowned => exact h.unowned
  case clean => exact fun _ => rfl
  case stored =>
    intro b
    exact .inl (by rw [hcache, hmedia])

theorem World.Settled.onDevice_rooted (h : w.Settled v) (hr : v.Rooted) :
    (v.onDevice w.media).Rooted :=
  hr.mono rfl (fun _ _ => rfl) (fun _ _ hl => ⟨hl, (h.onDevice_child hl).1⟩)

end Mount

/-- The directory, the name and the mode of a call that makes an object. -/
def Call.makes : Call → Option (Path × Name × UInt16)
  | .create dir name mode => some (dir, name, mode)
  | .mkdir dir name mode => some (dir, name, sIfdir ||| mode)
  | _ => none

namespace Volume

variable (v : Volume) (i : Nat)

/-- The entries a listing of the directory `i` hands out. -/
def emits : List DirEmit :=
  (List.range' 0 (v.entry i).dirChildrenCount).map fun k =>
    ⟨(v.data i).bytesAt (264 * k) 255, v.childIno i k⟩

/-- The answer to `iterate`. -/
def listing (pos : Nat) : Reply :=
  if pos ≠ 0 then .listing 0 [] pos
  else .listing 0 (v.emits i) (264 * (v.entry i).dirChildrenCount)

/-- The answer to `read`. -/
def readReply (env : Env) (len pos : Nat) : Reply :=
  let nbytes := min (v.entry i).fileSize.toNat len
  let bytes := (v.data i).bytesAt 0 nbytes
  if pos ≥ (v.entry i).fileSize.toNat then .data 0 [] pos
  else if (copied env.copyFault bytes).length < nbytes then .data (-14) [] pos
  else .data nbytes bytes (pos + nbytes)

end Volume

/-- What a call can do in a settled state. -/
inductive CalmStep (env : Env) (w : World) (v : Volume) :
    Call → Reply → World → Volume → Prop
  | mount {i : Nat} (leads : v.Leads [] i) :
      CalmStep env w v .mount (.ret 0) (w.dAdd [] (v.inode i)) v
  | unmount : CalmStep env w v .unmount .unit w.unmount (v.onDevice w.media)
  | miss {dir : Path} {name : Name} {i : Nat} (leads : v.Leads dir i)
      (new : ∀ k, v.Live i k → v.childName i k ≠ name) :
      CalmStep env w v (.lookup dir name) (.found none) w v
  | hit {dir : Path} {name : Name} {j : Nat} (leads : v.Leads (name :: dir) j) :
      CalmStep env w v (.lookup dir name) (.found (some (v.inode j)))
        (w.dAdd (name :: dir) (v.inode j)) v
  | refused {c : Call} {m : Path × Name × UInt16} {r : Int} (makes : c.makes = some m)
      (neg : r < 0) : CalmStep env w v c (.ret r) w v
  | created {c : Call} {dir : Path} {name : Name} {mode : UInt16} {i : Nat}
      (makes : c.makes = some (dir, name, mode)) (leads : v.Leads dir i)
      (cached : w.dcache dir = some (v.inode i))
      (cond : v.alloc.Creatable i (newEntry w.cache mode) name) :
      CalmStep env w v c (.ret 0) (w.created dir i (v.entry i) (newEntry w.cache mode) name)
        (v.alloc.created i (newEntry w.cache mode) name)
  | iterate {dir : Path} {pos i : Nat} (leads : v.Leads dir i)
      (isdir : sIsdir (v.entry i).mode = true) :
      CalmStep env w v (.iterate dir pos) (v.listing i pos) w v
  | read {file : Path} {len pos j : Nat} (leads : v.Leads file j)
      (isreg : sIsreg (v.entry j).mode = true) :
      CalmStep env w v (.read file len pos) (v.readReply j env len pos) w v
  | tooBig {file : Path} {buf : List UInt8} {pos : Nat}
      (large : 4096 ≤ pos ∧ (buf.length ≠ 0 ∨ 4096 < pos)) :
      CalmStep env w v (.write file buf pos) (.wrote (-27) pos) w v
  | fault {file : Path} {buf : List UInt8} {pos j : Nat} (leads : v.Leads file j)
      (isreg : sIsreg (v.entry j).mode = true)
      (short : (copied env.copyFault (writeBytes buf pos)).length ≠ writeLength buf pos) :
      CalmStep env w v (.write file buf pos) (.wrote (-14) pos)
        (w.store (v.entry j).dataBlockNumber.toNat pos
          (zeroFilled env.copyFault (writeBytes buf pos)))
        (v.stored j pos (zeroFilled env.copyFault (writeBytes buf pos)))
  | wrote {file : Path} {buf : List UInt8} {pos j : Nat} (leads : v.Leads file j)
      (cached : w.dcache file = some (v.inode j))
      (isreg : sIsreg (v.entry j).mode = true) (fit : pos + writeLength buf pos ≤ 4096) :
      CalmStep env w v (.write file buf pos)
        (.wrote (writeLength buf pos) (pos + writeLength buf pos))
        (w.wrote file j (v.entry j) buf pos) (v.wrote j pos (writeBytes buf pos))

section Step

variable {w w' : World} {v v' : Volume} {env : Env} {tid : Nat} {c : Call} {reply : Reply}

theorem CalmStep.settled (h : w.Settled v) (hstep : CalmStep env w v c reply w' v') :
    w'.Settled v' := by
  cases hstep with
  | mount leads => exact h.dAdd leads
  | unmount => exact h.unmount
  | miss => exact h
  | hit leads => exact h.dAdd leads
  | refused => exact h
  | created _ leads cached cond => exact h.created cond leads cached
  | iterate => exact h
  | read => exact h
  | tooBig => exact h
  | fault leads isreg => exact h.storedData leads.lt isreg
  | wrote leads cached isreg fit => exact h.wrote leads cached isreg fit

theorem CalmStep.rooted (h : w.Settled v) (hr : v.Rooted)
    (hstep : CalmStep env w v c reply w' v') : v'.Rooted := by
  cases hstep with
  | mount => exact hr
  | unmount => exact h.onDevice_rooted hr
  | miss => exact hr
  | hit => exact hr
  | refused => exact hr
  | created _ _ _ cond => exact Rooted.created (v := v.alloc) hr cond h.wf.alloc
  | iterate => exact hr
  | read => exact hr
  | tooBig => exact hr
  | fault leads isreg => exact hr.stored h.wf.toStoreWf leads.lt isreg
  | wrote leads _ isreg => exact hr.wrote h.wf.toStoreWf leads.lt isreg

theorem World.Settled.step_makes (h : w.Settled v) (hc : env.Calm) {dir : Path} {name : Name}
    {mode : UInt16} (hm : c.makes = some (dir, name, mode)) (hd : w.Has dir .dir)
    (hn : ValidName name) (ha : w.Absent dir name)
    (hrun : (simplefsCreateFsObject dir name mode >>= fun r => pure (Reply.ret r) :
      Code Reply).run (exec tid env) w = .done reply w') :
    ∃ v', CalmStep env w v c reply w' v' := by
  rw [Prog.run_bind] at hrun
  obtain ⟨r, u, hcr, hret⟩ := Outcome.bind_eq_done.mp hrun
  cases hret
  rcases h.create_cases hc hd hn ha hcr with ⟨neg, rfl⟩ | ⟨rfl, i, hl, hdc, cond, rfl⟩
  · exact ⟨v, .refused hm neg⟩
  · exact ⟨_, .created hm hl hdc cond⟩

theorem World.Settled.step_lookup (h : w.Settled v) (hc : env.Calm) {dir : Path} {name : Name}
    (hd : w.Has dir .dir) (hn : ValidName name) (hp : w.dcache (name :: dir) = none)
    (hrun : (Call.lookup dir name).run tid env w = .done reply w') :
    ∃ v', CalmStep env w v (.lookup dir name) reply w' v' := by
  obtain ⟨i, hl, -, hq, hfop⟩ := h.toModels.simplefsInode hd
  have hdir := fopOf_eq_dir.mp hfop
  have hrl := @run_lookup tid _ _ _ _ _ _ h.toModels hc.breadOk hn hl hdir hq hp
  simp only [Call.run, Call.code, Prog.run_bind] at hrun
  rcases hrl with ⟨hne, hx⟩ | ⟨j, hlj, hx⟩
  · rw [hx] at hrun
    cases hrun
    rw [hp]
    exact ⟨v, .miss hl hne⟩
  · rw [hx] at hrun
    split_ifs at hrun
    · cases hrun
    · cases hrun
      rw [World.dAdd_dcache, Function.update_self]
      exact ⟨v, .hit hlj⟩

theorem World.Settled.run_iterate (h : w.Settled v) (hc : env.Calm) {dir : Path} {i : Nat}
    (hl : v.Leads dir i) (hq : w.simplefsInode dir = some (v.entry i))
    (hd : sIsdir (v.entry i).mode = true) (pos : Nat) :
    (Call.iterate dir pos).run tid env w = .done (v.listing i pos) w := by
  have hx := @run_simplefsIterate tid _ _ _ _ pos (hc.breadOk _) hq hd (h.wf.children_le i hl.lt hd)
  rw [← h.data_eq hl.lt] at hx
  simp only [Call.run, Call.code, Prog.run_bind, hx, Volume.listing]
  split_ifs <;> rfl

theorem World.Settled.run_read (h : w.Settled v) (hc : env.Calm) {file : Path} {j : Nat}
    (hl : v.Leads file j) (hq : w.simplefsInode file = some (v.entry j))
    (hr : sIsreg (v.entry j).mode = true) (len pos : Nat) :
    (Call.read file len pos).run tid env w = .done (v.readReply j env len pos) w := by
  have hx := @run_simplefsRead tid _ _ _ _ len pos hc.breadOk hq (h.wf.size_le j hl.lt hr)
  rw [← h.data_eq hl.lt] at hx
  simp only [Call.run, Call.code, Prog.run_bind, hx, Volume.readReply]
  split_ifs <;> rfl

/-- Every call of a calm run is one of the steps. -/
theorem World.Settled.step (h : w.Settled v) (hc : env.Calm) (ha : c.Allowed w)
    (hrun : c.run tid env w = .done reply w') : ∃ v', CalmStep env w v c reply w' v' := by
  cases c with
  | mount =>
      obtain ⟨i, hl, hm⟩ := @run_mount tid _ _ _ h.toModels hc.breadOk h.magic h.blockSize ha
      simp only [Call.run, Call.code, Prog.run_bind, hm] at hrun
      split_ifs at hrun
      · cases hrun
      · cases hrun
        exact ⟨v, .mount hl⟩
  | unmount =>
      cases hrun
      exact ⟨_, .unmount⟩
  | lookup dir name => exact h.step_lookup hc ha.1 ha.2.1 ha.2.2 hrun
  | create dir name mode => exact h.step_makes hc rfl ha.1 ha.2.1 ha.2.2 hrun
  | mkdir dir name mode => exact h.step_makes hc rfl ha.1 ha.2.1 ha.2.2 hrun
  | iterate dir pos =>
      obtain ⟨i, hl, -, hq, hfop⟩ := h.toModels.simplefsInode ha
      have hdir := fopOf_eq_dir.mp hfop
      rw [h.run_iterate hc hl hq hdir pos] at hrun
      cases hrun
      exact ⟨v, .iterate hl hdir⟩
  | read file len pos =>
      obtain ⟨j, hl, -, hq, hfop⟩ := h.toModels.simplefsInode ha
      obtain ⟨-, hr⟩ := fopOf_eq_file.mp hfop
      rw [h.run_read hc hl hq hr len pos] at hrun
      cases hrun
      exact ⟨v, .read hl hr⟩
  | write file buf pos =>
      simp only [Call.run, Call.code, Prog.run_bind] at hrun
      obtain ⟨⟨r, pos'⟩, u, hwr, hret⟩ := Outcome.bind_eq_done.mp hrun
      cases hret
      obtain ⟨j, hl, hdc, hr, hcase⟩ := h.write_cases hc ha hwr
      rcases hcase with ⟨rfl, rfl, large, rfl⟩ | ⟨rfl, rfl, short, rfl⟩ | ⟨rfl, rfl, fit, rfl⟩
      · exact ⟨v, .tooBig large⟩
      · exact ⟨_, .fault hl hr short⟩
      · exact ⟨_, .wrote hl hdc hr fit⟩

end Step

end LinuxDevelopment.Simplefs
