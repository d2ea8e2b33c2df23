import LinuxDevelopment.Simplefs.Volume

/-!
# simplefs: the volume in memory

`w.Models v` relates a state to the volume the mounted file system works with.
The entries of `v` are those of the in-memory inodes; the store in the buffer
cache has the same entries, with size words that may be older. Each stage of a
call keeps the relation and changes the volume by one operation.
-/

namespace LinuxDevelopment.Simplefs

theorem fopOf_eq_dir {mode : UInt32} : fopOf mode = some .dir ↔ sIsdir mode = true := by
  unfold fopOf
  cases sIsdir mode <;> cases sIsreg mode <;> simp

theorem fopOf_eq_file {mode : UInt32} :
    fopOf mode = some .file ↔ sIsdir mode = false ∧ sIsreg mode = true := by
  unfold fopOf
  cases sIsdir mode <;> cases sIsreg mode <;> simp

namespace Volume

/-- The inode the VFS keeps for an entry. -/
def inode (v : Volume) (i : Nat) : VfsInode where
  iIno := (v.entry i).inodeNo
  iFop := fopOf (v.entry i).mode
  iPrivate := some (v.entry i)

/-- The blocks of an image hold the volume, up to size words that are still to
be saved. -/
structure Shows (v : Volume) (img : Image) : Prop where
  count : v.count = (inodesCount img).toNat
  free : v.free = freeBlocks img
  block : ∀ b, 2 ≤ b → v.block b = img b
  same : ∀ i < v.count, (entryAt img i).Same (v.entry i)
  children : ∀ i < v.count, sIsdir (v.entry i).mode = true →
    (entryAt img i).dirChildrenCount ≤ (v.entry i).dirChildrenCount
  size : ∀ i < v.count, sIsreg (v.entry i).mode = true → (entryAt img i).fileSize.toNat ≤ 4096

variable {v : Volume} {img : Image} {i k : Nat}

/-- The size words in the image are those of the volume. -/
def Exact (v : Volume) (img : Image) : Prop := ∀ i < v.count, entryAt img i = v.entry i

theorem Wf.data_eq (h : v.Wf) (hs : v.Shows img) (hi : i < v.count) :
    (ofImage img).data i = v.data i := by
  unfold data
  rw [ofImage_entry, ofImage_block, (hs.same i hi).dataBlockNumber, hs.block _ (h.block_ge i hi)]

/-- What the blocks hold is consistent when the volume in memory is. -/
theorem Wf.ofImage (h : v.Wf) (hs : v.Shows img) : (ofImage img).Wf := by
  refine h.mono hs.count.symm ?_ hs.same hs.size hs.children ?_
  · intro b hb
    rw [ofImage_free, ← hs.free]
    exact hb
  · intro i k hl
    have hi : i < v.count := by
      rw [hs.count]
      exact hl.1
    unfold childIno childName
    rw [h.data_eq hs hi]
    exact ⟨rfl, rfl⟩

/-- An entry of the store is brought up to date. -/
theorem Shows.setEntry (h : v.Shows img) (hw : v.Wf) :
    v.Shows (setEntry img i (v.entry i)) := by
  constructor
  case count => simpa using h.count
  case free => simpa using h.free
  case block =>
    intro b hb
    rw [setEntry_of_ne (by omega)]
    exact h.block b hb
  case same =>
    intro j hj
    by_cases hji : j = i
    · subst hji
      rw [entryAt_setEntry_self]
      exact .refl _
    · rw [entryAt_setEntry_of_ne hji]
      exact h.same j hj
  case children =>
    intro j hj hd
    by_cases hji : j = i
    · subst hji
      rw [entryAt_setEntry_self]
    · rw [entryAt_setEntry_of_ne hji]
      exact h.children j hj hd
  case size =>
    intro j hj hr
    by_cases hji : j = i
    · subst hji
      rw [entryAt_setEntry_self]
      exact hw.size_le j hj hr
    · rw [entryAt_setEntry_of_ne hji]
      exact h.size j hj hr

theorem shows_ofImage (h : (ofImage img).Wf) : (ofImage img).Shows img where
  count := rfl
  free := rfl
  block := fun _ _ => rfl
  same := fun _ _ => .refl _
  children := fun _ _ _ => Nat.le_refl _
  size := h.size_le

end Volume

section Search

variable {v : Volume} {img : Image} {i j k : Nat} {name : Name}

/-- The searches of the store find the entry with a number, since no two have it. -/
theorem findEntry_eq_of_same (h : v.Wf) (hcount : v.count ≤ (inodesCount img).toNat)
    (hs : ∀ i < v.count, (entryAt img i).Same (v.entry i)) (hj : j < v.count) :
    findEntry img (v.entry j).inodeNo = some j := by
  unfold findEntry
  rw [List.find?_range'_eq_some]
  refine ⟨by simpa using (hs j hj).inodeNo, by simp; omega, ?_⟩
  intro a _ ha
  have hne : (entryAt img a).inodeNo ≠ (v.entry j).inodeNo := by
    intro heq
    rw [(hs a (by omega)).inodeNo] at heq
    exact Nat.ne_of_lt ha (h.ino_inj a (by omega) j hj heq)
  simpa using hne

theorem findEntry_eq (h : v.Wf) (hs : v.Shows img) (hj : j < v.count) :
    findEntry img (v.entry j).inodeNo = some j :=
  findEntry_eq_of_same h (Nat.le_of_eq hs.count) hs.same hj

theorem searchEntry_eq (h : v.Wf) (hs : v.Shows img) (hj : j < v.count) :
    searchEntry img (v.entry j).inodeNo = some j := by
  have hf := findEntry_eq h hs hj
  unfold findEntry at hf
  unfold searchEntry
  rw [List.range'_concat, List.find?_append, hf]
  rfl

/-- An entry that a search by number finds is one of the counted ones. -/
theorem findEntry_lt {img : Image} {ino : UInt64} {j : Nat} (h : findEntry img ino = some j) :
    j < (inodesCount img).toNat := by
  unfold findEntry at h
  rw [List.find?_range'_eq_some] at h
  simpa using h.2.1

theorem searchEntry_inodeNo {ino : UInt64} (h : searchEntry img ino = some j) :
    (entryAt img j).inodeNo = ino := by
  unfold searchEntry at h
  rw [List.find?_range'_eq_some] at h
  simpa using h.1

theorem findEntry_inodeNo {ino : UInt64} (h : findEntry img ino = some j) :
    (entryAt img j).inodeNo = ino := by
  unfold findEntry at h
  rw [List.find?_range'_eq_some] at h
  simpa using h.1

theorem hasCString_iff {b : Buffer} (hn : ValidName name) :
    b.HasCString (264 * k) name ↔ recordName b k = name :=
  ⟨Buffer.cStringAt_eq_of_hasCString hn.nulFree (Nat.lt_succ_of_le hn.le),
    Buffer.hasCString_of_cStringAt (Nat.lt_succ_of_le hn.le)⟩

theorem findRecord_eq_some {dir : Buffer} {n : Nat} (hn : ValidName name) :
    findRecord dir name n = some k ↔
      k < n ∧ recordName dir k = name ∧ ∀ c < k, recordName dir c ≠ name := by
  unfold findRecord
  rw [List.find?_range'_eq_some]
  simp only [hasCString_iff hn, decide_eq_true_eq, List.mem_range', Bool.not_eq_true',
    decide_eq_false_iff_not]
  constructor
  · rintro ⟨hk, ⟨m, hm, rfl⟩, hlt⟩
    exact ⟨by omega, hk, fun c hc => hlt c (Nat.zero_le _) hc⟩
  · rintro ⟨hk, hname, hlt⟩
    exact ⟨hname, ⟨k, hk, by omega⟩, fun c _ hc => hlt c hc⟩

theorem findRecord_eq_none {dir : Buffer} {n : Nat} (hn : ValidName name) :
    findRecord dir name n = none ↔ ∀ k < n, recordName dir k ≠ name := by
  unfold findRecord
  rw [List.find?_range'_eq_none]
  simp only [hasCString_iff hn, Bool.not_eq_true', decide_eq_false_iff_not]
  constructor
  · intro h k hk
    exact h k (Nat.zero_le _) (by omega)
  · intro h k _ hk
    exact h k (by omega)

end Search

/-- The state `w` is one of a file system that works with the volume `v`. -/
structure World.Models (w : World) (v : Volume) : Prop where
  shows : v.Shows w.cache
  wf : v.Wf
  cached : ∀ p x, w.dcache p = some x → ∃ i, v.Leads p i ∧ x = v.inode i
  /-- an entry that is ahead of the store is in memory -/
  ahead : ∀ i < v.count, entryAt w.cache i ≠ v.entry i →
    ∃ p, v.Leads p i ∧ w.dcache p = some (v.inode i)

namespace World.Models

open Volume

variable {w w' : World} {v : Volume} {i j k : Nat} {p : Path}

/-- Locks, dirty bits and the device do not matter. -/
theorem congr (h : w.Models v) (hc : w'.cache = w.cache) (hd : w'.dcache = w.dcache) :
    w'.Models v := by
  constructor
  · rw [hc]
    exact h.shows
  · exact h.wf
  · rw [hd]
    exact h.cached
  · rw [hc, hd]
    exact h.ahead

theorem setOwner (h : w.Models v) (m : Mutex) (t : Option Nat) : (w.setOwner m t).Models v :=
  h.congr rfl rfl

theorem flush (h : w.Models v) (b : Nat) : (w.flush b).Models v :=
  h.congr rfl rfl

/-- The in-memory inode behind a dentry. -/
theorem simplefsInode (h : w.Models v) {fop : FileOps} (hp : w.Has p fop) :
    ∃ i, v.Leads p i ∧ w.dcache p = some (v.inode i) ∧ w.simplefsInode p = some (v.entry i) ∧
      fopOf (v.entry i).mode = some fop := by
  obtain ⟨x, hx, hf⟩ := hp
  obtain ⟨i, hl, rfl⟩ := h.cached p x hx
  refine ⟨i, hl, hx, ?_, hf⟩
  unfold World.simplefsInode
  rw [hx]
  rfl

theorem allocBlock (h : w.Models v) : w.allocBlock.Models v.alloc := by
  refine ⟨?_, h.wf.alloc, ?_, ?_⟩
  · rw [World.allocBlock_cache]
    constructor
    case count => simpa using h.shows.count
    case free =>
      rw [freeBlocks_setFree, ← h.shows.free]
      rfl
    case block =>
      intro b hb
      rw [setFree_of_ne (by omega)]
      exact h.shows.block b hb
    case same => simpa using h.shows.same
    case children => simpa using h.shows.children
    case size => simpa using h.shows.size
  · intro p x hx
    obtain ⟨i, hl, rfl⟩ := h.cached p x hx
    exact ⟨i, hl.alloc, rfl⟩
  · intro i hi hne
    rw [World.allocBlock_cache, entryAt_setFree] at hne
    obtain ⟨p, hl, hp⟩ := h.ahead i hi hne
    exact ⟨p, hl.alloc, hp⟩

theorem addInode {e : SimplefsInode} (h : w.Models v) (a : v.Addable e) :
    (w.addInode e).Models (v.add e) := by
  have hold : ∀ i < v.count, entryAt (setCount (setEntry w.cache v.count e)
      (inodesCount w.cache + 1)) i = entryAt w.cache i := by
    intro i hi
    rw [entryAt_setCount, entryAt_setEntry_of_ne (Nat.ne_of_lt hi)]
  have hnew : entryAt (setCount (setEntry w.cache v.count e)
      (inodesCount w.cache + 1)) v.count = e := by
    rw [entryAt_setCount, entryAt_setEntry_self]
  refine ⟨?_, h.wf.add a, ?_, ?_⟩
  · rw [World.addInode_cache, ← h.shows.count]
    constructor
    case count =>
      rw [inodesCount_setCount, toNat_succ h.shows.count.symm (Nat.lt_trans a.room (by decide))]
      rfl
    case free => simpa using h.shows.free
    case block =>
      intro b hb
      rw [setCount_of_ne (by omega), setEntry_of_ne (by omega)]
      exact h.shows.block b hb
    case same =>
      intro i hi
      rcases add_cases hi with hi | rfl
      · rw [hold i hi, add_entry_of_lt hi]
        exact h.shows.same i hi
      · rw [hnew, add_entry_count]
        exact .refl _
    case children =>
      intro i hi hd
      rcases add_cases hi with hi | rfl
      · rw [add_entry_of_lt hi] at hd
        rw [hold i hi, add_entry_of_lt hi]
        exact h.shows.children i hi hd
      · rw [hnew, add_entry_count]
    case size =>
      intro i hi hr
      rcases add_cases hi with hi | rfl
      · rw [add_entry_of_lt hi] at hr
        rw [hold i hi]
        exact h.shows.size i hi hr
      · rw [hnew, a.empty]
        exact Nat.zero_le _
  · intro p x hx
    obtain ⟨i, hl, rfl⟩ := h.cached p x hx
    refine ⟨i, hl.add a, ?_⟩
    unfold inode
    rw [add_entry_of_lt hl.lt]
  · intro i hi hne
    rw [World.addInode_cache, ← h.shows.count] at hne
    rcases add_cases hi with hi | rfl
    · rw [hold i hi, add_entry_of_lt hi] at hne
      obtain ⟨p, hl, hp⟩ := h.ahead i hi hne
      refine ⟨p, hl.add a, ?_⟩
      unfold inode
      rw [add_entry_of_lt hi]
      exact hp
    · rw [hnew, add_entry_count] at hne
      exact absurd rfl hne

/-- A data block changes in the cache and in the volume alike. -/
theorem setBlock {b : Nat} {buf : Buffer} (h : w.Models v) (hb : 2 ≤ b)
    (hwf : (v.setBlock b buf).Wf) (hleads : ∀ q j, v.Leads q j → (v.setBlock b buf).Leads q j)
    (hc : w'.cache = Function.update w.cache b buf) (hd : w'.dcache = w.dcache) :
    w'.Models (v.setBlock b buf) := by
  refine ⟨?_, hwf, ?_, ?_⟩
  · rw [hc]
    constructor
    case count =>
      rw [inodesCount_update hb]
      exact h.shows.count
    case free =>
      rw [freeBlocks_update hb]
      exact h.shows.free
    case block =>
      intro c hc
      by_cases hcb : c = b
      · subst hcb
        rw [setBlock_block, Function.update_self, Function.update_self]
      · rw [setBlock_block, Function.update_of_ne hcb, Function.update_of_ne hcb]
        exact h.shows.block c hc
    case same =>
      intro i hi
      rw [entryAt_update hb]
      exact h.shows.same i hi
    case children =>
      intro i hi hdir
      rw [entryAt_update hb]
      exact h.shows.children i hi hdir
    case size =>
      intro i hi hr
      rw [entryAt_update hb]
      exact h.shows.size i hi hr
  · rw [hd]
    intro p x hx
    obtain ⟨i, hl, rfl⟩ := h.cached p x hx
    exact ⟨i, hleads p i hl, rfl⟩
  · intro i hi hne
    rw [hc, entryAt_update hb] at hne
    rw [hd]
    obtain ⟨p, hl, hp⟩ := h.ahead i hi hne
    exact ⟨p, hleads p i hl, hp⟩

theorem data_eq (h : w.Models v) (hi : i < v.count) :
    v.data i = w.cache (v.entry i).dataBlockNumber.toNat :=
  h.shows.block _ (h.wf.block_ge i hi)

theorem addRecord {ino : UInt64} {name : Name} (h : w.Models v) (hn : ValidName name)
    (hi : i < v.count) (hk : (v.entry i).dirChildrenCount ≤ k) :
    (w.addRecord (v.entry i).dataBlockNumber.toNat k ino name).Models
      (v.setRecord i k ino name) := by
  refine h.setBlock (h.wf.block_ge i hi) (h.wf.setRecord hn hi hk)
    (fun q j hl => hl.setRecord h.wf hn hi hk) ?_ rfl
  rw [h.data_eq hi]
  simp [World.addRecord, withRecord]

/-- The data of a file is not part of the metadata. -/
theorem storeData (h : w.Models v) (hj : j < v.count) (hr : sIsreg (v.entry j).mode = true)
    (pos : Nat) (bytes : List UInt8) :
    (w.store (v.entry j).dataBlockNumber.toNat pos bytes).Models (v.stored j pos bytes) := by
  refine h.setBlock (h.wf.block_ge j hj) (h.wf.setBlock_file hj hr _) ?_ ?_ rfl
  · intro q a hl
    exact hl.setBlock_file h.wf hj hr
  · rw [h.data_eq hj]
    rfl

/-- The size word of an in-memory inode changes. -/
theorem setFileSize {s : UInt64} (h : w.Models v) (hl : v.Leads p i)
    (hp : w.dcache p = some (v.inode i)) (hwf : (v.setSize i s).Wf)
    (hleads : ∀ q j, v.Leads q j → (v.setSize i s).Leads q j)
    (hc : sIsdir (v.entry i).mode = true → (v.entry i).dirChildrenCount ≤ s.toNat) :
    (w.setFileSize p s).Models (v.setSize i s) := by
  have hself : (w.setFileSize p s).dcache p = some ((v.setSize i s).inode i) := by
    simp only [World.setFileSize_dcache, Function.update_self, hp, Option.map_some]
    unfold inode
    rw [setSize_entry_self]
    rfl
  refine ⟨?_, hwf, ?_, ?_⟩
  · constructor
    case count => exact h.shows.count
    case free => exact h.shows.free
    case block => exact h.shows.block
    case same =>
      intro j hj
      have hs := h.shows.same j hj
      have ht : ((v.setSize i s).entry j).Same (v.entry j) := setSize_same j
      exact ⟨hs.mode.trans ht.mode.symm, hs.inodeNo.trans ht.inodeNo.symm,
        hs.dataBlockNumber.trans ht.dataBlockNumber.symm⟩
    case children =>
      intro j hj hd
      rw [(setSize_same j).mode] at hd
      refine Nat.le_trans (h.shows.children j hj hd) ?_
      by_cases hji : j = i
      · subst hji
        rw [setSize_entry_self]
        exact hc hd
      · rw [setSize_entry_of_ne hji]
    case size =>
      intro j hj hr
      rw [(setSize_same j).mode] at hr
      exact h.shows.size j hj hr
  · intro q x hx
    by_cases hqp : q = p
    · subst hqp
      rw [hself] at hx
      exact ⟨i, hleads q i hl, (Option.some.inj hx).symm⟩
    · simp only [World.setFileSize_dcache, Function.update_of_ne hqp] at hx
      obtain ⟨j, hlj, rfl⟩ := h.cached q x hx
      refine ⟨j, hleads q j hlj, ?_⟩
      have hji : j ≠ i := by
        rintro rfl
        exact hqp (hlj.injective h.wf hl)
      unfold inode
      rw [setSize_entry_of_ne hji]
  · intro j hj hne
    by_cases hji : j = i
    · subst hji
      exact ⟨p, hleads p j hl, hself⟩
    · rw [setSize_entry_of_ne hji] at hne
      obtain ⟨q, hlq, hq⟩ := h.ahead j hj hne
      have hqp : q ≠ p := by
        rintro rfl
        exact hji (hlq.functional h.wf hl)
      refine ⟨q, hleads q j hlq, ?_⟩
      simp only [World.setFileSize_dcache, Function.update_of_ne hqp]
      unfold inode
      rw [setSize_entry_of_ne hji]
      exact hq

theorem setFileSize_file {s : UInt64} (h : w.Models v) (hl : v.Leads p i)
    (hp : w.dcache p = some (v.inode i)) (hr : sIsreg (v.entry i).mode = true)
    (hs : s.toNat ≤ 4096) : (w.setFileSize p s).Models (v.setSize i s) := by
  refine h.setFileSize hl hp (h.wf.setSize_file hr hs) (fun q j hq => hq.setSize_file hr) ?_
  intro hd
  rw [not_sIsreg_of_sIsdir hd] at hr
  exact absurd hr Bool.false_ne_true

theorem link (h : w.Models v) (hl : v.Leads p i) (hp : w.dcache p = some (v.inode i))
    (l : v.Linkable i k) :
    (w.setFileSize p ((v.entry i).fileSize + 1)).Models (v.link i) := by
  refine h.setFileSize hl hp (h.wf.link l) (fun q j hq => hq.link l) ?_
  intro _
  have hc : (v.entry i).fileSize.toNat = k := l.next
  have hk := l.room
  rw [toNat_succ hc (by omega)]
  exact Nat.le_succ_of_le (Nat.le_of_eq hc)

theorem saveInode (h : w.Models v) :
    (w.saveInode i (v.entry i)).Models v := by
  refine ⟨?_, h.wf, h.cached, ?_⟩
  · rw [World.saveInode_cache]
    exact h.shows.setEntry h.wf
  · intro j hj hne
    rw [World.saveInode_cache] at hne
    by_cases hji : j = i
    · subst hji
      exact absurd entryAt_setEntry_self hne
    · rw [entryAt_setEntry_of_ne hji] at hne
      exact h.ahead j hj hne

theorem dAdd (h : w.Models v) (hl : v.Leads p i) : (w.dAdd p (v.inode i)).Models v := by
  refine ⟨h.shows, h.wf, ?_, ?_⟩
  · intro q x hx
    by_cases hqp : q = p
    · subst hqp
      simp only [World.dAdd_dcache, Function.update_self, Option.some.injEq] at hx
      exact ⟨i, hl, hx.symm⟩
    · simp only [World.dAdd_dcache, Function.update_of_ne hqp] at hx
      exact h.cached q x hx
  · intro j hj hne
    obtain ⟨q, hlq, hq⟩ := h.ahead j hj hne
    refine ⟨q, hlq, ?_⟩
    by_cases hqp : q = p
    · subst hqp
      rw [hlq.functional h.wf hl]
      exact Function.update_self _ _ _
    · exact (Function.update_of_ne hqp _ _).trans hq

end World.Models

end LinuxDevelopment.Simplefs
