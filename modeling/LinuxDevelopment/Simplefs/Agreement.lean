import Mathlib.Data.List.Find
import LinuxDevelopment.Base.TwoRuns
import LinuxDevelopment.Simplefs.Searches

/-!
# simplefs: two devices that agree on what is stored

Two images agree on the super block, on the counted entries of the store and on
the data behind them, and may differ anywhere else. `Known` states this for the
buffer caches of two mounted file systems with the same inodes in memory. It is
kept when the same bytes are stored on both sides, as long as a store into a
directory writes whole records, and a size word grows only over bytes that
agree.
-/

namespace LinuxDevelopment.Simplefs

open Volume

/-- The inodes in memory, by path. -/
abbrev Dentries := Path → Option VfsInode

/-- The images agree on `len` bytes of a block. -/
def Agree (c₁ c₂ : Image) (b off len : Nat) : Prop :=
  ∀ i, off ≤ i → i < off + len → c₁ b i = c₂ b i

/-- Store bytes into a block of an image. -/
def put (c : Image) (b off : Nat) (bytes : List UInt8) : Image :=
  Function.update c b ((c b).splice off bytes)

section Put

variable {c c₁ c₂ : Image} {b b' off off' len i : Nat} {bytes : List UInt8}

theorem put_of_ne (h : b' ≠ b) : put c b off bytes b' = c b' := Function.update_of_ne h _ _

theorem put_self : put c b off bytes b = (c b).splice off bytes := Function.update_self _ _ _

/-- The same store on both sides spoils no agreement. -/
theorem put_congr (h : c₁ b' i = c₂ b' i) : put c₁ b off bytes b' i = put c₂ b off bytes b' i := by
  by_cases hb : b' = b
  · subst hb
    rw [put_self, put_self]
    unfold Buffer.splice
    rw [h]
  · rw [put_of_ne hb, put_of_ne hb]
    exact h

theorem Agree.put (h : Agree c₁ c₂ b' off' len) :
    Agree (put c₁ b off bytes) (put c₂ b off bytes) b' off' len :=
  fun i hlo hhi => put_congr (h i hlo hhi)

/-- What is stored on both sides agrees. -/
theorem agree_put (c₁ c₂ : Image) (b off : Nat) (bytes : List UInt8) :
    Agree (Simplefs.put c₁ b off bytes) (Simplefs.put c₂ b off bytes) b off bytes.length := by
  intro i hlo hhi
  rw [put_self, put_self, Buffer.splice_of_inside hlo hhi, Buffer.splice_of_inside hlo hhi]

theorem Agree.bytesAt_eq (h : Agree c₁ c₂ b off len) :
    (c₁ b).bytesAt off len = (c₂ b).bytesAt off len :=
  Buffer.bytesAt_congr h

theorem Agree.sub (h : Agree c₁ c₂ b off len) (hlo : off ≤ off') {len' : Nat}
    (hhi : off' + len' ≤ off + len) : Agree c₁ c₂ b off' len' :=
  fun i h₁ h₂ => h i (by omega) (by omega)

theorem Agree.get64_eq (h : Agree c₁ c₂ b off 8) : (c₁ b).get64 off = (c₂ b).get64 off := by
  unfold Buffer.get64
  rw [h.bytesAt_eq]

end Put

/-- What the size word of an inode counts agrees: the bytes of a file, the names
and numbers in the records of a directory. -/
structure Backed (c₁ c₂ : Image) (q : SimplefsInode) : Prop where
  file : fopOf q.mode = some .file → Agree c₁ c₂ q.dataBlockNumber.toNat 0 q.fileSize.toNat
  fits : fopOf q.mode = some .dir → q.dirChildrenCount ≤ 15
  records : fopOf q.mode = some .dir → ∀ k < q.dirChildrenCount,
    recordIno (c₁ q.dataBlockNumber.toNat) k = recordIno (c₂ q.dataBlockNumber.toNat) k ∧
    recordName (c₁ q.dataBlockNumber.toNat) k = recordName (c₂ q.dataBlockNumber.toNat) k

/-- An inode of the file system, in memory or about to be: it has its entry. -/
structure Tracked (c₁ c₂ : Image) (q : SimplefsInode) : Prop where
  backed : Backed c₁ c₂ q
  stored : ∃ i < (inodesCount c₁).toNat, (entryAt c₁ i).Same q

/-- The caches of two file systems with the inodes `d` in memory agree on what is
stored. `K` are more positions at which they agree, and `E` are inodes that are
in the store and not in memory yet. -/
structure Known (K : Nat → Nat → Prop) (E : SimplefsInode → Prop) (c₁ c₂ : Image)
    (d : Dentries) : Prop where
  super : Agree c₁ c₂ 0 0 4096
  wf : (ofImage c₁).StoreWf
  store : Agree c₁ c₂ 1 0 (32 * (inodesCount c₁).toNat)
  entries : ∀ i < (inodesCount c₁).toNat, Backed c₁ c₂ (entryAt c₁ i)
  memory : ∀ p x q, d p = some x → x.iPrivate = some q →
    x.iFop = fopOf q.mode ∧ Tracked c₁ c₂ q
  pending : ∀ q, E q → Tracked c₁ c₂ q
  kept : ∀ b i, K b i → c₁ b i = c₂ b i

section Backed

variable {c₁ c₂ : Image} {q : SimplefsInode} {b off k : Nat} {bytes : List UInt8}

/-- A new file or directory has no data. -/
theorem backed_of_empty (h : q.fileSize = 0) : Backed c₁ c₂ q := by
  have hchildren : q.dirChildrenCount = 0 := congrArg UInt64.toNat h
  constructor
  case file =>
    intro _ i _ hi
    rw [h] at hi
    exact absurd hi (Nat.not_lt_zero _)
  case fits =>
    intro _
    rw [hchildren]
    exact Nat.zero_le _
  case records =>
    intro _ k hk
    rw [hchildren] at hk
    exact absurd hk (Nat.not_lt_zero _)

/-- Only a store into the block of a directory can move the end of a name. -/
theorem Backed.put (h : Backed c₁ c₂ q)
    (hb : fopOf q.mode = some .dir → q.dataBlockNumber.toNat ≠ b) :
    Backed (put c₁ b off bytes) (put c₂ b off bytes) q where
  file := fun hf => (h.file hf).put
  fits := h.fits
  records := by
    intro hd k hk
    rw [put_of_ne (hb hd), put_of_ne (hb hd)]
    exact h.records hd k hk

/-- Fill in the record with index `k` of a directory block. -/
def putRecord (c : Image) (b k : Nat) (ino : UInt64) (name : Name) : Image :=
  put (put c b (264 * k + 256) (toLE 8 ino.toNat)) b (264 * k) (cString name)

theorem putRecord_self (c : Image) (ino : UInt64) (name : Name) :
    putRecord c b k ino name b = withRecord (c b) k ino name := by
  unfold putRecord
  rw [put_self, put_self]
  rfl

theorem putRecord_of_ne {b' : Nat} (h : b' ≠ b) (c : Image) (ino : UInt64) (name : Name) :
    putRecord c b k ino name b' = c b' := by
  unfold putRecord
  rw [put_of_ne h, put_of_ne h]

/-- A record that is written on both sides agrees, and the others are not touched. -/
theorem record_putRecord {ino : UInt64} {name : Name} (hn : ValidName name) {b' j : Nat}
    (h : (b' = b ∧ j = k) ∨ (recordIno (c₁ b') j = recordIno (c₂ b') j ∧
      recordName (c₁ b') j = recordName (c₂ b') j)) :
    recordIno (putRecord c₁ b k ino name b') j = recordIno (putRecord c₂ b k ino name b') j ∧
      recordName (putRecord c₁ b k ino name b') j =
        recordName (putRecord c₂ b k ino name b') j := by
  by_cases hb : b' = b
  · subst hb
    rw [putRecord_self, putRecord_self]
    by_cases hj : j = k
    · subst hj
      rw [recordIno_withRecord_self hn, recordIno_withRecord_self hn,
        recordName_withRecord_self hn, recordName_withRecord_self hn]
      exact ⟨rfl, rfl⟩
    · rw [recordIno_withRecord_of_ne hn hj, recordIno_withRecord_of_ne hn hj,
        recordName_withRecord_of_ne hn hj, recordName_withRecord_of_ne hn hj]
      exact h.resolve_left fun heq => hj heq.2
  · rw [putRecord_of_ne hb, putRecord_of_ne hb]
    exact h.resolve_left fun heq => hb heq.1

theorem Backed.putRecord {ino : UInt64} {name : Name} (h : Backed c₁ c₂ q) (hn : ValidName name) :
    Backed (putRecord c₁ b k ino name) (putRecord c₂ b k ino name) q where
  file := fun hf => (h.file hf).put.put
  fits := h.fits
  records := fun hd j hj => record_putRecord hn (.inr (h.records hd j hj))

end Backed

namespace Known

variable {K : Nat → Nat → Prop} {E : SimplefsInode → Prop} {c₁ c₂ a₁ a₂ : Image} {d : Dentries}
  {q e : SimplefsInode} {p : Path} {x : VfsInode} {b off i k : Nat} {bytes : List UInt8}

theorem count_le (h : Known K E c₁ c₂ d) : (inodesCount c₁).toNat ≤ 64 := h.wf.count_le

theorem inodesCount_eq (h : Known K E c₁ c₂ d) : inodesCount c₂ = inodesCount c₁ := by
  have hag : Agree c₁ c₂ 0 24 8 := h.super.sub (Nat.zero_le _) (by decide)
  exact hag.get64_eq.symm

theorem entryAt_eq (h : Known K E c₁ c₂ d) (hi : i < (inodesCount c₁).toNat) :
    entryAt c₂ i = entryAt c₁ i := by
  unfold entryAt inodeAt
  have hag : Agree c₁ c₂ 1 (32 * i) 32 := h.store.sub (Nat.zero_le _) (by omega)
  rw [hag.bytesAt_eq]

/-- Both sides find a number at the same entry. -/
theorem findEntry_eq (h : Known K E c₁ c₂ d) (ino : UInt64) :
    findEntry c₂ ino = findEntry c₁ ino := by
  unfold findEntry
  rw [h.inodesCount_eq]
  apply List.find?_congr
  intro i hi
  rw [h.entryAt_eq (by simpa using hi)]

/-- The block of a tracked inode is a data block. -/
theorem block_ge (h : Known K E c₁ c₂ d) (ht : Tracked c₁ c₂ q) : 2 ≤ q.dataBlockNumber.toNat := by
  obtain ⟨i, hi, hs⟩ := ht.stored
  rw [← hs.dataBlockNumber]
  exact h.wf.block_ge i hi

/-- A file and a directory have different blocks. -/
theorem block_ne (h : Known K E c₁ c₂ d) (hq : Tracked c₁ c₂ q) (he : Tracked c₁ c₂ e)
    (hf : fopOf q.mode = some .file) (hd : fopOf e.mode = some .dir) :
    e.dataBlockNumber.toNat ≠ q.dataBlockNumber.toNat := by
  obtain ⟨i, hi, hsq⟩ := hq.stored
  obtain ⟨j, hj, hse⟩ := he.stored
  intro heq
  have hij : i = j := by
    refine h.wf.block_inj i hi j hj ?_
    rw [ofImage_entry, hsq.dataBlockNumber, hse.dataBlockNumber]
    exact (UInt64.toNat_inj.mp heq).symm
  subst hij
  rw [← hsq.mode, hse.mode, hd] at hf
  exact nomatch hf

/-- Entries are tracked. -/
theorem tracked_entry (h : Known K E c₁ c₂ d) (hi : i < (inodesCount c₁).toNat) :
    Tracked c₁ c₂ (entryAt c₁ i) :=
  ⟨h.entries i hi, i, hi, .refl _⟩

/-- A change of the images that keeps track of the inodes in memory. -/
theorem retrack {E' : SimplefsInode → Prop} (h : Known K E c₁ c₂ d) (hwf : (ofImage a₁).StoreWf)
    (hstore : Agree a₁ a₂ 1 0 (32 * (inodesCount a₁).toNat))
    (hentries : ∀ i < (inodesCount a₁).toNat, Backed a₁ a₂ (entryAt a₁ i))
    (htracked : ∀ q, Tracked c₁ c₂ q → Tracked a₁ a₂ q) (hpending : ∀ q, E' q → Tracked a₁ a₂ q)
    (hkept : ∀ b i, c₁ b i = c₂ b i → a₁ b i = a₂ b i) : Known K E' a₁ a₂ d where
  super := fun i hlo hhi => hkept 0 i (h.super i hlo hhi)
  wf := hwf
  store := hstore
  entries := hentries
  memory := by
    intro p x q hx hq
    obtain ⟨hfop, ht⟩ := h.memory p x q hx hq
    exact ⟨hfop, htracked q ht⟩
  pending := hpending
  kept := fun b i hK => hkept b i (h.kept b i hK)

theorem images (h : Known K E c₁ c₂ d) (hwf : (ofImage a₁).StoreWf)
    (hstore : Agree a₁ a₂ 1 0 (32 * (inodesCount a₁).toNat))
    (hentries : ∀ i < (inodesCount a₁).toNat, Backed a₁ a₂ (entryAt a₁ i))
    (htracked : ∀ q, Tracked c₁ c₂ q → Tracked a₁ a₂ q)
    (hkept : ∀ b i, c₁ b i = c₂ b i → a₁ b i = a₂ b i) : Known K E a₁ a₂ d :=
  h.retrack hwf hstore hentries htracked (fun q hq => htracked q (h.pending q hq)) hkept

/-- A store into data blocks. -/
theorem data (h : Known K E c₁ c₂ d) (h₁ : ∀ b < 2, a₁ b = c₁ b)
    (hbacked : ∀ q, Tracked c₁ c₂ q → Backed a₁ a₂ q)
    (hkept : ∀ b i, c₁ b i = c₂ b i → a₁ b i = a₂ b i) : Known K E a₁ a₂ d := by
  have hcount : inodesCount a₁ = inodesCount c₁ := by
    unfold inodesCount
    rw [h₁ 0 (by decide)]
  have hfree : freeBlocks a₁ = freeBlocks c₁ := by
    unfold freeBlocks
    rw [h₁ 0 (by decide)]
  have hentry : ∀ i, entryAt a₁ i = entryAt c₁ i := by
    intro i
    unfold entryAt
    rw [h₁ 1 (by decide)]
  refine h.images ?_ ?_ ?_ ?_ hkept
  · refine h.wf.mono (congrArg UInt64.toNat hcount) ?_ ?_
    · intro b hb
      rw [ofImage_free, hfree]
      exact hb
    · intro i _
      rw [ofImage_entry, ofImage_entry, hentry]
      exact .refl _
  · rw [hcount]
    exact fun i hlo hhi => hkept 1 i (h.store i hlo hhi)
  · intro i hi
    rw [hcount] at hi
    rw [hentry]
    exact hbacked _ (h.tracked_entry hi)
  · intro q hq
    obtain ⟨i, hi, hs⟩ := hq.stored
    exact ⟨hbacked q hq, i, by rwa [hcount], by rwa [hentry]⟩

/-- Bytes are written into the block of a file. -/
theorem putFile (h : Known K E c₁ c₂ d) (hq : Tracked c₁ c₂ q) (hf : fopOf q.mode = some .file) :
    Known K E (put c₁ q.dataBlockNumber.toNat off bytes)
      (put c₂ q.dataBlockNumber.toNat off bytes) d := by
  have hb := h.block_ge hq
  refine h.data (fun b hlt => put_of_ne (by omega)) ?_ fun b i => put_congr
  intro e he
  exact he.backed.put fun hd => h.block_ne hq he hf hd

/-- A record is written into the block of a directory. -/
theorem putRecord {ino : UInt64} {name : Name} (h : Known K E c₁ c₂ d) (hq : Tracked c₁ c₂ q)
    (hn : ValidName name) :
    Known K E (putRecord c₁ q.dataBlockNumber.toNat k ino name)
      (putRecord c₂ q.dataBlockNumber.toNat k ino name) d := by
  have hb := h.block_ge hq
  refine h.data (fun b hlt => putRecord_of_ne (by omega) _ _ _) ?_
    fun b i heq => put_congr (put_congr heq)
  intro e he
  exact he.backed.putRecord hn

/-- A store into a metadata block does not touch the data of an inode. -/
theorem backed_put (h : Known K E c₁ c₂ d) (hq : Tracked c₁ c₂ q) (hb : b < 2) :
    Backed (put c₁ b off bytes) (put c₂ b off bytes) q := by
  have hge := h.block_ge hq
  exact hq.backed.put fun _ => by omega

/-- Blocks are taken out of the free map. -/
theorem setFree (h : Known K E c₁ c₂ d) (m : UInt64) :
    Known K E (setFree c₁ (freeBlocks c₁ &&& m)) (setFree c₂ (freeBlocks c₁ &&& m)) d := by
  have hcount : inodesCount (Simplefs.setFree c₁ (freeBlocks c₁ &&& m)) = inodesCount c₁ :=
    inodesCount_setFree
  refine h.images ?_ ?_ ?_ ?_ fun b i => put_congr
  · refine h.wf.mono (congrArg UInt64.toNat hcount) ?_ ?_
    · intro b hb
      rw [ofImage_free, freeBlocks_setFree]
      exact hb.and m
    · intro i _
      rw [ofImage_entry, entryAt_setFree]
      exact .refl _
  · rw [hcount]
    exact h.store.put
  · intro i hi
    rw [hcount] at hi
    rw [entryAt_setFree]
    exact h.backed_put (h.tracked_entry hi) (by decide)
  · intro q hq
    obtain ⟨i, hi, hs⟩ := hq.stored
    exact ⟨h.backed_put hq (by decide), i, by rwa [hcount], by rwa [entryAt_setFree]⟩

/-- An entry is replaced by the inode it belongs to. -/
theorem setEntry (h : Known K E c₁ c₂ d) (hi : i < (inodesCount c₁).toNat)
    (hs : (entryAt c₁ i).Same q) (hq : Backed c₁ c₂ q) :
    Known K E (setEntry c₁ i q) (setEntry c₂ i q) d := by
  have hcount : inodesCount (Simplefs.setEntry c₁ i q) = inodesCount c₁ := inodesCount_setEntry
  have hsame : ∀ j, (entryAt (Simplefs.setEntry c₁ i q) j).Same (entryAt c₁ j) := by
    intro j
    by_cases hj : j = i
    · subst hj
      rw [entryAt_setEntry_self]
      exact hs.symm
    · rw [entryAt_setEntry_of_ne hj]
      exact .refl _
  refine h.images ?_ ?_ ?_ ?_ fun b i => put_congr
  · refine h.wf.mono (congrArg UInt64.toNat hcount) ?_ fun j _ => hsame j
    intro b hb
    rw [ofImage_free, freeBlocks_setEntry]
    exact hb
  · rw [hcount]
    exact h.store.put
  · intro j hj
    rw [hcount] at hj
    by_cases hji : j = i
    · subst hji
      rw [entryAt_setEntry_self]
      exact h.backed_put ⟨hq, j, hj, hs⟩ (by decide)
    · rw [entryAt_setEntry_of_ne hji]
      exact h.backed_put (h.tracked_entry hj) (by decide)
  · intro e he
    obtain ⟨j, hj, hse⟩ := he.stored
    exact ⟨h.backed_put he (by decide), j, by rwa [hcount], (hsame j).trans hse⟩

/-- An entry is appended to the store; the inode is not in memory yet. -/
theorem addEntry (h : Known K E c₁ c₂ d) (a : (ofImage c₁).Addable e) :
    Known K (· = e)
      (setCount (Simplefs.setEntry c₁ (inodesCount c₁).toNat e) (inodesCount c₁ + 1))
      (setCount (Simplefs.setEntry c₂ (inodesCount c₁).toNat e) (inodesCount c₁ + 1)) d := by
  have hroom : (inodesCount c₁).toNat < 64 := a.room
  have hcount : (inodesCount c₁ + 1).toNat = (inodesCount c₁).toNat + 1 := by
    rw [UInt64.toNat_add]
    change ((inodesCount c₁).toNat + 1) % 2 ^ 64 = _
    omega
  have hnew : ∀ c, entryAt (setCount (Simplefs.setEntry c (inodesCount c₁).toNat e)
      (inodesCount c₁ + 1)) (inodesCount c₁).toNat = e := by
    intro c
    rw [entryAt_setCount, entryAt_setEntry_self]
  have hold : ∀ i < (inodesCount c₁).toNat, entryAt (setCount (Simplefs.setEntry c₁
      (inodesCount c₁).toNat e) (inodesCount c₁ + 1)) i = entryAt c₁ i := by
    intro i hi
    rw [entryAt_setCount, entryAt_setEntry_of_ne (Nat.ne_of_lt hi)]
  have htracked : ∀ q, Tracked c₁ c₂ q →
      Tracked (setCount (Simplefs.setEntry c₁ (inodesCount c₁).toNat e) (inodesCount c₁ + 1))
        (setCount (Simplefs.setEntry c₂ (inodesCount c₁).toNat e) (inodesCount c₁ + 1)) q := by
    intro q hq
    have hge := h.block_ge hq
    obtain ⟨i, hi, hs⟩ := hq.stored
    refine ⟨(hq.backed.put fun _ => by omega).put fun _ => by omega, i, ?_, ?_⟩
    · rw [inodesCount_setCount, hcount]
      omega
    · rwa [hold i hi]
  refine h.retrack ?_ ?_ ?_ htracked ?_ fun b i heq => put_congr (put_congr heq)
  · refine (h.wf.add a).mono ?_ ?_ ?_
    · rw [ofImage_count, inodesCount_setCount, hcount]
      rfl
    · intro b hb
      rw [ofImage_free, freeBlocks_setCount, freeBlocks_setEntry]
      exact hb
    · intro i hi
      rw [ofImage_entry]
      rcases add_cases hi with hi | hlast
      · rw [hold i hi, add_entry_of_lt hi]
        exact .refl _
      · rw [hlast, add_entry_count, ofImage_count, hnew]
        exact .refl _
  · rw [inodesCount_setCount, hcount]
    intro i hlo hhi
    apply put_congr
    by_cases hi : i < 32 * (inodesCount c₁).toNat
    · exact put_congr (h.store i hlo (by omega))
    · exact agree_put c₁ c₂ 1 (32 * (inodesCount c₁).toNat) e.encode i (by omega)
        (by rw [SimplefsInode.length_encode]; omega)
  · intro i hi
    rw [inodesCount_setCount, hcount] at hi
    by_cases hlt : i < (inodesCount c₁).toNat
    · rw [hold i hlt]
      exact (htracked _ (h.tracked_entry hlt)).backed
    · have hlast : i = (inodesCount c₁).toNat := by omega
      rw [hlast, hnew]
      exact backed_of_empty a.empty
  · rintro q rfl
    refine ⟨backed_of_empty a.empty, (inodesCount c₁).toNat, ?_, ?_⟩
    · rw [inodesCount_setCount, hcount]
      omega
    · rw [hnew]
      exact .refl _

/-- An inode is attached to a dentry. -/
theorem dAdd (h : Known K E c₁ c₂ d)
    (hx : ∀ q, x.iPrivate = some q → x.iFop = fopOf q.mode ∧ Tracked c₁ c₂ q) :
    Known K E c₁ c₂ (Function.update d p (some x)) := by
  refine ⟨h.super, h.wf, h.store, h.entries, ?_, h.pending, h.kept⟩
  intro p' x' q hx' hq
  by_cases hp : p' = p
  · rw [hp, Function.update_self] at hx'
    cases hx'
    exact hx q hq
  · rw [Function.update_of_ne hp] at hx'
    exact h.memory p' x' q hx' hq

end Known

/-- The size word of the inode behind a dentry is changed. -/
def resize (d : Dentries) (p : Path) (v : UInt64) : Dentries :=
  Function.update d p ((d p).map fun x =>
    { x with iPrivate := x.iPrivate.map fun q => { q with fileSize := v } })

/-- `SIMPLEFS_INODE` of the inode behind a dentry. -/
def inMemory (d : Dentries) (p : Path) : Option SimplefsInode := (d p).bind VfsInode.iPrivate

section Memory

variable {K : Nat → Nat → Prop} {E : SimplefsInode → Prop} {c₁ c₂ : Image} {d : Dentries}
  {q : SimplefsInode} {p : Path} {v : UInt64}

theorem Known.tracked (h : Known K E c₁ c₂ d) (hq : inMemory d p = some q) : Tracked c₁ c₂ q := by
  obtain ⟨x, hx, hprivate⟩ := Option.bind_eq_some_iff.mp hq
  exact (h.memory p x q hx hprivate).2

theorem Known.resize (h : Known K E c₁ c₂ d) (hq : inMemory d p = some q)
    (hb : Backed c₁ c₂ { q with fileSize := v }) : Known K E c₁ c₂ (resize d p v) := by
  obtain ⟨x, hx, hprivate⟩ := Option.bind_eq_some_iff.mp hq
  obtain ⟨hfop, ht⟩ := h.memory p x q hx hprivate
  unfold Simplefs.resize
  rw [hx, Option.map_some]
  refine h.dAdd ?_
  intro e he
  rw [hprivate] at he
  cases he
  obtain ⟨i, hi, hs⟩ := ht.stored
  exact ⟨hfop, hb, i, hi, hs.mode, hs.inodeNo, hs.dataBlockNumber⟩

end Memory

end LinuxDevelopment.Simplefs
