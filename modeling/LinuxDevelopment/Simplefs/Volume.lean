import LinuxDevelopment.Simplefs.Execution

/-!
# simplefs: volumes and their consistency

A volume is what the metadata blocks of an image decode to: the number of
store entries, the free map, the entries and the directory blocks. `Wf` is the
consistency that the module needs and keeps; it is stated about volumes, so
that it can be used for the buffer cache, for the cache corrected by the
in-memory inodes, and for what a crash leaves on the device.
-/

namespace LinuxDevelopment.Simplefs

section FreeMap

variable {free : UInt64} {b i left : Nat}

/-- The scan of the free map never hands out the block again. A block above 30
is only handed out when the mask of 31, which covers the upper half of the
map, has become empty. -/
structure Taken (free : UInt64) (b : Nat) : Prop where
  own : 3 ≤ b → free &&& freeblockMask b = 0
  high : 31 ≤ b → free &&& freeblockMask 31 = 0

theorem and_and_eq_zero {m : UInt64} (x : UInt64) (h : free &&& m = 0) : free &&& x &&& m = 0 := by
  rw [UInt64.and_assoc, UInt64.and_comm x m, ← UInt64.and_assoc, h, UInt64.zero_and]

theorem and_not_and_self (free m : UInt64) : free &&& ~~~m &&& m = 0 := by
  rw [UInt64.and_assoc, UInt64.and_comm (~~~m) m, UInt64.and_not_self, UInt64.and_zero]

/-- A map with fewer free blocks. -/
theorem Taken.and (h : Taken free b) (x : UInt64) : Taken (free &&& x) b where
  own := fun hb => and_and_eq_zero x (h.own hb)
  high := fun hb => and_and_eq_zero x (h.high hb)

theorem freeblockLoop_spec :
    i ≤ freeblockLoop free left i ∧ freeblockLoop free left i ≤ i + left ∧
      (∀ j, i ≤ j → j < freeblockLoop free left i → free &&& freeblockMask j = 0) ∧
      (freeblockLoop free left i < i + left →
        free &&& freeblockMask (freeblockLoop free left i) ≠ 0) := by
  induction left generalizing i with
  | zero =>
      simp only [freeblockLoop]
      exact ⟨Nat.le_refl _, Nat.le_refl _, fun j h₁ h₂ => by omega, fun h => by omega⟩
  | succ left ih =>
      by_cases h : free &&& freeblockMask i ≠ 0
      · simp only [freeblockLoop, if_pos h]
        exact ⟨Nat.le_refl _, by omega, fun j h₁ h₂ => by omega, fun _ => h⟩
      · obtain ⟨hlo, hhi, hzero, hset⟩ := @ih (i + 1)
        simp only [freeblockLoop, if_neg h]
        refine ⟨by omega, by omega, ?_, fun hlt => hset (by omega)⟩
        intro j h₁ h₂
        by_cases hj : j = i
        · subst hj
          exact not_not.mp h
        · exact hzero j (by omega) h₂

theorem freeblockScan_ge (free : UInt64) : 3 ≤ freeblockScan free :=
  freeblockLoop_spec.1

theorem freeblockScan_le (free : UInt64) : freeblockScan free ≤ 64 :=
  freeblockLoop_spec.2.1

theorem toNat_newEntry_block (img : Image) (mode : UInt16) :
    (newEntry img mode).dataBlockNumber.toNat = freeblockScan (freeBlocks img) := by
  have hle := freeblockScan_le (freeBlocks img)
  change (UInt64.ofNat (freeblockScan (freeBlocks img))).toNat = _
  rw [UInt64.toNat_ofNat_of_lt']
  change _ < 2 ^ 64
  omega

theorem and_mask_of_lt_scan {j : Nat} (h₁ : 3 ≤ j) (h₂ : j < freeblockScan free) :
    free &&& freeblockMask j = 0 :=
  freeblockLoop_spec.2.2.1 j h₁ h₂

theorem and_mask_scan (h : freeblockScan free ≠ 64) :
    free &&& freeblockMask (freeblockScan free) ≠ 0 := by
  have hle := freeblockScan_le free
  exact freeblockLoop_spec.2.2.2 (by change freeblockScan free < 3 + (64 - 3); omega)

/-- The map after the scan has handed out a block. -/
def freeAfter (free : UInt64) : UInt64 := free &&& ~~~freeblockMask (freeblockScan free)

theorem taken_scan : Taken (freeAfter free) (freeblockScan free) where
  own := fun _ => and_not_and_self _ _
  high := by
    intro h
    by_cases heq : freeblockScan free = 31
    · rw [freeAfter, heq]
      exact and_not_and_self _ _
    · exact and_and_eq_zero _ (and_mask_of_lt_scan (by omega) (by omega))

theorem scan_ne_of_taken (h : Taken free b) (hs : freeblockScan free ≠ 64) :
    freeblockScan free ≠ b := by
  rintro rfl
  exact and_mask_scan hs (h.own (freeblockScan_ge free))

/-- Handing out a block always changes the map. -/
theorem freeAfter_ne (hs : freeblockScan free ≠ 64) : freeAfter free ≠ free := by
  intro heq
  apply and_mask_scan hs
  have h := and_not_and_self free (freeblockMask (freeblockScan free))
  rwa [← freeAfter, heq] at h

end FreeMap

/-- The bytes of a directory block in which the record `k` is filled in. -/
def withRecord (b : Buffer) (k : Nat) (ino : UInt64) (name : Name) : Buffer :=
  (b.splice (264 * k + 256) (toLE 8 ino.toNat)).splice (264 * k) (cString name)

section WithRecord

variable {b : Buffer} {k c : Nat} {ino : UInt64} {name : Name}

theorem recordIno_withRecord_self (hn : ValidName name) :
    recordIno (withRecord b k ino name) k = ino := by
  have hlen := length_cString_le hn
  unfold recordIno withRecord
  rw [Buffer.get64_splice_outside (by omega), Buffer.get64_splice_self]

/-- A name of 255 bytes has its terminator in the padding byte, in front of the number. -/
theorem recordName_withRecord_self (hn : ValidName name) :
    recordName (withRecord b k ino name) k = name := by
  unfold recordName withRecord
  rw [cString_of_nulFree hn.nulFree]
  exact Buffer.cStringAt_eq_of_hasCString hn.nulFree (Nat.lt_succ_of_le hn.le)
    (Buffer.hasCString_splice_self name)

theorem recordIno_withRecord_of_ne (hn : ValidName name) (hc : c ≠ k) :
    recordIno (withRecord b k ino name) c = recordIno b c := by
  have hlen := length_cString_le hn
  unfold withRecord
  rw [recordIno_splice_outside (by omega), recordIno_splice_outside (by simp; omega)]

theorem recordName_withRecord_of_ne (hn : ValidName name) (hc : c ≠ k) :
    recordName (withRecord b k ino name) c = recordName b c := by
  have hlen := length_cString_le hn
  unfold withRecord
  rw [recordName_splice_outside (by omega), recordName_splice_outside (by simp; omega)]

end WithRecord

/-- The same file or directory: all but the size word. -/
structure SimplefsInode.Same (a b : SimplefsInode) : Prop where
  mode : a.mode = b.mode
  inodeNo : a.inodeNo = b.inodeNo
  dataBlockNumber : a.dataBlockNumber = b.dataBlockNumber

theorem SimplefsInode.Same.refl (a : SimplefsInode) : a.Same a := ⟨rfl, rfl, rfl⟩

theorem SimplefsInode.Same.symm {a b : SimplefsInode} (h : a.Same b) : b.Same a :=
  ⟨h.mode.symm, h.inodeNo.symm, h.dataBlockNumber.symm⟩

theorem SimplefsInode.Same.trans {a b c : SimplefsInode} (h₁ : a.Same b) (h₂ : b.Same c) :
    a.Same c :=
  ⟨h₁.mode.trans h₂.mode, h₁.inodeNo.trans h₂.inodeNo,
    h₁.dataBlockNumber.trans h₂.dataBlockNumber⟩

/-- What the metadata of an image decodes to. -/
structure Volume where
  count : Nat
  free : UInt64
  entry : Nat → SimplefsInode
  block : Image

namespace Volume

/-- The volume in the blocks of an image. -/
@[simps -fullyApplied] def ofImage (img : Image) : Volume where
  count := (inodesCount img).toNat
  free := freeBlocks img
  entry := entryAt img
  block := img

section Records

variable (v : Volume) (i k : Nat)

/-- The data block of the entry with index `i`. -/
def data : Buffer := v.block (v.entry i).dataBlockNumber.toNat

/-- The record with index `k` of the directory entry `i` is counted. -/
def Live : Prop :=
  i < v.count ∧ sIsdir (v.entry i).mode = true ∧ k < (v.entry i).dirChildrenCount

/-- The inode number in a record. -/
def childIno : UInt64 := recordIno (v.data i) k

/-- The file name in a record. -/
def childName : Name := recordName (v.data i) k

end Records

/-- A consistent inode store. -/
structure StoreWf (v : Volume) : Prop where
  count_le : v.count ≤ 64
  ino_inj : ∀ i < v.count, ∀ j < v.count, (v.entry i).inodeNo = (v.entry j).inodeNo → i = j
  /-- the number handed out next is not in use -/
  ino_lt : ∀ i < v.count, (v.entry i).inodeNo.toNat < v.count + 8
  block_inj : ∀ i < v.count, ∀ j < v.count,
    (v.entry i).dataBlockNumber = (v.entry j).dataBlockNumber → i = j
  block_ge : ∀ i < v.count, 2 ≤ (v.entry i).dataBlockNumber.toNat
  taken : ∀ i < v.count, Taken v.free (v.entry i).dataBlockNumber.toNat
  kind : ∀ i < v.count, sIsdir (v.entry i).mode = true ∨ sIsreg (v.entry i).mode = true
  root : ∃ i < v.count, (v.entry i).inodeNo = 1 ∧ sIsdir (v.entry i).mode = true

/-- A consistent volume: the store, and the records of its directories. -/
structure Wf (v : Volume) : Prop extends v.StoreWf where
  size_le : ∀ i < v.count, sIsreg (v.entry i).mode = true → (v.entry i).fileSize.toNat ≤ 4096
  children_le : ∀ i < v.count, sIsdir (v.entry i).mode = true → (v.entry i).dirChildrenCount ≤ 15
  /-- a record names an entry other than the root -/
  named : ∀ i k, v.Live i k →
    v.childIno i k ≠ 1 ∧ ∃ j < v.count, (v.entry j).inodeNo = v.childIno i k
  /-- no inode is named twice -/
  unique : ∀ i k i' k', v.Live i k → v.Live i' k' → v.childIno i k = v.childIno i' k' →
    i = i' ∧ k = k'
  name_valid : ∀ i k, v.Live i k → ValidName (v.childName i k)
  name_inj : ∀ i k k', v.Live i k → v.Live i k' → v.childName i k = v.childName i k' → k = k'

/-- Every entry but the root is named by a record of an older directory. -/
def Rooted (v : Volume) : Prop :=
  ∀ j < v.count, (v.entry j).inodeNo ≠ 1 → ∃ i < j, ∃ k, v.Live i k ∧
    v.childIno i k = (v.entry j).inodeNo

variable {v v' : Volume} {i j k : Nat}

/-- The consistency of the store depends on the identity of the entries, and is
kept when blocks are taken. -/
theorem StoreWf.mono (h : v.StoreWf) (hcount : v'.count = v.count)
    (hfree : ∀ b, Taken v.free b → Taken v'.free b)
    (hsame : ∀ i < v.count, (v'.entry i).Same (v.entry i)) : v'.StoreWf := by
  constructor
  case count_le => rw [hcount]; exact h.count_le
  case ino_inj =>
    intro i hi j hj heq
    rw [hcount] at hi hj
    rw [(hsame i hi).inodeNo, (hsame j hj).inodeNo] at heq
    exact h.ino_inj i hi j hj heq
  case ino_lt =>
    intro i hi
    rw [hcount] at hi ⊢
    rw [(hsame i hi).inodeNo]
    exact h.ino_lt i hi
  case block_inj =>
    intro i hi j hj heq
    rw [hcount] at hi hj
    rw [(hsame i hi).dataBlockNumber, (hsame j hj).dataBlockNumber] at heq
    exact h.block_inj i hi j hj heq
  case block_ge =>
    intro i hi
    rw [hcount] at hi
    rw [(hsame i hi).dataBlockNumber]
    exact h.block_ge i hi
  case taken =>
    intro i hi
    rw [hcount] at hi
    rw [(hsame i hi).dataBlockNumber]
    exact hfree _ (h.taken i hi)
  case kind =>
    intro i hi
    rw [hcount] at hi
    rw [(hsame i hi).mode]
    exact h.kind i hi
  case root =>
    obtain ⟨i, hi, hno, hd⟩ := h.root
    refine ⟨i, by rw [hcount]; exact hi, ?_, ?_⟩
    · rw [(hsame i hi).inodeNo, hno]
    · rw [(hsame i hi).mode, hd]

/-- Consistency only depends on the identity of the entries and on the records
that are counted; it is kept when blocks are taken, and when directories count
fewer records. -/
theorem Wf.mono (h : v.Wf) (hcount : v'.count = v.count)
    (hfree : ∀ b, Taken v.free b → Taken v'.free b)
    (hsame : ∀ i < v.count, (v'.entry i).Same (v.entry i))
    (hsize : ∀ i < v.count, sIsreg (v.entry i).mode = true →
      (v'.entry i).fileSize.toNat ≤ 4096)
    (hchildren : ∀ i < v.count, sIsdir (v.entry i).mode = true →
      (v'.entry i).dirChildrenCount ≤ (v.entry i).dirChildrenCount)
    (hrec : ∀ i k, v'.Live i k →
      v'.childIno i k = v.childIno i k ∧ v'.childName i k = v.childName i k) : v'.Wf := by
  have hlive : ∀ i k, v'.Live i k → v.Live i k := by
    intro i k ⟨hi, hd, hk⟩
    rw [hcount] at hi
    rw [(hsame i hi).mode] at hd
    exact ⟨hi, hd, Nat.lt_of_lt_of_le hk (hchildren i hi hd)⟩
  constructor
  case toStoreWf => exact h.toStoreWf.mono hcount hfree hsame
  case size_le =>
    intro i hi hr
    rw [hcount] at hi
    rw [(hsame i hi).mode] at hr
    exact hsize i hi hr
  case children_le =>
    intro i hi hd
    rw [hcount] at hi
    rw [(hsame i hi).mode] at hd
    exact (hchildren i hi hd).trans (h.children_le i hi hd)
  case named =>
    intro i k hl
    obtain ⟨hne, j, hj, hno⟩ := h.named i k (hlive i k hl)
    rw [(hrec i k hl).1, hcount]
    exact ⟨hne, j, hj, by rw [(hsame j hj).inodeNo, hno]⟩
  case unique =>
    intro i k i' k' hl hl' heq
    rw [(hrec i k hl).1, (hrec i' k' hl').1] at heq
    exact h.unique i k i' k' (hlive i k hl) (hlive i' k' hl') heq
  case name_valid =>
    intro i k hl
    rw [(hrec i k hl).2]
    exact h.name_valid i k (hlive i k hl)
  case name_inj =>
    intro i k k' hl hl' heq
    rw [(hrec i k hl).2, (hrec i k' hl').2] at heq
    exact h.name_inj i k k' (hlive i k hl) (hlive i k' hl') heq

section Updates

variable (v)

/-- Hand out a block. -/
@[simps -fullyApplied] def alloc : Volume := { v with free := freeAfter v.free }

/-- Append an entry. -/
@[simps -fullyApplied] def add (e : SimplefsInode) : Volume :=
  { v with count := v.count + 1, entry := Function.update v.entry v.count e }

/-- Replace a data block. -/
@[simps -fullyApplied] def setBlock (b : Nat) (buf : Buffer) : Volume :=
  { v with block := Function.update v.block b buf }

/-- Change the size word of an entry. -/
@[simps -fullyApplied] def setSize (i : Nat) (s : UInt64) : Volume :=
  { v with entry := Function.update v.entry i { v.entry i with fileSize := s } }

end Updates

/-- A new entry fits into the volume. -/
structure Addable (v : Volume) (e : SimplefsInode) : Prop where
  room : v.count < 64
  ino : e.inodeNo.toNat = v.count + 8
  placed : 3 ≤ e.dataBlockNumber.toNat ∧ e.dataBlockNumber.toNat < 64
  taken : Taken v.free e.dataBlockNumber.toNat
  unused : ∀ i < v.count, (v.entry i).dataBlockNumber ≠ e.dataBlockNumber
  kind : sIsdir e.mode = true ∨ sIsreg e.mode = true
  empty : e.fileSize = 0

theorem Wf.alloc (h : v.Wf) : v.alloc.Wf :=
  h.mono rfl (fun _ hb => hb.and _) (fun _ _ => .refl _) h.size_le (fun _ _ _ => Nat.le_refl _)
    (fun _ _ _ => ⟨rfl, rfl⟩)

section Add

variable {e : SimplefsInode}

theorem add_entry_of_lt (hi : i < v.count) : (v.add e).entry i = v.entry i :=
  Function.update_of_ne (Nat.ne_of_lt hi) _ _

theorem add_entry_count : (v.add e).entry v.count = e := Function.update_self _ _ _

/-- An index of the longer store is an old one or the new one. -/
theorem add_cases (hi : i < (v.add e).count) : i < v.count ∨ i = v.count := by
  change i < v.count + 1 at hi
  omega

theorem add_live_iff (a : v.Addable e) : (v.add e).Live i k ↔ v.Live i k := by
  constructor
  · rintro ⟨hi, hd, hk⟩
    rcases add_cases hi with hi | rfl
    · rw [add_entry_of_lt hi] at hd hk
      exact ⟨hi, hd, hk⟩
    · rw [add_entry_count, SimplefsInode.dirChildrenCount, a.empty] at hk
      exact absurd hk (Nat.not_lt_zero _)
  · rintro ⟨hi, hd, hk⟩
    refine ⟨Nat.lt_succ_of_lt hi, ?_, ?_⟩
    · rw [add_entry_of_lt hi]
      exact hd
    · rw [add_entry_of_lt hi]
      exact hk

theorem add_childIno (hi : i < v.count) : (v.add e).childIno i k = v.childIno i k := by
  unfold childIno data
  rw [add_entry_of_lt hi]
  rfl

theorem add_childName (hi : i < v.count) : (v.add e).childName i k = v.childName i k := by
  unfold childName data
  rw [add_entry_of_lt hi]
  rfl

theorem Addable.ino_ne (h : v.StoreWf) (a : v.Addable e) (hi : i < v.count) :
    (v.entry i).inodeNo ≠ e.inodeNo := by
  intro heq
  have hlt := h.ino_lt i hi
  rw [heq, a.ino] at hlt
  exact Nat.lt_irrefl _ hlt

theorem StoreWf.add (h : v.StoreWf) (a : v.Addable e) : (v.add e).StoreWf := by
  constructor
  case count_le => exact a.room
  case ino_inj =>
    intro i hi j hj heq
    rcases add_cases hi with hi | rfl <;> rcases add_cases hj with hj | rfl
    · rw [add_entry_of_lt hi, add_entry_of_lt hj] at heq
      exact h.ino_inj i hi j hj heq
    · rw [add_entry_of_lt hi, add_entry_count] at heq
      exact absurd heq (a.ino_ne h hi)
    · rw [add_entry_count, add_entry_of_lt hj] at heq
      exact absurd heq.symm (a.ino_ne h hj)
    · rfl
  case ino_lt =>
    intro i hi
    change _ < v.count + 1 + 8
    rcases add_cases hi with hi | rfl
    · rw [add_entry_of_lt hi]
      have := h.ino_lt i hi
      omega
    · rw [add_entry_count, a.ino]
      omega
  case block_inj =>
    intro i hi j hj heq
    rcases add_cases hi with hi | rfl <;> rcases add_cases hj with hj | rfl
    · rw [add_entry_of_lt hi, add_entry_of_lt hj] at heq
      exact h.block_inj i hi j hj heq
    · rw [add_entry_of_lt hi, add_entry_count] at heq
      exact absurd heq (a.unused i hi)
    · rw [add_entry_count, add_entry_of_lt hj] at heq
      exact absurd heq.symm (a.unused j hj)
    · rfl
  case block_ge =>
    intro i hi
    rcases add_cases hi with hi | rfl
    · rw [add_entry_of_lt hi]
      exact h.block_ge i hi
    · rw [add_entry_count]
      exact Nat.le_of_succ_le a.placed.1
  case taken =>
    intro i hi
    rcases add_cases hi with hi | rfl
    · rw [add_entry_of_lt hi]
      exact h.taken i hi
    · rw [add_entry_count]
      exact a.taken
  case kind =>
    intro i hi
    rcases add_cases hi with hi | rfl
    · rw [add_entry_of_lt hi]
      exact h.kind i hi
    · rw [add_entry_count]
      exact a.kind
  case root =>
    obtain ⟨i, hi, hroot⟩ := h.root
    refine ⟨i, Nat.lt_succ_of_lt hi, ?_⟩
    rw [add_entry_of_lt hi]
    exact hroot

theorem Wf.add (h : v.Wf) (a : v.Addable e) : (v.add e).Wf := by
  constructor
  case toStoreWf => exact h.toStoreWf.add a
  case size_le =>
    intro i hi hr
    rcases add_cases hi with hi | rfl
    · rw [add_entry_of_lt hi] at hr ⊢
      exact h.size_le i hi hr
    · rw [add_entry_count, a.empty]
      exact Nat.zero_le _
  case children_le =>
    intro i hi hd
    rcases add_cases hi with hi | rfl
    · rw [add_entry_of_lt hi] at hd ⊢
      exact h.children_le i hi hd
    · rw [add_entry_count, SimplefsInode.dirChildrenCount, a.empty]
      exact Nat.zero_le _
  case named =>
    intro i k hl
    have hl' := (add_live_iff a).mp hl
    obtain ⟨hne, j, hj, hno⟩ := h.named i k hl'
    rw [add_childIno hl'.1]
    exact ⟨hne, j, Nat.lt_succ_of_lt hj, by rw [add_entry_of_lt hj, hno]⟩
  case unique =>
    intro i k i' k' hl hl' heq
    have h₁ := (add_live_iff a).mp hl
    have h₂ := (add_live_iff a).mp hl'
    rw [add_childIno h₁.1, add_childIno h₂.1] at heq
    exact h.unique i k i' k' h₁ h₂ heq
  case name_valid =>
    intro i k hl
    have hl' := (add_live_iff a).mp hl
    rw [add_childName hl'.1]
    exact h.name_valid i k hl'
  case name_inj =>
    intro i k k' hl hl' heq
    have h₁ := (add_live_iff a).mp hl
    have h₂ := (add_live_iff a).mp hl'
    rw [add_childName h₁.1, add_childName h₂.1] at heq
    exact h.name_inj i k k' h₁ h₂ heq

end Add

section SetBlock

variable {b : Nat} {buf : Buffer}

theorem setBlock_data_of_ne (h : (v.entry i).dataBlockNumber.toNat ≠ b) :
    (v.setBlock b buf).data i = v.data i :=
  Function.update_of_ne h _ _

theorem setBlock_data_self (h : (v.entry i).dataBlockNumber.toNat = b) :
    (v.setBlock b buf).data i = buf := by
  change Function.update v.block b buf (v.entry i).dataBlockNumber.toNat = buf
  rw [h]
  exact Function.update_self _ _ _

/-- A block can change as long as no counted record does. -/
theorem Wf.setBlock (h : v.Wf)
    (hrec : ∀ i k, v.Live i k → (v.entry i).dataBlockNumber.toNat = b →
      recordIno buf k = v.childIno i k ∧ recordName buf k = v.childName i k) :
    (v.setBlock b buf).Wf := by
  refine h.mono rfl (fun _ hb => hb) (fun _ _ => .refl _) h.size_le
    (fun _ _ _ => Nat.le_refl _) ?_
  intro i k hl
  by_cases hb : (v.entry i).dataBlockNumber.toNat = b
  · unfold childIno childName
    rw [setBlock_data_self hb]
    exact hrec i k hl hb
  · unfold childIno childName
    rw [setBlock_data_of_ne hb]
    exact ⟨rfl, rfl⟩

theorem Wf.toNat_block_inj (h : v.Wf) (hi : i < v.count) (hj : j < v.count)
    (heq : (v.entry i).dataBlockNumber.toNat = (v.entry j).dataBlockNumber.toNat) : i = j :=
  h.block_inj i hi j hj (UInt64.toNat_inj.mp heq)

/-- The data block of a regular file holds no records. -/
theorem Wf.setBlock_file (h : v.Wf) (hj : j < v.count) (hr : sIsreg (v.entry j).mode = true)
    (buf : Buffer) : (v.setBlock (v.entry j).dataBlockNumber.toNat buf).Wf := by
  apply h.setBlock
  intro i k hl hb
  have hij := h.toNat_block_inj hl.1 hj hb
  subst hij
  rw [not_sIsreg_of_sIsdir hl.2.1] at hr
  exact absurd hr Bool.false_ne_true

end SetBlock

section SetSize

variable {s : UInt64}

theorem setSize_entry_self : (v.setSize i s).entry i = { v.entry i with fileSize := s } :=
  Function.update_self _ _ _

theorem setSize_entry_of_ne (h : j ≠ i) : (v.setSize i s).entry j = v.entry j :=
  Function.update_of_ne h _ _

theorem setSize_same (j : Nat) : ((v.setSize i s).entry j).Same (v.entry j) := by
  by_cases h : j = i
  · subst h
    rw [setSize_entry_self]
    exact ⟨rfl, rfl, rfl⟩
  · rw [setSize_entry_of_ne h]
    exact .refl _

theorem setSize_data (j : Nat) : (v.setSize i s).data j = v.data j := by
  unfold data
  rw [(setSize_same j).dataBlockNumber]
  rfl

theorem setSize_childIno (j k : Nat) : (v.setSize i s).childIno j k = v.childIno j k := by
  unfold childIno
  rw [setSize_data]

theorem setSize_childName (j k : Nat) : (v.setSize i s).childName j k = v.childName j k := by
  unfold childName
  rw [setSize_data]

theorem Wf.setSize_file (h : v.Wf) (hr : sIsreg (v.entry i).mode = true)
    (hs : s.toNat ≤ 4096) : (v.setSize i s).Wf := by
  refine h.mono rfl (fun _ hb => hb) (fun j _ => setSize_same j) ?_ ?_ ?_
  · intro j hj hrj
    by_cases hji : j = i
    · subst hji
      rw [setSize_entry_self]
      exact hs
    · rw [setSize_entry_of_ne hji]
      exact h.size_le j hj hrj
  · intro j _ hd
    by_cases hji : j = i
    · subst hji
      rw [not_sIsreg_of_sIsdir hd] at hr
      exact absurd hr Bool.false_ne_true
    · rw [setSize_entry_of_ne hji]
  · intro j k _
    exact ⟨setSize_childIno j k, setSize_childName j k⟩

end SetSize

/-- The record behind the counted ones of a directory can be counted. -/
structure Linkable (v : Volume) (i k : Nat) : Prop where
  lt : i < v.count
  dir : sIsdir (v.entry i).mode = true
  next : (v.entry i).dirChildrenCount = k
  room : k < 15
  named : v.childIno i k ≠ 1 ∧ ∃ j < v.count, (v.entry j).inodeNo = v.childIno i k
  fresh : ∀ i' k', v.Live i' k' → v.childIno i' k' ≠ v.childIno i k
  name_valid : ValidName (v.childName i k)
  name_new : ∀ k', v.Live i k' → v.childName i k' ≠ v.childName i k

/-- The volume in which one more record of the directory `i` is counted. -/
def link (v : Volume) (i : Nat) : Volume := v.setSize i ((v.entry i).fileSize + 1)

section Link

theorem toNat_succ {x : UInt64} {n : Nat} (hx : x.toNat = n) (hn : n < 4096) :
    (x + 1).toNat = n + 1 := by
  rw [UInt64.toNat_add, hx]
  change (n + 1) % 2 ^ 64 = n + 1
  omega

theorem link_children (l : v.Linkable i k) : ((v.link i).entry i).dirChildrenCount = k + 1 := by
  unfold link
  rw [setSize_entry_self]
  exact toNat_succ l.next (Nat.lt_trans l.room (by decide))

theorem link_live_iff (l : v.Linkable i k) {i' k' : Nat} :
    (v.link i).Live i' k' ↔ v.Live i' k' ∨ i' = i ∧ k' = k := by
  have hc := link_children l
  have hn := l.next
  by_cases hi : i' = i
  · subst hi
    have hd : sIsdir ((v.link i').entry i').mode = true := by
      rw [link, (setSize_same i').mode]
      exact l.dir
    constructor
    · rintro ⟨-, -, hk⟩
      rw [hc] at hk
      by_cases hkk : k' = k
      · exact .inr ⟨rfl, hkk⟩
      · exact .inl ⟨l.lt, l.dir, by omega⟩
    · rintro (⟨-, -, hk⟩ | ⟨-, rfl⟩)
      · exact ⟨l.lt, hd, by omega⟩
      · exact ⟨l.lt, hd, by omega⟩
  · have he : (v.link i).entry i' = v.entry i' := setSize_entry_of_ne hi
    simp only [Live, he, hi, false_and, or_false]
    exact Iff.rfl

theorem Wf.link (h : v.Wf) (l : v.Linkable i k) : (v.link i).Wf := by
  have hsame : ∀ j, ((v.link i).entry j).Same (v.entry j) := setSize_same
  have hino : ∀ j k, (v.link i).childIno j k = v.childIno j k := setSize_childIno
  have hname : ∀ j k, (v.link i).childName j k = v.childName j k := setSize_childName
  constructor
  case toStoreWf => exact h.toStoreWf.mono rfl (fun _ hb => hb) (fun j _ => hsame j)
  case size_le =>
    intro a ha hr
    rw [(hsame a).mode] at hr
    by_cases hai : a = i
    · subst hai
      rw [not_sIsreg_of_sIsdir l.dir] at hr
      exact absurd hr Bool.false_ne_true
    · have he : (v.link i).entry a = v.entry a := setSize_entry_of_ne hai
      rw [he]
      exact h.size_le a ha hr
  case children_le =>
    intro a ha hd
    by_cases hai : a = i
    · subst hai
      rw [link_children l]
      exact l.room
    · have he : (v.link i).entry a = v.entry a := setSize_entry_of_ne hai
      rw [he] at hd ⊢
      exact h.children_le a ha hd
  case named =>
    intro a c hl
    simp only [hino, (hsame _).inodeNo]
    rcases (link_live_iff l).mp hl with hl | ⟨rfl, rfl⟩
    · exact h.named a c hl
    · exact l.named
  case unique =>
    intro a c a' c' hl hl' heq
    rw [hino, hino] at heq
    rcases (link_live_iff l).mp hl with h₁ | ⟨ha, hc⟩ <;>
      rcases (link_live_iff l).mp hl' with h₂ | ⟨ha', hc'⟩
    · exact h.unique a c a' c' h₁ h₂ heq
    · rw [ha', hc'] at heq
      exact absurd heq (l.fresh a c h₁)
    · rw [ha, hc] at heq
      exact absurd heq.symm (l.fresh a' c' h₂)
    · exact ⟨ha.trans ha'.symm, hc.trans hc'.symm⟩
  case name_valid =>
    intro a c hl
    rw [hname]
    rcases (link_live_iff l).mp hl with hl | ⟨rfl, rfl⟩
    · exact h.name_valid a c hl
    · exact l.name_valid
  case name_inj =>
    intro a c c' hl hl' heq
    rw [hname, hname] at heq
    rcases (link_live_iff l).mp hl with h₁ | ⟨ha, hc⟩ <;>
      rcases (link_live_iff l).mp hl' with h₂ | ⟨ha', hc'⟩
    · exact h.name_inj a c c' h₁ h₂ heq
    · rw [ha'] at h₁ heq
      rw [hc'] at heq
      exact absurd heq (l.name_new c h₁)
    · rw [ha] at h₂ heq
      rw [hc] at heq
      exact absurd heq.symm (l.name_new c' h₂)
    · exact hc.trans hc'.symm

end Link

/-- A path leads to an entry: from the root, each name is the one of a counted
record. -/
inductive Leads (v : Volume) : Path → Nat → Prop
  | root {i : Nat} (lt : i < v.count) (ino : (v.entry i).inodeNo = 1) : Leads v [] i
  | child {dir : Path} {i k j : Nat} (init : Leads v dir i) (live : v.Live i k)
      (lt : j < v.count) (ino : (v.entry j).inodeNo = v.childIno i k) :
      Leads v (v.childName i k :: dir) j

section Leads

variable {p q : Path}

theorem Leads.lt (h : v.Leads p i) : i < v.count := by
  cases h with
  | root lt _ => exact lt
  | child _ _ lt _ => exact lt

/-- A path leads to at most one entry. -/
theorem Leads.functional (hw : v.Wf) (h₁ : v.Leads p i) (h₂ : v.Leads p j) : i = j := by
  induction h₁ generalizing j with
  | root lt ino =>
      cases h₂ with
      | root lt' ino' => exact hw.ino_inj _ lt _ lt' (ino.trans ino'.symm)
  | @child dir a k b init live lt ino ih =>
      generalize hn : v.childName a k = name at h₂
      cases h₂ with
      | @child _ a' k' _ init' live' lt' ino' =>
          obtain rfl : a = a' := ih init'
          obtain rfl := hw.name_inj _ _ _ live live' hn
          exact hw.ino_inj _ lt _ lt' (ino.trans ino'.symm)

/-- Two paths never lead to one entry. -/
theorem Leads.injective (hw : v.Wf) (h₁ : v.Leads p i) (h₂ : v.Leads q i) : p = q := by
  induction h₁ generalizing q with
  | root lt ino =>
      cases h₂ with
      | root => rfl
      | child init' live' lt' ino' =>
          exact absurd (ino'.symm.trans ino) (hw.named _ _ live').1
  | @child dir a k b init live lt ino ih =>
      cases h₂ with
      | root lt' ino' => exact absurd (ino.symm.trans ino') (hw.named _ _ live).1
      | @child _ a' k' _ init' live' lt' ino' =>
          obtain ⟨rfl, rfl⟩ := hw.unique _ _ _ _ live live' (ino.symm.trans ino')
          rw [ih init']

/-- Paths survive every change that keeps the counted records. -/
theorem Leads.mono (h : v.Leads p i) (hcount : v.count ≤ v'.count)
    (hino : ∀ j < v.count, (v'.entry j).inodeNo = (v.entry j).inodeNo)
    (hlive : ∀ a k, v.Live a k → v'.Live a k)
    (hrec : ∀ a k, v.Live a k →
      v'.childIno a k = v.childIno a k ∧ v'.childName a k = v.childName a k) :
    v'.Leads p i := by
  induction h with
  | @root i lt ino =>
      exact .root (Nat.lt_of_lt_of_le lt hcount) (by rw [hino i lt, ino])
  | @child dir a k j init live lt ino ih =>
      rw [← (hrec a k live).2]
      refine .child ih (hlive a k live) (Nat.lt_of_lt_of_le lt hcount) ?_
      rw [hino j lt, ino, (hrec a k live).1]

theorem Leads.alloc (h : v.Leads p i) : v.alloc.Leads p i :=
  h.mono (Nat.le_refl _) (fun _ _ => rfl) (fun _ _ hl => hl) (fun _ _ _ => ⟨rfl, rfl⟩)

theorem Leads.add {e : SimplefsInode} (h : v.Leads p i) (a : v.Addable e) :
    (v.add e).Leads p i := by
  refine h.mono (Nat.le_succ _) ?_ (fun _ _ hl => (add_live_iff a).mpr hl) ?_
  · intro j hj
    rw [add_entry_of_lt hj]
  · intro j k hl
    exact ⟨add_childIno hl.1, add_childName hl.1⟩

theorem Leads.setSize_file {s : UInt64} (h : v.Leads p i) (hr : sIsreg (v.entry j).mode = true) :
    (v.setSize j s).Leads p i := by
  refine h.mono (Nat.le_refl _) (fun a _ => (setSize_same a).inodeNo) ?_
    (fun a k _ => ⟨setSize_childIno a k, setSize_childName a k⟩)
  intro a k ⟨ha, hd, hk⟩
  have haj : a ≠ j := by
    rintro rfl
    rw [not_sIsreg_of_sIsdir hd] at hr
    exact Bool.false_ne_true hr
  refine ⟨ha, ?_, ?_⟩
  · rw [setSize_entry_of_ne haj]
    exact hd
  · rw [setSize_entry_of_ne haj]
    exact hk

theorem Leads.setBlock_file {buf : Buffer} (h : v.Leads p i) (hw : v.Wf) (hj : j < v.count)
    (hr : sIsreg (v.entry j).mode = true) :
    (v.setBlock (v.entry j).dataBlockNumber.toNat buf).Leads p i := by
  refine h.mono (Nat.le_refl _) (fun _ _ => rfl) (fun _ _ hl => hl) ?_
  intro a k hl
  have hne : (v.entry a).dataBlockNumber.toNat ≠ (v.entry j).dataBlockNumber.toNat := by
    intro hb
    obtain rfl := hw.toNat_block_inj hl.1 hj hb
    rw [not_sIsreg_of_sIsdir hl.2.1] at hr
    exact Bool.false_ne_true hr
  unfold childIno childName
  rw [setBlock_data_of_ne hne]
  exact ⟨rfl, rfl⟩

theorem Leads.link (h : v.Leads p i) (l : v.Linkable j k) : (v.link j).Leads p i :=
  h.mono (Nat.le_refl _) (fun a _ => (setSize_same a).inodeNo)
    (fun _ _ hl => (link_live_iff l).mpr (.inl hl))
    (fun a c _ => ⟨setSize_childIno a c, setSize_childName a c⟩)

end Leads

section SetRecord

variable {ino : UInt64} {name : Name}

/-- Fill in the record `k` of the directory `i`. -/
def setRecord (v : Volume) (i k : Nat) (ino : UInt64) (name : Name) : Volume :=
  v.setBlock (v.entry i).dataBlockNumber.toNat (withRecord (v.data i) k ino name)

theorem setRecord_childIno_self (hn : ValidName name) :
    (v.setRecord i k ino name).childIno i k = ino := by
  unfold childIno setRecord
  rw [setBlock_data_self rfl]
  exact recordIno_withRecord_self hn

theorem setRecord_childName_self (hn : ValidName name) :
    (v.setRecord i k ino name).childName i k = name := by
  unfold childName setRecord
  rw [setBlock_data_self rfl]
  exact recordName_withRecord_self hn

/-- The other records are not touched. -/
theorem setRecord_child_of_ne (h : v.StoreWf) (hn : ValidName name) (hi : i < v.count)
    (hj : j < v.count) {c : Nat} (hne : j = i → c ≠ k) :
    (v.setRecord i k ino name).childIno j c = v.childIno j c ∧
      (v.setRecord i k ino name).childName j c = v.childName j c := by
  unfold childIno childName setRecord
  by_cases hb : (v.entry j).dataBlockNumber.toNat = (v.entry i).dataBlockNumber.toNat
  · obtain rfl : j = i := h.block_inj j hj i hi (UInt64.toNat_inj.mp hb)
    rw [setBlock_data_self rfl]
    exact ⟨recordIno_withRecord_of_ne hn (hne rfl), recordName_withRecord_of_ne hn (hne rfl)⟩
  · rw [setBlock_data_of_ne hb]
    exact ⟨rfl, rfl⟩

theorem setRecord_child_of_live (h : v.StoreWf) (hn : ValidName name) (hi : i < v.count)
    (hk : (v.entry i).dirChildrenCount ≤ k) {c : Nat} (hl : v.Live j c) :
    (v.setRecord i k ino name).childIno j c = v.childIno j c ∧
      (v.setRecord i k ino name).childName j c = v.childName j c := by
  refine setRecord_child_of_ne h hn hi hl.1 ?_
  rintro rfl
  exact Nat.ne_of_lt (Nat.lt_of_lt_of_le hl.2.2 hk)

theorem Wf.setRecord (h : v.Wf) (hn : ValidName name) (hi : i < v.count)
    (hk : (v.entry i).dirChildrenCount ≤ k) : (v.setRecord i k ino name).Wf :=
  h.mono rfl (fun _ hb => hb) (fun _ _ => .refl _) h.size_le (fun _ _ _ => Nat.le_refl _)
    (fun _ _ hl => setRecord_child_of_live h.toStoreWf hn hi hk hl)

theorem Leads.setRecord {p : Path} (h : v.Leads p j) (hw : v.Wf) (hn : ValidName name)
    (hi : i < v.count) (hk : (v.entry i).dirChildrenCount ≤ k) :
    (v.setRecord i k ino name).Leads p j :=
  h.mono (Nat.le_refl _) (fun _ _ => rfl) (fun _ _ hl => hl)
    (fun _ _ hl => setRecord_child_of_live hw.toStoreWf hn hi hk hl)

end SetRecord

/-- The volume with a new entry and a record for it, which is not counted yet. -/
def recorded (v : Volume) (i : Nat) (e : SimplefsInode) (name : Name) : Volume :=
  (v.add e).setRecord i (v.entry i).dirChildrenCount e.inodeNo name

/-- The volume with a new object in the directory `i`. -/
def created (v : Volume) (i : Nat) (e : SimplefsInode) (name : Name) : Volume :=
  (v.recorded i e name).link i

section Created

variable {e : SimplefsInode} {name : Name}

theorem add_children_of_lt (hi : i < v.count) :
    ((v.add e).entry i).dirChildrenCount = (v.entry i).dirChildrenCount := by
  rw [add_entry_of_lt hi]

theorem recorded_wf (h : v.Wf) (a : v.Addable e) (hn : ValidName name) (hi : i < v.count) :
    (v.recorded i e name).Wf :=
  (h.add a).setRecord hn (Nat.lt_succ_of_lt hi) (Nat.le_of_eq (add_children_of_lt hi))

theorem recorded_entry_of_lt (hj : j < v.count) : (v.recorded i e name).entry j = v.entry j :=
  add_entry_of_lt hj

theorem recorded_entry_count : (v.recorded i e name).entry v.count = e := add_entry_count

theorem recorded_live_iff (a : v.Addable e) : (v.recorded i e name).Live j k ↔ v.Live j k :=
  add_live_iff a

theorem recorded_child (h : v.Wf) (a : v.Addable e) (hn : ValidName name) (hi : i < v.count)
    (hl : v.Live j k) :
    (v.recorded i e name).childIno j k = v.childIno j k ∧
      (v.recorded i e name).childName j k = v.childName j k := by
  obtain ⟨h₁, h₂⟩ := setRecord_child_of_live (h.add a).toStoreWf hn (Nat.lt_succ_of_lt hi)
    (Nat.le_of_eq (add_children_of_lt hi)) ((add_live_iff a).mpr hl)
  exact ⟨h₁.trans (add_childIno hl.1), h₂.trans (add_childName hl.1)⟩

theorem Addable.ino_ne_one (a : v.Addable e) : e.inodeNo ≠ 1 := by
  intro h
  have hi := a.ino
  rw [h] at hi
  change 1 = v.count + 8 at hi
  omega

/-- The directory `i` can get the entry `e` under a name. -/
structure Creatable (v : Volume) (i : Nat) (e : SimplefsInode) (name : Name) : Prop where
  add : v.Addable e
  valid : ValidName name
  lt : i < v.count
  dir : sIsdir (v.entry i).mode = true
  room : (v.entry i).dirChildrenCount < 15
  new : ∀ k, v.Live i k → v.childName i k ≠ name

theorem Creatable.linkable (c : v.Creatable i e name) (h : v.Wf) :
    (v.recorded i e name).Linkable i (v.entry i).dirChildrenCount := by
  have hino : (v.recorded i e name).childIno i (v.entry i).dirChildrenCount = e.inodeNo :=
    setRecord_childIno_self c.valid
  have hname : (v.recorded i e name).childName i (v.entry i).dirChildrenCount = name :=
    setRecord_childName_self c.valid
  constructor
  case lt => exact Nat.lt_succ_of_lt c.lt
  case dir =>
    rw [recorded_entry_of_lt c.lt]
    exact c.dir
  case next => rw [recorded_entry_of_lt c.lt]
  case room => exact c.room
  case named =>
    rw [hino]
    exact ⟨c.add.ino_ne_one, v.count, Nat.lt_succ_self _, by rw [recorded_entry_count]⟩
  case fresh =>
    intro i' k' hl heq
    have hl' := (recorded_live_iff c.add).mp hl
    rw [hino, (recorded_child h c.add c.valid c.lt hl').1] at heq
    obtain ⟨-, j, hj, hno⟩ := h.named i' k' hl'
    exact c.add.ino_ne h.toStoreWf hj (hno.trans heq)
  case name_valid =>
    rw [hname]
    exact c.valid
  case name_new =>
    intro k' hl heq
    have hl' := (recorded_live_iff c.add).mp hl
    rw [hname, (recorded_child h c.add c.valid c.lt hl').2] at heq
    exact c.new k' hl' heq

theorem Creatable.wf (c : v.Creatable i e name) (h : v.Wf) : (v.created i e name).Wf :=
  (recorded_wf h c.add c.valid c.lt).link (c.linkable h)

theorem created_entry_of_ne (hj : j < v.count) (hji : j ≠ i) :
    (v.created i e name).entry j = v.entry j :=
  (setSize_entry_of_ne hji).trans (recorded_entry_of_lt hj)

theorem created_entry_self (hi : i < v.count) :
    (v.created i e name).entry i = { v.entry i with fileSize := (v.entry i).fileSize + 1 } := by
  unfold created link
  rw [setSize_entry_self, recorded_entry_of_lt hi]

theorem created_entry_new (hi : i < v.count) : (v.created i e name).entry v.count = e :=
  (setSize_entry_of_ne (Nat.ne_of_gt hi)).trans recorded_entry_count

theorem created_same (hj : j < v.count) : ((v.created i e name).entry j).Same (v.entry j) := by
  rw [← recorded_entry_of_lt hj]
  exact setSize_same j

theorem add_data_of_lt (hi : i < v.count) : (v.add e).data i = v.data i := by
  unfold data
  rw [add_entry_of_lt hi]
  rfl

/-- Only the block of the directory changes. -/
theorem created_block (hi : i < v.count) :
    (v.created i e name).block = Function.update v.block (v.entry i).dataBlockNumber.toNat
      (withRecord (v.data i) (v.entry i).dirChildrenCount e.inodeNo name) := by
  unfold created link recorded setRecord
  rw [setSize_block, setBlock_block, add_entry_of_lt hi, add_data_of_lt hi, add_block]

theorem created_data_of_ne (h : v.StoreWf) (hi : i < v.count) (hj : j < v.count) (hji : j ≠ i) :
    (v.created i e name).data j = v.data j := by
  unfold data
  rw [created_block hi, created_entry_of_ne hj hji]
  refine Function.update_of_ne (fun heq => hji ?_) _ _
  exact h.block_inj j hj i hi (UInt64.toNat_inj.mp heq)

theorem Creatable.live_iff (c : v.Creatable i e name) (h : v.Wf) :
    (v.created i e name).Live j k ↔
      v.Live j k ∨ j = i ∧ k = (v.entry i).dirChildrenCount := by
  unfold created
  rw [link_live_iff (c.linkable h), recorded_live_iff c.add]

/-- The records that were counted before are not touched. -/
theorem Creatable.child (c : v.Creatable i e name) (h : v.Wf) (hl : v.Live j k) :
    (v.created i e name).childIno j k = v.childIno j k ∧
      (v.created i e name).childName j k = v.childName j k := by
  obtain ⟨h₁, h₂⟩ := recorded_child h c.add c.valid c.lt hl
  exact ⟨(setSize_childIno j k).trans h₁, (setSize_childName j k).trans h₂⟩

theorem created_childIno_new (hn : ValidName name) :
    (v.created i e name).childIno i (v.entry i).dirChildrenCount = e.inodeNo :=
  (setSize_childIno _ _).trans (setRecord_childIno_self hn)

theorem created_childName_new (hn : ValidName name) :
    (v.created i e name).childName i (v.entry i).dirChildrenCount = name :=
  (setSize_childName _ _).trans (setRecord_childName_self hn)

theorem Creatable.live_new (c : v.Creatable i e name) (h : v.Wf) :
    (v.created i e name).Live i (v.entry i).dirChildrenCount :=
  (c.live_iff h).mpr (.inr ⟨rfl, rfl⟩)

theorem Leads.created {p : Path} (hl : v.Leads p j) (c : v.Creatable i e name) (h : v.Wf) :
    (v.created i e name).Leads p j := by
  refine hl.mono (Nat.le_succ _) (fun a ha => (created_same ha).inodeNo) ?_
    (fun a k hlive => c.child h hlive)
  intro a k hlive
  exact (c.live_iff h).mpr (.inl hlive)

/-- The new name leads to the new entry. -/
theorem Creatable.leads_new {dir : Path} (c : v.Creatable i e name) (h : v.Wf)
    (hl : v.Leads dir i) : (v.created i e name).Leads (name :: dir) v.count := by
  have hchild := (hl.created c h).child (c.live_new h) (Nat.lt_succ_self v.count)
    (by rw [created_entry_new c.lt, created_childIno_new c.valid])
  rwa [created_childName_new c.valid] at hchild

/-- A new object hangs below an older directory. -/
theorem Rooted.created (hr : v.Rooted) (c : v.Creatable i e name) (h : v.Wf) :
    (v.created i e name).Rooted := by
  intro j hj hne
  by_cases hjc : j < v.count
  · rw [(created_same hjc).inodeNo] at hne ⊢
    obtain ⟨a, ha, k, hl, hno⟩ := hr j hjc hne
    refine ⟨a, ha, k, (c.live_iff h).mpr (.inl hl), ?_⟩
    rw [(c.child h hl).1, hno]
  · obtain rfl : j = v.count := by
      have : j < v.count + 1 := hj
      omega
    refine ⟨i, c.lt, _, c.live_new h, ?_⟩
    rw [created_childIno_new c.valid, created_entry_new c.lt]

end Created

/-- The volume with other bytes in the data block of a file. -/
def stored (v : Volume) (j pos : Nat) (bytes : List UInt8) : Volume :=
  v.setBlock (v.entry j).dataBlockNumber.toNat ((v.data j).splice pos bytes)

/-- The volume in which a file has been written to. -/
def wrote (v : Volume) (j pos : Nat) (bytes : List UInt8) : Volume :=
  (v.stored j pos bytes).setSize j (UInt64.ofNat (pos + bytes.length))

section Wrote

variable {pos : Nat} {bytes : List UInt8}

theorem Rooted.mono (hr : v.Rooted) (hcount : v'.count = v.count)
    (hino : ∀ j < v.count, (v'.entry j).inodeNo = (v.entry j).inodeNo)
    (hlive : ∀ a k, v.Live a k → v'.Live a k ∧ v'.childIno a k = v.childIno a k) : v'.Rooted := by
  intro j hj hne
  rw [hcount] at hj
  rw [hino j hj] at hne
  obtain ⟨a, ha, k, hl, hno⟩ := hr j hj hne
  obtain ⟨hl', hno'⟩ := hlive a k hl
  exact ⟨a, ha, k, hl', by rw [hno', hno, hino j hj]⟩

theorem stored_data_of_ne (h : v.StoreWf) (hi : i < v.count) (hj : j < v.count) (hij : i ≠ j) :
    (v.stored j pos bytes).data i = v.data i := by
  refine setBlock_data_of_ne fun heq => hij ?_
  exact h.block_inj i hi j hj (UInt64.toNat_inj.mp heq)

theorem stored_data_self : (v.stored j pos bytes).data j = (v.data j).splice pos bytes :=
  setBlock_data_self rfl

theorem Live.ne_file (hl : v.Live i k) (hr : sIsreg (v.entry j).mode = true) : i ≠ j := by
  rintro rfl
  rw [not_sIsreg_of_sIsdir hl.2.1] at hr
  exact Bool.false_ne_true hr

theorem wrote_live_iff (hr : sIsreg (v.entry j).mode = true) :
    (v.wrote j pos bytes).Live i k ↔ v.Live i k := by
  by_cases hij : i = j
  · subst hij
    have hm : ((v.wrote i pos bytes).entry i).mode = (v.entry i).mode := (setSize_same i).mode
    constructor
    · intro hl
      have hd := hl.2.1
      rw [hm] at hd
      rw [not_sIsreg_of_sIsdir hd] at hr
      exact absurd hr Bool.false_ne_true
    · intro hl
      exact absurd rfl (hl.ne_file hr)
  · have he : (v.wrote j pos bytes).entry i = v.entry i := setSize_entry_of_ne hij
    unfold Live
    rw [he]
    exact Iff.rfl

theorem wrote_data (i : Nat) : (v.wrote j pos bytes).data i = (v.stored j pos bytes).data i :=
  setSize_data i

theorem stored_child (h : v.StoreWf) (hj : j < v.count) (hr : sIsreg (v.entry j).mode = true)
    (hl : v.Live i k) : (v.stored j pos bytes).childIno i k = v.childIno i k ∧
      (v.stored j pos bytes).childName i k = v.childName i k := by
  unfold childIno childName
  rw [stored_data_of_ne h hl.1 hj (hl.ne_file hr)]
  exact ⟨rfl, rfl⟩

/-- Directories do not notice a write. -/
theorem wrote_child (h : v.StoreWf) (hj : j < v.count) (hr : sIsreg (v.entry j).mode = true)
    (hl : v.Live i k) : (v.wrote j pos bytes).childIno i k = v.childIno i k ∧
      (v.wrote j pos bytes).childName i k = v.childName i k := by
  have hs : (v.stored j pos bytes).childIno i k = _ ∧ (v.stored j pos bytes).childName i k = _ :=
    stored_child h hj hr hl
  unfold childIno childName at hs ⊢
  rw [wrote_data]
  exact hs

theorem Rooted.stored (h : v.Rooted) (hw : v.StoreWf) (hj : j < v.count)
    (hr : sIsreg (v.entry j).mode = true) : (v.stored j pos bytes).Rooted :=
  h.mono rfl (fun _ _ => rfl) fun _ _ hl => ⟨hl, (stored_child hw hj hr hl).1⟩

theorem Rooted.wrote (h : v.Rooted) (hw : v.StoreWf) (hj : j < v.count)
    (hr : sIsreg (v.entry j).mode = true) : (v.wrote j pos bytes).Rooted :=
  h.mono rfl (fun a _ => (setSize_same a).inodeNo) fun _ _ hl =>
    ⟨(wrote_live_iff hr).mpr hl, (wrote_child hw hj hr hl).1⟩

end Wrote

end Volume

end LinuxDevelopment.Simplefs
