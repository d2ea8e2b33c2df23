import LinuxDevelopment.Simplefs.Calm

/-!
# simplefs: the volume that `mkfs-simplefs` writes

Whatever the device held before, the image has two entries, the root directory
and the welcome file, one record, and a free map without the block of that
file. A device with this image can be mounted.
-/

namespace LinuxDevelopment.Simplefs

open Volume

section Device

variable {fd : Fd} {src : Buffer} {len b i : Nat} {dev : Image}

theorem Fd.write_outside (h : 4096 * b + i < fd.off ∨ fd.off + len ≤ 4096 * b + i) :
    (fd.write src len).dev b i = fd.dev b i :=
  if_neg (by omega)

theorem Fd.write_inside (h : i < 4096) (h₁ : fd.off ≤ 4096 * b + i)
    (h₂ : 4096 * b + i < fd.off + len) :
    (fd.write src len).dev b i = src (4096 * b + i - fd.off) :=
  if_pos ⟨h, h₁, h₂⟩

@[simp] theorem Fd.off_write : (fd.write src len).off = fd.off + len := rfl

@[simp] theorem Fd.off_lseek : (fd.lseek len).off = fd.off + len := rfl

/-- The descriptor behind the super block, and behind the inode store. -/
def mkfsSuper (dev : Image) : Fd := writeSuperblock ⟨dev, 0⟩

def mkfsStore (dev : Image) : Fd := writeInode (writeInodeStore (mkfsSuper dev)) welcome

theorem off_mkfsSuper : (mkfsSuper dev).off = 4096 := by
  simp [mkfsSuper, writeSuperblock]

theorem off_writeInodeStore : (writeInodeStore (mkfsSuper dev)).off = 4128 := by
  simp [writeInodeStore, off_mkfsSuper]

theorem off_mkfsStore : (mkfsStore dev).off = 8192 := by
  simp [mkfsStore, writeInode, off_writeInodeStore]

theorem off_writeDirent : (writeDirent (mkfsStore dev) welcomeRecord).off = 12288 := by
  simp [writeDirent, off_mkfsStore]

theorem mkfs_eq (dev : Image) :
    mkfs dev = (writeBlock (writeDirent (mkfsStore dev) welcomeRecord) (memory welcomefileBody)
      welcome.fileSize.toNat).dev := rfl

/-- The first three blocks are not touched by the last write. -/
theorem mkfs_of_lt (h : 4096 * b + i < 12288) :
    mkfs dev b i = (writeDirent (mkfsStore dev) welcomeRecord).dev b i := by
  rw [mkfs_eq]
  refine Fd.write_outside (.inl ?_)
  rw [off_writeDirent]
  exact h

theorem mkfs_store (h : 4096 * b + i < 8192) : mkfs dev b i = (mkfsStore dev).dev b i := by
  rw [mkfs_of_lt (by omega)]
  refine Fd.write_outside (.inl ?_)
  rw [off_mkfsStore]
  exact h

theorem mkfs_zero (h : i < 4096) : mkfs dev 0 i = memory mkfsSuperblock i := by
  have h₁ : (mkfsStore dev).dev 0 i = (writeInodeStore (mkfsSuper dev)).dev 0 i := by
    refine Fd.write_outside (.inl ?_)
    rw [off_writeInodeStore]
    omega
  have h₂ : (writeInodeStore (mkfsSuper dev)).dev 0 i = (mkfsSuper dev).dev 0 i := by
    refine Fd.write_outside (.inl ?_)
    rw [off_mkfsSuper]
    omega
  have h₃ : (mkfsSuper dev).dev 0 i = memory mkfsSuperblock (4096 * 0 + i - 0) :=
    Fd.write_inside h (Nat.zero_le _) (by simp; omega)
  rw [mkfs_store (by omega), h₁, h₂, h₃, Nat.mul_zero, Nat.zero_add, Nat.sub_zero]

theorem mkfs_root (h : i < 32) : mkfs dev 1 i = memory rootInode.encode i := by
  have h₁ : (mkfsStore dev).dev 1 i = (writeInodeStore (mkfsSuper dev)).dev 1 i := by
    refine Fd.write_outside (.inl ?_)
    rw [off_writeInodeStore]
    omega
  have h₂ : (writeInodeStore (mkfsSuper dev)).dev 1 i =
      memory rootInode.encode (4096 * 1 + i - (mkfsSuper dev).off) := by
    refine Fd.write_inside (by omega) ?_ ?_
    · rw [off_mkfsSuper]
      omega
    · rw [off_mkfsSuper, sizeofSimplefsInode]
      omega
  rw [mkfs_store (by omega), h₁, h₂, off_mkfsSuper, Nat.mul_one, Nat.add_sub_cancel_left]

theorem mkfs_welcome (h : i < 32) : mkfs dev 1 (32 + i) = memory welcome.encode i := by
  have h₁ : (mkfsStore dev).dev 1 (32 + i) =
      memory welcome.encode (4096 * 1 + (32 + i) - (writeInodeStore (mkfsSuper dev)).off) := by
    refine Fd.write_inside (by omega) ?_ ?_
    · rw [off_writeInodeStore]
      omega
    · rw [off_writeInodeStore, sizeofSimplefsInode]
      omega
  have h₂ : 4096 * 1 + (32 + i) - 4128 = i := by omega
  rw [mkfs_store (by omega), h₁, off_writeInodeStore, h₂]

theorem mkfs_two (h : i < 264) : mkfs dev 2 i = welcomeRecord i := by
  have h₁ : (writeDirent (mkfsStore dev) welcomeRecord).dev 2 i =
      welcomeRecord (4096 * 2 + i - (mkfsStore dev).off) := by
    refine Fd.write_inside (by omega) ?_ ?_
    · rw [off_mkfsStore]
      omega
    · rw [off_mkfsStore, sizeofSimplefsDirRecord]
      omega
  have h₂ : 4096 * 2 + i - 8192 = i := by omega
  rw [mkfs_of_lt (by omega), h₁, off_mkfsStore, h₂]

theorem mkfs_three (h : i < welcome.fileSize.toNat) : mkfs dev 3 i = memory welcomefileBody i := by
  have hsize : welcome.fileSize.toNat ≤ 4096 := by decide
  have h₁ : mkfs dev 3 i =
      memory welcomefileBody (4096 * 3 + i -
        (writeDirent (mkfsStore dev) welcomeRecord).off) := by
    rw [mkfs_eq]
    refine Fd.write_inside (by omega) ?_ ?_
    · rw [off_writeDirent]
      omega
    · rw [off_writeDirent]
      omega
  have h₂ : 4096 * 3 + i - 12288 = i := by omega
  rw [h₁, off_writeDirent, h₂]

theorem mkfs_get64 {off : Nat} (h : off + 8 ≤ 4096) :
    (mkfs dev 0).get64 off = (memory mkfsSuperblock).get64 off := by
  unfold Buffer.get64
  rw [Buffer.bytesAt_congr fun i _ hi => mkfs_zero (by omega)]

theorem mkfs_magic : (mkfs dev 0).get64 8 = simplefsMagic := by
  rw [mkfs_get64 (by decide)]
  decide +kernel

theorem mkfs_blockSize : (mkfs dev 0).get64 16 = 4096 := by
  rw [mkfs_get64 (by decide)]
  decide +kernel

theorem inodesCount_mkfs (dev : Image) : inodesCount (mkfs dev) = 2 := by
  rw [inodesCount, mkfs_get64 (by decide)]
  decide +kernel

theorem freeBlocks_mkfs (dev : Image) : freeBlocks (mkfs dev) = mkfsFreeBlocks := by
  rw [freeBlocks, mkfs_get64 (by decide)]
  decide +kernel

theorem entryAt_mkfs_zero (dev : Image) : entryAt (mkfs dev) 0 = rootInode := by
  have hbytes : (mkfs dev 1).bytesAt 0 32 = rootInode.encode := by
    rw [Buffer.bytesAt_congr fun i _ hi => mkfs_root (by omega)]
    exact Buffer.bytesAt_splice_self _ 0 rootInode.encode
  change SimplefsInode.decode ((mkfs dev 1).bytesAt 0 32) = _
  rw [hbytes, SimplefsInode.decode_encode]

theorem entryAt_mkfs_one (dev : Image) : entryAt (mkfs dev) 1 = welcome := by
  have hbytes : (mkfs dev 1).bytesAt 32 32 = welcome.encode := by
    have hmap : (mkfs dev 1).bytesAt 32 32 = (memory welcome.encode).bytesAt 0 32 := by
      refine List.map_congr_left fun i hi => ?_
      rw [mkfs_welcome (by simpa using hi), Nat.zero_add]
    rw [hmap]
    exact Buffer.bytesAt_splice_self _ 0 welcome.encode
  change SimplefsInode.decode ((mkfs dev 1).bytesAt 32 32) = _
  rw [hbytes, SimplefsInode.decode_encode]

theorem recordIno_mkfs (dev : Image) : recordIno (mkfs dev 2) 0 = 2 := by
  have hbytes : (mkfs dev 2).bytesAt 256 8 = welcomeRecord.bytesAt 256 8 :=
    Buffer.bytesAt_congr fun i _ hi => mkfs_two (by omega)
  change UInt64.ofNat (ofLE ((mkfs dev 2).bytesAt 256 8)) = 2
  rw [hbytes]
  exact Buffer.get64_splice_self welcomefileInodeNumber

theorem validName_vanakkam : ValidName vanakkam :=
  ⟨by decide, by decide, by simp [vanakkam]⟩

theorem recordName_mkfs (dev : Image) : recordName (mkfs dev 2) 0 = vanakkam := by
  refine Buffer.cStringAt_eq_of_hasCString validName_vanakkam.nulFree (by decide) ?_
  change (mkfs dev 2).bytesAt 0 9 = vanakkam ++ [0]
  rw [Buffer.bytesAt_congr fun i _ hi => mkfs_two (by omega)]
  decide +kernel

end Device

section Fresh

variable (dev : Image)

theorem count_mkfs : (ofImage (mkfs dev)).count = 2 := by
  rw [ofImage_count, inodesCount_mkfs]
  rfl

/-- The two entries of a fresh volume. -/
theorem mkfs_cases {dev : Image} {i : Nat} (hi : i < (ofImage (mkfs dev)).count) :
    i = 0 ∧ (ofImage (mkfs dev)).entry i = rootInode ∨
      i = 1 ∧ (ofImage (mkfs dev)).entry i = welcome := by
  rw [count_mkfs] at hi
  obtain rfl | rfl : i = 0 ∨ i = 1 := by omega
  · exact .inl ⟨rfl, entryAt_mkfs_zero dev⟩
  · exact .inr ⟨rfl, entryAt_mkfs_one dev⟩

theorem mkfs_data_zero : (ofImage (mkfs dev)).data 0 = mkfs dev 2 := by
  unfold data
  rw [ofImage_entry, entryAt_mkfs_zero]
  rfl

/-- The only record is the one of the welcome file. -/
theorem mkfs_live {dev : Image} {i k : Nat} (hl : (ofImage (mkfs dev)).Live i k) :
    i = 0 ∧ k = 0 ∧ (ofImage (mkfs dev)).childIno i k = 2 ∧
      (ofImage (mkfs dev)).childName i k = vanakkam := by
  obtain ⟨hi, hd, hk⟩ := hl
  rcases mkfs_cases hi with ⟨rfl, he⟩ | ⟨rfl, he⟩
  · rw [he] at hk
    obtain rfl : k = 0 := by
      change k < 1 at hk
      omega
    unfold childIno childName
    rw [mkfs_data_zero]
    exact ⟨rfl, rfl, recordIno_mkfs dev, recordName_mkfs dev⟩
  · rw [he] at hd
    exact absurd hd (by decide)

theorem mkfs_wf : (ofImage (mkfs dev)).Wf := by
  have hfree : (ofImage (mkfs dev)).free = mkfsFreeBlocks := freeBlocks_mkfs dev
  have hcount := count_mkfs dev
  constructor
  case toStoreWf =>
    constructor
    case count_le => omega
    case ino_inj =>
      intro i hi j hj heq
      rcases mkfs_cases hi with ⟨rfl, hei⟩ | ⟨rfl, hei⟩ <;>
        rcases mkfs_cases hj with ⟨rfl, hej⟩ | ⟨rfl, hej⟩ <;>
        first
          | rfl
          | (rw [hei, hej] at heq; exact absurd heq (by decide))
    case ino_lt =>
      intro i hi
      rcases mkfs_cases hi with ⟨rfl, he⟩ | ⟨rfl, he⟩ <;> rw [he, hcount] <;> decide
    case block_inj =>
      intro i hi j hj heq
      rcases mkfs_cases hi with ⟨rfl, hei⟩ | ⟨rfl, hei⟩ <;>
        rcases mkfs_cases hj with ⟨rfl, hej⟩ | ⟨rfl, hej⟩ <;>
        first
          | rfl
          | (rw [hei, hej] at heq; exact absurd heq (by decide))
    case block_ge =>
      intro i hi
      rcases mkfs_cases hi with ⟨rfl, he⟩ | ⟨rfl, he⟩ <;> rw [he] <;> decide
    case taken =>
      intro i hi
      rw [hfree]
      rcases mkfs_cases hi with ⟨rfl, he⟩ | ⟨rfl, he⟩ <;> rw [he]
      · exact ⟨fun h => absurd h (by decide), fun h => absurd h (by decide)⟩
      · exact ⟨fun _ => by decide, fun h => absurd h (by decide)⟩
    case kind =>
      intro i hi
      rcases mkfs_cases hi with ⟨rfl, he⟩ | ⟨rfl, he⟩ <;> rw [he] <;> decide
    case root =>
      refine ⟨0, by omega, ?_⟩
      rw [ofImage_entry, entryAt_mkfs_zero]
      decide
  case size_le =>
    intro i hi hr
    rcases mkfs_cases hi with ⟨rfl, he⟩ | ⟨rfl, he⟩ <;> rw [he] at hr ⊢
    · exact absurd hr (by decide)
    · decide
  case children_le =>
    intro i hi hd
    rcases mkfs_cases hi with ⟨rfl, he⟩ | ⟨rfl, he⟩ <;> rw [he] at hd ⊢
    · decide
    · exact absurd hd (by decide)
  case named =>
    intro i k hl
    obtain ⟨-, -, hino, -⟩ := mkfs_live hl
    rw [hino]
    refine ⟨by decide, 1, by omega, ?_⟩
    rw [ofImage_entry, entryAt_mkfs_one]
    rfl
  case unique =>
    intro i k i' k' hl hl' _
    obtain ⟨rfl, rfl, -⟩ := mkfs_live hl
    obtain ⟨rfl, rfl, -⟩ := mkfs_live hl'
    exact ⟨rfl, rfl⟩
  case name_valid =>
    intro i k hl
    rw [(mkfs_live hl).2.2.2]
    exact validName_vanakkam
  case name_inj =>
    intro i k k' hl hl' _
    rw [(mkfs_live hl).2.1, (mkfs_live hl').2.1]

theorem mkfs_rooted : (ofImage (mkfs dev)).Rooted := by
  intro j hj hne
  rcases mkfs_cases hj with ⟨rfl, he⟩ | ⟨rfl, he⟩
  · rw [he] at hne
    exact absurd rfl hne
  · have hl : (ofImage (mkfs dev)).Live 0 0 := by
      unfold Live
      rw [count_mkfs, ofImage_entry, entryAt_mkfs_zero]
      decide
    refine ⟨0, by decide, 0, hl, ?_⟩
    rw [he, (mkfs_live hl).2.2.1]
    rfl

/-- A fresh device is ready to be mounted. -/
theorem mkfs_settled : (World.ofImage (mkfs dev)).Settled (ofImage (mkfs dev)) where
  shows := shows_ofImage (mkfs_wf dev)
  wf := mkfs_wf dev
  cached := fun _ _ h => by cases h
  ahead := fun _ _ h => absurd rfl h
  saved := fun _ _ => rfl
  magic := mkfs_magic
  blockSize := mkfs_blockSize
  unowned := fun _ => rfl
  clean := fun _ => rfl
  stored := fun _ => .inl rfl

end Fresh

end LinuxDevelopment.Simplefs
