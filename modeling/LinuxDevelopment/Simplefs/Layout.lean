import LinuxDevelopment.Base.Bytes

/-!
# simplefs: constants and on-disk layout

The numbers of `simple.h` and the byte layout of its three structures on
x86-64: a super block of 4096 bytes, store entries of 32 bytes with four
padding bytes behind `mode`, and directory records of 264 bytes with one
padding byte behind `filename`. Padding bytes are written as zero.
-/

namespace LinuxDevelopment.Simplefs

@[simp] def simplefsMagic : UInt64 := 0x10032013
@[simp] def simplefsDefaultBlockSize : Nat := 4096
@[simp] def simplefsFilenameMaxlen : Nat := 255
@[simp] def simplefsStartIno : UInt64 := 10
@[simp] def simplefsReservedInodes : UInt64 := 3
@[simp] def simplefsRootdirInodeNumber : UInt64 := 1
@[simp] def simplefsSuperblockBlockNumber : Nat := 0
@[simp] def simplefsInodestoreBlockNumber : Nat := 1
@[simp] def simplefsRootdirDatablockNumber : Nat := 2
@[simp] def simplefsMaxFilesystemObjectsSupported : Nat := 64

/-- `S_IFDIR`, `S_IFREG` and the type tests of `linux/stat.h`. -/
@[simp] def sIfdir : UInt16 := 0x4000
@[simp] def sIfreg : UInt16 := 0x8000

def sIsdir (mode : UInt32) : Bool := mode &&& 0xF000 == 0x4000

def sIsreg (mode : UInt32) : Bool := mode &&& 0xF000 == 0x8000

theorem not_sIsreg_of_sIsdir {mode : UInt32} (h : sIsdir mode = true) : sIsreg mode = false := by
  simp only [sIsdir, sIsreg, beq_iff_eq] at h ⊢
  rw [h]
  decide

/-- One entry of the inode store. `file_size` and `dir_children_count` are the
two names of one word (a union in the source). -/
structure SimplefsInode where
  mode : UInt32
  inodeNo : UInt64
  dataBlockNumber : UInt64
  fileSize : UInt64
  deriving DecidableEq, Repr

namespace SimplefsInode

/-- The union member used for directories. -/
def dirChildrenCount (i : SimplefsInode) : Nat := i.fileSize.toNat

/-- The 32 bytes of an entry. -/
def encode (i : SimplefsInode) : List UInt8 :=
  toLE 4 i.mode.toNat ++ (toLE 4 0 ++ (toLE 8 i.inodeNo.toNat ++
    (toLE 8 i.dataBlockNumber.toNat ++ toLE 8 i.fileSize.toNat)))

/-- The entry 32 bytes encode. -/
def decode (l : List UInt8) : SimplefsInode where
  mode := UInt32.ofNat (ofLE (l.take 4))
  inodeNo := UInt64.ofNat (ofLE ((l.drop 8).take 8))
  dataBlockNumber := UInt64.ofNat (ofLE ((l.drop 16).take 8))
  fileSize := UInt64.ofNat (ofLE ((l.drop 24).take 8))

@[simp] theorem length_encode (i : SimplefsInode) : i.encode.length = 32 := by
  simp [encode]

@[simp] theorem decode_encode (i : SimplefsInode) : decode i.encode = i := by
  have h4 : i.encode.take 4 = toLE 4 i.mode.toNat := by
    simp [encode]
  have h8 : (i.encode.drop 8).take 8 = toLE 8 i.inodeNo.toNat := by
    simp [encode, List.drop_append, drop_toLE]
  have h16 : (i.encode.drop 16).take 8 = toLE 8 i.dataBlockNumber.toNat := by
    simp [encode, List.drop_append, drop_toLE]
  have h24 : (i.encode.drop 24).take 8 = toLE 8 i.fileSize.toNat := by
    simp [encode, List.drop_append, drop_toLE, List.take_of_length_le]
  simp only [decode, h4, h8, h16, h24, ofNat_ofLE_toLE32, ofNat_ofLE_toLE64]

end SimplefsInode

/-- `sizeof(struct simplefs_inode)`. -/
@[simp] def sizeofSimplefsInode : Nat := 32

/-- `sizeof(struct simplefs_dir_record)`. -/
@[simp] def sizeofSimplefsDirRecord : Nat := 264

/-- The store entry with index `i`. -/
def inodeAt (store : Buffer) (i : Nat) : SimplefsInode :=
  SimplefsInode.decode (store.bytesAt (32 * i) 32)

/-- The `inode_no` field of the directory record with index `k`. -/
def recordIno (dir : Buffer) (k : Nat) : UInt64 := dir.get64 (264 * k + 256)

/-- The C string in the `filename` field of the record with index `k`. A name
of 255 bytes has its terminator in the padding byte. -/
def recordName (dir : Buffer) (k : Nat) : List UInt8 := dir.cStringAt (264 * k) 256

/-- The contents of the blocks of a device, by block number. -/
abbrev Image := Nat → Buffer

/-- The super block fields the file system works with. -/
def inodesCount (img : Image) : UInt64 := (img 0).get64 24

def freeBlocks (img : Image) : UInt64 := (img 0).get64 32

/-- The store entry with index `i` of an image. -/
def entryAt (img : Image) (i : Nat) : SimplefsInode := inodeAt (img 1) i

section Views

variable {b : Buffer} {l : List UInt8} {off i j k : Nat}

theorem inodeNo_inodeAt : (inodeAt b i).inodeNo = b.get64 (32 * i + 8) := by
  have h : ((b.bytesAt (32 * i) 32).drop 8).take 8 = b.bytesAt (32 * i + 8) 8 := by
    rw [show 32 = 8 + (8 + 16) from rfl, Buffer.bytesAt_add, Buffer.bytesAt_add,
      List.drop_left' (by simp), List.take_left' (by simp)]
  simp only [inodeAt, SimplefsInode.decode, h, Buffer.get64]

theorem inodeAt_splice_self (e : SimplefsInode) : inodeAt (b.splice (32 * i) e.encode) i = e := by
  have h := Buffer.bytesAt_splice_self b (32 * i) e.encode
  rw [SimplefsInode.length_encode] at h
  rw [inodeAt, h, SimplefsInode.decode_encode]

theorem inodeAt_splice_of_ne (e : SimplefsInode) (h : j ≠ i) :
    inodeAt (b.splice (32 * i) e.encode) j = inodeAt b j := by
  rw [inodeAt, Buffer.bytesAt_splice_outside (by simp; omega), inodeAt]

theorem recordIno_splice_outside (h : 264 * k + 264 ≤ off ∨ off + l.length ≤ 264 * k) :
    recordIno (b.splice off l) k = recordIno b k :=
  Buffer.get64_splice_outside (by omega)

theorem recordName_splice_outside (h : 264 * k + 264 ≤ off ∨ off + l.length ≤ 264 * k) :
    recordName (b.splice off l) k = recordName b k :=
  Buffer.cStringAt_splice_outside (by omega)

end Views

section Fields

variable (img : Image) (f c : UInt64) (i : Nat) (e : SimplefsInode)

/-- Assign to `free_blocks`. -/
def setFree : Image := Function.update img 0 ((img 0).splice 32 (toLE 8 f.toNat))

/-- Assign to `inodes_count`. -/
def setCount : Image := Function.update img 0 ((img 0).splice 24 (toLE 8 c.toNat))

/-- Overwrite the store entry with index `i`. -/
def setEntry : Image := Function.update img 1 ((img 1).splice (32 * i) e.encode)

variable {img f c i e}

@[simp] theorem freeBlocks_setFree : freeBlocks (setFree img f) = f := by
  simp [freeBlocks, setFree]

@[simp] theorem inodesCount_setFree : inodesCount (setFree img f) = inodesCount img := by
  simp [inodesCount, setFree, Buffer.get64_splice_outside]

@[simp] theorem entryAt_setFree (j : Nat) : entryAt (setFree img f) j = entryAt img j := by
  simp [entryAt, setFree]

theorem setFree_of_ne {b : Nat} (h : b ≠ 0) : setFree img f b = img b :=
  Function.update_of_ne h _ _

@[simp] theorem inodesCount_setCount : inodesCount (setCount img c) = c := by
  simp [inodesCount, setCount]

@[simp] theorem freeBlocks_setCount : freeBlocks (setCount img c) = freeBlocks img := by
  simp [freeBlocks, setCount, Buffer.get64_splice_outside]

@[simp] theorem entryAt_setCount (j : Nat) : entryAt (setCount img c) j = entryAt img j := by
  simp [entryAt, setCount]

theorem setCount_of_ne {b : Nat} (h : b ≠ 0) : setCount img c b = img b :=
  Function.update_of_ne h _ _

@[simp] theorem inodesCount_setEntry : inodesCount (setEntry img i e) = inodesCount img := by
  simp [inodesCount, setEntry]

@[simp] theorem freeBlocks_setEntry : freeBlocks (setEntry img i e) = freeBlocks img := by
  simp [freeBlocks, setEntry]

@[simp] theorem entryAt_setEntry_self : entryAt (setEntry img i e) i = e := by
  simp only [entryAt, setEntry, Function.update_self]
  exact inodeAt_splice_self e

theorem entryAt_setEntry_of_ne {j : Nat} (h : j ≠ i) :
    entryAt (setEntry img i e) j = entryAt img j := by
  simp only [entryAt, setEntry, Function.update_self]
  exact inodeAt_splice_of_ne e h

theorem setEntry_of_ne {b : Nat} (h : b ≠ 1) : setEntry img i e b = img b :=
  Function.update_of_ne h _ _

/-- A data block is not part of the super block or of the store. -/
theorem inodesCount_update {b : Nat} {x : Buffer} (h : 2 ≤ b) :
    inodesCount (Function.update img b x) = inodesCount img := by
  unfold inodesCount
  rw [Function.update_of_ne (by omega)]

theorem freeBlocks_update {b : Nat} {x : Buffer} (h : 2 ≤ b) :
    freeBlocks (Function.update img b x) = freeBlocks img := by
  unfold freeBlocks
  rw [Function.update_of_ne (by omega)]

theorem entryAt_update {b : Nat} {x : Buffer} (h : 2 ≤ b) (j : Nat) :
    entryAt (Function.update img b x) j = entryAt img j := by
  unfold entryAt
  rw [Function.update_of_ne (by omega)]

end Fields

end LinuxDevelopment.Simplefs
