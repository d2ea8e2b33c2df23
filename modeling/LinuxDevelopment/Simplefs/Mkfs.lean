import LinuxDevelopment.Simplefs.Source

/-!
# simplefs: `mkfs-simplefs.c`

The program writes five pieces through one file descriptor and skips the
padding of two blocks with `lseek`, so everything it does not write keeps the
earlier contents of the device. This is the run in which every call is served;
`MkfsErrors` has the program with short writes and failed seeks.
-/

namespace LinuxDevelopment.Simplefs

/-- An open block device and the offset of its descriptor. -/
structure Fd where
  dev : Image
  off : Nat

/-- `write(fd, src, len)`. -/
def Fd.write (fd : Fd) (src : Buffer) (len : Nat) : Fd where
  dev := fun b i =>
    if i < 4096 ∧ fd.off ≤ 4096 * b + i ∧ 4096 * b + i < fd.off + len then
      src (4096 * b + i - fd.off)
    else fd.dev b i
  off := fd.off + len

/-- `lseek(fd, nbytes, SEEK_CUR)`. -/
def Fd.lseek (fd : Fd) (nbytes : Nat) : Fd := { fd with off := fd.off + nbytes }

def welcomefileDatablockNumber : UInt64 := 3
def welcomefileInodeNumber : UInt64 := 2

/-- Memory that holds a list of bytes, zero behind it. -/
def memory (bytes : List UInt8) : Buffer := Buffer.splice (fun _ => 0) 0 bytes

/-- `(~0) & ~(1 << WELCOMEFILE_DATABLOCK_NUMBER)`, an `int` converted to `uint64_t`. -/
def mkfsFreeBlocks : UInt64 := ⟨(~~~(0#32) &&& ~~~((1#32) <<< 3)).signExtend 64⟩

/-- The initialised members of the super block; the rest of it is zero. -/
def mkfsSuperblock : List UInt8 :=
  toLE 8 1 ++ (toLE 8 simplefsMagic.toNat ++ (toLE 8 simplefsDefaultBlockSize ++
    (toLE 8 2 ++ toLE 8 mkfsFreeBlocks.toNat)))

def writeSuperblock (fd : Fd) : Fd := fd.write (memory mkfsSuperblock) simplefsDefaultBlockSize

def rootInode : SimplefsInode where
  mode := sIfdir.toUInt32
  inodeNo := simplefsRootdirInodeNumber
  dataBlockNumber := UInt64.ofNat simplefsRootdirDatablockNumber
  fileSize := 1

def writeInodeStore (fd : Fd) : Fd := fd.write (memory rootInode.encode) sizeofSimplefsInode

/-- `"Love is God. God is Love. Anbe Murugan.\n"` with its terminator. -/
def welcomefileBody : List UInt8 :=
  [76, 111, 118, 101, 32, 105, 115, 32, 71, 111, 100, 46, 32, 71, 111, 100, 32, 105, 115, 32,
    76, 111, 118, 101, 46, 32, 65, 110, 98, 101, 32, 77, 117, 114, 117, 103, 97, 110, 46, 10, 0]

def welcome : SimplefsInode where
  mode := sIfreg.toUInt32
  inodeNo := welcomefileInodeNumber
  dataBlockNumber := welcomefileDatablockNumber
  fileSize := UInt64.ofNat welcomefileBody.length

def writeInode (fd : Fd) (i : SimplefsInode) : Fd :=
  (fd.write (memory i.encode) sizeofSimplefsInode).lseek
    (simplefsDefaultBlockSize - sizeofSimplefsInode - sizeofSimplefsInode)

/-- `"vanakkam"`. -/
def vanakkam : Name := [118, 97, 110, 97, 107, 107, 97, 109]

/-- The record of the welcome file: the name, zero behind it, and the number. -/
def welcomeRecord : Buffer :=
  (memory vanakkam).splice 256 (toLE 8 welcomefileInodeNumber.toNat)

def writeDirent (fd : Fd) (record : Buffer) : Fd :=
  (fd.write record sizeofSimplefsDirRecord).lseek
    (simplefsDefaultBlockSize - sizeofSimplefsDirRecord)

def writeBlock (fd : Fd) (block : Buffer) (len : Nat) : Fd := fd.write block len

/-- The device after `mkfs-simplefs` ran on a device with the contents `dev`. -/
def mkfs (dev : Image) : Image :=
  let fd := writeSuperblock ⟨dev, 0⟩
  let fd := writeInodeStore fd
  let fd := writeInode fd welcome
  let fd := writeDirent fd welcomeRecord
  let fd := writeBlock fd (memory welcomefileBody) welcome.fileSize.toNat
  fd.dev

end LinuxDevelopment.Simplefs
