import Mathlib.Data.List.Forall2
import LinuxDevelopment.Simplefs.Format

/-!
# simplefs: `mkfs-simplefs.c` with its error paths

Every `write` may transfer less than it was asked to, or fail after it has
transferred something, and every `lseek` may fail; the program then stops with
the exit status 1. Wherever it stops, the device holds the new image up to the
offset it has reached and the old contents behind it. A later run that ends with
0 makes up for all that failed before it.

`simplefs_fill_super` looks at the super block only, so it mounts what a failed
run has left as soon as the head of the super block is on the device.
-/

namespace LinuxDevelopment.Simplefs

/-- The image `new` below the offset `n`, the image `old` from there on. -/
def Image.upTo (n : Nat) (new old : Image) : Image :=
  fun b i => if 4096 * b + i < n then new b i else old b i

section Order

variable {fd mid fd' : Fd} {src : Buffer} {len n : Nat}

/-- More may have been written through the descriptor, at its offset and behind. -/
structure Fd.Before (fd fd' : Fd) : Prop where
  off_le : fd.off ≤ fd'.off
  below : ∀ b i, 4096 * b + i < fd.off → fd'.dev b i = fd.dev b i
  behind : ∀ b i, fd'.off ≤ 4096 * b + i → fd'.dev b i = fd.dev b i

namespace Fd.Before

theorem refl (fd : Fd) : fd.Before fd := ⟨Nat.le_refl _, fun _ _ _ => rfl, fun _ _ _ => rfl⟩

theorem trans (h : fd.Before mid) (h' : mid.Before fd') : fd.Before fd' where
  off_le := h.off_le.trans h'.off_le
  below := fun b i hb => (h'.below b i (hb.trans_le h.off_le)).trans (h.below b i hb)
  behind := fun b i hb => (h'.behind b i hb).trans (h.behind b i (h'.off_le.trans hb))

/-- A prefix of a write comes before the whole of it. -/
theorem write_le (h : n ≤ len) : (fd.write src n).Before (fd.write src len) where
  off_le := Nat.add_le_add_left h _
  below := by
    intro b i hb
    rw [Fd.off_write] at hb
    by_cases hi : i < 4096 ∧ fd.off ≤ 4096 * b + i
    · rw [Fd.write_inside hi.1 hi.2 (by omega), Fd.write_inside hi.1 hi.2 hb]
    · have hout : ∀ m, (fd.write src m).dev b i = fd.dev b i :=
        fun m => if_neg fun hin => hi ⟨hin.1, hin.2.1⟩
      rw [hout, hout]
  behind := by
    intro b i hb
    rw [Fd.off_write] at hb
    rw [Fd.write_outside (.inr hb), Fd.write_outside (.inr (by omega))]

theorem write : fd.Before (fd.write src len) where
  off_le := Nat.le_add_right _ _
  below := fun _ _ hb => Fd.write_outside (.inl hb)
  behind := fun _ _ hb => Fd.write_outside (.inr hb)

theorem lseek : fd.Before (fd.lseek len) where
  off_le := Nat.le_add_right _ _
  below := fun _ _ _ => rfl
  behind := fun _ _ _ => rfl

/-- A stop on the way shows the end below its offset and the beginning behind it. -/
theorem dev_eq (h : fd.Before mid) (h' : mid.Before fd') :
    mid.dev = Image.upTo mid.off fd'.dev fd.dev := by
  funext b i
  unfold Image.upTo
  split
  case isTrue hb => exact (h'.below b i hb).symm
  case isFalse hb => exact h.behind b i (Nat.le_of_not_lt hb)

end Fd.Before

end Order

namespace Mkfs

/-- How the kernel serves one system call: the number of bytes that reach the
device and whether the call reports an error. -/
structure Answer where
  count : Nat
  failed : Bool
  deriving DecidableEq

/-- The descriptor of a run and the answers to the calls that are still to come. -/
structure Session where
  fd : Fd
  answers : List Answer

/-- The answer to the next call; behind the last one every call fails. -/
def Session.next (s : Session) : Answer × List Answer :=
  match s.answers with
  | [] => (⟨0, true⟩, [])
  | a :: rest => (a, rest)

/-- `write(fd, src, len)` with its return value. -/
def write (src : Buffer) (len : Nat) (s : Session) : Int × Session :=
  let (a, rest) := s.next
  let n := min a.count len
  (if a.failed then -1 else n, ⟨s.fd.write src n, rest⟩)

/-- `lseek(fd, nbytes, SEEK_CUR)` with its return value. -/
def lseek (nbytes : Nat) (s : Session) : Int × Session :=
  let (a, rest) := s.next
  if a.failed then (-1, ⟨s.fd, rest⟩)
  else ((s.fd.lseek nbytes).off, ⟨s.fd.lseek nbytes, rest⟩)

/-- A write whose return value has to be the number of bytes. -/
def writeAll (src : Buffer) (len : Nat) (s : Session) : Int × Session :=
  let (ret, s) := write src len s
  if ret ≠ len then (-1, s) else (0, s)

/-- A write of the whole piece, and the padding behind it. -/
def writePadded (src : Buffer) (len nbytes : Nat) (s : Session) : Int × Session :=
  let (ret, s) := write src len s
  if ret ≠ len then (-1, s)
  else
    let (ret, s) := lseek nbytes s
    if ret = -1 then (-1, s) else (0, s)

def writeSuperblock : Session → Int × Session :=
  writeAll (memory mkfsSuperblock) simplefsDefaultBlockSize

def writeInodeStore : Session → Int × Session :=
  writeAll (memory rootInode.encode) sizeofSimplefsInode

def writeInode (i : SimplefsInode) : Session → Int × Session :=
  writePadded (memory i.encode) sizeofSimplefsInode
    (simplefsDefaultBlockSize - sizeofSimplefsInode - sizeofSimplefsInode)

def writeDirent (record : Buffer) : Session → Int × Session :=
  writePadded record sizeofSimplefsDirRecord (simplefsDefaultBlockSize - sizeofSimplefsDirRecord)

def writeBlock (block : Buffer) (len : Nat) : Session → Int × Session := writeAll block len

/-- `if (f(fd)) break;` in the body of `main`, where `ret` is still 1. -/
def unlessFailed (f rest : Session → Int × Session) (s : Session) : Int × Session :=
  let (r, s) := f s
  if r ≠ 0 then (1, s) else rest s

/-- The body of the `do … while (0)`. -/
def pieces : Session → Int × Session :=
  unlessFailed writeSuperblock <|
  unlessFailed writeInodeStore <|
  unlessFailed (writeInode welcome) <|
  unlessFailed (writeDirent welcomeRecord) <|
  unlessFailed (writeBlock (memory welcomefileBody) welcome.fileSize.toNat) fun s => (0, s)

/-- One run of the program: its arguments, whether the device can be opened, and
how its calls are served. -/
structure Attempt where
  argc : Nat
  opened : Bool
  answers : List Answer

/-- `main`: what it returns and the descriptor it leaves. -/
def main (a : Attempt) (dev : Image) : Int × Fd :=
  if a.argc ≠ 2 then (-1, ⟨dev, 0⟩)
  else if a.opened = false then (-1, ⟨dev, 0⟩)
  else
    let (ret, s) := pieces ⟨⟨dev, 0⟩, a.answers⟩
    (ret, s.fd)

section Pieces

variable {f g : Session → Int × Session} {lens lens' : List Nat} {fd mid fd' : Fd}
  {src : Buffer} {len nbytes : Nat} {answers : List Answer}

/-- The answers that are left when calls for the given numbers of bytes have been
served in full, one after the other. -/
def served : List Nat → List Answer → Option (List Answer)
  | [], answers => some answers
  | _ :: _, [] => none
  | len :: lens, a :: answers =>
      if a.failed = false ∧ len ≤ a.count then served lens answers else none

theorem served_append (lens lens' : List Nat) (answers : List Answer) :
    served (lens ++ lens') answers = (served lens answers).bind (served lens') := by
  induction lens generalizing answers with
  | nil => rfl
  | cons len lens ih =>
      cases answers with
      | nil => rfl
      | cons a answers =>
          simp only [List.cons_append, served]
          split
          · exact ih answers
          · rfl

/-- A part of the program that makes calls for the given numbers of bytes: if all
of them are served it returns 0 at `fd'`, otherwise it reports a failure and has
stopped somewhere between `fd` and `fd'`. -/
def Performs (f : Session → Int × Session) (lens : List Nat) (fd fd' : Fd) : Prop :=
  ∀ answers, (∃ rest, served lens answers = some rest ∧ f ⟨fd, answers⟩ = (0, ⟨fd', rest⟩)) ∨
    served lens answers = none ∧ (f ⟨fd, answers⟩).1 ≠ 0 ∧ fd.Before (f ⟨fd, answers⟩).2.fd ∧
      (f ⟨fd, answers⟩).2.fd.Before fd'

/-- A call for `len` bytes is served, or something less has been transferred. -/
theorem write_cases (fd : Fd) (src : Buffer) (len : Nat) (answers : List Answer) :
    (∃ rest, served [len] answers = some rest ∧
      write src len ⟨fd, answers⟩ = ((len : Int), ⟨fd.write src len, rest⟩)) ∨
    served [len] answers = none ∧ (write src len ⟨fd, answers⟩).1 ≠ len ∧
      ∃ n ≤ len, (write src len ⟨fd, answers⟩).2.fd = fd.write src n := by
  cases answers with
  | nil =>
      refine .inr ⟨rfl, ?_, 0, Nat.zero_le _, ?_⟩
      · change (-1 : Int) ≠ len
        omega
      · change fd.write src (min 0 len) = _
        rw [Nat.zero_min]
  | cons a rest =>
      by_cases ha : a.failed = false ∧ len ≤ a.count
      · refine .inl ⟨rest, if_pos ha, ?_⟩
        simp only [write, Session.next, ha.1, Bool.false_eq_true, if_false, Nat.min_eq_right ha.2]
      · refine .inr ⟨if_neg ha, ?_, min a.count len, Nat.min_le_right _ _, rfl⟩
        change (if a.failed then (-1 : Int) else (min a.count len : Nat)) ≠ len
        cases hfailed : a.failed with
        | true =>
            rw [if_pos rfl]
            omega
        | false =>
            rw [if_neg Bool.false_ne_true]
            have hlt : ¬ len ≤ a.count := fun hle => ha ⟨hfailed, hle⟩
            omega

theorem lseek_cases (fd : Fd) (nbytes : Nat) (answers : List Answer) :
    (∃ rest, served [0] answers = some rest ∧
      lseek nbytes ⟨fd, answers⟩ = (((fd.lseek nbytes).off : Int), ⟨fd.lseek nbytes, rest⟩)) ∨
    served [0] answers = none ∧ (lseek nbytes ⟨fd, answers⟩).1 = -1 ∧
      (lseek nbytes ⟨fd, answers⟩).2.fd = fd := by
  cases answers with
  | nil => exact .inr ⟨rfl, rfl, rfl⟩
  | cons a rest =>
      cases hfailed : a.failed with
      | true =>
          refine .inr ⟨if_neg (by simp [hfailed]), ?_, ?_⟩ <;>
            simp only [lseek, Session.next, hfailed, if_true]
      | false =>
          refine .inl ⟨rest, if_pos ⟨hfailed, Nat.zero_le _⟩, ?_⟩
          simp only [lseek, Session.next, hfailed, Bool.false_eq_true, if_false]

theorem performs_writeAll : Performs (writeAll src len) [len] fd (fd.write src len) := by
  intro answers
  obtain ⟨rest, hserved, hwrite⟩ | ⟨hserved, hret, n, hn, hfd⟩ := write_cases fd src len answers
  · refine .inl ⟨rest, hserved, ?_⟩
    unfold writeAll
    rw [hwrite]
    exact if_neg fun h => h rfl
  · have hrun : writeAll src len ⟨fd, answers⟩ = (-1, (write src len ⟨fd, answers⟩).2) :=
      if_pos hret
    refine .inr ⟨hserved, ?_⟩
    rw [hrun, hfd]
    exact ⟨show (-1 : Int) ≠ 0 by decide, .write, .write_le hn⟩

theorem performs_writePadded :
    Performs (writePadded src len nbytes) [len, 0] fd ((fd.write src len).lseek nbytes) := by
  intro answers
  have hsplit : served [len, 0] answers = (served [len] answers).bind (served [0]) :=
    served_append [len] [0] answers
  obtain ⟨rest, hserved, hwrite⟩ | ⟨hserved, hret, n, hn, hfd⟩ := write_cases fd src len answers
  · rw [hserved, Option.bind_some] at hsplit
    have hrun : writePadded src len nbytes ⟨fd, answers⟩ =
        if (lseek nbytes ⟨fd.write src len, rest⟩).1 = -1 then
          (-1, (lseek nbytes ⟨fd.write src len, rest⟩).2)
        else (0, (lseek nbytes ⟨fd.write src len, rest⟩).2) := by
      unfold writePadded
      rw [hwrite]
      exact if_neg fun h => h rfl
    obtain ⟨rest', hserved', hseek⟩ | ⟨hserved', hseek, hfd⟩ :=
      lseek_cases (fd.write src len) nbytes rest
    · refine .inl ⟨rest', hsplit.trans hserved', ?_⟩
      rw [hrun, hseek]
      exact if_neg (by omega)
    · refine .inr ⟨hsplit.trans hserved', ?_⟩
      rw [hrun, if_pos hseek]
      dsimp only
      rw [hfd]
      exact ⟨show (-1 : Int) ≠ 0 by decide, .write, .lseek⟩
  · rw [hserved, Option.bind_none] at hsplit
    have hrun : writePadded src len nbytes ⟨fd, answers⟩ =
        (-1, (write src len ⟨fd, answers⟩).2) := if_pos hret
    refine .inr ⟨hsplit, ?_⟩
    rw [hrun, hfd]
    exact ⟨show (-1 : Int) ≠ 0 by decide, .write, (Fd.Before.write_le hn).trans .lseek⟩

theorem performs_done : Performs (fun s => (0, s)) [] fd fd :=
  fun answers => .inl ⟨answers, rfl, rfl⟩

/-- Two parts in sequence, the second one only if the first has not failed. -/
theorem Performs.unlessFailed (hf : Performs f lens fd mid) (hg : Performs g lens' mid fd')
    (h : fd.Before mid) (h' : mid.Before fd') :
    Performs (unlessFailed f g) (lens ++ lens') fd fd' := by
  intro answers
  rw [served_append]
  obtain ⟨rest, hserved, hrun⟩ | ⟨hserved, hret, hbefore, hbehind⟩ := hf answers
  · have hnext : Mkfs.unlessFailed f g ⟨fd, answers⟩ = g ⟨mid, rest⟩ := by
      unfold Mkfs.unlessFailed
      rw [hrun]
      exact if_neg fun h => h rfl
    rw [hserved, Option.bind_some, hnext]
    obtain hall | ⟨hserved', hret, hbefore, hbehind⟩ := hg rest
    · exact .inl hall
    · exact .inr ⟨hserved', hret, h.trans hbefore, hbehind⟩
  · have hstop : Mkfs.unlessFailed f g ⟨fd, answers⟩ = (1, (f ⟨fd, answers⟩).2) := if_pos hret
    rw [hserved, Option.bind_none, hstop]
    exact .inr ⟨rfl, show (1 : Int) ≠ 0 by decide, hbefore, hbehind.trans h'⟩

end Pieces

section Runs

variable (a : Attempt) (dev : Image)

/-- The sizes of the calls of a run; a seek transfers nothing. -/
def callSizes : List Nat :=
  [simplefsDefaultBlockSize, sizeofSimplefsInode, sizeofSimplefsInode, 0,
    sizeofSimplefsDirRecord, 0, welcome.fileSize.toNat]

/-- The descriptor in front of the first call, and behind the last one. -/
def start : Fd := ⟨dev, 0⟩

def finish : Fd :=
  Simplefs.writeBlock (Simplefs.writeDirent (mkfsStore dev) welcomeRecord) (memory welcomefileBody)
    welcome.fileSize.toNat

theorem performs_pieces :
    Performs pieces callSizes (start dev) (finish dev) ∧ (start dev).Before (finish dev) := by
  have hsuper : (start dev).Before (mkfsSuper dev) := .write
  have hroot : (mkfsSuper dev).Before (Simplefs.writeInodeStore (mkfsSuper dev)) := .write
  have hstore : (Simplefs.writeInodeStore (mkfsSuper dev)).Before (mkfsStore dev) :=
    Fd.Before.write.trans .lseek
  have hdirent : (mkfsStore dev).Before (Simplefs.writeDirent (mkfsStore dev) welcomeRecord) :=
    Fd.Before.write.trans .lseek
  have hblock : (Simplefs.writeDirent (mkfsStore dev) welcomeRecord).Before (finish dev) := .write
  -- Each part runs from the end of the one before it to its own end.
  have hlast := hdirent.trans hblock
  have hinodes := hstore.trans hlast
  have hbody := hroot.trans hinodes
  refine ⟨?_, hsuper.trans hbody⟩
  exact performs_writeAll.unlessFailed (performs_writeAll.unlessFailed
    (performs_writePadded.unlessFailed (performs_writePadded.unlessFailed
      (performs_writeAll.unlessFailed performs_done hblock (.refl _)) hdirent hblock)
      hstore hlast) hroot hinodes) hsuper hbody

/-- The run has its argument, an open device and an answer in full to every call. -/
def Attempt.Served : Prop :=
  a.argc = 2 ∧ a.opened = true ∧ (served callSizes a.answers).isSome = true

/-- A run returns 0 with the whole image on the device if and only if all its calls
are served; every other run stops on the way. -/
theorem main_cases :
    (a.Served ∧ main a dev = (0, finish dev)) ∨
      (¬ a.Served ∧ (main a dev).1 ≠ 0 ∧ (start dev).Before (main a dev).2 ∧
        (main a dev).2.Before (finish dev)) := by
  obtain ⟨hpieces, hbefore⟩ := performs_pieces dev
  by_cases hargc : a.argc = 2
  case neg =>
    have hmain : main a dev = (-1, start dev) := if_pos hargc
    rw [hmain]
    exact .inr ⟨fun h => hargc h.1, show (-1 : Int) ≠ 0 by decide, .refl _, hbefore⟩
  cases hopened : a.opened with
  | false =>
      have hmain : main a dev = (-1, start dev) := by
        unfold main
        rw [if_neg (not_not.mpr hargc), if_pos hopened]
        rfl
      rw [hmain]
      exact .inr ⟨fun h => Bool.false_ne_true (hopened.symm.trans h.2.1),
        show (-1 : Int) ≠ 0 by decide, .refl _, hbefore⟩
  | true =>
      have hmain : main a dev =
          ((pieces ⟨start dev, a.answers⟩).1, (pieces ⟨start dev, a.answers⟩).2.fd) := by
        unfold main
        rw [if_neg (not_not.mpr hargc), if_neg (by rw [hopened]; decide)]
        rfl
      obtain ⟨rest, hserved, hrun⟩ | ⟨hserved, hret, hleft, hright⟩ := hpieces a.answers
      · refine .inl ⟨⟨hargc, hopened, by rw [hserved]; rfl⟩, ?_⟩
        rw [hmain, hrun]
      · rw [hmain]
        refine .inr ⟨fun h => ?_, hret, hleft, hright⟩
        have hsome := h.2.2
        rw [hserved] at hsome
        cases hsome

theorem main_dev : (main a dev).2.dev = Image.upTo (main a dev).2.off (mkfs dev) dev := by
  obtain ⟨-, hbefore⟩ := performs_pieces dev
  obtain ⟨-, hmain⟩ | ⟨-, -, hleft, hright⟩ := main_cases a dev
  · rw [hmain]
    exact hbefore.dev_eq (.refl _)
  · exact hleft.dev_eq hright

end Runs

section Attempts

variable {dev dev' : Image} {n m : Nat}

theorem upTo_upTo (new old : Image) :
    Image.upTo m new (Image.upTo n new old) = Image.upTo (max m n) new old := by
  funext b i
  unfold Image.upTo
  by_cases hm : 4096 * b + i < m
  · rw [if_pos hm, if_pos (by omega)]
  · rw [if_neg hm]
    exact if_congr (by omega) rfl rfl

/-- Two runs on different devices: what one of them has written the other has
written as well. -/
structure Alongside (dev dev' : Image) (fd fd' : Fd) : Prop where
  off : fd.off = fd'.off
  dev : ∀ b i, fd.dev b i = fd'.dev b i ∨ fd.dev b i = dev b i ∧ fd'.dev b i = dev' b i

theorem Alongside.write {fd fd' : Fd} (h : Alongside dev dev' fd fd') (src : Buffer) (len : Nat) :
    Alongside dev dev' (fd.write src len) (fd'.write src len) where
  off := congrArg (· + len) h.off
  dev := by
    intro b i
    unfold Fd.write
    dsimp only
    rw [h.off]
    split
    · exact .inl rfl
    · exact h.dev b i

theorem Alongside.lseek {fd fd' : Fd} (h : Alongside dev dev' fd fd') (nbytes : Nat) :
    Alongside dev dev' (fd.lseek nbytes) (fd'.lseek nbytes) where
  off := congrArg (· + nbytes) h.off
  dev := h.dev

theorem alongside_finish (dev dev' : Image) : Alongside dev dev' (finish dev) (finish dev') := by
  have hstart : Alongside dev dev' (start dev) (start dev') := ⟨rfl, fun _ _ => .inr ⟨rfl, rfl⟩⟩
  exact ((((((hstart.write _ _).write _ _).write _ _).lseek _).write _ _).lseek _).write _ _

/-- What a failed run has left makes no difference to the next one. -/
theorem mkfs_upTo (n : Nat) (dev : Image) : mkfs (Image.upTo n (mkfs dev) dev) = mkfs dev := by
  funext b i
  obtain hsame | ⟨hold, hold'⟩ := (alongside_finish dev (Image.upTo n (mkfs dev) dev)).dev b i
  · exact hsame.symm
  · have hdev : mkfs dev b i = dev b i := hold
    have hleft : Image.upTo n (mkfs dev) dev b i = dev b i := by
      unfold Image.upTo
      rw [hdev, ite_self]
    exact hold'.trans (hleft.trans hdev.symm)

/-- Run after run on one device: the exit codes and what the device then holds. -/
def runs : List Attempt → Image → List Int × Image
  | [], dev => ([], dev)
  | a :: as, dev =>
      let (ret, fd) := main a dev
      let (rets, img) := runs as fd.dev
      (ret :: rets, img)

/-- The largest offset a run has reached. -/
def reach : List Attempt → Image → Nat
  | [], _ => 0
  | a :: as, dev => max (reach as (main a dev).2.dev) (main a dev).2.off

theorem upTo_runs (as : List Attempt) (dev : Image) :
    (runs as dev).2 = Image.upTo (reach as dev) (mkfs dev) dev := by
  induction as generalizing dev with
  | nil => exact funext fun b => funext fun i => (if_neg (Nat.not_lt_zero _)).symm
  | cons a as ih =>
      have hmain := main_dev a dev
      calc (runs (a :: as) dev).2
          = (runs as (main a dev).2.dev).2 := rfl
        _ = Image.upTo (reach as (main a dev).2.dev) (mkfs (main a dev).2.dev)
              (main a dev).2.dev := ih _
        _ = Image.upTo (reach as (main a dev).2.dev) (mkfs dev)
              (Image.upTo (main a dev).2.off (mkfs dev) dev) := by rw [hmain, mkfs_upTo, ← hmain]
        _ = Image.upTo (reach (a :: as) dev) (mkfs dev) dev := upTo_upTo _ _

theorem main_eq_zero_iff {a : Attempt} : (main a dev).1 = 0 ↔ a.Served := by
  obtain ⟨hserved, hmain⟩ | ⟨hserved, hne, -⟩ := main_cases a dev
  · rw [hmain]
    exact iff_of_true rfl hserved
  · exact iff_of_false hne hserved

theorem codes_runs (as : List Attempt) (dev : Image) :
    List.Forall₂ (fun a ret => ret = 0 ↔ a.Served) as (runs as dev).1 := by
  induction as generalizing dev with
  | nil => exact .nil
  | cons a as ih => exact .cons main_eq_zero_iff (ih _)

theorem runs_of_served {as : List Attempt} {a : Attempt} (ha : a ∈ as) (hserved : a.Served)
    (dev : Image) : (runs as dev).2 = mkfs dev := by
  induction as generalizing dev with
  | nil => cases ha
  | cons b as ih =>
      change (runs as (main b dev).2.dev).2 = _
      cases ha with
      | head =>
          obtain ⟨-, hmain⟩ | ⟨hnot, -⟩ := main_cases a dev
          · have hdev : (main a dev).2.dev = mkfs dev := by
              rw [hmain]
              rfl
            have hagain : mkfs (mkfs dev) = mkfs dev := by
              rw [← hdev, main_dev, mkfs_upTo, ← main_dev, hdev]
            rw [hdev, upTo_runs, hagain]
            funext b i
            exact ite_self _
          · exact absurd hserved hnot
      | tail _ ha => rw [ih ha, main_dev, mkfs_upTo]

/-- In any sequence of runs on one device each returns 0 if and only if it was served
in full. The device then holds the new image up to the largest offset a run has
reached and its old contents behind that; if one of the runs returned 0 it holds the
whole image, whatever has failed before and after. -/
theorem image_of_runs (as : List Attempt) (dev : Image) :
    List.Forall₂ (fun a ret => ret = 0 ↔ a.Served) as (runs as dev).1 ∧
      (runs as dev).2 = Image.upTo (reach as dev) (mkfs dev) dev ∧
      (0 ∈ (runs as dev).1 → (runs as dev).2 = mkfs dev) := by
  have hcodes := codes_runs as dev
  refine ⟨hcodes, upTo_runs as dev, fun hzero => ?_⟩
  obtain ⟨i, hi, hget⟩ := List.mem_iff_getElem.mp hzero
  have hi' : i < as.length := hcodes.length_eq.symm ▸ hi
  have hserved : (as.get ⟨i, hi'⟩).Served := (hcodes.get hi' hi).mp hget
  exact runs_of_served (List.get_mem _ _) hserved dev

section Mount

variable {img : Image} {tid : Nat} {env : Env}

theorem upTo_new {b i : Nat} (new old : Image) (h : 4096 * b + i < n) :
    Image.upTo n new old b i = new b i := if_pos h

theorem upTo_old {b i : Nat} (new old : Image) (h : n ≤ 4096 * b + i) :
    Image.upTo n new old b i = old b i := if_neg (Nat.not_lt_of_le h)

/-- The words at the head of the super block that have reached the device. -/
theorem get64_upTo (dev : Image) {off : Nat} (h : off + 8 ≤ n) :
    (Image.upTo n (mkfs dev) dev 0).get64 off = (mkfs dev 0).get64 off := by
  unfold Buffer.get64
  rw [Buffer.bytesAt_congr fun i _ hi => upTo_new (mkfs dev) dev (by omega)]

theorem inodesCount_upTo (dev : Image) (h : 32 ≤ n) :
    inodesCount (Image.upTo n (mkfs dev) dev) = 2 :=
  (get64_upTo dev h).trans (inodesCount_mkfs dev)

theorem run_mount_upTo (hb : env.BreadOk) (hnew : env.newInodeFails = false) (dev : Image)
    (h : 32 ≤ n) :
    Call.mount.run tid env (World.ofImage (Image.upTo n (mkfs dev) dev)) =
      .done (.ret 0) ((World.ofImage (Image.upTo n (mkfs dev) dev)).dAdd [] ⟨1, some .dir,
        (findEntry (Image.upTo n (mkfs dev) dev) 1).map
          (entryAt (Image.upTo n (mkfs dev) dev))⟩) := by
  have hmagic : (Image.upTo n (mkfs dev) dev 0).get64 8 = simplefsMagic :=
    (get64_upTo dev (by omega)).trans mkfs_magic
  have hsize : (Image.upTo n (mkfs dev) dev 0).get64 16 = 4096 :=
    (get64_upTo dev (by omega)).trans mkfs_blockSize
  have hcount : (inodesCount (Image.upTo n (mkfs dev) dev)).toNat ≤ 128 := by
    rw [inodesCount_upTo dev h]
    decide
  have hfill := @run_simplefsFillSuper tid env (World.ofImage (Image.upTo n (mkfs dev) dev)) hb
    hmagic hsize hcount
  change Call.mount.code.run (exec tid env) _ = _
  simp only [Call.code, Prog.run_bind]
  rw [hfill, hnew]
  rfl

/-- Once the inode of the root has been written it is the one that is found. -/
theorem entry_upTo (dev : Image) (h : 4128 ≤ n) :
    (findEntry (Image.upTo n (mkfs dev) dev) 1).map (entryAt (Image.upTo n (mkfs dev) dev)) =
      some rootInode := by
  have hentry : entryAt (Image.upTo n (mkfs dev) dev) 0 = rootInode := by
    refine Eq.trans ?_ (entryAt_mkfs_zero dev)
    refine congrArg SimplefsInode.decode (Buffer.bytesAt_congr fun i _ hi => ?_)
    exact upTo_new (mkfs dev) dev (by omega)
  have hfound : findEntry (Image.upTo n (mkfs dev) dev) 1 = some 0 := by
    unfold findEntry
    rw [inodesCount_upTo dev (by omega)]
    change (0 :: List.range' 1 1).find? _ = some 0
    rw [List.find?_cons, hentry]
    rfl
  rw [hfound, Option.map_some, hentry]

/-- Whatever the runs have returned, `simplefs_fill_super` mounts the device as soon as
one of them has written the head of the super block. If they have written the inode of
the root and nothing of its block, the root lists one file, under the name and the
number that the old contents of the device have at that place. -/
theorem mounts_unfinished {as : List Attempt} {dev : Image} (h : 32 ≤ reach as dev)
    (hb : env.BreadOk) (hnew : env.newInodeFails = false) :
    ∃ w, Call.mount.run tid env (World.ofImage (runs as dev).2) = .done (.ret 0) w ∧
      (4128 ≤ reach as dev → reach as dev ≤ 8192 →
        (Call.iterate [] 0).run tid env w =
          .done (.listing 0 [⟨(dev 2).bytesAt 0 255, recordIno (dev 2) 0⟩] 264) w) := by
  rw [upTo_runs]
  generalize reach as dev = n at h
  refine ⟨_, run_mount_upTo hb hnew dev h, fun hroot hblock => ?_⟩
  rw [entry_upTo dev hroot]
  generalize hw : (World.ofImage (Image.upTo n (mkfs dev) dev)).dAdd []
    ⟨1, some .dir, some rootInode⟩ = w
  have hinode : w.simplefsInode [] = some rootInode := by
    rw [← hw]
    rfl
  have hold : ∀ off len, (w.cache 2).bytesAt off len = (dev 2).bytesAt off len := by
    intro off len
    rw [← hw]
    exact Buffer.bytesAt_congr fun i _ _ => upTo_old (mkfs dev) dev (by omega)
  have hname : (w.cache 2).bytesAt 0 255 = (dev 2).bytesAt 0 255 := hold 0 255
  have hino : recordIno (w.cache 2) 0 = recordIno (dev 2) 0 :=
    congrArg (fun bytes => UInt64.ofNat (ofLE bytes)) (hold _ 8)
  have hiter := @run_simplefsIterate tid env w [] rootInode 0 (hb _) hinode (by decide) (by decide)
  change (Call.iterate [] 0).code.run (exec tid env) w = _
  simp only [Call.code, Prog.run_bind]
  rw [hiter, if_neg (not_not.mpr rfl)]
  change Outcome.done (Reply.listing 0 [⟨(w.cache 2).bytesAt 0 255, recordIno (w.cache 2) 0⟩] 264) w
    = _
  rw [hname, hino]

/-- The device takes the super block and the inode of the root, then it fails. -/
def stoppedInStore : List Attempt := [⟨2, true, [⟨4096, false⟩, ⟨32, false⟩, ⟨0, true⟩]⟩]

theorem mounts_stoppedInStore :
    (runs stoppedInStore fun _ _ => 7).1 = [1] ∧
    ∃ w, Call.mount.run 0 .quiet (World.ofImage (runs stoppedInStore fun _ _ => 7).2) =
        .done (.ret 0) w ∧
      (Call.iterate [] 0).run 0 .quiet w =
        .done (.listing 0 [⟨Buffer.bytesAt (fun _ => 7) 0 255, 0x0707070707070707⟩] 264) w := by
  have hreach : reach stoppedInStore (fun _ _ => 7) = 4128 := by decide
  obtain ⟨w, hmount, hlist⟩ := @mounts_unfinished 0 .quiet stoppedInStore (fun _ _ => 7)
    (by rw [hreach]; decide) Env.calm_quiet.breadOk rfl
  refine ⟨by decide, w, hmount, ?_⟩
  have hino : recordIno (fun _ => 7) 0 = 0x0707070707070707 := by decide
  rw [hlist (by rw [hreach]) (by rw [hreach]; decide), hino]

end Mount

end Attempts

end Mkfs

end LinuxDevelopment.Simplefs
