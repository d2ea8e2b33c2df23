import LinuxDevelopment.Base.Bytes

/-!
# sendfd, recvfd: descriptors passed over a socket

`send_fd` puts descriptors into the control buffer of a message, and the kernel
installs new ones in the process that calls `recv_fd` and writes their numbers
into its control buffer. Both size the buffer with `CMSG_SPACE`, which rounds the
data up to 8 bytes, so that a buffer for an odd number of descriptors has room
for one more. `recv_fd` copies the number of descriptors it was asked for and
looks neither at the length in the header nor at whether there is a header.
-/

namespace LinuxDevelopment.RecvFd

/-- `sizeof(struct cmsghdr)`: a length, a level and a type. -/
def sizeofCmsghdr : Nat := 16

def cmsgAlign (len : Nat) : Nat := (len + 7) / 8 * 8

def cmsgSpace (len : Nat) : Nat := cmsgAlign len + cmsgAlign sizeofCmsghdr

def cmsgLen (len : Nat) : Nat := cmsgAlign sizeofCmsghdr + len

def solSocket : Nat := 1

def scmRights : Nat := 1

/-- `SCM_MAX_FD`: the kernel refuses to send more. -/
def scmMaxFd : Nat := 253

/-- `struct cmsghdr` for `len` bytes of data. -/
def cmsghdr (len : Nat) : List UInt8 :=
  toLE 8 (cmsgLen len) ++ toLE 4 solSocket ++ toLE 4 scmRights

/-- An array of `int`. -/
def ints (fds : List UInt32) : List UInt8 := fds.flatMap fun fd => toLE 4 fd.toNat

/-- A buffer behind `memset(buf, '\0', sizeof(buf))`. -/
def zeroed : Buffer := fun _ => 0

/-- The ancillary part of a message: `msg_control` and `msg_controllen`. -/
structure Control where
  buf : Buffer
  len : Nat

/-- `CMSG_FIRSTHDR`, as the buffer it points to. -/
def Control.cmsgFirsthdr (msg : Control) : Option Buffer :=
  if sizeofCmsghdr ≤ msg.len then some msg.buf else none

/-- The control buffer `send_fd` passes to `sendmsg`. -/
def sendFd (fds : List UInt32) : Control where
  buf := (zeroed.splice 0 (cmsghdr (4 * fds.length))).splice sizeofCmsghdr (ints fds)
  len := cmsgSpace (4 * fds.length)

/-- The descriptors `sendmsg` finds in a control buffer, or nothing if it fails. -/
def scmFpCopy (msg : Control) : Option (List UInt32) :=
  let num := ((msg.buf.get64 0).toNat - cmsgLen 0) / 4
  if num ≤ scmMaxFd then
    some ((List.range num).map fun i => msg.buf.get32 (sizeofCmsghdr + 4 * i))
  else none

/-- What `recvmsg` does to the control buffer: of the descriptors that arrive it
installs those for which there is room, and writes a header if there are any.
`arriving` are the numbers it gives them, in the order sent. -/
def scmDetachFds (msg : Control) (arriving : List UInt32) : Control × List UInt32 :=
  let fdmax := (msg.len - sizeofCmsghdr) / 4
  let installed := arriving.take fdmax
  if installed = [] then ({ msg with len := 0 }, [])
  else
    ({ buf := (msg.buf.splice sizeofCmsghdr (ints installed)).splice 0
        (cmsghdr (4 * installed.length))
       len := min (cmsgSpace (4 * installed.length)) msg.len }, installed)

/-- How `recv_fd` ends. -/
inductive End where
  /-- `handle_error` -/
  | error
  /-- it follows a `NULL` pointer -/
  | crash
  | returned (fds : List UInt32)
  deriving DecidableEq, Repr

/-- `memcpy` of `n` numbers from behind a header. With no bytes to copy the
pointers are not followed. -/
def memcpyInts (fds : Bool) (cmsg : Option Buffer) (n : Nat) : End :=
  if n = 0 then .returned []
  else
    match cmsg with
    | none => .crash
    | some buf =>
        if fds then .returned ((List.range n).map fun i => buf.get32 (sizeofCmsghdr + 4 * i))
        else .crash

/-- The end of a call and the descriptors the kernel has installed for it. `fds`
is whether `malloc` succeeds; `recvmsg` are the descriptors that arrive, or
nothing if it fails. -/
def recvFd (n : Nat) (fds : Bool) (recvmsg : Option (List UInt32)) : End × List UInt32 :=
  match recvmsg with
  | none => (.error, [])
  | some arriving =>
      let (msg, installed) := scmDetachFds ⟨zeroed, cmsgSpace (4 * n)⟩ arriving
      (memcpyInts fds msg.cmsgFirsthdr n, installed)

/-- The call reports an error or returns the descriptors that were installed. -/
def Exact (x : End × List UInt32) : Prop := x.1 = .error ∨ x.1 = .returned x.2

section Buffers

theorem length_cmsghdr (len : Nat) : (cmsghdr len).length = sizeofCmsghdr := by
  simp [cmsghdr, sizeofCmsghdr]

/-- Numbers stored behind a header are read back. -/
theorem map_get32_ints (buf : Buffer) (fds : List UInt32) :
    ((List.range fds.length).map fun i =>
      (buf.splice sizeofCmsghdr (ints fds)).get32 (sizeofCmsghdr + 4 * i)) = fds := by
  apply List.ext_getElem?
  intro i
  rw [List.getElem?_map]
  rcases Nat.lt_or_ge i fds.length with hlt | hge
  · rw [List.getElem?_range hlt, Option.map_some, Buffer.get32_splice_words fds hlt]
    rfl
  · rw [List.getElem?_eq_none (by simpa using hge), List.getElem?_eq_none hge]
    rfl

theorem get32_cmsghdr (buf : Buffer) (len i : Nat) :
    (buf.splice 0 (cmsghdr len)).get32 (sizeofCmsghdr + 4 * i) =
      buf.get32 (sizeofCmsghdr + 4 * i) :=
  Buffer.get32_splice_outside (.inr (by rw [length_cmsghdr]; omega))

/-- The room `CMSG_SPACE` makes for `n` descriptors: one more if `n` is odd. -/
theorem room_eq (n : Nat) : (cmsgSpace (4 * n) - sizeofCmsghdr) / 4 = n + n % 2 := by
  unfold cmsgSpace cmsgAlign sizeofCmsghdr
  omega

end Buffers

section Receive

variable {n : Nat} {fds : Bool} {arriving : List UInt32}

/-- Nothing is installed: there is no header. -/
theorem recvFd_of_nothing (h : arriving.take (n + n % 2) = []) :
    recvFd n fds (some arriving) = (if n = 0 then .returned [] else .crash, []) := by
  have hdetach : scmDetachFds ⟨zeroed, cmsgSpace (4 * n)⟩ arriving = (⟨zeroed, 0⟩, []) := by
    unfold scmDetachFds
    simp only [room_eq, h, if_true]
  unfold recvFd
  simp only [hdetach]
  rfl

/-- Something is installed: `n` numbers are copied, whatever was installed. -/
theorem recvFd_of_some (fds : Bool) (h : arriving.take (n + n % 2) ≠ []) :
    ∃ got, got.length = n ∧
      ((arriving.take (n + n % 2)).length = n → got = arriving.take (n + n % 2)) ∧
      recvFd n fds (some arriving) =
        (if fds then .returned got else .crash, arriving.take (n + n % 2)) := by
  have hpos : n ≠ 0 := by
    rintro rfl
    exact h (List.take_zero ..)
  have hdetach : scmDetachFds ⟨zeroed, cmsgSpace (4 * n)⟩ arriving =
      (⟨(zeroed.splice sizeofCmsghdr (ints (arriving.take (n + n % 2)))).splice 0
        (cmsghdr (4 * (arriving.take (n + n % 2)).length)),
        min (cmsgSpace (4 * (arriving.take (n + n % 2)).length)) (cmsgSpace (4 * n))⟩,
        arriving.take (n + n % 2)) := by
    unfold scmDetachFds
    simp only [room_eq, h, if_false]
  have hhdr : sizeofCmsghdr ≤
      min (cmsgSpace (4 * (arriving.take (n + n % 2)).length)) (cmsgSpace (4 * n)) := by
    unfold cmsgSpace cmsgAlign sizeofCmsghdr
    omega
  refine ⟨(List.range n).map fun i =>
    (zeroed.splice sizeofCmsghdr (ints (arriving.take (n + n % 2)))).get32
      (sizeofCmsghdr + 4 * i), by simp, fun hlen => ?_, ?_⟩
  · have hread := map_get32_ints zeroed (arriving.take (n + n % 2))
    rwa [hlen] at hread
  · unfold recvFd
    simp only [hdetach, Control.cmsgFirsthdr, if_pos hhdr, memcpyInts, if_neg hpos, get32_cmsghdr]

/-- The descriptors are returned exactly if as many were installed as were asked for. -/
theorem exact_some_iff (n : Nat) (fds : Bool) (arriving : List UInt32) :
    Exact (recvFd n fds (some arriving)) ↔
      n = 0 ∨ fds = true ∧ (arriving.take (n + n % 2)).length = n := by
  by_cases hnone : arriving.take (n + n % 2) = []
  · rw [recvFd_of_nothing hnone, hnone]
    by_cases hzero : n = 0
    · exact iff_of_true (.inr (by rw [if_pos hzero])) (.inl hzero)
    · refine iff_of_false ?_ ?_
      · rw [if_neg hzero]
        rintro (heq | heq) <;> cases heq
      · rintro (heq | ⟨-, heq⟩)
        · exact hzero heq
        · exact hzero heq.symm
  · have hpos : n ≠ 0 := by
      rintro rfl
      exact hnone (List.take_zero ..)
    obtain ⟨got, hlen, hgot, hrun⟩ := recvFd_of_some fds hnone
    rw [hrun]
    cases fds with
    | false =>
        refine iff_of_false ?_ ?_
        · rintro (heq | heq) <;> cases heq
        · rintro (heq | ⟨heq, -⟩)
          · exact hpos heq
          · cases heq
    | true =>
        constructor
        · rintro (heq | heq)
          · cases heq
          · have hsame : got = arriving.take (n + n % 2) := End.returned.inj heq
            exact .inr ⟨rfl, by rw [← hsame, hlen]⟩
        · rintro (heq | ⟨-, heq⟩)
          · exact absurd heq hpos
          · exact .inr (congrArg End.returned (hgot heq))

/-- A call returns exactly the descriptors installed for it, or reports an error,
if and only if `recvmsg` fails, none are asked for, or there is memory for them and
as many were sent, or more and `CMSG_SPACE` has left no room for another one. -/
theorem exact_iff (n : Nat) (fds : Bool) (recvmsg : Option (List UInt32)) :
    Exact (recvFd n fds recvmsg) ↔ recvmsg = none ∨ n = 0 ∨ fds = true ∧
      ∃ arriving, recvmsg = some arriving ∧
        (arriving.length = n ∨ n % 2 = 0 ∧ n < arriving.length) := by
  cases recvmsg with
  | none => exact iff_of_true (.inl rfl) (.inl rfl)
  | some arriving =>
      have hcount : (arriving.take (n + n % 2)).length = n ↔
          arriving.length = n ∨ n % 2 = 0 ∧ n < arriving.length := by
        rw [List.length_take]
        omega
      rw [exact_some_iff, hcount]
      simp

/-- One of two descriptors is lost, an entry is made up, and a message without
descriptors brings the process down. -/
theorem not_exact_mismatch :
    (recvFd 1 true (some [5, 6]) = (.returned [5], [5, 6]) ∧ ¬ Exact (recvFd 1 true (some [5, 6]))) ∧
    (recvFd 2 true (some [5]) = (.returned [5, 0], [5]) ∧ ¬ Exact (recvFd 2 true (some [5]))) ∧
    (recvFd 2 true (some []) = (.crash, []) ∧ ¬ Exact (recvFd 2 true (some []))) := by
  have hone : recvFd 1 true (some [5, 6]) = (.returned [5], [5, 6]) := by decide +kernel
  have htwo : recvFd 2 true (some [5]) = (.returned [5, 0], [5]) := by decide +kernel
  have hnone : recvFd 2 true (some []) = (.crash, []) := by decide +kernel
  refine ⟨⟨hone, ?_⟩, ⟨htwo, ?_⟩, hnone, ?_⟩
  · rw [hone]
    rintro (heq | heq) <;> cases heq
  · rw [htwo]
    rintro (heq | heq) <;> cases heq
  · rw [hnone]
    rintro (heq | heq) <;> cases heq

end Receive

section Send

variable {fds : List UInt32}

/-- The length in a header. -/
theorem get64_cmsghdr (buf : Buffer) {len : Nat} (h : cmsgLen len < UInt64.size) :
    ((buf.splice 0 (cmsghdr len)).get64 0).toNat = cmsgLen len := by
  have hword : (UInt64.ofNat (cmsgLen len)).toNat = cmsgLen len := UInt64.toNat_ofNat_of_lt' h
  unfold cmsghdr
  rw [List.append_assoc, Buffer.splice_append, Buffer.get64_splice_outside (.inl (by simp))]
  nth_rewrite 1 [← hword]
  rw [Buffer.get64_splice_self, hword]

/-- The kernel finds in the control buffer the descriptors given to `send_fd`. -/
theorem scmFpCopy_sendFd (h : fds.length ≤ scmMaxFd) : scmFpCopy (sendFd fds) = some fds := by
  have hlt : cmsgLen (4 * fds.length) < UInt64.size := by
    unfold cmsgLen cmsgAlign sizeofCmsghdr
    unfold scmMaxFd at h
    have hsize : UInt64.size = 18446744073709551616 := rfl
    omega
  have hlen : ((sendFd fds).buf.get64 0).toNat = cmsgLen (4 * fds.length) := by
    unfold sendFd
    rw [Buffer.get64_splice_outside (.inl (by unfold sizeofCmsghdr; omega))]
    exact get64_cmsghdr zeroed hlt
  have hnum : (cmsgLen (4 * fds.length) - cmsgLen 0) / 4 = fds.length := by
    unfold cmsgLen
    omega
  unfold scmFpCopy
  simp only [hlen, hnum]
  rw [if_pos h]
  exact congrArg some (map_get32_ints _ fds)

/-- What is sent and asked for with the same count arrives: the descriptors the
kernel makes of it are returned, in the order sent. -/
theorem recvFd_sendFd (h : fds.length ≤ scmMaxFd) (newFd : Nat → UInt32) :
    ∃ sent, scmFpCopy (sendFd fds) = some sent ∧ sent = fds ∧
      Exact (recvFd fds.length true (some ((List.range sent.length).map newFd))) := by
  refine ⟨fds, scmFpCopy_sendFd h, rfl, ?_⟩
  rw [exact_some_iff]
  refine .inr ⟨rfl, ?_⟩
  rw [List.length_take, List.length_map, List.length_range]
  omega

end Send

end LinuxDevelopment.RecvFd
