import LinuxDevelopment.Base.Transition
import LinuxDevelopment.MultiProcess.RecvFd

/-!
# sendfd, recvfd: the two programs

`sendfd` opens two files and sends their descriptors, `recvfd` waits for them and
copies what it reads from them to descriptor 1. The programs run side by side,
each call may fail, and either program may be killed at any moment, the sender
also when its message is on the way. `recvfd` does not look at the result of
`write`: what a `write` does not take of a piece is lost. The lines printed with
`fprintf` are left out.

A descriptor is a number in the table of one process. What is sent is the open
file behind it, with its offset, and the receiver gets it under numbers of its
own.
-/

namespace LinuxDevelopment.Passing

open RecvFd

/-- `sizeof(buffer)` in `main` of `recvfd.c`. -/
def sizeofBuffer : Nat := 256

/-- The system call `main` of `sendfd.c` comes to next. -/
inductive SenderPc where
  | socket
  | open0
  | open1
  | connect
  | sendFd
  /-- `while(1);` -/
  | spin
  | ended
  deriving DecidableEq, Repr

/-- The system call `main` of `recvfd.c` comes to next. -/
inductive ReceiverPc where
  | socket
  | unlink
  | bind
  | listen
  | accept
  | recvFd
  /-- `read(fds[i], …)`, or behind the loop if `i` is 2 -/
  | read (i : Nat)
  /-- `while(1);` -/
  | spin
  | exited
  | crashed
  deriving DecidableEq, Repr

/-- An open file: its contents and the offset of the next `read`. -/
structure OpenFile where
  contents : List UInt8
  pos : Nat
  deriving DecidableEq, Repr

/-- The sockets are the open files from 2 on. -/
structure State where
  file : Nat → OpenFile
  sender : SenderPc
  /-- the array `fds` of the sender, and its descriptors -/
  sfds : List UInt32
  stable : UInt32 → Option Nat
  receiver : ReceiverPc
  /-- the array `fds` of the receiver, and its descriptors -/
  rfds : List UInt32
  rtable : UInt32 → Option Nat
  /-- the receiver listens; a connection has been made -/
  listening : Bool
  connected : Bool
  /-- the open files of the message that is on the socket -/
  mail : Option (List Nat)
  /-- what was written to descriptor 1, and the calls of `write` with their counts
  and results -/
  copied : List UInt8
  writes : List (Int × Int)
  /-- a message was sent; a `read` has failed; `malloc` has failed -/
  sent : Bool
  readFailed : Bool
  noMemory : Bool

/-- Two files with the given contents, before either program has started. -/
def start (contents0 contents1 : List UInt8) : State where
  file := fun f => ⟨if f = 0 then contents0 else if f = 1 then contents1 else [], 0⟩
  sender := .socket
  sfds := []
  stable := fun _ => none
  receiver := .socket
  rfds := []
  rtable := fun _ => none
  listening := false
  connected := false
  mail := none
  copied := []
  writes := []
  sent := false
  readFailed := false
  noMemory := false

inductive Label where
  /-- a call of the sender: whether it succeeds, and a descriptor it returns -/
  | sender (ok : Bool) (fd : UInt32)
  | killSender
  /-- a call of the receiver: whether it succeeds, the descriptors the kernel hands
  out, whether `malloc` succeeds, and what `read` and the `write` behind it return -/
  | receiver (ok : Bool) (fds : List UInt32) (malloc : Bool) (n m : Int)
  | killReceiver
  deriving DecidableEq, Repr

/-- A new descriptor for an open file, if the number is free. -/
def install (table : UInt32 → Option Nat) (fd : UInt32) (f : Nat) :
    Option (UInt32 → Option Nat) :=
  if table fd = none then some (Function.update table fd (some f)) else none

/-- New descriptors for the open files of a message. -/
def installAll (table : UInt32 → Option Nat) : List UInt32 → List Nat → Option (UInt32 → Option Nat)
  | fd :: fds, f :: files => (install table fd f).bind fun table => installAll table fds files
  | _, _ => some table

/-- The sender ends, by `exit` or killed: its descriptors are closed. -/
def endSender (s : State) : State := { s with sender := .ended, stable := fun _ => none }

def senderStep (s : State) (ok : Bool) (fd : UInt32) : Option State :=
  match s.sender with
  | .socket =>
      if ok then (install s.stable fd 2).map fun table =>
        { s with stable := table, sender := .open0 }
      else some (endSender s)
  | .open0 =>
      if ok then (install s.stable fd 0).map fun table =>
        { s with stable := table, sfds := [fd], sender := .open1 }
      else some (endSender s)
  | .open1 =>
      if ok then (install s.stable fd 1).map fun table =>
        { s with stable := table, sfds := s.sfds ++ [fd], sender := .connect }
      else some (endSender s)
  | .connect =>
      if ok then
        if s.listening then some { s with connected := true, sender := .sendFd } else none
      else some (endSender s)
  | .sendFd =>
      if ok then
        match (scmFpCopy (RecvFd.sendFd s.sfds)).bind fun fds => fds.mapM s.stable with
        | some files => some { s with mail := some files, sent := true, sender := .spin }
        | none => some (endSender s)
      else some (endSender s)
  | .spin => some s
  | .ended => none

/-- The end of `recv_fd(cfd, 2)` when these descriptors arrive. -/
def received (s : State) (malloc : Bool) (arriving : List UInt32) (files : List Nat) :
    Option State :=
  let (result, installed) := RecvFd.recvFd 2 malloc (some arriving)
  (installAll s.rtable installed files).map fun table =>
    let s := { s with rtable := table, mail := none, noMemory := !malloc }
    match result with
    | .error => { s with receiver := .exited, listening := false }
    | .crash => { s with receiver := .crashed, listening := false }
    | .returned fds => { s with rfds := fds, receiver := .read 0 }

/-- `nbytes = read(fds[i], buffer, sizeof(buffer))` and `write(1, buffer, nbytes)`, if the
kernel can answer them with `n` and `m`. -/
def readStep (s : State) (i : Nat) (n m : Int) : Option State :=
  match s.rtable (s.rfds.getD i 0) with
  | none => some { s with readFailed := true, receiver := .read (i + 1) }
  | some f =>
      if n < 0 then some { s with readFailed := true, receiver := .read (i + 1) }
      else if n = 0 then
        if (s.file f).pos = (s.file f).contents.length then
          some { s with receiver := .read (i + 1) }
        else none
      else if n ≤ sizeofBuffer ∧ (s.file f).pos + n.toNat ≤ (s.file f).contents.length ∧
          m ≤ n then
        some { s with
          copied := s.copied ++
            (((s.file f).contents.drop (s.file f).pos).take n.toNat).take m.toNat
          writes := s.writes ++ [(n, m)]
          file := Function.update s.file f { s.file f with pos := (s.file f).pos + n.toNat } }
      else none

/-- The receiver ends, by `exit` or killed. -/
def endReceiver (s : State) : State := { s with receiver := .exited, listening := false }

def receiverStep (s : State) (ok : Bool) (fds : List UInt32) (malloc : Bool) (n m : Int) :
    Option State :=
  match s.receiver with
  | .socket =>
      if ok then (installAll s.rtable fds [3]).map fun table =>
        { s with rtable := table, receiver := .unlink }
      else some (endReceiver s)
  | .unlink => some (if ok then { s with receiver := .bind } else endReceiver s)
  | .bind => some (if ok then { s with receiver := .listen } else endReceiver s)
  | .listen =>
      some (if ok then { s with listening := true, receiver := .accept } else endReceiver s)
  | .accept =>
      if ok then
        if s.connected then (installAll s.rtable fds [4]).map fun table =>
          { s with rtable := table, receiver := .recvFd }
        else none
      else some (endReceiver s)
  | .recvFd =>
      if ok then
        match s.mail with
        | some files => if fds.length = files.length then received s malloc fds files else none
        -- without a message `recvmsg` waits, or returns 0 if the sender is gone
        | none => if s.sender = .ended then received s malloc [] [] else none
      else some (endReceiver s)
  | .read i => if i < 2 then readStep s i n m else some { s with receiver := .spin }
  | .spin => some s
  | .exited => none
  | .crashed => none

def step (s : State) : Label → Option State
  | .sender ok fd => senderStep s ok fd
  | .killSender => if s.sender = .ended then none else some (endSender s)
  | .receiver ok fds malloc n m => receiverStep s ok fds malloc n m
  | .killReceiver =>
      if s.receiver = .exited ∨ s.receiver = .crashed then none else some (endReceiver s)

/-- The sender has opened a file and not sent its descriptor. -/
def SenderPc.holds : SenderPc → Bool
  | .open1 | .connect | .sendFd => true
  | _ => false

/-- The receiver has not come back from `recv_fd`. -/
def ReceiverPc.waits : ReceiverPc → Bool
  | .socket | .unlink | .bind | .listen | .accept | .recvFd => true
  | _ => false

/-- The receiver has come back from `recv_fd`. -/
def ReceiverPc.reads : ReceiverPc → Bool
  | .read _ | .spin => true
  | _ => false

section Invariant

variable {data0 data1 : List UInt8} {s t : State}

/-- The array of the sender has the descriptors of the files it has opened. -/
structure SenderAt (s : State) : Prop where
  one : s.sender = .open1 → ∃ a, s.sfds = [a] ∧ s.stable a = some 0
  two : s.sender = .connect ∨ s.sender = .sendFd →
    ∃ a b, s.sfds = [a, b] ∧ s.stable a = some 0 ∧ s.stable b = some 1

/-- The message carries the two files, and it stays until the receiver takes it. -/
structure MailAt (s : State) : Prop where
  files : ∀ files, s.mail = some files → files = [0, 1]
  kept : s.sent = true → s.receiver.waits = true → s.mail ≠ none
  crashed : s.receiver = .crashed → s.noMemory = true ∨ s.sender = .ended ∧ s.sent = false

/-- What has been read has been given to `write`. -/
structure FilesAt (data0 data1 : List UInt8) (s : State) : Prop where
  contents0 : (s.file 0).contents = data0
  contents1 : (s.file 1).contents = data1
  copied : Relays (data0.take (s.file 0).pos ++ data1.take (s.file 1).pos) s.writes s.copied
  unread : s.receiver.waits = true → (s.file 0).pos = 0 ∧ (s.file 1).pos = 0

/-- The array of the receiver has descriptors of the two files, which are read one
after the other. -/
structure ReceiverAt (s : State) : Prop where
  fds : s.receiver.reads = true →
    ∃ a b, s.rfds = [a, b] ∧ s.rtable a = some 0 ∧ s.rtable b = some 1
  first : s.receiver = .read 0 → (s.file 1).pos = 0
  second : ∀ i, s.receiver = .read (i + 1) →
    s.readFailed = true ∨ (s.file 0).pos = (s.file 0).contents.length
  done : (∃ i, s.receiver = .read (i + 2)) ∨ s.receiver = .spin → s.readFailed = true ∨
    (s.file 0).pos = (s.file 0).contents.length ∧ (s.file 1).pos = (s.file 1).contents.length

structure Consistent (data0 data1 : List UInt8) (s : State) : Prop where
  sender : SenderAt s
  mail : MailAt s
  files : FilesAt data0 data1 s
  receiver : ReceiverAt s

theorem senderAt_of_holds (h : s.sender.holds = false) : SenderAt s := by
  constructor
  · intro hpc
    rw [hpc] at h
    cases h
  · rintro (hpc | hpc) <;> rw [hpc] at h <;> cases h

theorem receiverAt_of_reads (h : s.receiver.reads = false) : ReceiverAt s := by
  constructor
  · intro hreads
    rw [h] at hreads
    cases hreads
  · intro hpc
    rw [hpc] at h
    cases h
  · intro i hpc
    rw [hpc] at h
    cases h
  · rintro (⟨i, hpc⟩ | hpc) <;> rw [hpc] at h <;> cases h

section Sender

/-- The sender has moved on and the receiver has not. -/
theorem Consistent.sender_moves (h : Consistent data0 data1 s) {pc : SenderPc} {sfds : List UInt32}
    {stable : UInt32 → Option Nat} {connected : Bool}
    (hat : SenderAt { s with sender := pc, sfds := sfds, stable := stable, connected := connected })
    (hended : s.sender ≠ .ended ∨ pc = .ended) :
    Consistent data0 data1
      { s with sender := pc, sfds := sfds, stable := stable, connected := connected } where
  sender := hat
  mail := ⟨h.mail.files, h.mail.kept, fun hcrash =>
    (h.mail.crashed hcrash).imp_right fun hno => ⟨hended.resolve_left (not_not.mpr hno.1), hno.2⟩⟩
  files := ⟨h.files.contents0, h.files.contents1, h.files.copied, h.files.unread⟩
  receiver := ⟨h.receiver.fds, h.receiver.first, h.receiver.second, h.receiver.done⟩

theorem Consistent.endSender (h : Consistent data0 data1 s) :
    Consistent data0 data1 (endSender s) :=
  h.sender_moves (senderAt_of_holds rfl) (.inr rfl)

theorem install_cases {table table' : UInt32 → Option Nat} {fd : UInt32} {f : Nat}
    (h : install table fd f = some table') :
    table' fd = some f ∧ ∀ a g, table a = some g → table' a = some g := by
  obtain ⟨hfree, h⟩ := Option.ite_none_right_eq_some.mp h
  obtain rfl := Option.some.inj h
  refine ⟨Function.update_self .., fun a g ha => ?_⟩
  have hne : a ≠ fd := by
    rintro rfl
    rw [hfree] at ha
    cases ha
  rw [Function.update_of_ne hne, ha]

/-- The kernel finds the two open files behind the descriptors in the message. -/
theorem SenderAt.message (h : SenderAt s) (hpc : s.sender = .sendFd) :
    ((scmFpCopy (RecvFd.sendFd s.sfds)).bind fun fds => fds.mapM s.stable) = some [0, 1] := by
  obtain ⟨a, b, hsfds, ha, hb⟩ := h.two (.inr hpc)
  have hlen : [a, b].length ≤ scmMaxFd := show 2 ≤ scmMaxFd by decide
  rw [hsfds, scmFpCopy_sendFd hlen, Option.bind_some]
  simp [ha, hb]

theorem Consistent.senderStep (h : Consistent data0 data1 s) {ok : Bool} {fd : UInt32}
    (ht : senderStep s ok fd = some t) : Consistent data0 data1 t := by
  have hne : s.sender ≠ .ended := by
    intro hended
    unfold Passing.senderStep at ht
    rw [hended] at ht
    cases ht
  unfold Passing.senderStep at ht
  cases hpc : s.sender <;> rw [hpc] at ht <;> dsimp only at ht
  case socket =>
    obtain ⟨-, ht⟩ | ⟨-, ht⟩ := ite_eq_iff.mp ht
    · obtain ⟨table, -, rfl⟩ := Option.map_eq_some_iff.mp ht
      exact h.sender_moves (senderAt_of_holds rfl) (.inl hne)
    · exact Option.some.inj ht ▸ h.endSender
  case open0 =>
    obtain ⟨-, ht⟩ | ⟨-, ht⟩ := ite_eq_iff.mp ht
    · obtain ⟨table, htable, rfl⟩ := Option.map_eq_some_iff.mp ht
      refine h.sender_moves ⟨fun _ => ⟨fd, rfl, (install_cases htable).1⟩, ?_⟩
        (.inl hne)
      rintro (hpc | hpc) <;> cases hpc
    · exact Option.some.inj ht ▸ h.endSender
  case open1 =>
    obtain ⟨-, ht⟩ | ⟨-, ht⟩ := ite_eq_iff.mp ht
    · obtain ⟨table, htable, rfl⟩ := Option.map_eq_some_iff.mp ht
      obtain ⟨hnew, hold⟩ := install_cases htable
      obtain ⟨a, hsfds, ha⟩ := h.sender.one hpc
      refine h.sender_moves ⟨fun heq => (by cases heq), fun _ => ?_⟩ (.inl hne)
      exact ⟨a, fd, by rw [hsfds]; rfl, hold a 0 ha, hnew⟩
    · exact Option.some.inj ht ▸ h.endSender
  case connect =>
    obtain ⟨-, ht⟩ | ⟨-, ht⟩ := ite_eq_iff.mp ht
    · obtain ⟨-, ht⟩ := Option.ite_none_right_eq_some.mp ht
      obtain rfl := Option.some.inj ht
      exact h.sender_moves ⟨fun heq => (by cases heq), fun _ => h.sender.two (.inl hpc)⟩ (.inl hne)
    · exact Option.some.inj ht ▸ h.endSender
  case sendFd =>
    obtain ⟨-, ht⟩ | ⟨-, ht⟩ := ite_eq_iff.mp ht
    · rw [h.sender.message hpc] at ht
      obtain rfl := Option.some.inj ht
      refine ⟨senderAt_of_holds rfl, ⟨?_, ?_, ?_⟩, ?_, ?_⟩
      · exact fun files hfiles => (Option.some.inj hfiles).symm
      · exact fun _ _ => Option.some_ne_none _
      · intro hcrash
        exact (h.mail.crashed hcrash).imp_right fun hno => absurd hno.1 hne
      · exact ⟨h.files.contents0, h.files.contents1, h.files.copied, h.files.unread⟩
      · exact ⟨h.receiver.fds, h.receiver.first, h.receiver.second, h.receiver.done⟩
    · exact Option.some.inj ht ▸ h.endSender
  case spin => exact Option.some.inj ht ▸ h
  case ended => exact absurd hpc hne

end Sender

section Receiver

/-- The receiver has moved on before it has its descriptors, or ended. -/
theorem Consistent.receiver_moves (h : Consistent data0 data1 s) {pc : ReceiverPc}
    {rtable : UInt32 → Option Nat} {listening : Bool}
    (hpc : pc.waits = true → s.receiver.waits = true) (hreads : pc.reads = false)
    (hcrashed : pc ≠ .crashed) :
    Consistent data0 data1 { s with receiver := pc, rtable := rtable, listening := listening } where
  sender := ⟨h.sender.one, h.sender.two⟩
  mail := ⟨h.mail.files, fun hsent hwaits => h.mail.kept hsent (hpc hwaits),
    fun heq => absurd heq hcrashed⟩
  files := ⟨h.files.contents0, h.files.contents1, h.files.copied,
    fun hwaits => h.files.unread (hpc hwaits)⟩
  receiver := receiverAt_of_reads hreads

/-- A call before `recv_fd` that succeeds. -/
theorem Consistent.receiver_waits (h : Consistent data0 data1 s) {pc : ReceiverPc}
    {rtable : UInt32 → Option Nat} {listening : Bool} (hs : s.receiver.waits = true)
    (hpc : pc.waits = true) :
    Consistent data0 data1
      { s with receiver := pc, rtable := rtable, listening := listening } := by
  refine h.receiver_moves (fun _ => hs) ?_ ?_
  · cases pc with
    | read i => cases hpc
    | spin => cases hpc
    | _ => rfl
  · rintro rfl
    cases hpc

theorem Consistent.endReceiver (h : Consistent data0 data1 s) :
    Consistent data0 data1 (endReceiver s) :=
  h.receiver_moves (fun hwaits => (by cases hwaits)) rfl fun heq => by cases heq

/-- The two descriptors of the message are the two files in the order sent. -/
theorem installAll_two {table table' : UInt32 → Option Nat} {a b : UInt32}
    (h : installAll table [a, b] [0, 1] = some table') :
    table' a = some 0 ∧ table' b = some 1 := by
  obtain ⟨table₁, hfirst, h⟩ := Option.bind_eq_some_iff.mp h
  obtain ⟨table₂, hsecond, h⟩ := Option.bind_eq_some_iff.mp h
  obtain rfl := Option.some.inj h
  obtain ⟨ha, -⟩ := install_cases hfirst
  obtain ⟨hb, hold⟩ := install_cases hsecond
  exact ⟨hold a 0 ha, hb⟩

/-- With two descriptors in the message, `recv_fd` returns both of them. -/
theorem recvFd_two (malloc : Bool) (a b : UInt32) :
    RecvFd.recvFd 2 malloc (some [a, b]) =
      (if malloc then .returned [a, b] else .crash, [a, b]) := by
  obtain ⟨got, -, hgot, hrun⟩ := recvFd_of_some (n := 2) malloc (show [a, b].take 2 ≠ [] by simp)
  rw [hrun, hgot rfl]
  rfl

/-- Without descriptors it follows a null pointer. -/
theorem recvFd_none (malloc : Bool) : RecvFd.recvFd 2 malloc (some []) = (.crash, []) :=
  recvFd_of_nothing rfl

theorem mailAt_of_taken (hmail : s.mail = none) (hwaits : s.receiver.waits = false)
    (hcrashed : s.receiver = .crashed → s.noMemory = true ∨ s.sender = .ended ∧ s.sent = false) :
    MailAt s := by
  refine ⟨fun files heq => ?_, fun _ hwaits' => ?_, hcrashed⟩
  · rw [hmail] at heq
    cases heq
  · rw [hwaits] at hwaits'
    cases hwaits'

theorem Consistent.received_two (h : Consistent data0 data1 s) (hpc : s.receiver = .recvFd)
    {malloc : Bool} {a b : UInt32} (ht : received s malloc [a, b] [0, 1] = some t) :
    Consistent data0 data1 t := by
  have hunread := h.files.unread (by rw [hpc]; rfl)
  unfold received at ht
  rw [recvFd_two] at ht
  obtain ⟨table, htable, ht⟩ := Option.map_eq_some_iff.mp ht
  cases malloc with
  | true =>
      subst ht
      refine ⟨⟨h.sender.one, h.sender.two⟩, mailAt_of_taken rfl rfl fun heq => (by cases heq), ?_,
        ?_⟩
      · exact ⟨h.files.contents0, h.files.contents1, h.files.copied, fun _ => hunread⟩
      · refine ⟨fun _ => ⟨a, b, rfl, installAll_two htable⟩, fun _ => hunread.2, ?_, ?_⟩
        · intro i heq
          cases heq
        · rintro (⟨i, heq⟩ | heq) <;> cases heq
  | false =>
      subst ht
      refine ⟨⟨h.sender.one, h.sender.two⟩, mailAt_of_taken rfl rfl fun _ => .inl rfl, ?_,
        receiverAt_of_reads rfl⟩
      exact ⟨h.files.contents0, h.files.contents1, h.files.copied, fun _ => hunread⟩

theorem Consistent.received_none (h : Consistent data0 data1 s) (hpc : s.receiver = .recvFd)
    (hmail : s.mail = none) (hended : s.sender = .ended) {malloc : Bool}
    (ht : received s malloc [] [] = some t) : Consistent data0 data1 t := by
  have hunread := h.files.unread (by rw [hpc]; rfl)
  have hsent : s.sent = false := by
    by_contra hsent
    exact h.mail.kept (Bool.not_eq_false _ ▸ hsent) (by rw [hpc]; rfl) hmail
  unfold received at ht
  rw [recvFd_none] at ht
  obtain ⟨table, htable, ht⟩ := Option.map_eq_some_iff.mp ht
  subst ht
  refine ⟨⟨h.sender.one, h.sender.two⟩, mailAt_of_taken rfl rfl fun _ => .inr ⟨hended, hsent⟩, ?_,
    receiverAt_of_reads rfl⟩
  exact ⟨h.files.contents0, h.files.contents1, h.files.copied, fun _ => hunread⟩

theorem length_piece {data : List UInt8} {pos k : Nat} (h : pos + k ≤ data.length) :
    ((data.drop pos).take k).length = k := by
  rw [List.length_take, List.length_drop]
  omega

/-- A `read` fails: the loop goes on with the next descriptor. -/
theorem Consistent.read_fails (h : Consistent data0 data1 s) {i : Nat}
    (hpc : s.receiver = .read i) :
    Consistent data0 data1 { s with readFailed := true, receiver := .read (i + 1) } := by
  have hreads : s.receiver.reads = true := by
    rw [hpc]
    rfl
  refine ⟨⟨h.sender.one, h.sender.two⟩, ⟨h.mail.files, fun _ hwaits => (by cases hwaits),
    fun heq => (by cases heq)⟩, ?_, ?_⟩
  · exact ⟨h.files.contents0, h.files.contents1, h.files.copied, fun hno => (by cases hno)⟩
  · exact ⟨fun _ => h.receiver.fds hreads, fun heq => (by cases heq), fun _ _ => .inl rfl,
      fun _ => .inl rfl⟩

/-- The end of a file is reached: the loop goes on with the next descriptor. -/
theorem Consistent.read_ends (h : Consistent data0 data1 s) {i : Nat} (hi : i < 2)
    (hpc : s.receiver = .read i) (hend : (s.file i).pos = (s.file i).contents.length) :
    Consistent data0 data1 { s with receiver := .read (i + 1) } := by
  have hreads : s.receiver.reads = true := by
    rw [hpc]
    rfl
  have hfirst : s.readFailed = true ∨ (s.file 0).pos = (s.file 0).contents.length := by
    cases i with
    | zero => exact .inr hend
    | succ i => exact h.receiver.second i hpc
  refine ⟨⟨h.sender.one, h.sender.two⟩, ⟨h.mail.files, fun _ hwaits => (by cases hwaits),
    fun heq => (by cases heq)⟩, ?_, ?_⟩
  · exact ⟨h.files.contents0, h.files.contents1, h.files.copied, fun hno => (by cases hno)⟩
  · refine ⟨fun _ => h.receiver.fds hreads, fun heq => (by cases heq), fun _ _ => hfirst, ?_⟩
    rintro (⟨j, heq⟩ | heq)
    · obtain rfl : i = j + 1 := Nat.succ.inj (ReceiverPc.read.inj heq)
      obtain rfl : j = 0 := by omega
      exact hfirst.imp_right fun hzero => ⟨hzero, hend⟩
    · cases heq

/-- A piece of the first file is given to `write`. -/
theorem Consistent.read_first (h : Consistent data0 data1 s) {n : Int} (m : Int)
    (hpc : s.receiver = .read 0)
    (hle : (s.file 0).pos + n.toNat ≤ (s.file 0).contents.length) :
    Consistent data0 data1 { s with
      copied := s.copied ++ (((s.file 0).contents.drop (s.file 0).pos).take n.toNat).take m.toNat
      writes := s.writes ++ [(n, m)]
      file := Function.update s.file 0 { s.file 0 with pos := (s.file 0).pos + n.toNat } } := by
  have hzero := h.receiver.first hpc
  refine ⟨⟨h.sender.one, h.sender.two⟩, ⟨h.mail.files, h.mail.kept, h.mail.crashed⟩,
    ⟨h.files.contents0, h.files.contents1, ?_, fun hno => ?_⟩, h.receiver.fds, fun _ => hzero,
    fun i heq => ?_, ?_⟩
  · change Relays (data0.take ((s.file 0).pos + n.toNat) ++ data1.take (s.file 1).pos) _ _
    have hcopied := h.files.copied
    rw [hzero, List.take_zero, List.append_nil] at hcopied ⊢
    rw [h.files.contents0] at hle ⊢
    rw [List.take_add]
    exact hcopied.snoc (length_piece hle) m
  · rw [hpc] at hno
    cases hno
  · cases hpc.symm.trans heq
  · rintro (⟨i, heq⟩ | heq) <;> cases hpc.symm.trans heq

/-- A piece of the second file is given to `write`. -/
theorem Consistent.read_second (h : Consistent data0 data1 s) {n : Int} (m : Int)
    (hpc : s.receiver = .read 1)
    (hle : (s.file 1).pos + n.toNat ≤ (s.file 1).contents.length) :
    Consistent data0 data1 { s with
      copied := s.copied ++ (((s.file 1).contents.drop (s.file 1).pos).take n.toNat).take m.toNat
      writes := s.writes ++ [(n, m)]
      file := Function.update s.file 1 { s.file 1 with pos := (s.file 1).pos + n.toNat } } := by
  refine ⟨⟨h.sender.one, h.sender.two⟩, ⟨h.mail.files, h.mail.kept, h.mail.crashed⟩,
    ⟨h.files.contents0, h.files.contents1, ?_, fun hno => ?_⟩, h.receiver.fds, fun heq => ?_,
    fun _ _ => h.receiver.second 0 hpc, ?_⟩
  · change Relays (data0.take (s.file 0).pos ++ data1.take ((s.file 1).pos + n.toNat)) _ _
    rw [h.files.contents1] at hle ⊢
    rw [List.take_add, ← List.append_assoc]
    exact h.files.copied.snoc (length_piece hle) m
  · rw [hpc] at hno
    cases hno
  · cases hpc.symm.trans heq
  · rintro (⟨i, heq⟩ | heq) <;> cases hpc.symm.trans heq

theorem Consistent.readStep (h : Consistent data0 data1 s) {i : Nat} {n m : Int} (hi : i < 2)
    (hpc : s.receiver = .read i) (ht : readStep s i n m = some t) : Consistent data0 data1 t := by
  obtain ⟨a, b, hfds, ha, hb⟩ := h.receiver.fds (by rw [hpc]; rfl)
  have hfile : s.rtable (s.rfds.getD i 0) = some i := by
    rw [hfds]
    obtain rfl | rfl : i = 0 ∨ i = 1 := by omega
    · exact ha
    · exact hb
  unfold Passing.readStep at ht
  rw [hfile] at ht
  dsimp only at ht
  obtain ⟨-, ht⟩ | ⟨-, ht⟩ := ite_eq_iff.mp ht
  · exact Option.some.inj ht ▸ h.read_fails hpc
  obtain ⟨-, ht⟩ | ⟨-, ht⟩ := ite_eq_iff.mp ht
  · obtain ⟨hend, ht⟩ := Option.ite_none_right_eq_some.mp ht
    exact Option.some.inj ht ▸ h.read_ends hi hpc hend
  · obtain ⟨⟨-, hle, -⟩, ht⟩ := Option.ite_none_right_eq_some.mp ht
    obtain rfl | rfl : i = 0 ∨ i = 1 := by omega
    · exact Option.some.inj ht ▸ h.read_first m hpc hle
    · exact Option.some.inj ht ▸ h.read_second m hpc hle

/-- Both files have been read. -/
theorem Consistent.read_done (h : Consistent data0 data1 s) {i : Nat} (hi : ¬ i < 2)
    (hpc : s.receiver = .read i) : Consistent data0 data1 { s with receiver := .spin } := by
  have hreads : s.receiver.reads = true := by
    rw [hpc]
    rfl
  obtain ⟨j, rfl⟩ : ∃ j, i = j + 2 := ⟨i - 2, by omega⟩
  refine ⟨⟨h.sender.one, h.sender.two⟩, ⟨h.mail.files, fun _ hno => (by cases hno),
    fun heq => (by cases heq)⟩, ?_, ?_⟩
  · exact ⟨h.files.contents0, h.files.contents1, h.files.copied, fun hno => (by cases hno)⟩
  · exact ⟨fun _ => h.receiver.fds hreads, fun heq => (by cases heq),
      fun _ heq => (by cases heq), fun _ => h.receiver.done (.inl ⟨j, hpc⟩)⟩

theorem Consistent.receiverStep (h : Consistent data0 data1 s) {ok malloc : Bool}
    {fds : List UInt32} {n m : Int} (ht : receiverStep s ok fds malloc n m = some t) :
    Consistent data0 data1 t := by
  unfold Passing.receiverStep at ht
  cases hpc : s.receiver with
  | socket =>
      rw [hpc] at ht
      obtain ⟨-, ht⟩ | ⟨-, ht⟩ := ite_eq_iff.mp ht
      · obtain ⟨table, -, rfl⟩ := Option.map_eq_some_iff.mp ht
        exact h.receiver_waits (by rw [hpc]; rfl) rfl
      · exact Option.some.inj ht ▸ h.endReceiver
  | unlink | bind | listen =>
      rw [hpc] at ht
      obtain rfl := Option.some.inj ht
      split
      · exact h.receiver_waits (by rw [hpc]; rfl) rfl
      · exact h.endReceiver
  | accept =>
      rw [hpc] at ht
      obtain ⟨-, ht⟩ | ⟨-, ht⟩ := ite_eq_iff.mp ht
      · obtain ⟨-, ht⟩ := Option.ite_none_right_eq_some.mp ht
        obtain ⟨table, -, rfl⟩ := Option.map_eq_some_iff.mp ht
        exact h.receiver_waits (by rw [hpc]; rfl) rfl
      · exact Option.some.inj ht ▸ h.endReceiver
  | recvFd =>
      rw [hpc] at ht
      obtain ⟨-, ht⟩ | ⟨-, ht⟩ := ite_eq_iff.mp ht
      · cases hmail : s.mail with
        | none =>
            rw [hmail] at ht
            obtain ⟨hended, ht⟩ := Option.ite_none_right_eq_some.mp ht
            exact h.received_none hpc hmail hended ht
        | some files =>
            rw [hmail] at ht
            obtain rfl := h.mail.files files hmail
            obtain ⟨hlen, ht⟩ := Option.ite_none_right_eq_some.mp ht
            obtain ⟨a, b, rfl⟩ := List.length_eq_two.mp hlen
            exact h.received_two hpc ht
      · exact Option.some.inj ht ▸ h.endReceiver
  | read i =>
      rw [hpc] at ht
      obtain ⟨hi, ht⟩ | ⟨hi, ht⟩ := ite_eq_iff.mp ht
      · exact h.readStep hi hpc ht
      · exact Option.some.inj ht ▸ h.read_done hi hpc
  | spin =>
      rw [hpc] at ht
      exact Option.some.inj ht ▸ h
  | exited | crashed =>
      rw [hpc] at ht
      cases ht

end Receiver

theorem Consistent.step {l : Label} (h : Consistent data0 data1 s) (ht : step s l = some t) :
    Consistent data0 data1 t := by
  cases l with
  | sender ok fd => exact h.senderStep ht
  | killSender =>
      obtain ⟨-, ht⟩ := Option.ite_none_left_eq_some.mp ht
      exact Option.some.inj ht ▸ h.endSender
  | receiver ok fds malloc n m => exact h.receiverStep ht
  | killReceiver =>
      obtain ⟨-, ht⟩ := Option.ite_none_left_eq_some.mp ht
      exact Option.some.inj ht ▸ h.endReceiver

end Invariant

end LinuxDevelopment.Passing
