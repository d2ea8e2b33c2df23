import LinuxDevelopment.Base.Bytes
import LinuxDevelopment.Base.Transition

/-!
# globalfifo: the driver and the tasks that call it

Any number of tasks call the driver at once. A task moves from one program
point to the next; what it does in between is one step. The points lie before
every `mutex_lock` and after every `mutex_unlock`, around `schedule` and around
the wake-up, so a step under `dev->mutex` may still be cut where the order of a
store and a wake-up matters.

`globalfifo_read` and `globalfifo_write` are the same loop around different
copies. They differ in the queue they sleep on, in the condition and the state
they sleep with, and in the signals they give up for.
-/

namespace LinuxDevelopment.Globalfifo

/-- `GLOBALFIFO_SIZE`. -/
def globalfifoSize : Nat := 0x1000

/-- `FIFO_CLEAR`. -/
def fifoClear : Nat := 0x1

/-- The state of a task, as far as a wake-up looks at it. `TASK_KILLABLE` is
`TASK_WAKEKILL | TASK_UNINTERRUPTIBLE`. -/
inductive TaskState where
  | running
  | interruptible
  | killable
  deriving DecidableEq, Repr

/-- The users of the two wait queues: `r_wait` and `w_wait`. -/
inductive Side where
  | reader
  | writer
  deriving DecidableEq, Repr

/-- A system call on the device with what the caller passes. The user buffer
of a write is read from its start. -/
inductive Request where
  | read (count : Nat)
  | write (buf : Buffer) (count : Nat)
  | ioctl (cmd : Nat)
  | poll

/-- A request and whether `filp->f_flags` has `O_NONBLOCK`. -/
structure Call where
  request : Request
  nonblock : Bool

/-- The wait queue a call puts itself on. -/
def Request.side : Request → Option Side
  | .read _ => some .reader
  | .write _ _ => some .writer
  | .ioctl _ => none
  | .poll => none

inductive Errno where
  | eagain
  | efault
  | einval
  | erestartsys
  deriving DecidableEq, Repr

def Errno.code : Errno → Int
  | .eagain => 11
  | .efault => 14
  | .einval => 22
  | .erestartsys => 512

/-- What a call returns. A read or a write that moved bytes returns their
number; the bytes are those the user buffer received or gave. -/
inductive Reply where
  | moved (bytes : List UInt8)
  | value (n : Nat)
  | error (e : Errno)
  deriving DecidableEq, Repr

def Reply.ret : Reply → Int
  | .moved bytes => bytes.length
  | .value n => n
  | .error e => -e.code

/-- Where a task stands inside a call. -/
inductive Point where
  /-- before the first `mutex_lock` -/
  | entry
  /-- at the condition of the loop, with the mutex -/
  | loop
  /-- the sleep state is set, before `mutex_unlock` -/
  | unlock
  /-- in `schedule` -/
  | schedule
  /-- before the test for signals -/
  | signals
  /-- before `mutex_lock` at the end of the loop body -/
  | relock
  /-- behind the loop, or at the body of a call without one, with the mutex -/
  | body
  /-- the bytes are moved, before `wake_up_interruptible`, with the mutex -/
  | wakeUp (r : Reply)
  /-- at the label `out`, with the mutex -/
  | out (r : Reply)
  /-- at the label `out2`, without the mutex -/
  | out2 (r : Reply)

inductive Pc where
  | user
  | inside (c : Call) (p : Point)

theorem Pc.inside_of_update {pc : Nat → Pc} {t : Nat} {c d : Call} {p q : Point}
    (h : Function.update pc t (.inside c p) t = .inside d q) : c = d ∧ p = q :=
  Pc.inside.inj ((Function.update_self t _ pc).symm.trans h)

/-- The device and the tasks. The last two fields record what happened and are
not read by the code: the outcomes in the order they were decided in, and
whether a step of the current call of a task changed the queued bytes. -/
structure Machine where
  currentLen : Nat
  mem : Buffer
  mutex : Option Nat
  wait : Side → List Nat
  pc : Nat → Pc
  state : Nat → TaskState
  signalPending : Nat → Bool
  fatalSignalPending : Nat → Bool
  history : List (Nat × Call × Reply)
  touched : Nat → Bool

/-- `devm_kzalloc` and the initialisations of `globalfifo_probe`. -/
def globalfifoProbe : Machine where
  currentLen := 0
  mem := fun _ => 0
  mutex := none
  wait := fun _ => []
  pc := fun _ => .user
  state := fun _ => .running
  signalPending := fun _ => false
  fatalSignalPending := fun _ => false
  history := []
  touched := fun _ => false

namespace Machine

/-- The queued bytes, `mem[0 .. current_len)`. -/
def queue (m : Machine) : List UInt8 := m.mem.bytesAt 0 m.currentLen

section Primitives

variable (m : Machine) (t : Nat)

def goto (c : Call) (p : Point) : Machine :=
  { m with pc := Function.update m.pc t (.inside c p) }

def lock : Machine := { m with mutex := some t }

def unlock : Machine := { m with mutex := none }

def setState (s : TaskState) : Machine := { m with state := Function.update m.state t s }

def addWaitQueue (side : Side) : Machine :=
  { m with wait := Function.update m.wait side (t :: m.wait side) }

def removeWaitQueue (side : Side) : Machine :=
  { m with wait := Function.update m.wait side ((m.wait side).erase t) }

/-- Make runnable the tasks on a queue that sleep in `TASK_INTERRUPTIBLE`. -/
def wakeUpInterruptible (side : Side) : Machine :=
  { m with state := fun u =>
      if u ∈ m.wait side ∧ m.state u = .interruptible then .running else m.state u }

/-- A signal arrives. It wakes a task that sleeps in `TASK_INTERRUPTIBLE`, and
if it is fatal also one that sleeps in `TASK_KILLABLE`. -/
def signal (fatal : Bool) : Machine :=
  { m with
    signalPending := Function.update m.signalPending t true
    fatalSignalPending := Function.update m.fatalSignalPending t (m.fatalSignalPending t || fatal)
    state := Function.update m.state t
      (if m.state t = .interruptible ∨ (m.state t = .killable ∧ fatal) then .running
        else m.state t) }

/-- The task runs the handlers of its signals on the way back to user mode. -/
def handleSignals : Machine :=
  { m with signalPending := Function.update m.signalPending t false }

/-- `schedule` returns: the task was woken, or a signal its state admits was
pending when it was called. -/
def runnable : Bool :=
  match m.state t with
  | .running => true
  | .interruptible => m.signalPending t
  | .killable => m.fatalSignalPending t

/-- The outcome of a call is decided and recorded. -/
def settle (c : Call) (r : Reply) : Machine := { m with history := m.history ++ [(t, c, r)] }

/-- The call returns. -/
def leave : Machine := { m with pc := Function.update m.pc t .user }

end Primitives

end Machine

/-- The condition of the loop: `current_len == 0` for a read and
`current_len == GLOBALFIFO_SIZE` for a write. -/
def Side.mustWait : Side → Nat → Bool
  | .reader, len => len == 0
  | .writer, len => len == globalfifoSize

/-- The state set before `schedule`. -/
def Side.sleepState : Side → TaskState
  | .reader => .killable
  | .writer => .interruptible

/-- The test behind `schedule`: `fatal_signal_pending` or `signal_pending`. -/
def Side.interrupted (m : Machine) (t : Nat) : Side → Bool
  | .reader => m.fatalSignalPending t
  | .writer => m.signalPending t

def Side.other : Side → Side
  | .reader => .writer
  | .writer => .reader

namespace Machine

variable (m : Machine) (t : Nat)

/-- The text `globalfifo_read` and `globalfifo_write` share. The step at
`body` is the copy of the call. -/
def transfer (side : Side) (c : Call) (copy : Machine) : Point → Option Machine
  | .entry =>
      if m.mutex = none then some (((m.lock t).addWaitQueue t side).goto t c .loop) else none
  | .loop =>
      if side.mustWait m.currentLen then
        if c.nonblock then
          some ((m.settle t c (.error .eagain)).goto t c (.out (.error .eagain)))
        else
          some ((m.setState t side.sleepState).goto t c .unlock)
      else some (m.goto t c .body)
  | .unlock => some (m.unlock.goto t c .schedule)
  | .schedule =>
      if m.runnable t then some ((m.setState t .running).goto t c .signals) else none
  | .signals =>
      if side.interrupted m t then
        some ((m.settle t c (.error .erestartsys)).goto t c (.out2 (.error .erestartsys)))
      else some (m.goto t c .relock)
  | .relock => if m.mutex = none then some ((m.lock t).goto t c .loop) else none
  | .body => some copy
  | .wakeUp r => some ((m.wakeUpInterruptible side.other).goto t c (.out r))
  | .out r => some (m.unlock.goto t c (.out2 r))
  | .out2 _ => some (((m.removeWaitQueue t side).setState t .running).leave t)

/-- The bytes a read takes: `count` is clipped to what is there. -/
def taken (count : Nat) : List UInt8 := m.mem.bytesAt 0 (min count m.currentLen)

/-- `copy_to_user` succeeds and the rest of the queue is moved to the front. -/
def takeBytes (count : Nat) : Machine :=
  { m with
    mem := m.mem.splice 0
      (m.mem.bytesAt (min count m.currentLen) (m.currentLen - min count m.currentLen))
    currentLen := m.currentLen - min count m.currentLen }

/-- The bytes a write accepts: `count` is clipped to the free space. -/
def given (buf : Buffer) (count : Nat) : List UInt8 :=
  buf.bytesAt 0 (min count (globalfifoSize - m.currentLen))

/-- `copy_from_user` succeeds. -/
def giveBytes (buf : Buffer) (count : Nat) : Machine :=
  { m with
    mem := m.mem.splice m.currentLen (m.given buf count)
    currentLen := m.currentLen + min count (globalfifoSize - m.currentLen) }

def globalfifoRead (c : Call) (count : Nat) : Point → Option Machine :=
  m.transfer t .reader c
    (((m.takeBytes count).settle t c (.moved (m.taken count))).goto t c
      (.wakeUp (.moved (m.taken count))))

def globalfifoWrite (c : Call) (buf : Buffer) (count : Nat) : Point → Option Machine :=
  m.transfer t .writer c
    (((m.giveBytes buf count).settle t c (.moved (m.given buf count))).goto t c
      (.wakeUp (.moved (m.given buf count))))

/-- The two assignments of `FIFO_CLEAR`. No queue is woken. -/
def clear : Machine :=
  { m with
    currentLen := 0
    mem := m.mem.splice 0 (List.replicate globalfifoSize 0) }

def globalfifoIoctl (c : Call) (cmd : Nat) (p : Point) : Option Machine :=
  if cmd = fifoClear then
    match p with
    | .entry => if m.mutex = none then some ((m.lock t).goto t c .body) else none
    | .body => some ((m.clear.settle t c (.value 0)).goto t c (.out (.value 0)))
    | .out r => some (m.unlock.goto t c (.out2 r))
    | .out2 _ => some (m.leave t)
    | _ => none
  else
    match p with
    | .entry => some ((m.settle t c (.error .einval)).goto t c (.out2 (.error .einval)))
    | .out2 _ => some (m.leave t)
    | _ => none

/-- `POLLIN | POLLRDNORM` and `POLLOUT | POLLWRNORM`. -/
def pollMask : Nat :=
  (if m.currentLen ≠ 0 then 0x0001 ||| 0x0040 else 0) |||
    (if m.currentLen ≠ globalfifoSize then 0x0004 ||| 0x0100 else 0)

/-- `globalfifo_poll` without its calls of `poll_wait`, which put the caller's entries on
both queues. -/
def globalfifoPoll (c : Call) : Point → Option Machine
  | .entry => if m.mutex = none then some ((m.lock t).goto t c .body) else none
  | .body => some ((m.settle t c (.value m.pollMask)).goto t c (.out (.value m.pollMask)))
  | .out r => some (m.unlock.goto t c (.out2 r))
  | .out2 _ => some (m.leave t)
  | _ => none

/-- The next step of a task that is inside a call. -/
def go : Option Machine :=
  match m.pc t with
  | .user => none
  | .inside c p =>
      match c.request with
      | .read count => m.globalfifoRead t c count p
      | .write buf count => m.globalfifoWrite t c buf count p
      | .ioctl cmd => m.globalfifoIoctl t c cmd p
      | .poll => m.globalfifoPoll t c p

/-- The copy of a read or a write faults. `copy_from_user` has then stored some
bytes, `junk`, in front of which the queue ends. A copy of no bytes does not fault. -/
def fault (junk : List UInt8) : Option Machine :=
  match m.pc t with
  | .inside c .body =>
      match c.request with
      | .read count =>
          if min count m.currentLen ≠ 0 then
            some ((m.settle t c (.error .efault)).goto t c (.out (.error .efault)))
          else none
      | .write _ count =>
          if junk.length ≤ min count (globalfifoSize - m.currentLen) ∧
              min count (globalfifoSize - m.currentLen) ≠ 0 then
            some (({ m with mem := m.mem.splice m.currentLen junk }.settle t c
              (.error .efault)).goto t c (.out (.error .efault)))
          else none
      | _ => none
  | _ => none

end Machine

/-- Who moves, and what the code does not decide. -/
inductive Label where
  | call (t : Nat) (c : Call)
  | go (t : Nat)
  | fault (t : Nat) (junk : List UInt8)
  | signal (t : Nat) (fatal : Bool)
  | handleSignals (t : Nat)

def Label.task : Label → Nat
  | .call t _ => t
  | .go t => t
  | .fault t _ => t
  | .signal t _ => t
  | .handleSignals t => t

namespace Machine

/-- A task outside the driver may call it and handles its signals. -/
def act (m : Machine) : Label → Option Machine
  | .call t c =>
      match m.pc t with
      | .user => some ({ m with touched := Function.update m.touched t false }.goto t c .entry)
      | .inside _ _ => none
  | .go t => m.go t
  | .fault t junk => m.fault t junk
  | .signal t fatal => some (m.signal t fatal)
  | .handleSignals t =>
      match m.pc t with
      | .user => some (m.handleSignals t)
      | .inside _ _ => none

/-- Record whether the step of `t` from `m` to `m'` changed the queued bytes. -/
def observe (m : Machine) (t : Nat) (m' : Machine) : Machine :=
  { m' with
    touched := Function.update m'.touched t (m'.touched t || decide (m'.queue ≠ m.queue)) }

def step (m : Machine) (l : Label) : Option Machine := (m.act l).map (m.observe l.task)

end Machine

/-- The ways the task `t` can move, each with its guard. -/
inductive Moves (m : Machine) (t : Nat) : Machine → Prop where
  | call (c : Call) (hpc : m.pc t = .user) :
      Moves m t ({ m with touched := Function.update m.touched t false }.goto t c .entry)
  | enter {c : Call} {side : Side} (hpc : m.pc t = .inside c .entry)
      (hside : c.request.side = some side) (hfree : m.mutex = none) :
      Moves m t (((m.lock t).addWaitQueue t side).goto t c .loop)
  | wouldBlock {c : Call} (hpc : m.pc t = .inside c .loop) :
      Moves m t ((m.settle t c (.error .eagain)).goto t c (.out (.error .eagain)))
  | sleep {c : Call} {side : Side} (hpc : m.pc t = .inside c .loop)
      (hside : c.request.side = some side) (hwait : side.mustWait m.currentLen = true) :
      Moves m t ((m.setState t side.sleepState).goto t c .unlock)
  | proceed {c : Call} (hpc : m.pc t = .inside c .loop) : Moves m t (m.goto t c .body)
  | unlock {c : Call} (hpc : m.pc t = .inside c .unlock) : Moves m t (m.unlock.goto t c .schedule)
  | scheduled {c : Call} (hpc : m.pc t = .inside c .schedule) :
      Moves m t ((m.setState t .running).goto t c .signals)
  | interrupted {c : Call} (hpc : m.pc t = .inside c .signals) :
      Moves m t ((m.settle t c (.error .erestartsys)).goto t c (.out2 (.error .erestartsys)))
  | retry {c : Call} (hpc : m.pc t = .inside c .signals) : Moves m t (m.goto t c .relock)
  | relock {c : Call} (hpc : m.pc t = .inside c .relock) (hfree : m.mutex = none) :
      Moves m t ((m.lock t).goto t c .loop)
  | take {c : Call} {count : Nat} (hpc : m.pc t = .inside c .body) (hreq : c.request = .read count) :
      Moves m t (((m.takeBytes count).settle t c (.moved (m.taken count))).goto t c
        (.wakeUp (.moved (m.taken count))))
  | give {c : Call} {buf : Buffer} {count : Nat} (hpc : m.pc t = .inside c .body)
      (hreq : c.request = .write buf count) :
      Moves m t (((m.giveBytes buf count).settle t c (.moved (m.given buf count))).goto t c
        (.wakeUp (.moved (m.given buf count))))
  | wakeUp {c : Call} {side : Side} {r : Reply} (hpc : m.pc t = .inside c (.wakeUp r))
      (hside : c.request.side = some side) :
      Moves m t ((m.wakeUpInterruptible side.other).goto t c (.out r))
  | out {c : Call} {r : Reply} (hpc : m.pc t = .inside c (.out r)) :
      Moves m t (m.unlock.goto t c (.out2 r))
  | leaveQueue {c : Call} {side : Side} {r : Reply} (hpc : m.pc t = .inside c (.out2 r))
      (hside : c.request.side = some side) :
      Moves m t (((m.removeWaitQueue t side).setState t .running).leave t)
  | lockBody {c : Call} (hpc : m.pc t = .inside c .entry) (hside : c.request.side = none)
      (hfree : m.mutex = none) : Moves m t ((m.lock t).goto t c .body)
  | badCommand {c : Call} {cmd : Nat} (hpc : m.pc t = .inside c .entry)
      (hreq : c.request = .ioctl cmd) (hcmd : cmd ≠ fifoClear) :
      Moves m t ((m.settle t c (.error .einval)).goto t c (.out2 (.error .einval)))
  | clear {c : Call} (hpc : m.pc t = .inside c .body) (hreq : c.request = .ioctl fifoClear) :
      Moves m t ((m.clear.settle t c (.value 0)).goto t c (.out (.value 0)))
  | poll {c : Call} (hpc : m.pc t = .inside c .body) (hreq : c.request = .poll) :
      Moves m t ((m.settle t c (.value m.pollMask)).goto t c (.out (.value m.pollMask)))
  | leave {c : Call} {r : Reply} (hpc : m.pc t = .inside c (.out2 r)) (hside : c.request.side = none) :
      Moves m t (m.leave t)
  | faultTake {c : Call} {count : Nat} (hpc : m.pc t = .inside c .body)
      (hreq : c.request = .read count) :
      Moves m t ((m.settle t c (.error .efault)).goto t c (.out (.error .efault)))
  | faultGive {c : Call} {buf : Buffer} {count : Nat} (junk : List UInt8)
      (hpc : m.pc t = .inside c .body) (hreq : c.request = .write buf count) :
      Moves m t (({ m with mem := m.mem.splice m.currentLen junk }.settle t c
        (.error .efault)).goto t c (.out (.error .efault)))
  | signal (fatal : Bool) : Moves m t (m.signal t fatal)
  | handleSignals (hpc : m.pc t = .user) : Moves m t (m.handleSignals t)

section Inversion

variable {m m' : Machine} {t : Nat} {c : Call} {p : Point}

theorem moves_of_transfer {side : Side} {copy : Machine} (hpc : m.pc t = .inside c p)
    (hside : c.request.side = some side) (hcopy : m.pc t = .inside c .body → Moves m t copy)
    (h : m.transfer t side c copy p = some m') : Moves m t m' := by
  cases p with
  | entry =>
      obtain ⟨hfree, ⟨⟩⟩ := Option.ite_none_right_eq_some.mp h
      exact .enter hpc hside hfree
  | loop =>
      simp only [Machine.transfer] at h
      split at h
      · rename_i hwait
        split at h
        · obtain rfl := Option.some.inj h
          exact .wouldBlock hpc
        · obtain rfl := Option.some.inj h
          exact .sleep hpc hside hwait
      · obtain rfl := Option.some.inj h
        exact .proceed hpc
  | unlock =>
      obtain rfl := Option.some.inj h
      exact .unlock hpc
  | schedule =>
      obtain ⟨-, ⟨⟩⟩ := Option.ite_none_right_eq_some.mp h
      exact .scheduled hpc
  | signals =>
      simp only [Machine.transfer] at h
      split at h
      · obtain rfl := Option.some.inj h
        exact .interrupted hpc
      · obtain rfl := Option.some.inj h
        exact .retry hpc
  | relock =>
      obtain ⟨hfree, ⟨⟩⟩ := Option.ite_none_right_eq_some.mp h
      exact .relock hpc hfree
  | body =>
      obtain rfl := Option.some.inj h
      exact hcopy hpc
  | wakeUp r =>
      obtain rfl := Option.some.inj h
      exact .wakeUp hpc hside
  | out r =>
      obtain rfl := Option.some.inj h
      exact .out hpc
  | out2 r =>
      obtain rfl := Option.some.inj h
      exact .leaveQueue hpc hside

theorem moves_of_globalfifoIoctl {cmd : Nat} (hpc : m.pc t = .inside c p)
    (hreq : c.request = .ioctl cmd) (h : m.globalfifoIoctl t c cmd p = some m') :
    Moves m t m' := by
  have hside : c.request.side = none := by rw [hreq]; rfl
  unfold Machine.globalfifoIoctl at h
  split at h
  · rename_i hcmd
    subst hcmd
    cases p with
    | entry =>
        obtain ⟨hfree, ⟨⟩⟩ := Option.ite_none_right_eq_some.mp h
        exact .lockBody hpc hside hfree
    | body =>
        obtain rfl := Option.some.inj h
        exact .clear hpc hreq
    | out r =>
        obtain rfl := Option.some.inj h
        exact .out hpc
    | out2 r =>
        obtain rfl := Option.some.inj h
        exact .leave hpc hside
    | _ => exact nomatch h
  · rename_i hcmd
    cases p with
    | entry =>
        obtain rfl := Option.some.inj h
        exact .badCommand hpc hreq hcmd
    | out2 r =>
        obtain rfl := Option.some.inj h
        exact .leave hpc hside
    | _ => exact nomatch h

theorem moves_of_globalfifoPoll (hpc : m.pc t = .inside c p) (hreq : c.request = .poll)
    (h : m.globalfifoPoll t c p = some m') : Moves m t m' := by
  have hside : c.request.side = none := by rw [hreq]; rfl
  cases p with
  | entry =>
      obtain ⟨hfree, ⟨⟩⟩ := Option.ite_none_right_eq_some.mp h
      exact .lockBody hpc hside hfree
  | body =>
      obtain rfl := Option.some.inj h
      exact .poll hpc hreq
  | out r =>
      obtain rfl := Option.some.inj h
      exact .out hpc
  | out2 r =>
      obtain rfl := Option.some.inj h
      exact .leave hpc hside
  | _ => exact nomatch h

theorem moves_of_go (h : m.go t = some m') : Moves m t m' := by
  unfold Machine.go at h
  split at h
  · exact nomatch h
  · rename_i c p hpc
    split at h
    · rename_i count hreq
      exact moves_of_transfer hpc (by rw [hreq]; rfl) (fun hb => .take hb hreq) h
    · rename_i buf count hreq
      exact moves_of_transfer hpc (by rw [hreq]; rfl) (fun hb => .give hb hreq) h
    · rename_i cmd hreq
      exact moves_of_globalfifoIoctl hpc hreq h
    · rename_i hreq
      exact moves_of_globalfifoPoll hpc hreq h

theorem moves_of_fault {junk : List UInt8} (h : m.fault t junk = some m') : Moves m t m' := by
  unfold Machine.fault at h
  split at h
  · rename_i c hpc
    split at h
    · rename_i count hreq
      obtain ⟨-, ⟨⟩⟩ := Option.ite_none_right_eq_some.mp h
      exact .faultTake hpc hreq
    · rename_i buf count hreq
      obtain ⟨-, ⟨⟩⟩ := Option.ite_none_right_eq_some.mp h
      exact .faultGive junk hpc hreq
    · exact nomatch h
  · exact nomatch h

theorem moves_of_act {l : Label} (h : m.act l = some m') : Moves m l.task m' := by
  cases l with
  | call t c =>
      simp only [Machine.act] at h
      split at h
      · rename_i hpc
        obtain rfl := Option.some.inj h
        exact .call c hpc
      · exact nomatch h
  | go t => exact moves_of_go h
  | fault t junk => exact moves_of_fault h
  | signal t fatal =>
      obtain rfl := Option.some.inj h
      exact .signal fatal
  | handleSignals t =>
      simp only [Machine.act] at h
      split at h
      · rename_i hpc
        obtain rfl := Option.some.inj h
        exact .handleSignals hpc
      · exact nomatch h

/-- A step is a move of its task, observed. -/
theorem moves_of_step {l : Label} (h : m.step l = some m') :
    ∃ n, Moves m l.task n ∧ m' = m.observe l.task n := by
  obtain ⟨n, hn, rfl⟩ := Option.map_eq_some_iff.mp h
  exact ⟨n, moves_of_act hn, rfl⟩

/-- Only the task that moves changes its point. -/
theorem Moves.pc_of_ne {u : Nat} (h : Moves m t m') (hu : u ≠ t) : m'.pc u = m.pc u := by
  cases h with
  | signal fatal => rfl
  | handleSignals hpc => rfl
  | _ => exact Function.update_of_ne hu _ _

end Inversion

end LinuxDevelopment.Globalfifo
