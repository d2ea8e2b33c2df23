import LinuxDevelopment.Base.Transition
import Mathlib.Data.Finset.Card
import Mathlib.Logic.Function.Basic

/-!
# The thread pool

The threads of a `CThreadPool` take turns with its owner. `AddTask` is one
step, and so is everything a worker does between taking `m_pthreadMutex` and
giving it back, the waiting inside `pthread_cond_wait` excepted. Between two
steps the mutex is therefore free, unless a thread has terminated with it.

POSIX decides what the code does not: which waiter a signal wakes, further
waiters that return from `pthread_cond_wait` without a signal, and when a
cancelled thread reaches a cancellation point. `MoveToIdle` is not modelled
since nothing calls it.
-/

namespace LinuxDevelopment.ThreadPool

/-- An element of `m_vecTaskList`. The same `CTask *` may be added more than
once, so an element has a number of its own. -/
structure Entry where
  serial : Nat
  task : Nat
  deriving DecidableEq, Repr

/-- Where a thread stands in `ThreadFunc`. -/
inductive Worker where
  | absent
  /-- before `pthread_mutex_lock` -/
  | lock
  /-- blocked in `pthread_cond_wait` -/
  | waiting
  /-- a wake-up was delivered, the mutex is to be taken again -/
  | woken
  /-- a cancellation is acted upon in the wait, the mutex is to be taken again -/
  | dying
  /-- the task is taken out of the list, the mutex is released -/
  | holding (e : Entry)
  /-- in `task->Run()` -/
  | running (e : Entry)
  | ended
  deriving DecidableEq, Repr

/-- The two vectors of thread ids. -/
inductive Vec where
  | idle
  | busy
  deriving DecidableEq, Repr

/-- Where the owner of the pool stands in the constructor and in `StopAll`. -/
inductive Main where
  /-- before `pthread_create`, with so many threads left to create -/
  | creating (left : Nat)
  /-- before `m_vecIdleThread.push_back(tid)` -/
  | recording (t left : Nat)
  | ready
  /-- at the condition of a loop of `StopAll`, with the iterator at `i` -/
  | scan (v : Vec) (i : Nat)
  /-- behind `pthread_cancel(*iter)` -/
  | join (v : Vec) (i : Nat)
  /-- in `pthread_join` -/
  | joining (v : Vec) (i t : Nat)
  | stopped
  deriving DecidableEq, Repr

/-- A pool and its threads. The last four fields are not read by the code: how
many tasks were added, which were run, and whether `erase` was called with the
end iterator of the idle vector or the task list read at its end. -/
structure Pool where
  vecTaskList : List Entry
  vecIdleThread : List Nat
  vecBusyThread : List Nat
  pthreadMutex : Option Nat
  worker : Nat → Worker
  created : Finset Nat
  cancelled : Nat → Bool
  main : Main
  pushed : Nat
  runs : List Entry
  erasedEnd : Bool
  readEnd : Bool

/-- The owner goes on with the loop of `Create`, or leaves the constructor. -/
def Main.create : Nat → Main
  | 0 => .ready
  | left + 1 => .creating (left + 1)

/-- `CThreadPool(threadNum)` is entered. -/
def construct (threadNum : Nat) : Pool where
  vecTaskList := []
  vecIdleThread := []
  vecBusyThread := []
  pthreadMutex := none
  worker := fun _ => .absent
  created := ∅
  cancelled := fun _ => false
  main := .create threadNum
  pushed := 0
  runs := []
  erasedEnd := false
  readEnd := false

/-- The constructor has returned. -/
def Main.constructed : Main → Bool
  | .creating _ => false
  | .recording _ _ => false
  | _ => true

inductive Label where
  | create (t : Nat)
  | record
  /-- `AddTask`, with the waiter that `pthread_cond_signal` wakes -/
  | addTask (task : Nat) (signalled : Option Nat)
  /-- a return from `pthread_cond_wait` that no signal accounts for -/
  | spurious (t : Nat)
  /-- `pthread_mutex_lock` up to the blocking in `pthread_cond_wait` -/
  | lock (t : Nat)
  /-- the section behind `pthread_cond_wait`; `junk` is what an erase of the end leaves -/
  | dispatch (t : Nat) (junk : List Nat)
  | run (t : Nat)
  | finish (t : Nat)
  | stopAll
  /-- the next step of the owner in `StopAll` -/
  | stop
  /-- a cancelled thread comes to a cancellation point -/
  | cancel (t : Nat)

namespace Pool

variable (m : Pool)

def setWorker (t : Nat) (w : Worker) : Pool :=
  { m with worker := Function.update m.worker t w }

/-- The vector a loop of `StopAll` walks. -/
def vec : Vec → List Nat
  | .idle => m.vecIdleThread
  | .busy => m.vecBusyThread

/-- `pthread_create` starts a thread with a new id. -/
def create (t : Nat) : Option Pool :=
  match m.main with
  | .creating (left + 1) =>
      if m.worker t = .absent then
        some ({ m with created := insert t m.created, main := .recording t left }.setWorker t .lock)
      else none
  | _ => none

def record : Option Pool :=
  match m.main with
  | .recording t left =>
      some { m with vecIdleThread := m.vecIdleThread ++ [t], main := .create left }
  | _ => none

/-- `m_vecTaskList.push_back(task)`. -/
def push (task : Nat) : Pool :=
  { m with vecTaskList := m.vecTaskList ++ [⟨m.pushed, task⟩], pushed := m.pushed + 1 }

/-- `pthread_cond_signal` wakes one waiter if there is one and is lost otherwise. -/
def addTask (task : Nat) (signalled : Option Nat) : Option Pool :=
  if m.main.constructed then
    match signalled with
    | some t => if m.worker t = .waiting then some ((m.push task).setWorker t .woken) else none
    | none => if ∀ t ∈ m.created, m.worker t ≠ .waiting then some (m.push task) else none
  else none

/-- The thread is looked for in the idle vector and erased there. If it is not
found, `erase` is called with the end iterator and leaves anything. -/
def moveToBusy (t : Nat) (junk : List Nat) : Pool :=
  { m with
    vecIdleThread := if t ∈ m.vecIdleThread then m.vecIdleThread.erase t else junk
    vecBusyThread := m.vecBusyThread ++ [t]
    erasedEnd := m.erasedEnd || decide (t ∉ m.vecIdleThread) }

/-- `*iter` and `erase(iter)` for the first element. With an empty list both
are undefined, and the run ends. -/
def dispatch (t : Nat) (junk : List Nat) : Pool :=
  match m.vecTaskList with
  | e :: rest => { m.moveToBusy t junk with vecTaskList := rest }.setWorker t (.holding e)
  | [] => { m with readEnd := true }

/-- One step of `StopAll`. The iterator is an index into a vector that may
change under it. -/
def stop : Option Pool :=
  match m.main with
  | .scan v i =>
      match (m.vec v)[i]? with
      | some t => some { m with cancelled := Function.update m.cancelled t true, main := .join v i }
      | none =>
          match v with
          | .idle => some { m with main := .scan .busy 0 }
          | .busy => some { m with main := .stopped }
  | .join v i => ((m.vec v)[i]?).map fun t => { m with main := .joining v i t }
  | .joining v i t => if m.worker t = .ended then some { m with main := .scan v (i + 1) } else none
  | _ => none

/-- A cancellation takes effect in `pthread_cond_wait` or in `Run`. In the wait
the thread takes the mutex first, and nothing releases it. -/
def cancel (t : Nat) : Option Pool :=
  if m.cancelled t then
    match m.worker t with
    | .waiting => some (m.setWorker t .dying)
    | .woken => some (m.setWorker t .dying)
    | .dying =>
        if m.pthreadMutex = none then some ({ m with pthreadMutex := some t }.setWorker t .ended)
        else none
    | .holding _ => some (m.setWorker t .ended)
    | .running _ => some (m.setWorker t .ended)
    | _ => none
  else none

def act : Label → Option Pool
  | .create t => m.create t
  | .record => m.record
  | .addTask task signalled => m.addTask task signalled
  | .spurious t => if m.worker t = .waiting then some (m.setWorker t .woken) else none
  | .lock t =>
      if m.worker t = .lock ∧ m.pthreadMutex = none then some (m.setWorker t .waiting) else none
  | .dispatch t junk =>
      if m.worker t = .woken ∧ m.pthreadMutex = none then some (m.dispatch t junk) else none
  | .run t =>
      match m.worker t with
      | .holding e => some ({ m with runs := m.runs ++ [e] }.setWorker t (.running e))
      | _ => none
  | .finish t =>
      match m.worker t with
      | .running _ => some (m.setWorker t .lock)
      | _ => none
  | .stopAll => if m.main = .ready then some { m with main := .scan .idle 0 } else none
  | .stop => m.stop
  | .cancel t => m.cancel t

/-- Nothing is said of what follows the reading of an end iterator. -/
def step (l : Label) : Option Pool := if m.readEnd then none else m.act l

end Pool

/-- What a label can do, with the guards. -/
inductive Moves (m : Pool) : Label → Pool → Prop where
  | create {t left : Nat} (hmain : m.main = .creating (left + 1))
      (habsent : m.worker t = .absent) :
      Moves m (.create t)
        ({ m with created := insert t m.created, main := .recording t left }.setWorker t .lock)
  | record {t left : Nat} (hmain : m.main = .recording t left) :
      Moves m .record { m with vecIdleThread := m.vecIdleThread ++ [t], main := .create left }
  | addTask {task t : Nat} (hready : m.main.constructed = true) (hwaits : m.worker t = .waiting) :
      Moves m (.addTask task (some t)) ((m.push task).setWorker t .woken)
  | addTaskLost {task : Nat} (hready : m.main.constructed = true)
      (hnone : ∀ t ∈ m.created, m.worker t ≠ .waiting) : Moves m (.addTask task none) (m.push task)
  | spurious {t : Nat} (hwaits : m.worker t = .waiting) :
      Moves m (.spurious t) (m.setWorker t .woken)
  | lock {t : Nat} (hlock : m.worker t = .lock) : Moves m (.lock t) (m.setWorker t .waiting)
  | dispatch {t : Nat} {e : Entry} {rest : List Entry} (junk : List Nat)
      (hwoken : m.worker t = .woken) (hlist : m.vecTaskList = e :: rest) :
      Moves m (.dispatch t junk)
        ({ m.moveToBusy t junk with vecTaskList := rest }.setWorker t (.holding e))
  | dispatchEnd {t : Nat} (junk : List Nat) (hwoken : m.worker t = .woken)
      (hlist : m.vecTaskList = []) : Moves m (.dispatch t junk) { m with readEnd := true }
  | run {t : Nat} {e : Entry} (hholds : m.worker t = .holding e) :
      Moves m (.run t) ({ m with runs := m.runs ++ [e] }.setWorker t (.running e))
  | finish {t : Nat} {e : Entry} (hruns : m.worker t = .running e) :
      Moves m (.finish t) (m.setWorker t .lock)
  | stopAll (hready : m.main = .ready) : Moves m .stopAll { m with main := .scan .idle 0 }
  | scan {v : Vec} {i t : Nat} (hmain : m.main = .scan v i) (hat : (m.vec v)[i]? = some t) :
      Moves m .stop { m with cancelled := Function.update m.cancelled t true, main := .join v i }
  | scanBusy {i : Nat} (hmain : m.main = .scan .idle i) (hend : (m.vec .idle)[i]? = none) :
      Moves m .stop { m with main := .scan .busy 0 }
  | stopped {i : Nat} (hmain : m.main = .scan .busy i) (hend : (m.vec .busy)[i]? = none) :
      Moves m .stop { m with main := .stopped }
  | join {v : Vec} {i t : Nat} (hmain : m.main = .join v i) (hat : (m.vec v)[i]? = some t) :
      Moves m .stop { m with main := .joining v i t }
  | joined {v : Vec} {i t : Nat} (hmain : m.main = .joining v i t) (hended : m.worker t = .ended) :
      Moves m .stop { m with main := .scan v (i + 1) }
  | cancelWait {t : Nat} (hcancelled : m.cancelled t = true)
      (hwaits : m.worker t = .waiting ∨ m.worker t = .woken) :
      Moves m (.cancel t) (m.setWorker t .dying)
  | die {t : Nat} (hcancelled : m.cancelled t = true) (hdying : m.worker t = .dying)
      (hfree : m.pthreadMutex = none) :
      Moves m (.cancel t) ({ m with pthreadMutex := some t }.setWorker t .ended)
  | cancelRun {t : Nat} {e : Entry} (hcancelled : m.cancelled t = true)
      (hruns : m.worker t = .holding e ∨ m.worker t = .running e) :
      Moves m (.cancel t) (m.setWorker t .ended)

section Inversion

variable {m m' : Pool} {t : Nat}

theorem moves_of_create (h : m.create t = some m') : Moves m (.create t) m' := by
  unfold Pool.create at h
  split at h
  · rename_i left hmain
    obtain ⟨habsent, ⟨⟩⟩ := Option.ite_none_right_eq_some.mp h
    exact .create hmain habsent
  · cases h

theorem moves_of_record (h : m.record = some m') : Moves m .record m' := by
  unfold Pool.record at h
  split at h
  · rename_i t left hmain
    obtain rfl := Option.some.inj h
    exact .record hmain
  · cases h

theorem moves_of_addTask {task : Nat} {signalled : Option Nat}
    (h : m.addTask task signalled = some m') : Moves m (.addTask task signalled) m' := by
  obtain ⟨hready, h⟩ := Option.ite_none_right_eq_some.mp h
  cases signalled with
  | none =>
      obtain ⟨hnone, ⟨⟩⟩ := Option.ite_none_right_eq_some.mp h
      exact .addTaskLost hready hnone
  | some t =>
      obtain ⟨hwaits, ⟨⟩⟩ := Option.ite_none_right_eq_some.mp h
      exact .addTask hready hwaits

theorem moves_of_dispatch {junk : List Nat} (hwoken : m.worker t = .woken)
    (h : m.dispatch t junk = m') : Moves m (.dispatch t junk) m' := by
  unfold Pool.dispatch at h
  split at h
  · rename_i e rest hlist
    subst h
    exact .dispatch junk hwoken hlist
  · rename_i hlist
    subst h
    exact .dispatchEnd junk hwoken hlist

theorem moves_of_stop (h : m.stop = some m') : Moves m .stop m' := by
  unfold Pool.stop at h
  split at h
  · rename_i v i hmain
    split at h
    · rename_i t hat
      obtain rfl := Option.some.inj h
      exact .scan hmain hat
    · rename_i hend
      cases v with
      | idle =>
          obtain rfl := Option.some.inj h
          exact .scanBusy hmain hend
      | busy =>
          obtain rfl := Option.some.inj h
          exact .stopped hmain hend
  · rename_i v i hmain
    obtain ⟨t, hat, rfl⟩ := Option.map_eq_some_iff.mp h
    exact .join hmain hat
  · rename_i v i t hmain
    obtain ⟨hended, ⟨⟩⟩ := Option.ite_none_right_eq_some.mp h
    exact .joined hmain hended
  · cases h

theorem moves_of_cancel (h : m.cancel t = some m') : Moves m (.cancel t) m' := by
  obtain ⟨hcancelled, h⟩ := Option.ite_none_right_eq_some.mp h
  split at h
  · rename_i hw
    obtain rfl := Option.some.inj h
    exact .cancelWait hcancelled (.inl hw)
  · rename_i hw
    obtain rfl := Option.some.inj h
    exact .cancelWait hcancelled (.inr hw)
  · rename_i hw
    obtain ⟨hfree, ⟨⟩⟩ := Option.ite_none_right_eq_some.mp h
    exact .die hcancelled hw hfree
  · rename_i e hw
    obtain rfl := Option.some.inj h
    exact .cancelRun hcancelled (.inl hw)
  · rename_i e hw
    obtain rfl := Option.some.inj h
    exact .cancelRun hcancelled (.inr hw)
  · cases h

theorem moves_of_step {l : Label} (h : m.step l = some m') : Moves m l m' := by
  obtain ⟨-, h⟩ := Option.ite_none_left_eq_some.mp h
  cases l with
  | create t => exact moves_of_create h
  | record => exact moves_of_record h
  | addTask task signalled => exact moves_of_addTask h
  | spurious t =>
      obtain ⟨hwaits, ⟨⟩⟩ := Option.ite_none_right_eq_some.mp h
      exact .spurious hwaits
  | lock t =>
      obtain ⟨⟨hlock, -⟩, ⟨⟩⟩ := Option.ite_none_right_eq_some.mp h
      exact .lock hlock
  | dispatch t junk =>
      obtain ⟨⟨hwoken, -⟩, hm⟩ := Option.ite_none_right_eq_some.mp h
      exact moves_of_dispatch hwoken (Option.some.inj hm)
  | run t =>
      simp only [Pool.act] at h
      split at h
      · rename_i e hholds
        obtain rfl := Option.some.inj h
        exact .run hholds
      · cases h
  | finish t =>
      simp only [Pool.act] at h
      split at h
      · rename_i e hruns
        obtain rfl := Option.some.inj h
        exact .finish hruns
      · cases h
  | stopAll =>
      obtain ⟨hready, ⟨⟩⟩ := Option.ite_none_right_eq_some.mp h
      exact .stopAll hready
  | stop => exact moves_of_stop h
  | cancel t => exact moves_of_cancel h

end Inversion

end LinuxDevelopment.ThreadPool
