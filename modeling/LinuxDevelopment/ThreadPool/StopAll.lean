import LinuxDevelopment.ThreadPool.Partition

/-!
# The thread pool: stopping

`StopAll` cancels and joins one thread after the other. A thread that is
cancelled in `pthread_cond_wait` takes the mutex and terminates with it, and the
next thread that needs the mutex blocks for good. The loops do their work when
the threads are cancelled in `Run` and the vectors stay as they are.
-/

namespace LinuxDevelopment.ThreadPool

/-- `pthread_join` waits for a thread that waits for a mutex whose owner has
terminated. -/
def Pool.Stuck (m : Pool) : Prop :=
  ∃ v i t u, m.main = .joining v i t ∧
    (m.worker t = .lock ∨ m.worker t = .woken ∨ m.worker t = .dying) ∧
    m.pthreadMutex = some u ∧ m.worker u = .ended

/-- `StopAll` is not stuck, and behind it all recorded threads have ended and
the mutex is free. -/
def Pool.StopsCleanly (m : Pool) : Prop :=
  ¬ m.Stuck ∧ (m.main = .stopped →
    (∀ t ∈ m.vecIdleThread ++ m.vecBusyThread, m.worker t = .ended) ∧ m.pthreadMutex = none)

/-- Cancellations take effect while a task is run, and no task is taken out of
the list once `StopAll` is called. -/
def EndsInRun (m : Pool) (l : Label) : Prop :=
  (∀ t, l = .cancel t → (m.worker t).Tasked) ∧
    (m.main.serving = false → ∀ t junk, l ≠ .dispatch t junk)

/-- The threads the loops of `StopAll` have passed. -/
def Main.passed (idle busy : List Nat) : Main → List Nat
  | .scan .idle i => idle.take i
  | .join .idle i => idle.take i
  | .joining .idle i _ => idle.take i
  | .scan .busy i => idle ++ busy.take i
  | .join .busy i => idle ++ busy.take i
  | .joining .busy i _ => idle ++ busy.take i
  | .stopped => idle ++ busy
  | _ => []

structure Pool.Walked (m : Pool) : Prop where
  free : m.pthreadMutex = none
  ended : ∀ t ∈ m.main.passed m.vecIdleThread m.vecBusyThread, m.worker t = .ended
  joining : ∀ v i t, m.main = .joining v i t → (m.vec v)[i]? = some t

section Step

variable {m m' : Pool} {l : Label} {t n : Nat}

theorem passed_of_serving {main : Main} {idle busy : List Nat} (h : main.serving = true) :
    main.passed idle busy = [] := by
  cases main with
  | creating | recording | ready => rfl
  | scan | join | joining | stopped => cases h

theorem walked_of_serving (hfree : m.pthreadMutex = none) (h : m.main.serving = true) :
    m.Walked where
  free := hfree
  ended := by
    intro t ht
    rw [passed_of_serving h] at ht
    cases ht
  joining := by
    intro v i t hmain
    rw [hmain] at h
    cases h

/-- A thread that has ended stays so. -/
theorem Moves.ended (h : Moves m l m') (ht : m.worker t = .ended) : m'.worker t = .ended := by
  have hset : ∀ {m : Pool} {u : Nat} {w : Worker}, m.worker t = .ended → m.worker u ≠ .ended →
      (m.setWorker u w).worker t = .ended := by
    intro m u w h hu
    have hne : t ≠ u := by
      rintro rfl
      exact hu h
    simpa [Pool.setWorker, hne] using h
  cases h with
  | create _ hw | addTask _ hw | spurious hw | lock hw | run hw | finish hw | die _ hw _ =>
      exact hset ht (by simp [Pool.push, hw])
  | dispatch junk hw hlist => exact hset ht (by simp [Pool.moveToBusy, hw])
  | cancelWait _ hw => exact hset ht (by rcases hw with hw | hw <;> simp [hw])
  | cancelRun _ hw => exact hset ht (by rcases hw with hw | hw <;> simp [hw])
  | record | addTaskLost | dispatchEnd | stopAll | scan | scanBusy | stopped | join | joined =>
      exact ht

/-- The thread that was joined is the next one passed. -/
theorem mem_passed_succ {v : Vec} {i u : Nat} (hat : (m.vec v)[i]? = some t)
    (hu : u ∈ (Main.scan v (i + 1)).passed m.vecIdleThread m.vecBusyThread) :
    u ∈ (Main.joining v i t).passed m.vecIdleThread m.vecBusyThread ∨ u = t := by
  cases v with
  | idle =>
      have hnext : m.vecIdleThread[i]? = some t := hat
      simpa [Main.passed, List.take_add_one, hnext] using hu
  | busy =>
      have hnext : m.vecBusyThread[i]? = some t := hat
      simpa [Main.passed, List.take_add_one, hnext, or_assoc] using hu

theorem Moves.walked (h : Moves m l m') (hl : EndsInRun m l) (hm : m.Walked) : m'.Walked := by
  have hkeep : ∀ t ∈ m.main.passed m.vecIdleThread m.vecBusyThread, m'.worker t = .ended :=
    fun t ht => h.ended (hm.ended t ht)
  cases h with
  | create => exact walked_of_serving hm.free rfl
  | record =>
      rename_i t left _
      exact walked_of_serving hm.free (by cases left <;> rfl)
  | dispatch junk hwoken hlist =>
      have hserving : m.main.serving = true := by
        by_contra hs
        exact hl.2 (Bool.eq_false_of_not_eq_true hs) _ junk rfl
      exact walked_of_serving hm.free hserving
  | cancelWait _ hw =>
      obtain ⟨e, he⟩ := hl.1 _ rfl
      rcases hw with hw | hw <;> simp [hw] at he
  | die _ hw =>
      obtain ⟨e, he⟩ := hl.1 _ rfl
      simp [hw] at he
  | stopAll =>
      refine ⟨hm.free, ?_, nofun⟩
      intro t ht
      cases ht
  | scan hmain hat =>
      rw [hmain] at hkeep
      rename_i v i t
      refine ⟨hm.free, ?_, nofun⟩
      cases v <;> exact hkeep
  | scanBusy hmain hend =>
      rename_i i
      rw [hmain] at hkeep
      have hall : m.vecIdleThread.take i = m.vecIdleThread :=
        List.take_of_length_le (List.getElem?_eq_none_iff.mp hend)
      refine ⟨hm.free, ?_, nofun⟩
      intro t ht
      refine hkeep t ?_
      change t ∈ m.vecIdleThread.take i
      rw [hall]
      simpa [Main.passed] using ht
  | stopped hmain hend =>
      rename_i i
      rw [hmain] at hkeep
      have hall : m.vecBusyThread.take i = m.vecBusyThread :=
        List.take_of_length_le (List.getElem?_eq_none_iff.mp hend)
      refine ⟨hm.free, ?_, nofun⟩
      intro t ht
      refine hkeep t ?_
      change t ∈ m.vecIdleThread ++ m.vecBusyThread.take i
      rw [hall]
      exact ht
  | join hmain hat =>
      rw [hmain] at hkeep
      rename_i v i t
      refine ⟨hm.free, ?_, ?_⟩
      · cases v <;> exact hkeep
      · rintro _ _ _ ⟨⟩
        exact hat
  | joined hmain hended =>
      rw [hmain] at hkeep
      rename_i v i t
      refine ⟨hm.free, ?_, nofun⟩
      intro u hu
      rcases mem_passed_succ (hm.joining v i t hmain) hu with hpassed | rfl
      · exact hkeep u hpassed
      · exact hended
  | addTask | addTaskLost | spurious | lock | dispatchEnd | run | finish | cancelRun =>
      exact ⟨hm.free, hkeep, hm.joining⟩

theorem walked_of_reaches (h : Reaches Pool.step EndsInRun (construct n) m) : m.Walked := by
  refine h.invariant ?_ fun _ hm hl hstep => (moves_of_step hstep).walked hl hm
  exact walked_of_serving rfl (serving_construct n).1

end Step

/-- If cancellations take effect only while a task is run, and no task is taken
out of the list once `StopAll` is called, it stops the pool cleanly. -/
theorem stopsCleanly_of_reaches {n : Nat} {m : Pool}
    (h : Reaches Pool.step EndsInRun (construct n) m) : m.StopsCleanly := by
  have hm := walked_of_reaches h
  refine ⟨?_, ?_⟩
  · rintro ⟨v, i, t, u, -, -, hmutex, -⟩
    rw [hm.free] at hmutex
    cases hmutex
  · intro hmain
    refine ⟨?_, hm.free⟩
    have hended := hm.ended
    rw [hmain] at hended
    exact hended

/-- A test for `EndsInRun`. -/
def Pool.endsInRun (m : Pool) : Label → Bool
  | .cancel t =>
      match m.worker t with
      | .holding _ => true
      | .running _ => true
      | _ => false
  | .dispatch _ _ => m.main.serving
  | _ => true

theorem endsInRun_of_test {m : Pool} {l : Label} (h : m.endsInRun l = true) : EndsInRun m l := by
  refine ⟨?_, ?_⟩
  · rintro t rfl
    simp only [Pool.endsInRun] at h
    split at h
    · rename_i e hw
      exact ⟨e, .inl hw⟩
    · rename_i e hw
      exact ⟨e, .inr hw⟩
    · cases h
  · rintro hserving t junk rfl
    exact nomatch hserving.symm.trans h

/-- The only thread of a pool is stopped while it runs a task. -/
def stopRunning : List Label :=
  [.create 1, .record, .lock 1, .addTask 0 (some 1), .dispatch 1 [], .run 1, .stopAll, .stop, .stop,
    .stop, .cancel 1, .stop, .stop]

theorem stopsCleanly_stopRunning : ∃ m, Reaches Pool.step EndsInRun (construct 1) m ∧
    m.main = .stopped ∧ m.vecBusyThread = [1] ∧ m.worker 1 = .ended ∧ m.pthreadMutex = none := by
  obtain ⟨m, hrun, hmain, hbusy⟩ :
      ∃ m, replay (fun m l => if m.endsInRun l then m.step l else none) stopRunning
          (construct 1) = some m ∧ m.main = .stopped ∧ m.vecBusyThread = [1] :=
    exists_of_replay_any (by decide +kernel)
  have hm : Reaches Pool.step EndsInRun (construct 1) m :=
    Reaches.append_replay _ (fun _ _ _ => endsInRun_of_test) .refl hrun
  obtain ⟨hended, hfree⟩ := (stopsCleanly_of_reaches hm).2 hmain
  exact ⟨m, hm, hmain, hbusy, hended 1 (by simp [hbusy]), hfree⟩

/-- Two threads wait for tasks when the pool is stopped. -/
def stopWaiting : List Label :=
  [.create 1, .record, .create 2, .record, .lock 1, .lock 2, .stopAll, .stop, .stop, .cancel 1,
    .cancel 1, .stop, .stop, .stop, .cancel 2]

/-- The first thread terminates with the mutex, the second one waits for it. -/
theorem not_stopsCleanly_stopWaiting :
    ¬ ∀ n m, Reachable Pool.step (construct n) m → m.StopsCleanly := by
  intro h
  obtain ⟨m, hrun, hmain, hdying, hmutex, hended⟩ :
      ∃ m, replay Pool.step stopWaiting (construct 2) = some m ∧ m.main = .joining .idle 1 2 ∧
        m.worker 2 = .dying ∧ m.pthreadMutex = some 1 ∧ m.worker 1 = .ended :=
    exists_of_replay_any (by decide +kernel)
  have hm := (h 2 m (Reachable.of_replay hrun)).1
  exact hm ⟨.idle, 1, 2, 1, hmain, .inr (.inr hdying), hmutex, hended⟩

end LinuxDevelopment.ThreadPool
