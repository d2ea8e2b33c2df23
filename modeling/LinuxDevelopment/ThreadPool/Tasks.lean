import LinuxDevelopment.ThreadPool.Pool

/-!
# The thread pool: tasks and wake-ups

`ThreadFunc` waits before it looks at the list, so a task is taken only by a
worker that is woken for it. Both directions of the balance between the tasks
in the list and the workers that are awake to take one can fail: a signal that
nobody waits for leaves a task behind, and a wake-up without a task makes a
worker read the end of an empty list.
-/

namespace LinuxDevelopment.ThreadPool

/-- The threads that stand at `w`. -/
def Pool.workersAt (m : Pool) (w : Worker) : Finset Nat := m.created.filter fun t => m.worker t = w

/-- Every thread that exists was created. -/
def Pool.Known (m : Pool) : Prop := ∀ t, m.worker t ≠ .absent → t ∈ m.created

section Counting

variable {m m' : Pool} {l : Label} {t : Nat}

theorem mem_workersAt (hk : m.Known) {w : Worker} (hw : w ≠ .absent) :
    t ∈ m.workersAt w ↔ m.worker t = w := by
  constructor
  · intro h
    exact (Finset.mem_filter.mp h).2
  · intro h
    exact Finset.mem_filter.mpr ⟨hk t (h ▸ hw), h⟩

/-- A thread that moves from `v` to `w` is counted there instead. -/
theorem card_workersAt_setWorker (hk : m.Known) {v : Worker} (ht : m.worker t = v)
    (hv : v ≠ .absent) (w x : Worker) :
    ((m.setWorker t w).workersAt x).card + (if v = x then 1 else 0) =
      (m.workersAt x).card + (if w = x then 1 else 0) := by
  subst ht
  exact card_filter_update m.created m.worker (hk t hv) w x

/-- A new thread stands at the lock and nowhere else. -/
theorem workersAt_create (habsent : m.worker t = .absent) {w : Worker} (hw : w ≠ .absent)
    (hlock : w ≠ .lock) (main : Main) :
    ({ m with created := insert t m.created, main := main }.setWorker t .lock).workersAt w =
      m.workersAt w := by
  ext u
  rw [Pool.workersAt, Pool.workersAt, Finset.mem_filter, Finset.mem_filter]
  change u ∈ insert t m.created ∧ Function.update m.worker t .lock u = w ↔ _
  by_cases hu : u = t
  · subst hu
    simp [habsent, Ne.symm hw, Ne.symm hlock]
  · simp [hu]

theorem Pool.Known.setWorker (hk : m.Known) (ht : m.worker t ≠ .absent) (w : Worker) :
    (m.setWorker t w).Known := by
  intro u hu
  by_cases h : u = t
  · subst h
    exact hk u ht
  · exact hk u (by simpa [Pool.setWorker, h] using hu)

theorem Moves.known (h : Moves m l m') (hk : m.Known) : m'.Known := by
  cases h with
  | create hmain habsent =>
      rename_i t left
      intro u hu
      by_cases hut : u = t
      · exact hut ▸ Finset.mem_insert_self _ _
      · exact Finset.mem_insert_of_mem (hk u (by simpa [Pool.setWorker, hut] using hu))
  | addTask hready hwaits =>
      exact Pool.Known.setWorker (m := m.push _) hk (by simp [Pool.push, hwaits]) _
  | spurious hwaits => exact hk.setWorker (by simp [hwaits]) _
  | lock hlock => exact hk.setWorker (by simp [hlock]) _
  | dispatch junk hwoken hlist =>
      exact Pool.Known.setWorker (m := { m.moveToBusy _ junk with vecTaskList := _ }) hk
        (by simp [Pool.moveToBusy, hwoken]) _
  | run hholds => exact Pool.Known.setWorker (m := { m with runs := _ }) hk (by simp [hholds]) _
  | finish hruns => exact hk.setWorker (by simp [hruns]) _
  | cancelWait _ hwaits => exact hk.setWorker (by rcases hwaits with h | h <;> simp [h]) _
  | die _ hdying _ =>
      exact Pool.Known.setWorker (m := { m with pthreadMutex := _ }) hk (by simp [hdying]) _
  | cancelRun _ hruns => exact hk.setWorker (by rcases hruns with h | h <;> simp [h]) _
  | record | addTaskLost | dispatchEnd | stopAll | scan | scanBusy | stopped | join | joined =>
      exact hk

theorem known_of_reachable {n : Nat} (h : Reachable Pool.step (construct n) m) : m.Known := by
  refine h.invariant ?_ fun hk hstep => (moves_of_step hstep).known hk
  intro t ht
  exact absurd rfl ht

/-- How a step changes the tasks in the list and the workers awake for one. -/
inductive Balance (m : Pool) : Label → Pool → Prop where
  | both {m' : Pool} {task t : Nat} (htasks : m'.vecTaskList.length = m.vecTaskList.length + 1)
      (hawake : (m'.workersAt .woken).card = (m.workersAt .woken).card + 1) :
      Balance m (.addTask task (some t)) m'
  | task {m' : Pool} {task : Nat} (hnone : ∀ t, m.worker t ≠ .waiting)
      (htasks : m'.vecTaskList.length = m.vecTaskList.length + 1)
      (hawake : (m'.workersAt .woken).card = (m.workersAt .woken).card) :
      Balance m (.addTask task none) m'
  | awake {m' : Pool} {t : Nat} (htasks : m'.vecTaskList = m.vecTaskList)
      (hawake : (m'.workersAt .woken).card = (m.workersAt .woken).card + 1) :
      Balance m (.spurious t) m'
  | taken {m' : Pool} {t : Nat} {junk : List Nat}
      (htasks : m'.vecTaskList.length + 1 = m.vecTaskList.length)
      (hawake : (m'.workersAt .woken).card + 1 = (m.workersAt .woken).card) :
      Balance m (.dispatch t junk) m'
  | same {m' : Pool} {l : Label} (htasks : m'.vecTaskList = m.vecTaskList)
      (hawake : (m'.workersAt .woken).card = (m.workersAt .woken).card) : Balance m l m'
  | cancelled {m' : Pool} {t : Nat} (hcancelled : m.cancelled t = true)
      (htasks : m'.vecTaskList = m.vecTaskList)
      (hawake : (m'.workersAt .woken).card ≤ (m.workersAt .woken).card) : Balance m (.cancel t) m'

theorem Moves.balance (h : Moves m l m') (hk : m.Known) : Balance m l m' := by
  cases h with
  | create hmain habsent =>
      exact .same rfl (congrArg _ (workersAt_create habsent (by simp) (by simp) _))
  | addTask hready hwaits =>
      rename_i task t
      exact .both (by simp [Pool.push, Pool.setWorker])
        (card_workersAt_setWorker (m := m.push task) hk hwaits (by simp) .woken .woken)
  | addTaskLost hready hnone =>
      refine .task ?_ (by simp [Pool.push]) rfl
      intro t ht
      exact hnone t (hk t (by simp [ht])) ht
  | spurious hwaits =>
      exact .awake rfl (card_workersAt_setWorker hk hwaits (by simp) .woken .woken)
  | lock hlock =>
      exact .same rfl (card_workersAt_setWorker hk hlock (by simp) .waiting .woken)
  | dispatch junk hwoken hlist =>
      rename_i t e rest
      refine .taken (by rw [hlist]; rfl) ?_
      exact card_workersAt_setWorker (m := { m.moveToBusy t junk with vecTaskList := rest }) hk
        hwoken (by simp) (.holding e) .woken
  | run hholds =>
      exact .same rfl (card_workersAt_setWorker (m := { m with runs := _ }) hk hholds (by simp)
        (.running _) .woken)
  | finish hruns =>
      exact .same rfl (card_workersAt_setWorker hk hruns (by simp) .lock .woken)
  | cancelWait hcancelled hwaits =>
      refine .cancelled hcancelled rfl ?_
      rcases hwaits with hw | hw
      · exact (card_workersAt_setWorker hk hw (by simp) .dying .woken).le
      · have hcard := card_workersAt_setWorker hk hw (by simp) .dying .woken
        simp at hcard
        omega
  | die hcancelled hdying hfree =>
      exact .same rfl (card_workersAt_setWorker (m := { m with pthreadMutex := _ }) hk hdying
        (by simp) .ended .woken)
  | cancelRun hcancelled hruns =>
      rcases hruns with hw | hw
      · exact .same rfl (card_workersAt_setWorker hk hw (by simp) .ended .woken)
      · exact .same rfl (card_workersAt_setWorker hk hw (by simp) .ended .woken)
  | record | dispatchEnd | stopAll | scan | scanBusy | stopped | join | joined =>
      exact .same rfl rfl

end Counting

section Stranding

variable {m m' : Pool} {l : Label} {n : Nat}

/-- The owner is not in `StopAll`. -/
def Main.serving : Main → Bool
  | .creating _ => true
  | .recording _ _ => true
  | .ready => true
  | _ => false

/-- `StopAll` was not called. -/
def Pool.Serving (m : Pool) : Prop := m.main.serving = true ∧ ∀ t, m.cancelled t = false

theorem serving_construct (n : Nat) : (construct n).Serving := by
  refine ⟨?_, fun _ => rfl⟩
  cases n <;> rfl

theorem Moves.serving (h : Moves m l m') (hl : l ≠ .stopAll) (hm : m.Serving) : m'.Serving := by
  cases h with
  | stopAll => exact absurd rfl hl
  | record =>
      rename_i t left hmain
      refine ⟨?_, hm.2⟩
      cases left <;> rfl
  | scan hmain | scanBusy hmain | stopped hmain | join hmain | joined hmain =>
      have hserving := hm.1
      rw [hmain] at hserving
      cases hserving
  | create => exact ⟨rfl, hm.2⟩
  | _ => exact hm

/-- A task is in the list, a worker waits, and nothing will wake it. -/
def Pool.Stranded (m : Pool) : Prop :=
  m.vecTaskList ≠ [] ∧ (∃ t, m.worker t = .waiting) ∧ ∀ t, m.worker t ≠ .woken

/-- `AddTask` is called only while a worker waits. -/
def MeetsWaiter (m : Pool) (l : Label) : Prop :=
  l ≠ .stopAll ∧ ∀ task signalled, l = .addTask task signalled → ∃ t, m.worker t = .waiting

/-- For every task in the list a worker is awake. -/
def Pool.Covered (m : Pool) : Prop := m.vecTaskList.length ≤ (m.workersAt .woken).card

theorem Moves.covered (h : Moves m l m') (hk : m.Known) (hs : m.Serving) (hl : MeetsWaiter m l)
    (hm : m.Covered) : m'.Covered := by
  unfold Pool.Covered at hm ⊢
  cases h.balance hk with
  | both htasks hawake => omega
  | task hnone htasks hawake =>
      obtain ⟨t, ht⟩ := hl.2 _ _ rfl
      exact absurd ht (hnone t)
  | awake htasks hawake =>
      rw [htasks]
      omega
  | taken htasks hawake => omega
  | same htasks hawake =>
      rw [htasks]
      omega
  | cancelled hcancelled htasks hawake =>
      rw [hs.2] at hcancelled
      cases hcancelled

theorem covered_of_reaches (h : Reaches Pool.step MeetsWaiter (construct n) m) :
    m.Serving ∧ m.Covered := by
  refine h.invariant (P := fun m => m.Serving ∧ m.Covered) ⟨serving_construct n, Nat.zero_le _⟩ ?_
  intro m m' l hrun hm hl hstep
  have hk := known_of_reachable hrun.reachable
  exact ⟨(moves_of_step hstep).serving hl.1 hm.1, (moves_of_step hstep).covered hk hm.1 hl hm.2⟩

end Stranding

/-- If `AddTask` is only called while a worker waits, no task is ever left in
the list with a worker waiting and no wake-up on its way. -/
theorem not_stranded_of_reaches {n : Nat} {m : Pool}
    (h : Reaches Pool.step MeetsWaiter (construct n) m) : ¬ m.Stranded := by
  rintro ⟨hlist, -, hnone⟩
  have hcovered := (covered_of_reaches h).2
  have hempty : m.workersAt .woken = ∅ := by
    apply Finset.filter_eq_empty_iff.mpr
    intro t _
    exact hnone t
  rw [Pool.Covered, hempty, Finset.card_empty, Nat.le_zero, List.length_eq_zero_iff] at hcovered
  exact hlist hcovered

/-- A test for `MeetsWaiter`. -/
def Pool.meetsWaiter (m : Pool) : Label → Bool
  | .stopAll => false
  | .addTask _ _ => decide (∃ t ∈ m.created, m.worker t = .waiting)
  | _ => true

theorem meetsWaiter_of_test {m : Pool} {l : Label} (h : m.meetsWaiter l = true) :
    MeetsWaiter m l := by
  refine ⟨?_, ?_⟩
  · rintro rfl
    cases h
  · rintro task signalled rfl
    obtain ⟨t, -, ht⟩ := of_decide_eq_true h
    exact ⟨t, ht⟩

/-- Two threads wait when a task is added. -/
def addToWaiters : List Label :=
  [.create 1, .record, .create 2, .record, .lock 1, .lock 2, .addTask 0 (some 1)]

theorem not_stranded_addToWaiters : ∃ m, Reaches Pool.step MeetsWaiter (construct 2) m ∧
    m.vecTaskList ≠ [] ∧ m.worker 2 = .waiting ∧ ¬ m.Stranded := by
  obtain ⟨m, hrun, hlist, hwaits⟩ :
      ∃ m, replay (fun m l => if m.meetsWaiter l then m.step l else none) addToWaiters
          (construct 2) = some m ∧ m.vecTaskList ≠ [] ∧ m.worker 2 = .waiting :=
    exists_of_replay_any (by decide +kernel)
  have hm : Reaches Pool.step MeetsWaiter (construct 2) m :=
    Reaches.append_replay _ (fun _ _ _ => meetsWaiter_of_test) .refl hrun
  exact ⟨m, hm, hlist, hwaits, not_stranded_of_reaches hm⟩

/-- A pool of one thread that is asked to run a task before it waits. -/
def addBeforeWait : List Label := [.create 1, .record, .addTask 0 none, .lock 1]

theorem stranded_of_addBeforeWait :
    ¬ ∀ n m, Reachable Pool.step (construct n) m → ¬ m.Stranded := by
  intro h
  obtain ⟨m, hrun, hlist, hwaits, hnone⟩ :
      ∃ m, replay Pool.step addBeforeWait (construct 1) = some m ∧ m.vecTaskList ≠ [] ∧
        m.worker 1 = .waiting ∧ ∀ t ∈ m.created, m.worker t ≠ .woken :=
    exists_of_replay_any (by decide +kernel)
  have hm := Reachable.of_replay hrun
  refine h 1 m hm ⟨hlist, ⟨1, hwaits⟩, ?_⟩
  intro t ht
  exact hnone t (known_of_reachable hm t (by simp [ht])) ht

section Dispatch

variable {m m' : Pool} {l : Label} {n : Nat}

/-- A worker returns from `pthread_cond_wait` without a signal only while a
task is in the list that no other worker is awake for. -/
def WakesForTask (m : Pool) (l : Label) : Prop :=
  ∀ t, l = .spurious t → (m.workersAt .woken).card < m.vecTaskList.length

/-- For every worker that is awake a task is in the list. -/
def Pool.Owed (m : Pool) : Prop := (m.workersAt .woken).card ≤ m.vecTaskList.length

theorem Moves.owed (h : Moves m l m') (hk : m.Known) (hl : WakesForTask m l) (hm : m.Owed) :
    m'.Owed := by
  unfold Pool.Owed at hm ⊢
  cases h.balance hk with
  | both htasks hawake => omega
  | task hnone htasks hawake => omega
  | awake htasks hawake =>
      have hlt := hl _ rfl
      rw [htasks]
      omega
  | taken htasks hawake => omega
  | same htasks hawake =>
      rw [htasks]
      omega
  | cancelled hcancelled htasks hawake =>
      rw [htasks]
      omega

/-- A worker that is awake for a task does not read the end of the list. -/
theorem Moves.readEnd_eq (h : Moves m l m') (hk : m.Known) (hm : m.Owed) :
    m'.readEnd = m.readEnd := by
  cases h with
  | dispatchEnd junk hwoken hlist =>
      rename_i t
      have hmem : t ∈ m.workersAt .woken := (mem_workersAt hk (by simp)).mpr hwoken
      have hpos := Finset.card_pos.mpr ⟨t, hmem⟩
      rw [Pool.Owed, hlist, List.length_nil] at hm
      omega
  | _ => rfl

theorem owed_of_reaches (h : Reaches Pool.step WakesForTask (construct n) m) :
    m.Owed ∧ m.readEnd = false := by
  refine h.invariant (P := fun m => m.Owed ∧ m.readEnd = false) ⟨Nat.zero_le _, rfl⟩ ?_
  intro m m' l hrun hm hl hstep
  have hk := known_of_reachable hrun.reachable
  have hmoves := moves_of_step hstep
  exact ⟨hmoves.owed hk hl hm.1, (hmoves.readEnd_eq hk hm.1).trans hm.2⟩

/-- How often an element of the list is present: still queued, held by a worker
or already run. -/
def Pool.copies (m : Pool) (e : Entry) : Nat :=
  m.vecTaskList.count e + (m.workersAt (.holding e)).card + m.runs.count e

/-- Every element that was pushed is present at most once, and no other one. -/
def Pool.Unique (m : Pool) : Prop := ∀ e, m.copies e ≤ if e.serial < m.pushed then 1 else 0

theorem copies_setWorker {t : Nat} {v : Worker} (hk : m.Known) (ht : m.worker t = v)
    (hv : v ≠ .absent) (w : Worker) (e : Entry) :
    (m.setWorker t w).copies e + (if v = .holding e then 1 else 0) =
      m.copies e + (if w = .holding e then 1 else 0) := by
  have hcard := card_workersAt_setWorker hk ht hv w (.holding e)
  change m.vecTaskList.count e + ((m.setWorker t w).workersAt (.holding e)).card +
    m.runs.count e + _ = m.vecTaskList.count e + (m.workersAt (.holding e)).card +
    m.runs.count e + _
  omega

theorem count_append_singleton (es : List Entry) (d e : Entry) :
    (es ++ [d]).count e = es.count e + if d = e then 1 else 0 := by
  rw [List.count_append, List.count_singleton]
  simp only [beq_iff_eq]

theorem copies_push (m : Pool) (task : Nat) (e : Entry) :
    (m.push task).copies e = m.copies e + if ⟨m.pushed, task⟩ = e then 1 else 0 := by
  have hcount := count_append_singleton m.vecTaskList ⟨m.pushed, task⟩ e
  unfold Pool.copies
  change (m.vecTaskList ++ [(⟨m.pushed, task⟩ : Entry)]).count e + _ + m.runs.count e = _
  rw [hcount]
  change _ + _ + (m.workersAt (.holding e)).card + _ = _
  omega

/-- Only `AddTask` makes a new element, with a new number. -/
theorem Moves.copies (h : Moves m l m') (hk : m.Known) (e : Entry) :
    (m'.pushed = m.pushed ∧ m'.copies e ≤ m.copies e) ∨
      ∃ task, m'.pushed = m.pushed + 1 ∧
        m'.copies e = m.copies e + if ⟨m.pushed, task⟩ = e then 1 else 0 := by
  cases h with
  | create hmain habsent =>
      have hset := workersAt_create (w := .holding e) habsent (by simp) (by simp)
      refine .inl ⟨rfl, le_of_eq ?_⟩
      unfold Pool.copies
      rw [hset]
      rfl
  | addTask hready hwaits =>
      rename_i task t
      have hset := copies_setWorker (m := m.push task) hk hwaits (by simp) .woken e
      exact .inr ⟨task, rfl, hset.trans (copies_push m task e)⟩
  | addTaskLost hready hnone => exact .inr ⟨_, rfl, copies_push m _ e⟩
  | spurious hwaits => exact .inl ⟨rfl, (copies_setWorker hk hwaits (by simp) .woken e).le⟩
  | lock hlock => exact .inl ⟨rfl, (copies_setWorker hk hlock (by simp) .waiting e).le⟩
  | dispatch junk hwoken hlist =>
      rename_i t d rest
      have hset := copies_setWorker (m := { m.moveToBusy t junk with vecTaskList := rest }) hk
        hwoken (by simp) (.holding d) e
      have hcount : m.copies e = rest.count e + (if d = e then 1 else 0) +
          (m.workersAt (.holding e)).card + m.runs.count e := by
        rw [Pool.copies, hlist, List.count_cons]
        simp only [beq_iff_eq]
      simp only [reduceCtorEq, if_false, Worker.holding.injEq, Nat.add_zero] at hset
      refine .inl ⟨rfl, le_of_eq ?_⟩
      rw [hset, hcount]
      change rest.count e + (m.workersAt (.holding e)).card + m.runs.count e + _ = _
      omega
  | run hholds =>
      rename_i t d
      have hset := copies_setWorker (m := { m with runs := m.runs ++ [d] }) hk hholds (by simp)
        (.running d) e
      have hcount : { m with runs := m.runs ++ [d] }.copies e =
          m.copies e + if d = e then 1 else 0 := by
        change m.vecTaskList.count e + (m.workersAt (.holding e)).card +
          (m.runs ++ [d]).count e = _
        rw [count_append_singleton, ← Nat.add_assoc]
        rfl
      simp only [reduceCtorEq, if_false, Worker.holding.injEq, Nat.add_zero, hcount] at hset
      exact .inl ⟨rfl, (Nat.add_right_cancel hset).le⟩
  | finish hruns => exact .inl ⟨rfl, (copies_setWorker hk hruns (by simp) .lock e).le⟩
  | cancelWait hcancelled hwaits =>
      rcases hwaits with hw | hw
      · exact .inl ⟨rfl, (copies_setWorker hk hw (by simp) .dying e).le⟩
      · exact .inl ⟨rfl, (copies_setWorker hk hw (by simp) .dying e).le⟩
  | die hcancelled hdying hfree =>
      exact .inl ⟨rfl, (copies_setWorker (m := { m with pthreadMutex := _ }) hk hdying (by simp)
        .ended e).le⟩
  | cancelRun hcancelled hruns =>
      rename_i t d
      rcases hruns with hw | hw
      · have hset := copies_setWorker hk hw (by simp) .ended e
        exact .inl ⟨rfl, Nat.le_of_add_right_le hset.le⟩
      · exact .inl ⟨rfl, (copies_setWorker hk hw (by simp) .ended e).le⟩
  | record | dispatchEnd | stopAll | scan | scanBusy | stopped | join | joined =>
      exact .inl ⟨rfl, le_rfl⟩

theorem Moves.unique (h : Moves m l m') (hk : m.Known) (hm : m.Unique) : m'.Unique := by
  intro e
  have hle := hm e
  obtain ⟨hpushed, hcopies⟩ | ⟨task, hpushed, hcopies⟩ := h.copies hk e
  · rw [hpushed]
    exact hcopies.trans hle
  · rw [hpushed, hcopies]
    by_cases he : ⟨m.pushed, task⟩ = e
    · subst he
      simpa using hle
    · rw [if_neg he]
      split at hle
      · rw [if_pos (by omega)]
        exact hle
      · exact hle.trans (Nat.zero_le _)

theorem unique_of_reachable (h : Reachable Pool.step (construct n) m) : m.Unique := by
  refine Reaches.invariant h ?_ fun hrun hm _ hstep =>
    (moves_of_step hstep).unique (known_of_reachable hrun) hm
  intro e
  exact Nat.zero_le _

end Dispatch

/-- If no worker wakes up without a task for it, no worker reads the end of
the list. An element of the list is run at most once in any case. -/
theorem dispatchesOnce_of_reaches {n : Nat} {m : Pool}
    (h : Reaches Pool.step WakesForTask (construct n) m) :
    m.readEnd = false ∧ ∀ e, m.runs.count e ≤ 1 := by
  refine ⟨(owed_of_reaches h).2, ?_⟩
  intro e
  have hle := unique_of_reachable h.reachable e
  have hruns : m.runs.count e ≤ m.copies e := Nat.le_add_left _ _
  split at hle <;> omega

/-- A test for `WakesForTask`. -/
def Pool.wakesForTask (m : Pool) : Label → Bool
  | .spurious _ => decide ((m.workersAt .woken).card < m.vecTaskList.length)
  | _ => true

/-- The signal for a task is lost, and a spurious wake-up has it run. -/
def spuriousForTask : List Label :=
  [.create 1, .record, .addTask 7 none, .lock 1, .spurious 1, .dispatch 1 [], .run 1]

theorem dispatchesOnce_spuriousForTask : ∃ m, Reaches Pool.step WakesForTask (construct 1) m ∧
    m.runs = [⟨0, 7⟩] ∧ m.readEnd = false := by
  obtain ⟨m, hrun, hruns⟩ :
      ∃ m, replay (fun m l => if m.wakesForTask l then m.step l else none) spuriousForTask
          (construct 1) = some m ∧ m.runs = [⟨0, 7⟩] :=
    exists_of_replay_any (by decide +kernel)
  have hm : Reaches Pool.step WakesForTask (construct 1) m := by
    refine Reaches.append_replay _ ?_ .refl hrun
    rintro m l - hl t rfl
    exact of_decide_eq_true hl
  exact ⟨m, hm, hruns, (dispatchesOnce_of_reaches hm).1⟩

/-- A spurious wake-up of a pool that has nothing to do. -/
def spuriousWithoutTask : List Label :=
  [.create 1, .record, .lock 1, .spurious 1, .dispatch 1 []]

theorem readEnd_of_spuriousWithoutTask : ¬ ∀ n m, Reachable Pool.step (construct n) m →
    m.readEnd = false ∧ ∀ e, m.runs.count e ≤ 1 := by
  intro h
  obtain ⟨m, hrun, hread⟩ :
      ∃ m, replay Pool.step spuriousWithoutTask (construct 1) = some m ∧ m.readEnd = true :=
    exists_of_replay_any (by decide +kernel)
  have hm := (h 1 m (Reachable.of_replay hrun)).1
  rw [hread] at hm
  cases hm

end LinuxDevelopment.ThreadPool
