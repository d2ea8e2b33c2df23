import LinuxDevelopment.ThreadPool.Tasks

/-!
# The thread pool: idle and busy threads

`MoveToBusy` moves a thread to the busy vector when it takes a task. Nothing
moves it back, since `MoveToIdle` is never called, so the two vectors say what
they should exactly as long as no thread has finished a task.
-/

namespace LinuxDevelopment.ThreadPool

/-- The worker has taken a task and not finished it. -/
def Worker.Tasked (w : Worker) : Prop := ∃ e, w = .holding e ∨ w = .running e

/-- The vectors hold each created thread once, the busy one those with a task,
and `erase` was not called with an end iterator. -/
structure Pool.Partition (m : Pool) : Prop where
  nodup : (m.vecIdleThread ++ m.vecBusyThread).Nodup
  created : ∀ t, t ∈ m.vecIdleThread ++ m.vecBusyThread ↔ t ∈ m.created
  busy : ∀ t, t ∈ m.vecBusyThread ↔ (m.worker t).Tasked
  erased : m.erasedEnd = false

section Finished

variable {m m' : Pool} {l : Label} {t n : Nat}

/-- Whoever has a task is in the busy vector, and there are tasks only behind
the constructor. -/
structure Pool.Started (m : Pool) : Prop where
  busy : ∀ t, (m.worker t).Tasked → t ∈ m.vecBusyThread
  worker : ∀ t, (m.worker t).Tasked → m.main.constructed = true
  list : m.vecTaskList ≠ [] → m.main.constructed = true

theorem Moves.constructed (h : Moves m l m') (hm : m.main.constructed = true) :
    m'.main.constructed = true := by
  cases h with
  | create hmain | record hmain =>
      rw [hmain] at hm
      cases hm
  | stopAll | scan | scanBusy | stopped | join | joined => rfl
  | _ => exact hm

theorem tasked_of_setWorker {u : Nat} {w : Worker} (hw : ¬ w.Tasked)
    (h : ((m.setWorker u w).worker t).Tasked) : (m.worker t).Tasked := by
  by_cases hu : t = u
  · subst hu
    exact absurd (by simpa [Pool.setWorker] using h) hw
  · simpa [Pool.setWorker, hu] using h

/-- A thread has a task only if it had one or takes the first of the list. -/
theorem Moves.tasked (h : Moves m l m') (ht : (m'.worker t).Tasked) :
    (m.worker t).Tasked ∨ (m.vecTaskList ≠ [] ∧ t ∈ m'.vecBusyThread) := by
  cases h with
  | dispatch junk hwoken hlist =>
      rename_i u e rest
      by_cases hu : t = u
      · subst hu
        exact .inr ⟨by simp [hlist], List.mem_append_right _ (List.mem_singleton_self t)⟩
      · left
        simpa [Pool.setWorker, Pool.moveToBusy, hu] using ht
  | run hholds =>
      rename_i u e
      left
      by_cases hu : t = u
      · subst hu
        exact ⟨e, .inl hholds⟩
      · simpa [Pool.setWorker, hu] using ht
  | create | addTask | spurious | lock | finish | cancelWait | die | cancelRun =>
      exact .inl (tasked_of_setWorker (by simp [Worker.Tasked]) ht)
  | record | addTaskLost | dispatchEnd | stopAll | scan | scanBusy | stopped | join | joined =>
      exact .inl ht

theorem Moves.busy_subset (h : Moves m l m') : m.vecBusyThread ⊆ m'.vecBusyThread := by
  cases h with
  | dispatch => exact List.subset_append_left _ _
  | _ => exact List.Subset.refl _

theorem Moves.list_ne_nil (h : Moves m l m') (hlist : m'.vecTaskList ≠ []) :
    m.vecTaskList ≠ [] ∨ m'.main.constructed = true := by
  cases h with
  | addTask hready | addTaskLost hready => exact .inr hready
  | dispatch junk hwoken hnext => exact .inl (by simp [hnext])
  | _ => exact .inl hlist

theorem Moves.started (h : Moves m l m') (hm : m.Started) : m'.Started where
  busy := by
    intro t ht
    rcases h.tasked ht with hold | ⟨-, hmem⟩
    · exact h.busy_subset (hm.busy t hold)
    · exact hmem
  worker := by
    intro t ht
    rcases h.tasked ht with hold | ⟨hlist, -⟩
    · exact h.constructed (hm.worker t hold)
    · exact h.constructed (hm.list hlist)
  list := by
    intro hlist
    rcases h.list_ne_nil hlist with hold | hready
    · exact h.constructed (hm.list hold)
    · exact hready

theorem started_of_reachable (h : Reachable Pool.step (construct n) m) : m.Started := by
  refine h.invariant ?_ fun hm hstep => (moves_of_step hstep).started hm
  constructor
  · rintro t ⟨e, he⟩
    simp [construct] at he
  · rintro t ⟨e, he⟩
    simp [construct] at he
  · intro hlist
    exact absurd rfl hlist

/-- A thread that has finished a task is in the busy vector without one. -/
theorem not_partition_of_finish (h : Reachable Pool.step (construct n) m)
    (hstep : m.step (.finish t) = some m') : m'.main.constructed = true ∧ ¬ m'.Partition := by
  have hm := started_of_reachable h
  cases moves_of_step hstep with
  | finish hruns =>
      have htask : (m.worker t).Tasked := ⟨_, .inr hruns⟩
      refine ⟨hm.worker t htask, ?_⟩
      intro hp
      obtain ⟨e, he⟩ := (hp.busy t).mp (hm.busy t htask)
      simp [Pool.setWorker] at he

end Finished

section Unfinished

variable {m m' : Pool} {l : Label} {t n : Nat}

/-- The label is neither the end of a task nor the call of `StopAll`. -/
def KeepsTasks (_ : Pool) (l : Label) : Prop := l ≠ .stopAll ∧ ∀ t, l ≠ .finish t

/-- The partition while threads are still being created. -/
structure Pool.Sorted (m : Pool) : Prop where
  serving : m.Serving
  absent : ∀ t, t ∈ m.created ↔ m.worker t ≠ .absent
  nodup : (m.vecIdleThread ++ m.vecBusyThread).Nodup
  recorded : ∀ t, t ∈ m.vecIdleThread ++ m.vecBusyThread ↔
    t ∈ m.created ∧ ∀ left, m.main ≠ .recording t left
  recording : ∀ t left, m.main = .recording t left → t ∈ m.created
  busy : ∀ t, t ∈ m.vecBusyThread ↔ (m.worker t).Tasked
  erased : m.erasedEnd = false

theorem perm_moveToBusy {idle : List Nat} (busy : List Nat) (h : t ∈ idle) :
    (idle.erase t ++ (busy ++ [t])).Perm (idle ++ busy) := by
  have hlast : (idle.erase t ++ (busy ++ [t])).Perm (idle.erase t ++ t :: busy) :=
    (List.perm_append_singleton t busy).append_left _
  have hfirst : (t :: idle.erase t ++ busy).Perm (idle ++ busy) :=
    (List.perm_cons_erase h).symm.append_right _
  exact hlast.trans (List.perm_middle.trans hfirst)

/-- A thread moves without taking or giving up a task. -/
theorem Pool.Sorted.setWorker (hm : m.Sorted) {w : Worker} (hold : m.worker t ≠ .absent)
    (hnew : w ≠ .absent) (htask : (m.worker t).Tasked ↔ w.Tasked) : (m.setWorker t w).Sorted where
  serving := hm.serving
  absent := by
    intro u
    by_cases hu : u = t
    · subst hu
      simpa [Pool.setWorker, hnew] using (hm.absent u).mpr hold
    · simpa [Pool.setWorker, hu] using hm.absent u
  nodup := hm.nodup
  recorded := hm.recorded
  recording := hm.recording
  busy := by
    intro u
    by_cases hu : u = t
    · subst hu
      simpa [Pool.setWorker] using (hm.busy u).trans htask
    · simpa [Pool.setWorker, hu] using hm.busy u
  erased := hm.erased

theorem Pool.Sorted.create (hm : m.Sorted) {left : Nat} (hmain : m.main = .creating (left + 1))
    (habsent : m.worker t = .absent) :
    ({ m with created := insert t m.created, main := .recording t left }.setWorker t .lock).Sorted where
  serving := ⟨rfl, hm.serving.2⟩
  absent := by
    intro u
    by_cases hu : u = t
    · subst hu
      simp [Pool.setWorker]
    · simpa [Pool.setWorker, hu] using hm.absent u
  nodup := hm.nodup
  recorded := by
    intro u
    have hold := hm.recorded u
    by_cases hu : u = t
    · subst hu
      have hnew : u ∉ m.created := by simp [hm.absent, habsent]
      simpa [Pool.setWorker, hnew] using hold
    · simpa [Pool.setWorker, hmain, hu, Ne.symm hu] using hold
  recording := by
    rintro u _ ⟨⟩
    exact Finset.mem_insert_self _ _
  busy := by
    intro u
    by_cases hu : u = t
    · subst hu
      simpa [Pool.setWorker, Worker.Tasked, habsent] using hm.busy u
    · simpa [Pool.setWorker, hu] using hm.busy u
  erased := hm.erased

theorem Pool.Sorted.record (hm : m.Sorted) {left : Nat} (hmain : m.main = .recording t left)
    (hserving : (Main.create left).serving = true) :
    { m with vecIdleThread := m.vecIdleThread ++ [t], main := .create left }.Sorted := by
  have hperm : (m.vecIdleThread ++ [t] ++ m.vecBusyThread).Perm
      (t :: (m.vecIdleThread ++ m.vecBusyThread)) := by
    rw [List.append_assoc]
    exact List.perm_middle
  have hnot : t ∉ m.vecIdleThread ++ m.vecBusyThread := by
    rw [hm.recorded]
    rintro ⟨-, h⟩
    exact h left hmain
  have hcreate : ∀ u k, Main.create left ≠ .recording u k := by
    intro u k
    cases left <;> simp [Main.create]
  refine ⟨⟨hserving, hm.serving.2⟩, hm.absent, ?_, ?_, ?_, hm.busy, hm.erased⟩
  · exact hperm.nodup_iff.mpr (List.nodup_cons.mpr ⟨hnot, hm.nodup⟩)
  · intro u
    have hiff : (u ∈ m.vecIdleThread ++ [t] ++ m.vecBusyThread) ↔ u ∈ m.created := by
      rw [hperm.mem_iff, List.mem_cons, hm.recorded, hmain]
      by_cases hu : u = t
      · subst hu
        simp [hm.recording u left hmain]
      · simp [hu, Ne.symm hu]
    exact hiff.trans (and_iff_left (hcreate u)).symm
  · intro u k h
    exact absurd h (hcreate u k)

/-- A thread without a task that is past the constructor is in the idle vector. -/
theorem Pool.Sorted.mem_idle (hm : m.Sorted) (hready : m.main.constructed = true)
    (hold : m.worker t ≠ .absent) (htask : ¬ (m.worker t).Tasked) : t ∈ m.vecIdleThread := by
  have hmem : t ∈ m.vecIdleThread ++ m.vecBusyThread := by
    refine (hm.recorded t).mpr ⟨(hm.absent t).mpr hold, ?_⟩
    intro left hmain
    rw [hmain] at hready
    cases hready
  rcases List.mem_append.mp hmem with h | h
  · exact h
  · exact absurd ((hm.busy t).mp h) htask

theorem Pool.Sorted.dispatch (hm : m.Sorted) (hready : m.main.constructed = true)
    (hwoken : m.worker t = .woken) (junk : List Nat) (e : Entry) (rest : List Entry) :
    ({ m.moveToBusy t junk with vecTaskList := rest }.setWorker t (.holding e)).Sorted := by
  have hidle : t ∈ m.vecIdleThread :=
    hm.mem_idle hready (by simp [hwoken]) (by simp [hwoken, Worker.Tasked])
  have hperm := perm_moveToBusy m.vecBusyThread hidle
  refine ⟨hm.serving, ?_, ?_, ?_, hm.recording, ?_, ?_⟩
  · intro u
    by_cases hu : u = t
    · subst hu
      simpa [Pool.setWorker, Pool.moveToBusy, hwoken] using hm.absent u
    · simpa [Pool.setWorker, Pool.moveToBusy, hu] using hm.absent u
  · simpa [Pool.setWorker, Pool.moveToBusy, hidle] using hperm.nodup_iff.mpr hm.nodup
  · intro u
    have hiff := (hperm.mem_iff (a := u)).trans (hm.recorded u)
    simpa [Pool.setWorker, Pool.moveToBusy, hidle] using hiff
  · intro u
    by_cases hu : u = t
    · subst hu
      simp [Pool.setWorker, Pool.moveToBusy, Worker.Tasked]
    · simpa [Pool.setWorker, Pool.moveToBusy, hu] using hm.busy u
  · simp [Pool.setWorker, Pool.moveToBusy, hm.erased, hidle]

theorem Moves.sorted (h : Moves m l m') (hl : KeepsTasks m l) (hs : m.Started) (hm : m.Sorted) :
    m'.Sorted := by
  have hserving := h.serving hl.1 hm.serving
  cases h with
  | create hmain habsent => exact hm.create hmain habsent
  | record hmain => exact hm.record hmain hserving.1
  | addTask hready hwaits =>
      exact Pool.Sorted.setWorker (m := m.push _) ⟨hm.1, hm.2, hm.3, hm.4, hm.5, hm.6, hm.7⟩
        (by simp [Pool.push, hwaits]) (by simp) (by simp [Pool.push, hwaits, Worker.Tasked])
  | dispatch junk hwoken hlist =>
      exact hm.dispatch (hs.list (by simp [hlist])) hwoken junk _ _
  | run hholds =>
      rename_i t e
      exact Pool.Sorted.setWorker (m := { m with runs := m.runs ++ [e] }) (w := .running e)
        ⟨hm.1, hm.2, hm.3, hm.4, hm.5, hm.6, hm.7⟩ (by simp [hholds]) (by simp)
        (by simp [hholds, Worker.Tasked])
  | spurious hwaits =>
      exact hm.setWorker (by simp [hwaits]) (by simp) (by simp [hwaits, Worker.Tasked])
  | lock hlock =>
      exact hm.setWorker (by simp [hlock]) (by simp) (by simp [hlock, Worker.Tasked])
  | finish => exact absurd rfl (hl.2 _)
  | stopAll => exact absurd rfl hl.1
  | scan hmain | scanBusy hmain | stopped hmain | join hmain | joined hmain =>
      have hmain' := hm.serving.1
      rw [hmain] at hmain'
      cases hmain'
  | cancelWait hc | die hc | cancelRun hc =>
      rw [hm.serving.2] at hc
      cases hc
  | addTaskLost | dispatchEnd => exact ⟨hserving, hm.2, hm.3, hm.4, hm.5, hm.6, hm.7⟩

theorem sorted_construct (n : Nat) : (construct n).Sorted where
  serving := serving_construct n
  absent := by simp [construct]
  nodup := List.nodup_nil
  recorded := by simp [construct]
  recording := by
    intro t left h
    cases n <;> cases h
  busy := by simp [construct, Worker.Tasked]
  erased := rfl

theorem sorted_of_reaches (h : Reaches Pool.step KeepsTasks (construct n) m) : m.Sorted := by
  refine h.invariant (sorted_construct n) ?_
  intro m m' l hrun hm hl hstep
  exact (moves_of_step hstep).sorted hl (started_of_reachable hrun.reachable) hm

theorem Pool.Sorted.partition (hm : m.Sorted) (hready : m.main.constructed = true) :
    m.Partition where
  nodup := hm.nodup
  created := by
    intro t
    rw [hm.recorded]
    refine and_iff_left ?_
    intro left hmain
    rw [hmain] at hready
    cases hready
  busy := hm.busy
  erased := hm.erased

end Unfinished

/-- In a run without `StopAll`, the vectors partition the threads in every
state behind the constructor if and only if no thread finishes a task. -/
theorem partition_iff_of_replay {n : Nat} {ls : List Label} {m : Pool}
    (hrun : replay Pool.step ls (construct n) = some m) (hserve : Label.stopAll ∉ ls) :
    (∀ ls₁ ls₂ m₁, ls = ls₁ ++ ls₂ → replay Pool.step ls₁ (construct n) = some m₁ →
      m₁.main.constructed = true → m₁.Partition) ↔ ∀ t, Label.finish t ∉ ls := by
  constructor
  · intro h t hfinish
    obtain ⟨ls₁, ls₂, rfl⟩ := List.append_of_mem hfinish
    rw [replay_append] at hrun
    obtain ⟨m₁, hrun₁, hrest⟩ := Option.bind_eq_some_iff.mp hrun
    obtain ⟨m₂, hstep, -⟩ := Option.bind_eq_some_iff.mp hrest
    have hrun₂ : replay Pool.step (ls₁ ++ [.finish t]) (construct n) = some m₂ := by
      simp [replay_append, hrun₁, replay, hstep]
    obtain ⟨hready, hnot⟩ := not_partition_of_finish (Reachable.of_replay hrun₁) hstep
    exact hnot (h (ls₁ ++ [.finish t]) ls₂ m₂ (by simp) hrun₂ hready)
  · intro h ls₁ ls₂ m₁ hls hrun₁ hready
    have hkeeps : ∀ l ∈ ls₁, ∀ m, KeepsTasks m l := by
      intro l hl m
      have hmem : l ∈ ls := hls ▸ List.mem_append_left _ hl
      exact ⟨fun he => hserve (he ▸ hmem), fun t he => h t (he ▸ hmem)⟩
    exact (sorted_of_reaches (Reaches.of_replay hkeeps hrun₁)).partition hready

/-- One of two threads runs a task. -/
def oneRuns : List Label :=
  [.create 1, .record, .create 2, .record, .lock 1, .lock 2, .addTask 0 (some 1),
    .dispatch 1 [], .run 1]

theorem partition_oneRuns : ∃ m, replay Pool.step oneRuns (construct 2) = some m ∧
    m.vecIdleThread = [2] ∧ m.vecBusyThread = [1] ∧ m.Partition := by
  obtain ⟨m, hrun, hready, hidle, hbusy⟩ :
      ∃ m, replay Pool.step oneRuns (construct 2) = some m ∧ m.main.constructed = true ∧
        m.vecIdleThread = [2] ∧ m.vecBusyThread = [1] :=
    exists_of_replay_any (by decide +kernel)
  have hpartition := (partition_iff_of_replay hrun (by simp [oneRuns])).mpr (by simp [oneRuns])
  exact ⟨m, hrun, hidle, hbusy, hpartition oneRuns [] m (by simp) hrun hready⟩

/-- The only thread of a pool takes a second task. -/
def secondTask : List Label :=
  [.create 1, .record, .lock 1, .addTask 0 (some 1), .dispatch 1 [], .run 1, .finish 1, .lock 1,
    .addTask 0 (some 1), .dispatch 1 []]

/-- The thread is not in the idle vector any more when it takes the second
task, so `MoveToBusy` erases the end. -/
theorem not_partition_secondTask : ¬ ∀ n m, Reachable Pool.step (construct n) m →
    m.main.constructed = true → m.Partition := by
  intro h
  obtain ⟨m, hrun, hready, herased⟩ :
      ∃ m, replay Pool.step secondTask (construct 1) = some m ∧ m.main.constructed = true ∧
        m.erasedEnd = true :=
    exists_of_replay_any (by decide +kernel)
  have hm := (h 1 m (Reachable.of_replay hrun) hready).erased
  rw [herased] at hm
  cases hm

end LinuxDevelopment.ThreadPool
