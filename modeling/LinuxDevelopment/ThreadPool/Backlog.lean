import LinuxDevelopment.Base.History
import LinuxDevelopment.ThreadPool.Tasks

/-!
# The thread pool: the tasks that stay behind

A worker takes a task only when it was woken, so what the list holds is settled
by the wake-ups: a signal that meets no waiter leaves one task more behind than
there are workers awake, and a spurious return from `pthread_cond_wait` one less.
The tasks that are taken are taken in the order in which they were added, and none
is passed over.
-/

namespace LinuxDevelopment.ThreadPool

/-- `AddTask` whose signal meets no waiter. -/
def Label.isLost : Label → Bool
  | .addTask _ none => true
  | _ => false

/-- `AddTask` whose signal wakes a waiter. -/
def Label.isSignalled : Label → Bool
  | .addTask _ (some _) => true
  | _ => false

/-- A return from `pthread_cond_wait` without a signal. -/
def Label.isSpurious : Label → Bool
  | .spurious _ => true
  | _ => false

/-- A worker begins to wait. -/
def Label.isWait : Label → Bool
  | .lock _ => true
  | _ => false

/-- A worker takes a task. -/
def Label.isDispatch : Label → Bool
  | .dispatch _ _ => true
  | _ => false

/-- The steps of a schedule that pass a test. -/
def steps (test : Label → Bool) (ls : List Label) : Nat := ls.countP test

theorem steps_append (test : Label → Bool) (ls : List Label) (l : Label) :
    steps test (ls ++ [l]) = steps test ls + (test l).toNat := by
  unfold steps
  rw [List.countP_append, List.countP_singleton]
  cases test l <;> rfl

section Step

variable {m m' : Pool} {l : Label} {n : Nat}

/-- A step changes the list by what is added and what is taken. -/
theorem Moves.length_list (h : Moves m l m') (hread : m'.readEnd = false) :
    m'.vecTaskList.length + l.isDispatch.toNat =
      m.vecTaskList.length + l.isLost.toNat + l.isSignalled.toNat := by
  cases h with
  | addTask | addTaskLost => simp [Pool.setWorker, Pool.push, Label.isDispatch, Label.isLost,
      Label.isSignalled]
  | dispatch junk hwoken hlist =>
      simp [Pool.setWorker, hlist, Label.isDispatch, Label.isLost, Label.isSignalled]
  | dispatchEnd => cases hread
  | _ => rfl

/-- A step changes the number of workers that wait. -/
theorem Moves.card_waiting (h : Moves m l m') (hk : m.Known) (hs : m.Serving) :
    (m'.workersAt .waiting).card + l.isSignalled.toNat + l.isSpurious.toNat =
      (m.workersAt .waiting).card + l.isWait.toNat := by
  cases h with
  | create hmain habsent =>
      rw [workersAt_create habsent (by simp) (by simp)]
      rfl
  | @addTask task t hready hwaits =>
      exact card_workersAt_setWorker (m := m.push task) hk hwaits (by simp) .woken .waiting
  | spurious hwaits => exact card_workersAt_setWorker hk hwaits (by simp) .woken .waiting
  | lock hlock => exact card_workersAt_setWorker hk hlock (by simp) .waiting .waiting
  | @dispatch t e rest junk hwoken hlist =>
      exact card_workersAt_setWorker (m := { m.moveToBusy t junk with vecTaskList := rest })
        hk hwoken (by simp) (.holding e) .waiting
  | @run t e hholds =>
      exact card_workersAt_setWorker (m := { m with runs := m.runs ++ [e] }) hk hholds
        (by simp) (.running e) .waiting
  | finish hruns => exact card_workersAt_setWorker hk hruns (by simp) .lock .waiting
  | cancelWait hcancelled | die hcancelled | cancelRun hcancelled =>
      cases (hs.2 _).symm.trans hcancelled
  | _ => rfl

/-- A step changes the number of workers that are awake for a task. -/
theorem Moves.card_woken (h : Moves m l m') (hk : m.Known) (hs : m.Serving)
    (hread : m'.readEnd = false) :
    (m'.workersAt .woken).card + l.isDispatch.toNat =
      (m.workersAt .woken).card + l.isSignalled.toNat + l.isSpurious.toNat := by
  cases h with
  | create hmain habsent =>
      rw [workersAt_create habsent (by simp) (by simp)]
      rfl
  | @addTask task t hready hwaits =>
      exact card_workersAt_setWorker (m := m.push task) hk hwaits (by simp) .woken .woken
  | spurious hwaits => exact card_workersAt_setWorker hk hwaits (by simp) .woken .woken
  | lock hlock => exact card_workersAt_setWorker hk hlock (by simp) .waiting .woken
  | @dispatch t e rest junk hwoken hlist =>
      exact card_workersAt_setWorker (m := { m.moveToBusy t junk with vecTaskList := rest })
        hk hwoken (by simp) (.holding e) .woken
  | dispatchEnd => cases hread
  | @run t e hholds =>
      exact card_workersAt_setWorker (m := { m with runs := m.runs ++ [e] }) hk hholds
        (by simp) (.running e) .woken
  | finish hruns => exact card_workersAt_setWorker hk hruns (by simp) .lock .woken
  | cancelWait hcancelled | die hcancelled | cancelRun hcancelled =>
      cases (hs.2 _).symm.trans hcancelled
  | _ => rfl

theorem Moves.pushed_eq (h : Moves m l m') :
    m'.pushed = m.pushed + l.isLost.toNat + l.isSignalled.toNat := by
  cases h <;> rfl

/-- What the steps of a schedule add up to. -/
structure Pool.Tallies (m : Pool) (ls : List Label) : Prop where
  serving : m.Serving
  pushed : m.pushed = steps Label.isLost ls + steps Label.isSignalled ls
  list : m.vecTaskList.length + steps Label.isDispatch ls =
    steps Label.isLost ls + steps Label.isSignalled ls
  waiting : (m.workersAt .waiting).card + steps Label.isSignalled ls +
    steps Label.isSpurious ls = steps Label.isWait ls
  woken : (m.workersAt .woken).card + steps Label.isDispatch ls =
    steps Label.isSignalled ls + steps Label.isSpurious ls

theorem Moves.tallies {ls : List Label} (h : Moves m l m') (hk : m.Known) (hl : l ≠ .stopAll)
    (hread : m'.readEnd = false) (hm : m.Tallies ls) : m'.Tallies (ls ++ [l]) := by
  have hlist := h.length_list hread
  have hwaiting := h.card_waiting hk hm.serving
  have hwoken := h.card_woken hk hm.serving hread
  have hpushed := h.pushed_eq
  obtain ⟨hs, hp, hli, hwa, hwo⟩ := hm
  refine ⟨h.serving hl hs, ?_, ?_, ?_, ?_⟩ <;> simp only [steps_append] <;> omega

theorem tallies_of_replay {ls : List Label} (h : replay Pool.step ls (construct n) = some m)
    (hstop : .stopAll ∉ ls) (hread : m.readEnd = false) : m.Tallies ls := by
  revert hstop hread
  refine replay_invariant (P := fun ls m => .stopAll ∉ ls → m.readEnd = false → m.Tallies ls) h
    ?_ ?_
  · intro _ _
    exact ⟨serving_construct n, rfl, rfl, rfl, rfl⟩
  · intro ls m m' l hrun ih hstep hstop hread
    rw [List.mem_append, List.mem_singleton, not_or] at hstop
    have hbefore : m.readEnd = false := by
      unfold Pool.step at hstep
      split at hstep
      · cases hstep
      · rename_i hend
        exact Bool.eq_false_iff.mpr hend
    exact (moves_of_step hstep).tallies (known_of_reachable (.of_replay hrun)) (Ne.symm hstop.2)
      hread (ih hstop.1 hbefore)

end Step

/-- As long as `StopAll` is not called and no worker has read past the end of the
list, the tasks in the list and the spurious wake-ups are together as many as the
workers that are awake and the lost signals. No more tasks are taken than workers
have begun to wait. -/
theorem backlog_of_schedule {n : Nat} {ls : List Label} {m : Pool}
    (h : replay Pool.step ls (construct n) = some m) (hstop : .stopAll ∉ ls)
    (hread : m.readEnd = false) :
    m.vecTaskList.length + steps Label.isSpurious ls =
        (m.workersAt .woken).card + steps Label.isLost ls ∧
      m.pushed ≤ m.vecTaskList.length + steps Label.isWait ls := by
  obtain ⟨-, hpushed, hlist, hwaiting, hwoken⟩ := tallies_of_replay h hstop hread
  omega

/-- A pool of two threads gets three tasks at once. -/
def threeAtOnce : List Label :=
  [.create 1, .record, .create 2, .record, .lock 1, .lock 2, .addTask 0 (some 1),
    .addTask 0 (some 2), .addTask 0 none, .dispatch 1 [], .dispatch 2 [], .run 1, .run 2,
    .finish 1, .finish 2, .lock 1, .lock 2]

theorem backlog_threeAtOnce : ∃ m, replay Pool.step threeAtOnce (construct 2) = some m ∧
    (m.workersAt .woken).card = 0 ∧ m.vecTaskList.length = 1 := by
  obtain ⟨m, hrun, hread, hwoken⟩ :
      ∃ m, replay Pool.step threeAtOnce (construct 2) = some m ∧ m.readEnd = false ∧
        (m.workersAt .woken).card = 0 := exists_of_replay_any (by decide +kernel)
  obtain ⟨heq, -⟩ := backlog_of_schedule hrun (by simp [threeAtOnce]) hread
  refine ⟨m, hrun, hwoken, ?_⟩
  rw [hwoken] at heq
  exact heq

section Order

variable {m m' : Pool} {l : Label} {n k : Nat}

/-- The task with this number was taken out of the list. -/
def Pool.Taken (m : Pool) (j : Nat) : Prop :=
  (∃ t e, m.worker t = .holding e ∧ e.serial = j) ∨ ∃ e ∈ m.runs, e.serial = j

/-- The first `k` tasks are taken and the others stand in the list, in the order
in which they were added. -/
structure Pool.InTurn (m : Pool) (k : Nat) : Prop where
  le : k ≤ m.pushed
  list : m.vecTaskList.map Entry.serial = List.range' k (m.pushed - k)
  taken : ∀ j, m.Taken j ↔ j < k

theorem taken_congr {j : Nat} (hruns : m'.runs = m.runs)
    (hworker : ∀ t e, m'.worker t = .holding e ↔ m.worker t = .holding e) :
    m'.Taken j ↔ m.Taken j := by
  unfold Pool.Taken
  simp only [hruns, hworker]

theorem holding_setWorker {t : Nat} {w : Worker} (hold : ∀ e, m.worker t ≠ .holding e)
    (hnew : ∀ e, w ≠ .holding e) (u : Nat) (e : Entry) :
    Function.update m.worker t w u = .holding e ↔ m.worker u = .holding e := by
  by_cases hu : u = t
  · subst hu
    rw [Function.update_self]
    exact ⟨fun h => absurd h (hnew e), fun h => absurd h (hold e)⟩
  · rw [Function.update_of_ne hu]

theorem Pool.InTurn.congr (hm : m.InTurn k) (hpushed : m'.pushed = m.pushed)
    (hlist : m'.vecTaskList = m.vecTaskList) (hruns : m'.runs = m.runs)
    (hworker : ∀ t e, m'.worker t = .holding e ↔ m.worker t = .holding e) : m'.InTurn k :=
  ⟨hpushed ▸ hm.le, by rw [hlist, hpushed, hm.list],
    fun j => (taken_congr hruns hworker).trans (hm.taken j)⟩

/-- A task is added behind the others. -/
theorem Pool.InTurn.push (hm : m.InTurn k) (task : Nat) : (m.push task).InTurn k where
  le := Nat.le_succ_of_le hm.le
  list := by
    have hnum : m.pushed + 1 - k = m.pushed - k + 1 := by
      have := hm.le
      omega
    have hlast : k + (m.pushed - k) = m.pushed := Nat.add_sub_cancel' hm.le
    change (m.vecTaskList ++ [_]).map Entry.serial = List.range' k (m.pushed + 1 - k)
    rw [List.map_append, hm.list, hnum, List.range'_1_concat, hlast]
    rfl
  taken := hm.taken

/-- The first task of the list is taken. -/
theorem Pool.InTurn.dispatch (hm : m.InTurn k) {t : Nat} {e : Entry} {rest : List Entry}
    (junk : List Nat) (hwoken : m.worker t = .woken) (hlist : m.vecTaskList = e :: rest) :
    ({ m.moveToBusy t junk with vecTaskList := rest }.setWorker t (.holding e)).InTurn (k + 1) := by
  have hserials := hm.list
  rw [hlist, List.map_cons] at hserials
  cases hnum : m.pushed - k with
  | zero =>
      rw [hnum] at hserials
      cases hserials
  | succ left =>
      rw [hnum, List.range'_succ] at hserials
      obtain ⟨hserial, hrest⟩ := List.cons.inj hserials
      refine ⟨show k + 1 ≤ m.pushed by omega, ?_, fun j => ?_⟩
      · have hleft : m.pushed - (k + 1) = left := by omega
        change rest.map Entry.serial = List.range' (k + 1) (m.pushed - (k + 1))
        rw [hleft, hrest]
      · rw [Nat.lt_succ_iff_lt_or_eq, ← hm.taken j]
        constructor
        · rintro (⟨u, d, hu, hd⟩ | hrun)
          · change Function.update m.worker t (.holding e) u = .holding d at hu
            by_cases hut : u = t
            · subst hut
              rw [Function.update_self] at hu
              cases hu
              exact .inr (hd.symm.trans hserial)
            · rw [Function.update_of_ne hut] at hu
              exact .inl (.inl ⟨u, d, hu, hd⟩)
          · exact .inl (.inr hrun)
        · rintro ((⟨u, d, hu, hd⟩ | hrun) | rfl)
          · have hut : u ≠ t := by
              rintro rfl
              cases hwoken.symm.trans hu
            exact .inl ⟨u, d, (Function.update_of_ne hut _ _).trans hu, hd⟩
          · exact .inr hrun
          · exact .inl ⟨t, e, Function.update_self _ _ _, hserial⟩

/-- A task that was taken is run. -/
theorem Pool.InTurn.run (hm : m.InTurn k) {t : Nat} {e : Entry}
    (hholds : m.worker t = .holding e) :
    ({ m with runs := m.runs ++ [e] }.setWorker t (.running e)).InTurn k := by
  refine ⟨hm.le, hm.list, fun j => ?_⟩
  rw [← hm.taken j]
  constructor
  · rintro (⟨u, d, hu, hd⟩ | ⟨d, hmem, hd⟩)
    · change Function.update m.worker t (.running e) u = .holding d at hu
      have hut : u ≠ t := by
        rintro rfl
        rw [Function.update_self] at hu
        cases hu
      rw [Function.update_of_ne hut] at hu
      exact .inl ⟨u, d, hu, hd⟩
    · obtain hmem | hmem := List.mem_append.mp hmem
      · exact .inr ⟨d, hmem, hd⟩
      · obtain rfl := List.mem_singleton.mp hmem
        exact .inl ⟨t, d, hholds, hd⟩
  · rintro (⟨u, d, hu, hd⟩ | ⟨d, hmem, hd⟩)
    · by_cases hut : u = t
      · subst hut
        obtain rfl := Worker.holding.inj (hholds.symm.trans hu)
        exact .inr ⟨e, List.mem_append_right _ (List.mem_singleton_self e), hd⟩
      · exact .inl ⟨u, d, (Function.update_of_ne hut _ _).trans hu, hd⟩
    · exact .inr ⟨d, List.mem_append_left _ hmem, hd⟩

theorem Moves.inTurn (h : Moves m l m') (hs : m.Serving) (hm : m.InTurn k) :
    ∃ k', m'.InTurn k' := by
  cases h with
  | create hmain habsent =>
      exact ⟨k, hm.congr rfl rfl rfl (holding_setWorker (by simp [habsent]) (by simp))⟩
  | @addTask task t hready hwaits =>
      exact ⟨k, (hm.push task).congr rfl rfl rfl
        (holding_setWorker (by simp [Pool.push, hwaits]) (by simp))⟩
  | addTaskLost => exact ⟨k, hm.push _⟩
  | spurious hwaits =>
      exact ⟨k, hm.congr rfl rfl rfl (holding_setWorker (by simp [hwaits]) (by simp))⟩
  | lock hlock =>
      exact ⟨k, hm.congr rfl rfl rfl (holding_setWorker (by simp [hlock]) (by simp))⟩
  | dispatch junk hwoken hlist => exact ⟨k + 1, hm.dispatch junk hwoken hlist⟩
  | run hholds => exact ⟨k, hm.run hholds⟩
  | finish hruns =>
      exact ⟨k, hm.congr rfl rfl rfl (holding_setWorker (by simp [hruns]) (by simp))⟩
  | cancelWait hcancelled | die hcancelled | cancelRun hcancelled =>
      cases (hs.2 _).symm.trans hcancelled
  | _ => exact ⟨k, hm.congr rfl rfl rfl fun _ _ => Iff.rfl⟩

end Order

/-- As long as `StopAll` is not called, the tasks are taken in the order in which
they were added, each one once and none passed over. -/
theorem inTurn_of_reaches {n : Nat} {m : Pool}
    (h : Reaches Pool.step (fun _ l => l ≠ .stopAll) (construct n) m) :
    (∃ k ≤ m.pushed, m.vecTaskList.map Entry.serial = List.range' k (m.pushed - k) ∧
      ∀ j, m.Taken j ↔ j < k) ∧ ∀ e, m.copies e ≤ 1 := by
  have hm : m.Serving ∧ ∃ k, m.InTurn k := by
    refine h.invariant (P := fun m => m.Serving ∧ ∃ k, m.InTurn k) ?_ ?_
    · refine ⟨serving_construct n, 0, le_rfl, rfl, fun j => ⟨?_, fun hj => absurd hj (by simp)⟩⟩
      rintro (⟨t, e, ht, -⟩ | ⟨e, hmem, -⟩)
      · cases ht
      · cases hmem
    · rintro m m' l - ⟨hs, k, hk⟩ hl hstep
      exact ⟨(moves_of_step hstep).serving hl hs, (moves_of_step hstep).inTurn hs hk⟩
  obtain ⟨-, k, hk⟩ := hm
  refine ⟨⟨k, hk.le, hk.list, hk.taken⟩, fun e => ?_⟩
  have hle := unique_of_reachable h.reachable e
  split at hle <;> omega

theorem inTurn_threeAtOnce : ∃ m, Reaches Pool.step (fun _ l => l ≠ .stopAll) (construct 2) m ∧
    m.vecTaskList.map Entry.serial = [2] ∧ m.Taken 1 ∧ ¬ m.Taken 2 := by
  obtain ⟨m, hrun, hpushed, hserials⟩ :
      ∃ m, replay Pool.step threeAtOnce (construct 2) = some m ∧ m.pushed = 3 ∧
        m.vecTaskList.map Entry.serial = [2] := exists_of_replay_any (by decide +kernel)
  have hm : Reaches Pool.step (fun _ l => l ≠ .stopAll) (construct 2) m :=
    .of_replay (fun l hl _ => by rintro rfl; simp [threeAtOnce] at hl) hrun
  obtain ⟨⟨k, hk, hlist, htaken⟩, -⟩ := inTurn_of_reaches hm
  obtain rfl : k = 2 := by
    rw [hserials, hpushed] at hlist
    have hlen := congrArg List.length hlist
    simp only [List.length_singleton, List.length_range'] at hlen
    omega
  exact ⟨m, hm, hserials, (htaken 1).mpr (by decide), fun h => absurd ((htaken 2).mp h) (by decide)⟩

end LinuxDevelopment.ThreadPool
