import LinuxDevelopment.Base.History
import LinuxDevelopment.Globalfifo.Turn

/-!
# globalfifo: calls that end

A task outside the driver has left nothing behind in it: it holds no mutex,
stands on no wait queue and is runnable. Inside, the holder of the mutex is
never blocked and gives the mutex up within four turns of its own, in whatever
order the tasks run. A call that does not block, or whose task has a signal it
gives up for, returns after at most six turns of its own; between them it waits
for nothing but the mutex.
-/

namespace LinuxDevelopment.Globalfifo

section Tidy

/-- The task is in its critical section. -/
def Pc.Holds : Pc → Prop
  | .user => False
  | .inside _ p => p.Holding

/-- The task is in a call that has put it on the wait queue of a side. -/
def Pc.Waits (side : Side) : Pc → Prop
  | .user => False
  | .inside c p => c.request.side = some side ∧ p ≠ .entry

/-- The mutex, the places on the wait queues and the sleep states belong to
calls under way. -/
structure Machine.Tidy (m : Machine) : Prop where
  holder : ∀ t, m.mutex = some t → (m.pc t).Holds
  queued : ∀ t side, t ∈ m.wait side ↔ (m.pc t).Waits side
  once : ∀ side, (m.wait side).Nodup
  asleep : ∀ t, m.state t ≠ .running → ∃ side, m.Asleep side t

variable {m n : Machine} {t u : Nat} {c : Call} {p : Point} {side : Side}

theorem Turn.holder (h : Turn m t c p n) (hm : m.Tidy) (hpc : m.pc t = .inside c p)
    (hmutex : n.mutex = some t) : (n.pc t).Holds := by
  have hold : m.mutex = some t → p.Holding := by
    intro hown
    have := hm.holder t hown
    rwa [hpc] at this
  cases h with
  | unlock | out => cases hmutex
  | scheduled | interrupted | retry | badCommand | leaveQueue | leave => exact (hold hmutex).elim
  | _ =>
      rw [Machine.pc_goto]
      trivial

theorem Turn.queued (h : Turn m t c p n) (hm : m.Tidy) (hpc : m.pc t = .inside c p) :
    t ∈ n.wait side ↔ (n.pc t).Waits side := by
  have hold : t ∈ m.wait side ↔ c.request.side = some side ∧ p ≠ .entry := by
    rw [hm.queued, hpc]
    rfl
  have hat : ∀ (k : Machine) (q : Point),
      ((k.goto t c q).pc t).Waits side ↔ c.request.side = some side ∧ q ≠ .entry := by
    intro k q
    rw [Machine.pc_goto]
    rfl
  have hgone : ∀ k : Machine, ¬ ((k.leave t).pc t).Waits side := by
    intro k
    rw [Machine.pc_leave]
    exact id
  cases h with
  | enter hside hfree =>
      rename_i s
      rw [hat]
      by_cases hs : side = s
      · subst hs
        simp [Machine.goto, Machine.addWaitQueue, hside]
      · have hne : c.request.side ≠ some side := fun h =>
          hs (Option.some.inj (h.symm.trans hside))
        simp [Machine.goto, Machine.addWaitQueue, Machine.lock, hs, hold, hne]
  | leaveQueue hside =>
      rename_i s r
      refine iff_of_false ?_ (hgone _)
      by_cases hs : side = s
      · subst hs
        simpa [Machine.leave, Machine.setState, Machine.removeWaitQueue] using
          List.Nodup.not_mem_erase (hm.once side)
      · have hne : c.request.side ≠ some side := fun h =>
          hs (Option.some.inj (h.symm.trans hside))
        simp [Machine.leave, Machine.setState, Machine.removeWaitQueue, hs, hold, hne]
  | leave hside =>
      refine iff_of_false ?_ (hgone _)
      rw [hside] at hold
      intro hmem
      cases (hold.mp hmem).1
  | lockBody hside | badCommand hside =>
      rw [hat, hside]
      rw [hside] at hold
      exact hold.trans (by simp)
  | _ =>
      rw [hat]
      exact hold.trans (by simp)

theorem Turn.asleep (h : Turn m t c p n) (hm : m.Tidy) (hpc : m.pc t = .inside c p)
    (hstate : n.state t ≠ .running) : ∃ side, n.Asleep side t := by
  have hold : m.state t ≠ .running →
      ∃ side, c.request.side = some side ∧ (p = .unlock ∨ p = .schedule) ∧
        m.state t = side.sleepState := by
    intro hne
    obtain ⟨side, d, q, hd, hside, hq, hs⟩ := hm.asleep t hne
    obtain ⟨rfl, rfl⟩ := Pc.inside.inj (hpc.symm.trans hd)
    exact ⟨side, hside, hq, hs⟩
  cases h with
  | sleep hside =>
      exact ⟨_, c, .unlock, Function.update_self _ _ _, hside, .inl rfl,
        Function.update_self _ _ _⟩
  | unlock =>
      obtain ⟨side, hside, -, hs⟩ := hold hstate
      exact ⟨side, c, .schedule, Function.update_self _ _ _, hside, .inr rfl, hs⟩
  | scheduled | leaveQueue => exact absurd (Function.update_self _ _ _) hstate
  | wakeUp hside =>
      rename_i s r
      have hrun : m.state t = .running := by
        by_contra hne
        obtain ⟨-, -, hp | hp, -⟩ := hold hne <;> cases hp
      refine absurd ?_ hstate
      simp [Machine.goto, Machine.wakeUpInterruptible, hrun]
  | _ =>
      obtain ⟨-, -, hp | hp, -⟩ := hold hstate <;> cases hp

theorem Turn.once (h : Turn m t c p n) (hm : m.Tidy) (hpc : m.pc t = .inside c p) :
    (n.wait side).Nodup := by
  cases h with
  | enter hside hfree =>
      rename_i s
      by_cases hs : side = s
      · subst hs
        have hnot : t ∉ m.wait side := by
          rw [hm.queued, hpc]
          exact fun hw => hw.2 rfl
        simpa [Machine.goto, Machine.addWaitQueue, Machine.lock, hnot] using hm.once side
      · simpa [Machine.goto, Machine.addWaitQueue, Machine.lock, hs] using hm.once side
  | leaveQueue hside =>
      rename_i s r
      by_cases hs : side = s
      · subst hs
        simpa [Machine.leave, Machine.setState, Machine.removeWaitQueue] using
          (hm.once side).erase t
      · simpa [Machine.leave, Machine.setState, Machine.removeWaitQueue, hs] using hm.once side
  | _ => exact hm.once side

/-- A turn moves only its own task on the wait queues. -/
theorem Turn.mem_wait_of_ne (h : Turn m t c p n) (hu : u ≠ t) :
    u ∈ n.wait side ↔ u ∈ m.wait side := by
  cases h with
  | enter hside hfree =>
      rename_i s
      by_cases hs : side = s
      · subst hs
        simp [Machine.goto, Machine.addWaitQueue, Machine.lock, hu]
      · simp [Machine.goto, Machine.addWaitQueue, Machine.lock, hs]
  | leaveQueue hside =>
      rename_i s r
      by_cases hs : side = s
      · subst hs
        simp [Machine.leave, Machine.setState, Machine.removeWaitQueue, List.mem_erase_of_ne hu]
      · simp [Machine.leave, Machine.setState, Machine.removeWaitQueue, hs]
  | _ => exact Iff.rfl

variable {l : Label}

/-- What a step does to the waiting and sleeping of its own task. -/
theorem Machine.Tidy.own (hm : m.Tidy) (h : m.act l = some n) :
    (n.mutex = some l.task → (n.pc l.task).Holds) ∧
      (∀ side, l.task ∈ n.wait side ↔ (n.pc l.task).Waits side) ∧
      (n.state l.task ≠ .running → ∃ side, n.Asleep side l.task) := by
  obtain ⟨c, -, hpc, rfl⟩ | ⟨c, p, hpc, hturn, -⟩ | ⟨fatal, -, rfl⟩ | ⟨-, -, rfl⟩ := cases_of_act h
  · refine ⟨fun hown => ?_, fun side => ?_, fun hstate => ?_⟩
    · have := hm.holder _ hown
      rw [hpc] at this
      exact this.elim
    · refine iff_of_false (fun hmem => ?_) ?_
      · have := (hm.queued _ side).mp hmem
        rwa [hpc] at this
      · rw [Machine.pc_goto]
        exact fun hw => hw.2 rfl
    · obtain ⟨_, _, _, hin, -⟩ := hm.asleep _ hstate
      cases hpc.symm.trans hin
  · exact ⟨hturn.holder hm hpc, fun side => hturn.queued hm hpc, hturn.asleep hm hpc⟩
  · refine ⟨hm.holder _, hm.queued _, fun hstate => ?_⟩
    simp only [Machine.signal, Function.update_self, ne_eq] at hstate
    split at hstate
    · exact absurd rfl hstate
    · rename_i hkeep
      obtain ⟨side, d, q, hd, hside, hq, hs⟩ := hm.asleep _ hstate
      refine ⟨side, d, q, hd, hside, hq, ?_⟩
      simp only [Machine.signal, Function.update_self]
      exact (if_neg hkeep).trans hs
  · exact ⟨hm.holder _, hm.queued _, hm.asleep _⟩

theorem Machine.Tidy.act (hm : m.Tidy) (hex : m.Exclusive) (h : m.act l = some n) : n.Tidy := by
  have hmoves := moves_of_act h
  obtain ⟨hholder, hqueued, hasleep⟩ := hm.own h
  have hwait : (∀ side, (n.wait side).Nodup) ∧
      ∀ u side, u ≠ l.task → (u ∈ n.wait side ↔ u ∈ m.wait side) := by
    obtain ⟨c, -, -, rfl⟩ | ⟨c, p, hpc, hturn, -⟩ | ⟨fatal, -, rfl⟩ | ⟨-, -, rfl⟩ :=
      cases_of_act h
    · exact ⟨hm.once, fun _ _ _ => Iff.rfl⟩
    · exact ⟨fun side => hturn.once hm hpc, fun u side hu => hturn.mem_wait_of_ne hu⟩
    · exact ⟨hm.once, fun _ _ _ => Iff.rfl⟩
    · exact ⟨hm.once, fun _ _ _ => Iff.rfl⟩
  refine ⟨fun u hu => ?_, fun u side => ?_, hwait.1, fun u hu => ?_⟩
  · by_cases hut : u = l.task
    · subst hut
      exact hholder hu
    · rw [hmoves.pc_of_ne hut]
      refine hm.holder u ?_
      obtain hsame | ⟨-, hsome⟩ | ⟨-, hnone⟩ := hmoves.mutex_eq hex
      · exact hsame.symm.trans hu
      · exact absurd (Option.some.inj (hu.symm.trans hsome)) hut
      · cases hnone.symm.trans hu
  · by_cases hut : u = l.task
    · subst hut
      exact hqueued side
    · rw [hwait.2 u side hut, hmoves.pc_of_ne hut]
      exact hm.queued u side
  · by_cases hut : u = l.task
    · subst hut
      exact hasleep hu
    · obtain hsame | hrun := hmoves.state_of_ne hut
      · obtain ⟨side, d, q, hd, hside, hq, hs⟩ := hm.asleep u (hsame ▸ hu)
        exact ⟨side, d, q, (hmoves.pc_of_ne hut).trans hd, hside, hq, hsame.trans hs⟩
      · exact absurd hrun hu

theorem tidy_of_reachable (h : Reachable Machine.step globalfifoProbe m) : m.Tidy := by
  refine Reaches.invariant h ?_ ?_
  · refine ⟨?_, ?_, ?_, ?_⟩
    · intro t ht
      cases ht
    · intro t side
      exact iff_of_false List.not_mem_nil id
    · intro side
      exact List.nodup_nil
    · intro t ht
      exact absurd rfl ht
  · intro m m' l hrun hm _ hstep
    obtain ⟨n, hn, rfl⟩ := Option.map_eq_some_iff.mp hstep
    have hn' := hm.act (exclusive_of_reachable hrun) hn
    exact ⟨hn'.holder, hn'.queued, hn'.once, hn'.asleep⟩

end Tidy

/-- In every reachable state the mutex belongs to a task exactly while this is in
its critical section; a read or a write has its task on the wait queue of its side,
once, from `add_wait_queue` to `remove_wait_queue`, that is at all its points but the
entry; and only a task on its way through `schedule` is in a sleep state. What a call
has taken it has given back when it returns. The entries that `poll_wait` makes belong
to the caller of `globalfifo_poll` and do not count here. -/
theorem resources_of_reachable {m : Machine} (h : Reachable Machine.step globalfifoProbe m) :
    (∀ t, m.mutex = some t ↔ (m.pc t).Holds) ∧
      (∀ t side, t ∈ m.wait side ↔ (m.pc t).Waits side) ∧ (∀ side, (m.wait side).Nodup) ∧
      ∀ t, m.state t ≠ .running → ∃ side, m.Asleep side t := by
  have hm := tidy_of_reachable h
  refine ⟨fun t => ⟨hm.holder t, fun hat => ?_⟩, hm.queued, hm.once, hm.asleep⟩
  cases hpc : m.pc t with
  | user =>
      rw [hpc] at hat
      exact hat.elim
  | inside c p =>
      rw [hpc] at hat
      exact exclusive_of_reachable h t c p hpc hat

theorem resources_readThenReturn :
    ∃ m, replay Machine.step (.call 0 ⟨.read 1, true⟩ :: List.replicate 4 (.go 0))
      globalfifoProbe = some m ∧ m.pc 0 = .user ∧ m.mutex ≠ some 0 ∧ 0 ∉ m.wait .reader := by
  have hrun : ∃ m, replay Machine.step (.call 0 ⟨.read 1, true⟩ :: List.replicate 4 (.go 0))
      globalfifoProbe = some m ∧ m.pc 0 = .user := ⟨_, rfl, rfl⟩
  obtain ⟨m, hrun, hpc⟩ := hrun
  obtain ⟨hmutex, hwait, -⟩ := resources_of_reachable (Reachable.of_replay hrun)
  refine ⟨m, hrun, hpc, ?_, ?_⟩
  · rw [Ne, hmutex, hpc]
    exact id
  · rw [hwait, hpc]
    exact id

section Enabled

variable {m n : Machine} {t : Nat} {c : Call} {p : Point} {side : Side}

theorem exists_step_of_go (h : ∃ n, m.go t = some n) : ∃ n, m.step (.go t) = some n := by
  obtain ⟨n, hn⟩ := h
  exact ⟨m.observe t n, congrArg (Option.map (m.observe t)) hn⟩

/-- The next step of a read or a write is one of the text they share. -/
theorem exists_step_of_transfer (hpc : m.pc t = .inside c p) (hside : c.request.side = some side)
    (h : ∀ copy, ∃ n, m.transfer t side c copy p = some n) : ∃ n, m.step (.go t) = some n := by
  apply exists_step_of_go
  cases hreq : c.request with
  | read count =>
      rw [hreq] at hside
      obtain rfl := Option.some.inj hside
      simpa only [Machine.go, hpc, hreq, Machine.globalfifoRead] using h _
  | write buf count =>
      rw [hreq] at hside
      obtain rfl := Option.some.inj hside
      simpa only [Machine.go, hpc, hreq, Machine.globalfifoWrite] using h _
  | ioctl cmd => cases (congrArg Request.side hreq).symm.trans hside
  | poll => cases (congrArg Request.side hreq).symm.trans hside

/-- A call without a wait queue is only ever held up by the mutex. -/
theorem exists_step_of_side_none (hpc : m.pc t = .inside c p) (hp : c.Visits p)
    (hside : c.request.side = none) :
    (∃ n, m.step (.go t) = some n) ∨ (m.mutex ≠ none ∧ ¬ p.Holding) := by
  have hnot : ¬ ∃ s, c.request.side = some s := by
    rintro ⟨s, hs⟩
    cases hside.symm.trans hs
  have hgo : (∃ n, m.go t = some n) → ∃ n, m.step (.go t) = some n := exists_step_of_go
  cases hreq : c.request with
  | read count | write buf count => cases (congrArg Request.side hreq).symm.trans hside
  | poll =>
      simp only [Machine.go, hpc, hreq] at hgo
      cases p with
      | entry =>
          by_cases hfree : m.mutex = none
          · exact .inl (hgo ⟨_, if_pos hfree⟩)
          · exact .inr ⟨hfree, id⟩
      | body | out | out2 => exact .inl (hgo ⟨_, rfl⟩)
      | loop | wakeUp => exact absurd hp hnot
      | _ => exact absurd hp.1 hnot
  | ioctl cmd =>
      simp only [Machine.go, hpc, hreq] at hgo
      unfold Machine.globalfifoIoctl at hgo
      by_cases hcmd : cmd = fifoClear
      · simp only [if_pos hcmd] at hgo
        cases p with
        | entry =>
            by_cases hfree : m.mutex = none
            · exact .inl (hgo ⟨_, if_pos hfree⟩)
            · exact .inr ⟨hfree, id⟩
        | body | out | out2 => exact .inl (hgo ⟨_, rfl⟩)
        | loop | wakeUp => exact absurd hp hnot
        | _ => exact absurd hp.1 hnot
      · simp only [if_neg hcmd] at hgo
        have hlocks : c.request.locks ≠ true := by
          rw [hreq]
          exact fun h => hcmd (eq_of_beq h)
        cases p with
        | entry | out2 => exact .inl (hgo ⟨_, rfl⟩)
        | body | out => exact absurd hp hlocks
        | loop | wakeUp => exact absurd hp hnot
        | _ => exact absurd hp.1 hnot

/-- A task in a call can take a turn, unless it waits for the mutex or sleeps. -/
theorem exists_step_or (hpc : m.pc t = .inside c p) (hp : c.Visits p) :
    (∃ n, m.step (.go t) = some n) ∨ (m.mutex ≠ none ∧ ¬ p.Holding) ∨
      (p = .schedule ∧ m.runnable t = false) := by
  cases hside : c.request.side with
  | some side =>
      have hgo : (∀ copy, ∃ n, m.transfer t side c copy p = some n) →
          ∃ n, m.step (.go t) = some n := exists_step_of_transfer hpc hside
      cases p with
      | entry | relock =>
          by_cases hfree : m.mutex = none
          · exact .inl (hgo fun copy => ⟨_, if_pos hfree⟩)
          · exact .inr (.inl ⟨hfree, id⟩)
      | loop =>
          refine .inl (hgo fun copy => ?_)
          simp only [Machine.transfer]
          split_ifs <;> exact ⟨_, rfl⟩
      | schedule =>
          by_cases hrun : m.runnable t = true
          · exact .inl (hgo fun copy => ⟨_, if_pos hrun⟩)
          · exact .inr (.inr ⟨rfl, Bool.eq_false_iff.mpr hrun⟩)
      | signals =>
          refine .inl (hgo fun copy => ?_)
          simp only [Machine.transfer]
          split_ifs <;> exact ⟨_, rfl⟩
      | _ => exact .inl (hgo fun copy => ⟨_, rfl⟩)
  | none =>
      obtain hstep | hmutex := exists_step_of_side_none hpc hp hside
      · exact .inl hstep
      · exact .inr (.inl hmutex)

end Enabled

section Turns

/-- The turns of a task in a schedule. -/
def turns (t : Nat) (ks : List Label) : Nat := ks.countP (Label.isTurn t)

theorem turns_append (t : Nat) (ks : List Label) (l : Label) :
    turns t (ks ++ [l]) = turns t ks + if l.isTurn t then 1 else 0 := by
  simp [turns, List.countP_append, List.countP_singleton]

variable {m n : Machine} {t : Nat} {c : Call} {p : Point} {l : Label}

/-- A step is a turn of the task, a call of it, or leaves its point alone. -/
theorem turn_or_pc (h : m.act l = some n) (t : Nat) :
    (l.isTurn t = true ∧ l.task = t ∧ ∃ c p, m.pc t = .inside c p ∧ Turn m t c p n) ∨
      (l.isTurn t = false ∧ ((∃ c, l = .call t c ∧ m.pc t = .user) ∨ n.pc t = m.pc t)) := by
  by_cases ht : l.task = t
  · subst ht
    obtain ⟨c, hl, hpc, -⟩ | ⟨c, p, hpc, hturn, hl⟩ | ⟨fatal, hl, rfl⟩ | ⟨hl, -, rfl⟩ :=
      cases_of_act h
    · exact .inr ⟨by rw [hl]; rfl, .inl ⟨c, hl, hpc⟩⟩
    · exact .inl ⟨hl, rfl, c, p, hpc, hturn⟩
    · exact .inr ⟨by rw [hl]; rfl, .inr rfl⟩
    · exact .inr ⟨by rw [hl]; rfl, .inr rfl⟩
  · have hnot : l.isTurn t = false := by
      cases l <;> first | rfl | exact beq_false_of_ne ht
    exact .inr ⟨hnot, .inr ((moves_of_act h).pc_of_ne (Ne.symm ht))⟩

end Turns

section Holder

variable {m n : Machine} {t : Nat} {c : Call} {p : Point}

/-- The turns a task at this point can still take with the mutex. -/
def Point.holdRank : Point → Nat
  | .loop => 4
  | .body => 3
  | .wakeUp _ => 2
  | .unlock => 1
  | .out _ => 1
  | _ => 0

theorem Point.holdRank_pos (h : p.Holding) : 0 < p.holdRank := by
  cases p <;> first | exact h.elim | simp [Point.holdRank]

/-- A turn with the mutex gives it up or comes closer to it. -/
theorem Turn.holdRank (h : Turn m t c p n) (hp : p.Holding) (hmutex : m.mutex = some t) :
    n.mutex = none ∨ (n.mutex = some t ∧
      ∃ q, n.pc t = .inside c q ∧ q.Holding ∧ q.holdRank < p.holdRank) := by
  cases h with
  | unlock | out => exact .inl rfl
  | enter | scheduled | interrupted | retry | relock | lockBody | badCommand | leaveQueue
  | leave => exact hp.elim
  | _ => exact .inr ⟨hmutex, _, Machine.pc_goto _ _ _ _, trivial, by simp [Point.holdRank]⟩

/-- Another task's step, or a signal, leaves the mutex with its holder. -/
theorem mutex_of_not_turn {l : Label} (hex : m.Exclusive) (h : m.act l = some n)
    (hl : l.isTurn t = false) (hpc : m.pc t = .inside c p) (hmutex : m.mutex = some t) :
    n.mutex = some t := by
  obtain hsame | ⟨hnone, -⟩ | ⟨hown, hfree⟩ := (moves_of_act h).mutex_eq hex
  · exact hsame.trans hmutex
  · cases hnone.symm.trans hmutex
  · obtain rfl : t = l.task := Option.some.inj (hmutex.symm.trans hown)
    obtain ⟨-, -, huser, -⟩ | ⟨-, -, -, -, hturn⟩ | ⟨fatal, -, rfl⟩ | ⟨-, -, rfl⟩ :=
      cases_of_act h
    · cases huser.symm.trans hpc
    · cases hl.symm.trans hturn
    · exact hmutex
    · exact hmutex

/-- As long as the mutex has not been free, its holder has taken fewer turns
than its point allows. -/
theorem releases_or_holds {u : Nat} {ks : List Label}
    (h : Reachable Machine.step globalfifoProbe m) (hu : m.mutex = some u)
    (hrun : replay Machine.step ks m = some n) :
    (∃ ls k, ls <+: ks ∧ replay Machine.step ls m = some k ∧ k.mutex = none) ∨
      (n.mutex = some u ∧
        ∃ c p, n.pc u = .inside c p ∧ p.Holding ∧ turns u ks + p.holdRank ≤ 4) := by
  refine replay_invariant (P := fun ks n =>
    (∃ ls k, ls <+: ks ∧ replay Machine.step ls m = some k ∧ k.mutex = none) ∨
      (n.mutex = some u ∧
        ∃ c p, n.pc u = .inside c p ∧ p.Holding ∧ turns u ks + p.holdRank ≤ 4)) hrun ?_ ?_
  · have hat := (tidy_of_reachable h).holder u hu
    cases hpc : m.pc u with
    | user =>
        rw [hpc] at hat
        exact hat.elim
    | inside c p =>
        rw [hpc] at hat
        refine .inr ⟨hu, c, p, rfl, hat, ?_⟩
        cases p <;> simp [turns, Point.holdRank]
  · intro ks n n' l hrun hn hstep
    have hreach : Reachable Machine.step globalfifoProbe n :=
      Reaches.trans h (Reachable.of_replay hrun)
    have hnext := replay_snoc hrun hstep
    obtain ⟨ls, k, hls, hk⟩ | ⟨hmutex, c, p, hpc, hp, hle⟩ := hn
    · exact .inl ⟨ls, k, hls.trans (List.prefix_append _ _), hk⟩
    · obtain ⟨k, hk, rfl⟩ := Option.map_eq_some_iff.mp hstep
      rw [turns_append]
      obtain ⟨hl, -, d, q, hd, hturn⟩ | ⟨hl, hsame⟩ := turn_or_pc hk u
      · obtain ⟨rfl, rfl⟩ := Pc.inside.inj (hpc.symm.trans hd)
        obtain hfree | ⟨hown, r, hr, hhold, hlt⟩ := hturn.holdRank hp hmutex
        · exact .inl ⟨_, _, List.prefix_refl _, hnext, hfree⟩
        · refine .inr ⟨hown, c, r, hr, hhold, ?_⟩
          rw [if_pos hl]
          omega
      · have hown := mutex_of_not_turn (exclusive_of_reachable hreach) hk hl hpc hmutex
        obtain ⟨-, -, huser⟩ | hsame := hsame
        · cases huser.symm.trans hpc
        · refine .inr ⟨hown, c, p, hsame.trans hpc, hp, ?_⟩
          simpa [hl] using hle

end Holder

/-- In every reachable state the holder of the mutex can take a turn, and in
every schedule in which it takes four turns the mutex becomes free. -/
theorem holder_releases_of_reachable {m : Machine} {u : Nat}
    (h : Reachable Machine.step globalfifoProbe m) (hu : m.mutex = some u) :
    (∃ n, m.step (.go u) = some n) ∧
      ∀ ks n, replay Machine.step ks m = some n → 4 ≤ turns u ks →
        ∃ ls k, ls <+: ks ∧ replay Machine.step ls m = some k ∧ k.mutex = none := by
  constructor
  · have hat := (tidy_of_reachable h).holder u hu
    cases hpc : m.pc u with
    | user =>
        rw [hpc] at hat
        exact hat.elim
    | inside c p =>
        rw [hpc] at hat
        obtain hstep | ⟨-, hnot⟩ | ⟨rfl, -⟩ :=
          exists_step_or hpc ((placed_of_reachable h).visits u c p hpc)
        · exact hstep
        · exact absurd hat hnot
        · exact hat.elim
  · intro ks n hrun hturns
    obtain hfree | ⟨-, c, p, -, hp, hle⟩ := releases_or_holds h hu hrun
    · exact hfree
    · have hpos := Point.holdRank_pos hp
      omega

/-- A reader has locked the empty device when a writer arrives. -/
def lockedByReader : List Label :=
  [.call 0 ⟨.read 1, false⟩, .go 0, .call 1 ⟨.write (fun _ => 7) 1, false⟩]

theorem holder_releases_lockedByReader :
    ∃ m n, replay Machine.step lockedByReader globalfifoProbe = some m ∧ m.mutex = some 0 ∧
      m.step (.go 0) = some n := by
  obtain ⟨m, hrun, hmutex⟩ :
      ∃ m, replay Machine.step lockedByReader globalfifoProbe = some m ∧ m.mutex = some 0 :=
    exists_of_replay_any (by decide +kernel)
  obtain ⟨⟨n, hn⟩, -⟩ := holder_releases_of_reachable (Reachable.of_replay hrun) hmutex
  exact ⟨m, n, hrun, hmutex, hn⟩

section Prompt

variable {m n : Machine} {t : Nat} {c : Call} {p : Point}

/-- The call has no reason to stay in the driver: it does not sleep at all, or
it does not block, or its task has a signal it gives up for. -/
def Machine.Prompt (m : Machine) (t : Nat) : Prop :=
  ∃ c p, m.pc t = .inside c p ∧
    ∀ side, c.request.side = some side → c.nonblock = true ∨ side.interrupted m t = true

/-- The turns such a call at this point can still take. -/
def Point.rank : Point → Nat
  | .entry => 6
  | .relock => 6
  | .loop => 5
  | .unlock => 4
  | .body => 4
  | .schedule => 3
  | .wakeUp _ => 3
  | .signals => 2
  | .out _ => 2
  | .out2 _ => 1

def Pc.rank : Pc → Nat
  | .user => 0
  | .inside _ p => p.rank

theorem Turn.interrupted_eq {side : Side} (h : Turn m t c p n) :
    side.interrupted n t = side.interrupted m t := by
  cases h <;> cases side <;> rfl

/-- A turn of a prompt call comes closer to its return: it does not go around
the loop again. -/
theorem Turn.rank (h : Turn m t c p n) (hp : c.Visits p)
    (hprompt : ∀ side, c.request.side = some side →
      c.nonblock = true ∨ side.interrupted m t = true) :
    (n.Prompt t ∨ n.pc t = .user) ∧ (n.pc t).rank < p.rank := by
  have hkeep : ∀ q, n.pc t = .inside c q → n.Prompt t := by
    intro q hq
    refine ⟨c, q, hq, fun side hside => ?_⟩
    rw [h.interrupted_eq]
    exact hprompt side hside
  cases h with
  | retry hside hint =>
      obtain hnon | hyes := hprompt _ hside
      · cases hnon.symm.trans hp.2
      · cases hint.symm.trans hyes
  | leaveQueue | leave =>
      rw [Machine.pc_leave]
      exact ⟨.inr rfl, Nat.zero_lt_one⟩
  | _ =>
      refine ⟨.inl (hkeep _ (Machine.pc_goto _ _ _ _)), ?_⟩
      rw [Machine.pc_goto]
      simp [Pc.rank, Point.rank]

theorem Side.interrupted_of_ne {l : Label} {side : Side} (h : m.act l = some n)
    (ht : t ≠ l.task) : side.interrupted n t = side.interrupted m t := by
  cases moves_of_act h with
  | signal fatal => cases side <;> exact Function.update_of_ne ht _ _
  | handleSignals hpc =>
      cases side with
      | reader => rfl
      | writer => exact Function.update_of_ne ht _ _
  | _ => cases side <;> rfl

/-- A prompt call stays prompt until it returns, whatever the others do. -/
theorem Machine.Prompt.of_pc_eq {l : Label} (hm : m.Prompt t) (h : m.act l = some n)
    (hl : l.isTurn t = false) (hpc : n.pc t = m.pc t) : n.Prompt t := by
  obtain ⟨c, p, hin, hprompt⟩ := hm
  refine ⟨c, p, hpc.trans hin, fun side hside => ?_⟩
  obtain hnon | hint := hprompt side hside
  · exact .inl hnon
  · right
    by_cases ht : t = l.task
    · subst ht
      obtain ⟨-, -, huser, -⟩ | ⟨-, -, -, -, hturn⟩ | ⟨fatal, -, rfl⟩ | ⟨-, huser, -⟩ :=
        cases_of_act h
      · cases huser.symm.trans hin
      · cases hl.symm.trans hturn
      · cases side with
        | reader => simpa [Side.interrupted, Machine.signal] using .inl hint
        | writer => simp [Side.interrupted, Machine.signal]
      · cases huser.symm.trans hin
    · rw [Side.interrupted_of_ne h ht]
      exact hint

/-- A sleeping call that is interrupted is woken by its signal. -/
theorem runnable_of_interrupted {side : Side} (hm : m.Tidy) (hpc : m.pc t = .inside c p)
    (hside : c.request.side = some side) (hint : side.interrupted m t = true) :
    m.runnable t = true := by
  by_cases hrun : m.state t = .running
  · simp [Machine.runnable, hrun]
  · obtain ⟨s, d, q, hd, hs, -, hstate⟩ := hm.asleep t hrun
    obtain ⟨rfl, -⟩ := Pc.inside.inj (hpc.symm.trans hd)
    obtain rfl := Option.some.inj (hside.symm.trans hs)
    cases side <;>
      simpa [Machine.runnable, hstate, Side.sleepState, Side.interrupted] using hint

theorem Machine.Prompt.enabled (h : Reachable Machine.step globalfifoProbe m)
    (hm : m.Prompt t) : (∃ n, m.step (.go t) = some n) ∨ ∃ u, u ≠ t ∧ m.mutex = some u := by
  have htidy := tidy_of_reachable h
  obtain ⟨c, p, hpc, hprompt⟩ := hm
  have hp := (placed_of_reachable h).visits t c p hpc
  obtain hstep | ⟨hmutex, hnot⟩ | ⟨rfl, hsleep⟩ := exists_step_or hpc hp
  · exact .inl hstep
  · obtain ⟨u, hu⟩ := Option.ne_none_iff_exists'.mp hmutex
    refine .inr ⟨u, ?_, hu⟩
    rintro rfl
    have hat := htidy.holder u hu
    rw [hpc] at hat
    exact hnot hat
  · obtain ⟨⟨side, hside⟩, hnon⟩ := hp
    obtain hyes | hint := hprompt side hside
    · cases hnon.symm.trans hyes
    · cases hsleep.symm.trans (runnable_of_interrupted htidy hpc hside hint)

/-- Each turn of a prompt call is paid for by its rank, in every schedule up to
the next call of the task. -/
theorem Machine.Prompt.turns_le {ks : List Label} (h : Reachable Machine.step globalfifoProbe m)
    (hm : m.Prompt t) (hrun : replay Machine.step ks m = some n) (hks : ∀ c, .call t c ∉ ks) :
    (n.Prompt t ∨ n.pc t = .user) ∧ turns t ks + (n.pc t).rank ≤ (m.pc t).rank := by
  revert hks
  refine replay_invariant (P := fun ks n => (∀ c, .call t c ∉ ks) →
    (n.Prompt t ∨ n.pc t = .user) ∧ turns t ks + (n.pc t).rank ≤ (m.pc t).rank) hrun ?_ ?_
  · intro _
    exact ⟨.inl hm, by simp [turns]⟩
  · intro ks n n' l hrun hn hstep hks
    have hreach : Reachable Machine.step globalfifoProbe n :=
      Reaches.trans h (Reachable.of_replay hrun)
    obtain ⟨hprompt, hle⟩ := hn fun c hc => hks c (List.mem_append_left _ hc)
    obtain ⟨k, hk, rfl⟩ := Option.map_eq_some_iff.mp hstep
    rw [turns_append]
    change (k.Prompt t ∨ k.pc t = .user) ∧ _ + (k.pc t).rank ≤ _
    obtain ⟨hl, -, c, p, hpc, hturn⟩ | ⟨hl, hcall | hsame⟩ := turn_or_pc hk t
    · have hp := (placed_of_reachable hreach).visits t c p hpc
      obtain ⟨d, q, hd, hside⟩ | huser := hprompt
      · obtain ⟨rfl, rfl⟩ := Pc.inside.inj (hpc.symm.trans hd)
        obtain ⟨hk', hlt⟩ := hturn.rank hp hside
        rw [hpc, Pc.rank] at hle
        refine ⟨hk', ?_⟩
        rw [if_pos hl]
        omega
      · cases huser.symm.trans hpc
    · obtain ⟨c, rfl, -⟩ := hcall
      exact absurd (List.mem_append_right ks (List.mem_singleton_self _)) (hks c)
    · rw [hsame, hl]
      refine ⟨?_, hle⟩
      obtain hprompt | huser := hprompt
      · exact .inl (hprompt.of_pc_eq hk hl hsame)
      · exact .inr huser

end Prompt

/-- A call that does not block, or whose task has a signal it gives up for,
waits for nothing but the mutex, and in every schedule it has returned after six
turns at the latest. -/
theorem prompt_returns_of_reachable {m : Machine} {t : Nat}
    (h : Reachable Machine.step globalfifoProbe m) (ht : m.Prompt t) :
    ((∃ n, m.step (.go t) = some n) ∨ ∃ u, u ≠ t ∧ m.mutex = some u) ∧
      ∀ ks n, replay Machine.step ks m = some n → (∀ c, .call t c ∉ ks) →
        turns t ks ≤ 6 ∧ (n.pc t = .user ∨ (n.Prompt t ∧ turns t ks < 6)) := by
  refine ⟨ht.enabled h, fun ks n hrun hks => ?_⟩
  obtain ⟨hn, hle⟩ := ht.turns_le h hrun hks
  have hsix : (m.pc t).rank ≤ 6 := by
    cases m.pc t with
    | user => exact Nat.zero_le _
    | inside c p => cases p <;> simp [Pc.rank, Point.rank]
  refine ⟨by omega, ?_⟩
  obtain hprompt | huser := hn
  · refine .inr ⟨hprompt, ?_⟩
    obtain ⟨c, p, hpc, -⟩ := hprompt
    have hpos : 0 < (n.pc t).rank := by
      rw [hpc]
      cases p <;> simp [Pc.rank, Point.rank]
    omega
  · exact .inl huser

/-- A reader sleeps on the empty device and is killed while another task has
the mutex. -/
def killedInItsSleep : List Label :=
  .call 0 ⟨.read 1, false⟩ :: List.replicate 3 (.go 0) ++
    [.call 1 ⟨.poll, false⟩, .go 1, .signal 0 true]

theorem prompt_returns_killedInItsSleep :
    ∃ m, replay Machine.step killedInItsSleep globalfifoProbe = some m ∧ m.mutex = some 1 ∧
      m.Prompt 0 ∧ ∀ ks n, replay Machine.step ks m = some n → (∀ c, .call 0 c ∉ ks) →
        turns 0 ks ≤ 6 := by
  have hprompt : ∃ m, replay Machine.step killedInItsSleep globalfifoProbe = some m ∧
      m.mutex = some 1 ∧ m.Prompt 0 :=
    ⟨_, rfl, rfl, ⟨.read 1, false⟩, .schedule, rfl, fun side hside => .inr (by
      obtain rfl := Option.some.inj hside
      rfl)⟩
  obtain ⟨m, hrun, hmutex, hm⟩ := hprompt
  refine ⟨m, hrun, hmutex, hm, fun ks n hks hcall => ?_⟩
  exact ((prompt_returns_of_reachable (Reachable.of_replay hrun) hm).2 ks n hks hcall).1

end LinuxDevelopment.Globalfifo
