import LinuxDevelopment.Globalfifo.Device

/-!
# globalfifo: sleepers and their wake-ups

A task that finds the device empty or full sets its sleep state, drops the
mutex and calls `schedule`. The other side calls `wake_up_interruptible`, which
reaches a writer but not a reader, since readers sleep in `TASK_KILLABLE`.
`FIFO_CLEAR` makes room without any wake-up. What remains true is stated for the
runs in which neither of the two meets a sleeper.
-/

namespace LinuxDevelopment.Globalfifo

/-- The task is on its way into `schedule`, or in it, in the state it set when
it last checked the condition of its loop. -/
def Machine.Asleep (m : Machine) (side : Side) (t : Nat) : Prop :=
  ∃ c p, m.pc t = .inside c p ∧ c.request.side = some side ∧ (p = .unlock ∨ p = .schedule) ∧
    m.state t = side.sleepState

instance (m : Machine) (side : Side) (t : Nat) : Decidable (m.Asleep side t) :=
  match hpc : m.pc t with
  | .inside c .unlock =>
      decidable_of_iff (c.request.side = some side ∧ m.state t = side.sleepState)
        (by simp [Machine.Asleep, hpc])
  | .inside c .schedule =>
      decidable_of_iff (c.request.side = some side ∧ m.state t = side.sleepState)
        (by simp [Machine.Asleep, hpc])
  | .user | .inside _ .entry | .inside _ .loop | .inside _ .signals | .inside _ .relock
  | .inside _ .body | .inside _ (.wakeUp _) | .inside _ (.out _) | .inside _ (.out2 _) =>
      .isFalse (by simp [Machine.Asleep, hpc])

/-- With the mutex free and bytes in the device, no reader on `r_wait` sleeps. -/
def Machine.ReadersAwake (m : Machine) : Prop :=
  m.mutex = none → 0 < m.currentLen → ∀ t ∈ m.wait .reader, ¬ m.Asleep .reader t

/-- With the mutex free and room in the device, no writer on `w_wait` sleeps. -/
def Machine.WritersAwake (m : Machine) : Prop :=
  m.mutex = none → m.currentLen < globalfifoSize → ∀ t ∈ m.wait .writer, ¬ m.Asleep .writer t

/-- The step is the copy of a write that accepts at least one byte. -/
def Machine.Feeds (m : Machine) (l : Label) : Prop :=
  ∃ t c buf count, l = .go t ∧ m.pc t = .inside c .body ∧ c.request = .write buf count ∧
    0 < min count (globalfifoSize - m.currentLen)

/-- The step is the effect of `FIFO_CLEAR`. -/
def Machine.Clears (m : Machine) (l : Label) : Prop :=
  ∃ t c, l = .go t ∧ m.pc t = .inside c .body ∧ c.request = .ioctl fifoClear

/-- No write accepts bytes while a reader sleeps. -/
def FeedsTheAwake (m : Machine) (l : Label) : Prop := m.Feeds l → ∀ t, ¬ m.Asleep .reader t

/-- No `FIFO_CLEAR` takes effect while a writer sleeps. -/
def ClearsForTheAwake (m : Machine) (l : Label) : Prop := m.Clears l → ∀ t, ¬ m.Asleep .writer t

section Mutex

/-- The points at which a task has the mutex. -/
def Point.Holding : Point → Prop
  | .loop => True
  | .unlock => True
  | .body => True
  | .wakeUp _ => True
  | .out _ => True
  | _ => False

def Machine.Exclusive (m : Machine) : Prop :=
  ∀ t c p, m.pc t = .inside c p → p.Holding → m.mutex = some t

variable {m m' : Machine} {t : Nat}

/-- The mutex changes hands only between its holder and nobody. -/
theorem Moves.mutex_eq (h : Moves m t m') (hm : m.Exclusive) :
    m'.mutex = m.mutex ∨ (m.mutex = none ∧ m'.mutex = some t) ∨
      (m.mutex = some t ∧ m'.mutex = none) := by
  cases h with
  | enter _ _ hfree | relock _ hfree | lockBody _ _ hfree => exact .inr (.inl ⟨hfree, rfl⟩)
  | unlock hpc | out hpc => exact .inr (.inr ⟨hm t _ _ hpc trivial, rfl⟩)
  | _ => exact .inl rfl

theorem Moves.holding {c : Call} {p : Point} (h : Moves m t m') (hm : m.Exclusive)
    (hpc : m'.pc t = .inside c p) (hp : p.Holding) : m'.mutex = some t := by
  cases h with
  | enter | relock | lockBody => rfl
  | signal | handleSignals => exact hm t c p hpc hp
  | leaveQueue | leave => simp [Machine.leave] at hpc
  | wouldBlock hat | sleep hat | proceed hat | take hat | give hat | wakeUp hat | clear hat
  | poll hat | faultTake hat => exact hm t _ _ hat trivial
  | faultGive junk hat => exact hm t _ _ hat trivial
  | call | unlock | scheduled | interrupted | retry | out | badCommand =>
      obtain ⟨rfl, rfl⟩ := Pc.inside_of_update hpc
      exact hp.elim

theorem Moves.exclusive (h : Moves m t m') (hm : m.Exclusive) : m'.Exclusive := by
  intro u c p hpc hp
  by_cases hu : u = t
  · subst hu
    exact h.holding hm hpc hp
  · have hown : m.mutex = some u := hm u c p ((h.pc_of_ne hu).symm.trans hpc) hp
    obtain hsame | ⟨hnone, -⟩ | ⟨hsome, -⟩ := h.mutex_eq hm
    · exact hsame.trans hown
    · exact nomatch hnone.symm.trans hown
    · exact absurd (Option.some.inj (hown.symm.trans hsome)) hu

theorem exclusive_of_reachable (h : Reachable Machine.step globalfifoProbe m) : m.Exclusive := by
  refine h.invariant ?_ ?_
  · intro t c p hpc
    exact nomatch hpc
  · intro m m' l hm hstep
    obtain ⟨n, hn, rfl⟩ := moves_of_step hstep
    exact hn.exclusive hm

end Mutex

section Sleep

variable {m m' : Machine} {t u : Nat} {side : Side}

theorem Side.sleepState_ne_running (side : Side) : side.sleepState ≠ .running := by
  cases side <;> decide

/-- A move of one task leaves the state of another one or wakes it. -/
theorem Moves.state_of_ne (h : Moves m t m') (hu : u ≠ t) :
    m'.state u = m.state u ∨ m'.state u = .running := by
  cases h with
  | wakeUp hpc hside =>
      rename_i c s r
      by_cases hw : u ∈ m.wait s.other ∧ m.state u = .interruptible
      · exact .inr (if_pos hw)
      · exact .inl (if_neg hw)
  | sleep | scheduled | leaveQueue | signal => exact .inl (Function.update_of_ne hu _ _)
  | _ => exact .inl rfl

/-- A task falls asleep only by finding the condition of its loop true. -/
theorem Moves.asleep (h : Moves m t m') (ha : m'.Asleep side u) :
    m.Asleep side u ∨ (side.mustWait m.currentLen = true ∧ m'.currentLen = m.currentLen) := by
  obtain ⟨c, p, hpc, hside, hp, hstate⟩ := ha
  by_cases hu : u = t
  · subst hu
    cases h with
    | sleep hat hs hwait =>
        obtain ⟨rfl, -⟩ := Pc.inside_of_update hpc
        obtain rfl := Option.some.inj (hs.symm.trans hside)
        exact .inr ⟨hwait, rfl⟩
    | unlock hat =>
        obtain ⟨rfl, -⟩ := Pc.inside_of_update hpc
        exact .inl ⟨_, _, hat, hside, .inl rfl, hstate⟩
    | signal fatal =>
        refine .inl ⟨c, p, hpc, hside, hp, ?_⟩
        simp only [Machine.signal, Function.update_self] at hstate
        split at hstate
        · exact absurd hstate.symm side.sleepState_ne_running
        · exact hstate
    | handleSignals => exact .inl ⟨c, p, hpc, hside, hp, hstate⟩
    | leaveQueue | leave => simp [Machine.leave] at hpc
    | _ =>
        obtain ⟨-, rfl⟩ := Pc.inside_of_update hpc
        simp at hp
  · refine .inl ⟨c, p, (h.pc_of_ne hu).symm.trans hpc, hside, hp, ?_⟩
    obtain hsame | hrun := h.state_of_ne hu
    · exact hsame.symm.trans hstate
    · exact absurd (hstate.symm.trans hrun) side.sleepState_ne_running

/-- Only the copies and `FIFO_CLEAR` change the length. -/
theorem currentLen_of_step {l : Label} (h : m.step l = some m') :
    m'.currentLen = m.currentLen ∨
      (m'.currentLen ≤ m.currentLen ∧
        ∃ c r, m'.pc l.task = .inside c (.wakeUp r) ∧ c.request.side = some .reader) ∨
      m.Feeds l ∨ (m.Clears l ∧ m'.currentLen = 0) := by
  cases l with
  | call t c =>
      obtain ⟨n, hn, rfl⟩ := Option.map_eq_some_iff.mp h
      simp only [Machine.act] at hn
      split at hn
      · obtain rfl := Option.some.inj hn
        exact .inl rfl
      · cases hn
  | fault t junk =>
      obtain ⟨n, hn, rfl⟩ := Option.map_eq_some_iff.mp h
      left
      simp only [Machine.act, Machine.fault] at hn
      split at hn
      · split at hn
        · obtain ⟨-, ⟨⟩⟩ := Option.ite_none_right_eq_some.mp hn
          rfl
        · obtain ⟨-, ⟨⟩⟩ := Option.ite_none_right_eq_some.mp hn
          rfl
        · cases hn
      · cases hn
  | signal t fatal =>
      obtain rfl := Option.some.inj h
      exact .inl rfl
  | handleSignals t =>
      obtain ⟨n, hn, rfl⟩ := Option.map_eq_some_iff.mp h
      simp only [Machine.act] at hn
      split at hn
      · obtain rfl := Option.some.inj hn
        exact .inl rfl
      · cases hn
  | go t =>
      obtain ⟨n, hn, rfl⟩ := moves_of_step h
      cases hn with
      | take hpc hreq =>
          refine .inr (.inl ⟨Nat.sub_le _ _, _, _, Function.update_self _ _ _, ?_⟩)
          rw [hreq]
          rfl
      | give hpc hreq =>
          rename_i c buf count
          by_cases hpos : 0 < min count (globalfifoSize - m.currentLen)
          · exact .inr (.inr (.inl ⟨t, c, buf, count, rfl, hpc, hreq, hpos⟩))
          · left
            change m.currentLen + min count (globalfifoSize - m.currentLen) = m.currentLen
            omega
      | clear hpc hreq => exact .inr (.inr (.inr ⟨⟨t, _, rfl, hpc, hreq⟩, rfl⟩))
      | _ => exact .inl rfl

end Sleep

section Queues

variable {m m' : Machine} {t u : Nat} {side : Side}

/-- A task in a call that sleeps is on the wait queue of its side. -/
def Machine.Queued (m : Machine) : Prop :=
  ∀ t c p side, m.pc t = .inside c p → c.request.side = some side → p ≠ .entry →
    t ∈ m.wait side

/-- The queues lose only tasks that return. -/
theorem Moves.mem_wait {side : Side} (h : Moves m t m') (hu : u ≠ t) (hmem : u ∈ m.wait side) :
    u ∈ m'.wait side := by
  cases h with
  | enter hpc hside hfree =>
      rename_i c s
      by_cases hs : side = s
      · subst hs
        simp [Machine.goto, Machine.addWaitQueue, Machine.lock, hmem]
      · simpa [Machine.goto, Machine.addWaitQueue, Machine.lock, hs] using hmem
  | leaveQueue hpc hside =>
      rename_i c s r
      by_cases hs : side = s
      · subst hs
        simpa [Machine.leave, Machine.setState, Machine.removeWaitQueue] using
          (List.mem_erase_of_ne hu).mpr hmem
      · simpa [Machine.leave, Machine.setState, Machine.removeWaitQueue, hs] using hmem
  | _ => exact hmem

theorem Moves.queued (h : Moves m t m') (hm : m.Queued) : m'.Queued := by
  intro u c p side hpc hside hp
  by_cases hu : u = t
  · subst hu
    cases h with
    | call =>
        obtain ⟨-, rfl⟩ := Pc.inside_of_update hpc
        exact absurd rfl hp
    | enter hat hs hfree =>
        obtain ⟨rfl, -⟩ := Pc.inside_of_update hpc
        obtain rfl := Option.some.inj (hs.symm.trans hside)
        simp [Machine.goto, Machine.addWaitQueue]
    | lockBody hat hs =>
        obtain ⟨rfl, -⟩ := Pc.inside_of_update hpc
        exact nomatch hs.symm.trans hside
    | badCommand hat hreq =>
        obtain ⟨rfl, -⟩ := Pc.inside_of_update hpc
        rw [hreq] at hside
        exact nomatch hside
    | signal | handleSignals => exact hm u c p side hpc hside hp
    | leaveQueue | leave => simp [Machine.leave] at hpc
    | faultGive junk hat =>
        obtain ⟨rfl, -⟩ := Pc.inside_of_update hpc
        exact hm u _ _ side hat hside (by simp)
    | wouldBlock hat | sleep hat | proceed hat | unlock hat | scheduled hat | interrupted hat
    | retry hat | relock hat | take hat | give hat | wakeUp hat | out hat | clear hat | poll hat
    | faultTake hat =>
        obtain ⟨rfl, -⟩ := Pc.inside_of_update hpc
        exact hm u _ _ side hat hside (by simp)
  · exact h.mem_wait hu (hm u c p side ((h.pc_of_ne hu).symm.trans hpc) hside hp)

theorem queued_of_reachable (h : Reachable Machine.step globalfifoProbe m) : m.Queued := by
  refine h.invariant ?_ ?_
  · intro t c p side hpc
    exact nomatch hpc
  · intro m m' l hm hstep
    obtain ⟨n, hn, rfl⟩ := moves_of_step hstep
    exact hn.queued hm

/-- The step is the body of a call whose request passes the test `f`. -/
def Machine.atBody (m : Machine) (f : Request → Bool) : Label → Bool
  | .go t =>
      match m.pc t with
      | .inside c .body => f c.request
      | _ => false
  | _ => false

def Request.isWrite : Request → Bool
  | .write _ _ => true
  | _ => false

def Request.isClear : Request → Bool
  | .ioctl cmd => cmd == fifoClear
  | _ => false

/-- No task on a wait queue is in the state its side sleeps in. -/
def Machine.allAwake (m : Machine) (side : Side) : Bool :=
  (m.wait side).all fun t => m.state t != side.sleepState

theorem not_asleep_of_allAwake (hq : m.Queued) (h : m.allAwake side = true) :
    ¬ m.Asleep side u := by
  rintro ⟨c, p, hpc, hside, hp, hstate⟩
  have hmem : u ∈ m.wait side := by
    refine hq u c p side hpc hside ?_
    obtain rfl | rfl := hp <;> simp
  have hne := List.all_eq_true.mp h u hmem
  simp [hstate] at hne

theorem feedsTheAwake_of_allAwake {l : Label} (hq : m.Queued)
    (h : (!m.atBody Request.isWrite l || m.allAwake .reader) = true) : FeedsTheAwake m l := by
  rintro ⟨t, c, buf, count, rfl, hpc, hreq, -⟩ u
  have hat : m.atBody Request.isWrite (.go t) = true := by
    simp only [Machine.atBody, hpc, hreq, Request.isWrite]
  rw [hat] at h
  exact not_asleep_of_allAwake hq h

theorem clearsForTheAwake_of_allAwake {l : Label} (hq : m.Queued)
    (h : (!m.atBody Request.isClear l || m.allAwake .writer) = true) :
    ClearsForTheAwake m l := by
  rintro ⟨t, c, rfl, hpc, hreq⟩ u
  have hat : m.atBody Request.isClear (.go t) = true := by
    simp only [Machine.atBody, hpc, hreq, Request.isClear, beq_self_eq_true]
  rw [hat] at h
  exact not_asleep_of_allAwake hq h

end Queues

section Readers

variable {m m' : Machine}

/-- A sleeping reader found the device empty, and it still is. -/
def Machine.ReadersWait (m : Machine) : Prop := ∀ t, m.Asleep .reader t → m.currentLen = 0

theorem readersWait_of_step {l : Label} (hm : m.ReadersWait) (hl : FeedsTheAwake m l)
    (h : m.step l = some m') : m'.ReadersWait := by
  intro u hu
  obtain ⟨n, hn, rfl⟩ := moves_of_step h
  obtain hold | ⟨hwait, hlen⟩ := hn.asleep hu
  · have hzero := hm u hold
    obtain hlen | ⟨hlen, -⟩ | hfeeds | ⟨-, hlen⟩ := currentLen_of_step h
    · exact hlen.trans hzero
    · omega
    · exact absurd hold (hl hfeeds u)
    · exact hlen
  · exact hlen.trans (eq_of_beq hwait)

theorem readersWait_of_reaches (h : Reaches Machine.step FeedsTheAwake globalfifoProbe m) :
    m.ReadersWait := by
  refine h.invariant ?_ fun _ hm hl hstep => readersWait_of_step hm hl hstep
  rintro t ⟨c, p, hpc, -⟩
  exact nomatch hpc

end Readers

/-- In a run in which no write accepts bytes while a reader sleeps, no reader
is left asleep on a device that has bytes for it. -/
theorem readersAwake_of_reaches {m : Machine}
    (h : Reaches Machine.step FeedsTheAwake globalfifoProbe m) : m.ReadersAwake := by
  intro _ hlen t _ ha
  have hzero := readersWait_of_reaches h t ha
  omega

/-- A reader sleeps on the empty device and is killed before a byte is written. -/
def killThenWrite : List Label :=
  .call 0 ⟨.read 1, false⟩ :: List.replicate 3 (.go 0) ++
    .signal 0 true :: .call 1 ⟨.write (fun _ => 7) 1, false⟩ :: List.replicate 5 (.go 1)

theorem readersAwake_killThenWrite :
    ∃ m, Reaches Machine.step FeedsTheAwake globalfifoProbe m ∧ m.mutex = none ∧
      m.currentLen = 1 ∧ 0 ∈ m.wait .reader ∧ ¬ m.Asleep .reader 0 := by
  obtain ⟨m, hrun, hfree, hlen, hmem⟩ : ∃ m, replay
      (fun m l => if !m.atBody Request.isWrite l || m.allAwake .reader then m.step l else none)
      killThenWrite globalfifoProbe = some m ∧
        m.mutex = none ∧ m.currentLen = 1 ∧ 0 ∈ m.wait .reader :=
    exists_of_replay_any (by decide +kernel)
  have hm : Reaches Machine.step FeedsTheAwake globalfifoProbe m :=
    Reaches.append_replay _
      (fun _ _ h => feedsTheAwake_of_allAwake (queued_of_reachable h.reachable)) .refl hrun
  exact ⟨m, hm, hfree, hlen, hmem, readersAwake_of_reaches hm hfree (by omega) 0 hmem⟩

/-- A reader sleeps on the empty device, then a byte is written. -/
def writeToSleepingReader : List Label :=
  .call 0 ⟨.read 1, false⟩ :: List.replicate 3 (.go 0) ++
    .call 1 ⟨.write (fun _ => 7) 1, false⟩ :: List.replicate 5 (.go 1)

/-- `wake_up_interruptible(&dev->r_wait)` leaves the reader in `TASK_KILLABLE`. -/
theorem not_readersAwake_of_reachable :
    ¬ ∀ m, Reachable Machine.step globalfifoProbe m → m.ReadersAwake := by
  intro h
  obtain ⟨m, hrun, hfree, hlen, hmem, hasleep⟩ :
      ∃ m, replay Machine.step writeToSleepingReader globalfifoProbe = some m ∧
        m.mutex = none ∧ 0 < m.currentLen ∧ 0 ∈ m.wait .reader ∧ m.Asleep .reader 0 :=
    exists_of_replay_any (by decide +kernel)
  exact h m (Reachable.of_replay hrun) hfree hlen 0 hmem hasleep

section Writers

variable {m m' : Machine} {t u : Nat}

/-- A reader has made room and is about to wake the writers. -/
def Machine.WakesWriters (m : Machine) (t : Nat) : Prop :=
  ∃ c r, m.pc t = .inside c (.wakeUp r) ∧ c.request.side = some .reader

/-- A sleeping writer found the device full, and it still is or the wake-up is
on its way. -/
def Machine.WritersWait (m : Machine) : Prop :=
  ∀ t, m.Asleep .writer t → m.currentLen = globalfifoSize ∨ ∃ r, m.WakesWriters r

/-- A reader still owes the wake-up as long as a writer on the queue sleeps. -/
theorem Moves.wakesWriters (h : Moves m t m') (ht : m.WakesWriters t)
    (hmem : u ∈ m.wait .writer) (hstate : m'.state u = .interruptible) : m'.WakesWriters t := by
  obtain ⟨c, r, hpc, hside⟩ := ht
  cases h with
  | wakeUp hat hs =>
      obtain ⟨rfl, -⟩ := Pc.inside.inj (hpc.symm.trans hat)
      obtain rfl := Option.some.inj (hside.symm.trans hs)
      have hw : m.state u = .interruptible → False := by
        intro hi
        have hrun : (m.wakeUpInterruptible Side.reader.other).state u = .running :=
          if_pos ⟨hmem, hi⟩
        exact nomatch hrun.symm.trans hstate
      have hsame : (m.wakeUpInterruptible Side.reader.other).state u = m.state u :=
        if_neg fun h => hw h.2
      exact (hw (hsame.symm.trans hstate)).elim
  | signal | handleSignals => exact ⟨c, r, hpc, hside⟩
  | faultGive junk hat => exact nomatch hpc.symm.trans hat
  | call c hat => exact nomatch hpc.symm.trans hat
  | enter hat | wouldBlock hat | sleep hat | proceed hat | unlock hat | scheduled hat
  | interrupted hat | retry hat | relock hat | take hat | give hat | out hat | leaveQueue hat
  | lockBody hat | badCommand hat | clear hat | poll hat | leave hat | faultTake hat =>
      exact nomatch hpc.symm.trans hat

theorem writersWait_of_step {l : Label} (hq : m.Queued) (hm : m.WritersWait)
    (hl : ClearsForTheAwake m l) (h : m.step l = some m') : m'.WritersWait := by
  intro u hu
  have hlen := currentLen_of_step h
  obtain ⟨n, hn, rfl⟩ := moves_of_step h
  obtain hold | ⟨hwait, hsame⟩ := hn.asleep hu
  · obtain hfull | ⟨r, hr⟩ := hm u hold
    · obtain hlen | ⟨-, hr⟩ | ⟨_, _, _, count, _, _, _, hpos⟩ | ⟨hclears, -⟩ := hlen
      · exact .inl (hlen.trans hfull)
      · exact .inr ⟨_, hr⟩
      · omega
      · exact absurd hold (hl hclears u)
    · right
      refine ⟨r, ?_⟩
      by_cases hrt : r = l.task
      · subst hrt
        obtain ⟨c, p, hpc, hside, hp, -⟩ := hold
        obtain ⟨-, -, -, -, -, hstate⟩ := hu
        have hmem : u ∈ m.wait .writer := by
          refine hq u c p .writer hpc hside ?_
          obtain rfl | rfl := hp <;> simp
        exact hn.wakesWriters hr hmem hstate
      · obtain ⟨c, reply, hpc, hside⟩ := hr
        exact ⟨c, reply, (hn.pc_of_ne hrt).trans hpc, hside⟩
  · exact .inl (hsame.trans (eq_of_beq hwait))

theorem writersWait_of_reaches (h : Reaches Machine.step ClearsForTheAwake globalfifoProbe m) :
    m.WritersWait := by
  refine h.invariant ?_ fun hrun hm hl hstep =>
    writersWait_of_step (queued_of_reachable hrun.reachable) hm hl hstep
  rintro t ⟨c, p, hpc, -⟩
  exact nomatch hpc

end Writers

/-- In a run in which no `FIFO_CLEAR` takes effect while a writer sleeps, no
writer is left asleep on a device that has room for it. -/
theorem writersAwake_of_reaches {m : Machine}
    (h : Reaches Machine.step ClearsForTheAwake globalfifoProbe m) : m.WritersAwake := by
  intro hfree hlen t _ ha
  obtain hfull | ⟨r, c, reply, hpc, -⟩ := writersWait_of_reaches h t ha
  · omega
  · exact nomatch hfree.symm.trans (exclusive_of_reachable h.reachable r c _ hpc trivial)

/-- A writer sleeps on the full device, then a byte is read. -/
def readBeforeSleepingWriter : List Label :=
  .call 0 ⟨.write (fun _ => 7) globalfifoSize, false⟩ :: List.replicate 6 (.go 0) ++
    .call 1 ⟨.write (fun _ => 7) 1, false⟩ :: List.replicate 3 (.go 1) ++
    .call 2 ⟨.read 1, false⟩ :: List.replicate 5 (.go 2)

theorem writersAwake_readBeforeSleepingWriter :
    ∃ m, Reaches Machine.step ClearsForTheAwake globalfifoProbe m ∧ m.mutex = none ∧
      m.currentLen < globalfifoSize ∧ 1 ∈ m.wait .writer ∧ ¬ m.Asleep .writer 1 := by
  obtain ⟨m, hrun, hfree, hlen, hmem⟩ : ∃ m, replay
      (fun m l => if !m.atBody Request.isClear l || m.allAwake .writer then m.step l else none)
      readBeforeSleepingWriter globalfifoProbe = some m ∧
        m.mutex = none ∧ m.currentLen < globalfifoSize ∧ 1 ∈ m.wait .writer :=
    exists_of_replay_any (by decide +kernel)
  have hm : Reaches Machine.step ClearsForTheAwake globalfifoProbe m :=
    Reaches.append_replay _
      (fun _ _ h => clearsForTheAwake_of_allAwake (queued_of_reachable h.reachable)) .refl hrun
  exact ⟨m, hm, hfree, hlen, hmem, writersAwake_of_reaches hm hfree hlen 1 hmem⟩

/-- A writer sleeps on the full device, then it is cleared. -/
def clearBeforeSleepingWriter : List Label :=
  .call 0 ⟨.write (fun _ => 7) globalfifoSize, false⟩ :: List.replicate 6 (.go 0) ++
    .call 1 ⟨.write (fun _ => 7) 1, false⟩ :: List.replicate 3 (.go 1) ++
    .call 2 ⟨.ioctl fifoClear, false⟩ :: List.replicate 3 (.go 2)

/-- `FIFO_CLEAR` empties the device and wakes nobody. -/
theorem not_writersAwake_of_reachable :
    ¬ ∀ m, Reachable Machine.step globalfifoProbe m → m.WritersAwake := by
  intro h
  obtain ⟨m, hrun, hfree, hlen, hmem, hasleep⟩ :
      ∃ m, replay Machine.step clearBeforeSleepingWriter globalfifoProbe = some m ∧
        m.mutex = none ∧ m.currentLen < globalfifoSize ∧ 1 ∈ m.wait .writer ∧
        m.Asleep .writer 1 :=
    exists_of_replay_any (by decide +kernel)
  exact h m (Reachable.of_replay hrun) hfree hlen 1 hmem hasleep

end LinuxDevelopment.Globalfifo
