import LinuxDevelopment.Base.History
import LinuxDevelopment.Globalfifo.Queue
import LinuxDevelopment.Globalfifo.Turn

/-!
# globalfifo: one call at a time

Whatever the tasks do at once, each call takes effect at one step between its
start and its return, and the calls in the order of these steps are a history
of a device that serves one call at a time: a bounded queue of bytes that
answers each call from what is queued at that moment. The calls of a task take
effect in the order it makes them, and each returns what it was answered.
-/

namespace LinuxDevelopment.Globalfifo

/-- The mask `poll` answers when the bytes `q` are queued. -/
def readiness (q : List UInt8) : Nat :=
  (if q = [] then 0 else 0x0001 ||| 0x0040) |||
    (if q.length = globalfifoSize then 0 else 0x0004 ||| 0x0100)

/-- The device as a bounded queue of bytes that serves one call at a time. -/
inductive Serves : List UInt8 → Nat × Call × Reply → List UInt8 → Prop where
  | read {q : List UInt8} {t : Nat} {c : Call} {count : Nat} (hreq : c.request = .read count)
      (hne : q ≠ []) : Serves q (t, c, .moved (q.take count)) (q.drop count)
  | write {q bytes : List UInt8} {t : Nat} {c : Call} {buf : Buffer} {count : Nat}
      (hreq : c.request = .write buf count) (hroom : q.length < globalfifoSize)
      (hbytes : bytes = buf.bytesAt 0 (min count (globalfifoSize - q.length))) :
      Serves q (t, c, .moved bytes) (q ++ bytes)
  | wouldBlock {q : List UInt8} {t : Nat} {c : Call} {side : Side}
      (hside : c.request.side = some side) (hwait : side.mustWait q.length = true)
      (hnon : c.nonblock = true) : Serves q (t, c, .error .eagain) q
  | fault {q : List UInt8} {t : Nat} {c : Call} {side : Side}
      (hside : c.request.side = some side) (hready : side.mustWait q.length = false) :
      Serves q (t, c, .error .efault) q
  | interrupted {q : List UInt8} {t : Nat} {c : Call} {side : Side}
      (hside : c.request.side = some side) (hnon : c.nonblock = false) :
      Serves q (t, c, .error .erestartsys) q
  | clear {q : List UInt8} {t : Nat} {c : Call} (hreq : c.request = .ioctl fifoClear) :
      Serves q (t, c, .value 0) []
  | badCommand {q : List UInt8} {t : Nat} {c : Call} {cmd : Nat} (hreq : c.request = .ioctl cmd)
      (hcmd : cmd ≠ fifoClear) : Serves q (t, c, .error .einval) q
  | poll {q : List UInt8} {t : Nat} {c : Call} (hreq : c.request = .poll) :
      Serves q (t, c, .value (readiness q)) q

/-- The calls a task makes in a schedule. -/
def invocations (t : Nat) (ls : List Label) : List Call :=
  ls.filterMap fun l =>
    match l with
    | .call u c => if u = t then some c else none
    | _ => none

/-- The call of the task that has not taken effect yet. -/
def Machine.undecided (m : Machine) (t : Nat) : List Call :=
  match m.pc t with
  | .inside c p => if p.reply? = none then [c] else []
  | .user => []

/-- The calls the task has made are those that have taken effect, in order, and
at most one that has not, and a decided call returns the reply it was given. -/
structure Machine.Answers (m : Machine) (t : Nat) (made : List Call) : Prop where
  calls : made = (ofTask t m.history).map Prod.fst ++ m.undecided t
  reply : ∀ c p r, m.pc t = .inside c p → p.reply? = some r →
    (ofTask t m.history).getLast? = some (c, r)

/-- The machine a schedule leads to is explained by the sequential device. -/
structure Linearised (ls : List Label) (m : Machine) : Prop where
  legal : Legal Serves [] m.history m.queue
  answers : ∀ t, m.Answers t (invocations t ls)

section Answers

variable (m : Machine)

theorem length_queue : m.queue.length = m.currentLen := Buffer.length_bytesAt

theorem taken_eq_take (count : Nat) : m.taken count = m.queue.take count := by
  have hle : min count m.currentLen ≤ m.currentLen := Nat.min_le_right _ _
  calc m.taken count = m.queue.take (min count m.currentLen) := (Buffer.take_bytesAt hle).symm
    _ = m.queue.take (min count m.queue.length) := by rw [length_queue]
    _ = m.queue.take count := List.take_eq_take_min.symm

theorem queue_takeBytes_eq_drop (count : Nat) :
    (m.takeBytes count).queue = m.queue.drop count := by
  have h := queue_takeBytes m count
  rw [taken_eq_take] at h
  exact List.append_cancel_left (h.trans (List.take_append_drop count m.queue).symm)

theorem pollMask_eq_readiness : m.pollMask = readiness m.queue := by
  have hnil : m.queue = [] ↔ m.currentLen = 0 := by
    rw [← length_queue, List.length_eq_zero_iff]
  simp only [Machine.pollMask, readiness, hnil, length_queue, ne_eq, ite_not]

end Answers

section Step

variable {m n : Machine} {t u : Nat} {c : Call} {p : Point} {ls : List Label}

/-- A turn either decides the call, as the sequential device would, or leaves
the queue and the history alone and does not change whether it is decided. -/
theorem Turn.decides (h : Turn m t c p n) (hp : c.Visits p)
    (hbound : m.currentLen ≤ globalfifoSize)
    (hready : ∀ side, p = .body → c.request.side = some side →
      side.mustWait m.currentLen = false) :
    (n.history = m.history ∧ n.queue = m.queue ∧
      ((∃ q, n.pc t = .inside c q ∧ q.reply? = p.reply?) ∨
        (n.pc t = .user ∧ ∃ r, p.reply? = some r))) ∨
    ∃ r q, n.history = m.history ++ [(t, c, r)] ∧ Serves m.queue (t, c, r) n.queue ∧
      p.reply? = none ∧ n.pc t = .inside c q ∧ q.reply? = some r := by
  rw [← length_queue] at hready hbound
  cases h with
  | enter | sleep | proceed | unlock | scheduled | retry | relock | wakeUp | out | lockBody =>
      exact .inl ⟨rfl, rfl, .inl ⟨_, Machine.pc_goto _ _ _ _, rfl⟩⟩
  | leaveQueue | leave => exact .inl ⟨rfl, rfl, .inr ⟨Machine.pc_leave _ _, _, rfl⟩⟩
  | wouldBlock hside hwait hnon =>
      rw [← length_queue] at hwait
      exact .inr ⟨_, _, rfl, .wouldBlock hside hwait hnon, rfl, Machine.pc_goto _ _ _ _, rfl⟩
  | interrupted hside =>
      exact .inr ⟨_, _, rfl, .interrupted hside hp.2, rfl, Machine.pc_goto _ _ _ _, rfl⟩
  | badCommand hside hlocks =>
      refine .inr ⟨_, _, rfl, ?_, rfl, Machine.pc_goto _ _ _ _, rfl⟩
      cases hreq : c.request with
      | ioctl cmd =>
          rw [hreq] at hlocks
          exact .badCommand hreq (ne_of_beq_false hlocks)
      | _ => simp [hreq, Request.locks] at hlocks
  | clear hreq => exact .inr ⟨_, _, rfl, .clear hreq, rfl, Machine.pc_goto _ _ _ _, rfl⟩
  | poll hreq =>
      refine .inr ⟨_, _, rfl, ?_, rfl, Machine.pc_goto _ _ _ _, rfl⟩
      rw [pollMask_eq_readiness]
      exact .poll hreq
  | take hreq =>
      rename_i count
      refine .inr ⟨_, _, rfl, ?_, rfl, Machine.pc_goto _ _ _ _, rfl⟩
      have hpos := hready .reader rfl (congrArg Request.side hreq)
      have hdrop := queue_takeBytes_eq_drop m count
      rw [taken_eq_take]
      change Serves m.queue _ (m.takeBytes count).queue
      rw [hdrop]
      refine .read hreq ?_
      intro hnil
      simp [hnil, Side.mustWait] at hpos
  | give hreq =>
      rename_i buf count
      refine .inr ⟨_, _, rfl, ?_, rfl, Machine.pc_goto _ _ _ _, rfl⟩
      have hroom := hready .writer rfl (congrArg Request.side hreq)
      change Serves m.queue _ (m.giveBytes buf count).queue
      rw [queue_giveBytes]
      refine .write hreq ?_ ?_
      · exact lt_of_le_of_ne hbound (ne_of_beq_false hroom)
      · rw [length_queue, Machine.given]
  | faultTake hreq =>
      exact .inr ⟨_, _, rfl, .fault (congrArg Request.side hreq)
        (hready _ rfl (congrArg Request.side hreq)), rfl, Machine.pc_goto _ _ _ _, rfl⟩
  | faultGive junk hreq =>
      refine .inr ⟨_, _, rfl, ?_, rfl, Machine.pc_goto _ _ _ _, rfl⟩
      change Serves m.queue _ ((m.mem.splice m.currentLen junk).bytesAt 0 m.currentLen)
      rw [bytesAt_splice_behind]
      exact .fault (congrArg Request.side hreq) (hready _ rfl (congrArg Request.side hreq))

theorem invocations_append_call (t : Nat) (c : Call) (ls : List Label) :
    invocations t (ls ++ [.call t c]) = invocations t ls ++ [c] := by
  simp [invocations]

theorem invocations_append {l : Label} (h : ∀ d, l ≠ .call t d) (ls : List Label) :
    invocations t (ls ++ [l]) = invocations t ls := by
  cases l with
  | call u d =>
      have hne : u ≠ t := fun hu => h d (by rw [hu])
      simp [invocations, hne]
  | _ => simp [invocations]

variable {made : List Call}

/-- A step of another task. -/
theorem Machine.Answers.congr (hm : m.Answers t made) (hpc : n.pc t = m.pc t)
    (hof : ofTask t n.history = ofTask t m.history) : n.Answers t made where
  calls := by
    rw [hof, hm.calls]
    simp only [Machine.undecided, hpc]
  reply := by
    intro c p r hp hr
    rw [hof]
    exact hm.reply c p r (hpc.symm.trans hp) hr

theorem Machine.Answers.call (hm : m.Answers t made) (hpc : m.pc t = .user)
    (hhist : n.history = m.history) (hn : n.pc t = .inside c .entry) :
    n.Answers t (made ++ [c]) where
  calls := by
    rw [hm.calls, hhist]
    simp [Machine.undecided, hpc, hn, Point.reply?]
  reply := by
    intro d p r hp hr
    obtain ⟨rfl, rfl⟩ := Pc.inside.inj (hn.symm.trans hp)
    cases hr

theorem Machine.Answers.turn (hm : m.Answers t made) (hpc : m.pc t = .inside c p)
    (hn : (n.history = m.history ∧ ((∃ q, n.pc t = .inside c q ∧ q.reply? = p.reply?) ∨
        (n.pc t = .user ∧ ∃ r, p.reply? = some r))) ∨
      ∃ r q, n.history = m.history ++ [(t, c, r)] ∧ p.reply? = none ∧
        n.pc t = .inside c q ∧ q.reply? = some r) : n.Answers t made := by
  obtain ⟨hhist, ⟨q, hq, hqp⟩ | ⟨huser, r, hr⟩⟩ | ⟨r, q, hhist, hnone, hq, hqr⟩ := hn
  · constructor
    · rw [hm.calls, hhist]
      simp [Machine.undecided, hpc, hq, hqp]
    · intro d p' r hp hr
      obtain ⟨rfl, rfl⟩ := Pc.inside.inj (hq.symm.trans hp)
      rw [hhist]
      exact hm.reply _ _ r hpc (hqp.symm.trans hr)
  · constructor
    · rw [hm.calls, hhist]
      simp [Machine.undecided, hpc, huser, hr]
    · intro d p' r hp
      cases huser.symm.trans hp
  · constructor
    · rw [hm.calls, hhist, ofTask_append_self]
      simp [Machine.undecided, hpc, hq, hnone, hqr]
    · intro d p' r' hp hr
      obtain ⟨rfl, rfl⟩ := Pc.inside.inj (hq.symm.trans hp)
      obtain rfl := Option.some.inj (hqr.symm.trans hr)
      rw [hhist, ofTask_append_self, List.getLast?_concat]

/-- A step of one task keeps the answers of the others. -/
theorem Machine.Answers.other {l : Label} (hm : m.Answers u (invocations u ls))
    (hu : u ≠ l.task) (hpc : n.pc u = m.pc u)
    (hhist : n.history = m.history ∨ ∃ e, n.history = m.history ++ [(l.task, e)]) :
    n.Answers u (invocations u (ls ++ [l])) := by
  have hinv : invocations u (ls ++ [l]) = invocations u ls := by
    refine invocations_append ?_ ls
    rintro d rfl
    exact hu rfl
  rw [hinv]
  refine hm.congr hpc ?_
  obtain hsame | ⟨e, hadd⟩ := hhist
  · rw [hsame]
  · rw [hadd, ofTask_append_of_ne hu.symm]

theorem Linearised.act {l : Label} (hm : Linearised ls m) (hplaced : m.Placed)
    (hbound : m.currentLen ≤ globalfifoSize) (h : m.act l = some n) :
    Linearised (ls ++ [l]) n := by
  have hne : ∀ u, u ≠ l.task → n.pc u = m.pc u := fun u hu => (moves_of_act h).pc_of_ne hu
  obtain ⟨c, hl, hpc, rfl⟩ | ⟨c, p, hpc, hturn, hl⟩ | ⟨fatal, hl, rfl⟩ | ⟨hl, -, rfl⟩ :=
    cases_of_act h
  · refine ⟨hm.legal, fun u => ?_⟩
    by_cases hu : u = l.task
    · subst hu
      have hinv := invocations_append_call l.task c ls
      rw [← hl] at hinv
      rw [hinv]
      exact (hm.answers _).call hpc rfl (Function.update_self _ _ _)
    · exact (hm.answers u).other hu (hne u hu) (.inl rfl)
  · have hdec := hturn.decides (hplaced.visits _ c p hpc) hbound
      fun side hp hside => hplaced.ready _ c side (hp ▸ hpc) hside
    refine ⟨?_, fun u => ?_⟩
    · obtain ⟨hhist, hqueue, -⟩ | ⟨r, q, hhist, hserves, -⟩ := hdec
      · rw [hhist, hqueue]
        exact hm.legal
      · rw [hhist]
        exact hm.legal.snoc hserves
    · by_cases hu : u = l.task
      · subst hu
        rw [invocations_append (by rintro d heq; rw [heq] at hl; cases hl)]
        refine (hm.answers _).turn hpc ?_
        obtain ⟨hhist, -, hat⟩ | ⟨r, q, hhist, -, hat⟩ := hdec
        · exact .inl ⟨hhist, hat⟩
        · exact .inr ⟨r, q, hhist, hat⟩
      · refine (hm.answers u).other hu (hne u hu) ?_
        obtain ⟨hhist, -⟩ | ⟨r, -, hhist, -⟩ := hdec
        · exact .inl hhist
        · exact .inr ⟨_, hhist⟩
  · refine ⟨hm.legal, fun u => ?_⟩
    rw [invocations_append (by rw [hl]; exact fun d => nofun)]
    exact (hm.answers u).congr rfl rfl
  · refine ⟨hm.legal, fun u => ?_⟩
    rw [invocations_append (by rw [hl]; exact fun d => nofun)]
    exact (hm.answers u).congr rfl rfl

theorem linearised_of_replay (h : replay Machine.step ls globalfifoProbe = some m) :
    Linearised ls m := by
  refine replay_invariant h ?_ ?_
  · exact ⟨.nil, fun t => ⟨rfl, fun c p r hpc => nomatch hpc⟩⟩
  · intro ls m m' l hrun hm hstep
    have hreach := Reachable.of_replay hrun
    obtain ⟨n, hn, rfl⟩ := Option.map_eq_some_iff.mp hstep
    have hn' := hm.act (placed_of_reachable hreach) (accounted_of_reachable hreach).bounded hn
    exact ⟨hn'.legal, fun t => ⟨(hn'.answers t).calls, (hn'.answers t).reply⟩⟩

end Step

/-- In every schedule of any number of tasks the queue is bounded, and since the last
`FIFO_CLEAR` what writes accepted is what reads returned followed by what is queued.
The record behind this has one entry for each call of each task, in the order in which
it made them and with the reply the call returns; the bytes of a read are those at the
head of the queue, and the bytes of a write are a prefix of the caller's buffer. A call
that returns an error has not changed the queue. -/
theorem fifo_of_schedule {ls : List Label} {m : Machine}
    (h : replay Machine.step ls globalfifoProbe = some m) :
    m.currentLen ≤ globalfifoSize ∧
      movedSince .writer m.history = movedSince .reader m.history ++ m.queue ∧
      Legal Serves [] m.history m.queue ∧ (∀ t, m.Answers t (invocations t ls)) ∧
      ∀ t c e, m.pc t = .inside c (.out2 (.error e)) → m.touched t = false := by
  have hm := accounted_of_reachable (Reachable.of_replay h)
  have hlin := linearised_of_replay h
  refine ⟨hm.bounded, hm.balanced, hlin.legal, hlin.answers, ?_⟩
  intro t c e hpc
  refine hm.untouched t c _ hpc ?_
  rintro r ⟨⟩
  exact ⟨e, rfl⟩

/-- One task writes three bytes, another one reads two of them. -/
def writeThenRead : List Label :=
  .call 0 ⟨.write (fun i => UInt8.ofNat (97 + i)) 3, false⟩ :: List.replicate 6 (.go 0) ++
    .call 1 ⟨.read 2, false⟩ :: List.replicate 5 (.go 1)

theorem fifo_writeThenRead : ∃ m, replay Machine.step writeThenRead globalfifoProbe = some m ∧
    m.queue = [99] ∧ movedSince .writer m.history = [97, 98] ++ m.queue ∧
    Legal Serves [] m.history [99] := by
  obtain ⟨m, hrun, hqueue, hread⟩ :
      ∃ m, replay Machine.step writeThenRead globalfifoProbe = some m ∧
        m.queue = [99] ∧ movedSince .reader m.history = [97, 98] :=
    exists_of_replay_any (by decide +kernel)
  obtain ⟨-, hbalance, hlegal, -⟩ := fifo_of_schedule hrun
  rw [hread] at hbalance
  rw [hqueue] at hlegal
  exact ⟨m, hrun, hqueue, hbalance, hlegal⟩

section History

variable {m n : Machine} {t : Nat} {ls ks : List Label}

theorem Moves.history_prefix (h : Moves m t n) : m.history <+: n.history := by
  cases h with
  | wouldBlock | interrupted | badCommand | faultTake | faultGive | take | give | clear | poll =>
      exact List.prefix_append _ _
  | _ => exact List.prefix_refl _

theorem history_prefix_of_replay (h : replay Machine.step ks m = some n) :
    m.history <+: n.history := by
  refine replay_invariant (P := fun _ n => m.history <+: n.history) h (List.prefix_refl _) ?_
  intro ks n n' l _ hpre hstep
  obtain ⟨k, hk, rfl⟩ := moves_of_step hstep
  exact hpre.trans hk.history_prefix

end History

/-- Every schedule is explained by the sequential device, and what is decided
in its course is not revised: a call that has returned stands before every call
that is made later. -/
theorem linearised_of_schedule {ls ks : List Label} {m : Machine}
    (h : replay Machine.step (ls ++ ks) globalfifoProbe = some m) :
    Linearised (ls ++ ks) m ∧ ∃ n, replay Machine.step ls globalfifoProbe = some n ∧
      Linearised ls n ∧ n.history <+: m.history := by
  have hall := linearised_of_replay h
  rw [replay_append] at h
  obtain ⟨n, hn, hm⟩ := Option.bind_eq_some_iff.mp h
  exact ⟨hall, n, hn, linearised_of_replay hn, history_prefix_of_replay hm⟩

/-- A read starts before a write and takes effect after it. -/
def readAroundWrite : List Label :=
  [.call 0 ⟨.read 2, false⟩, .call 1 ⟨.write (fun _ => 7) 3, false⟩]

def bothReturn : List Label := List.replicate 6 (.go 1) ++ List.replicate 6 (.go 0)

theorem linearised_readAroundWrite : ∃ m n,
    replay Machine.step (readAroundWrite ++ bothReturn) globalfifoProbe = some m ∧
      replay Machine.step readAroundWrite globalfifoProbe = some n ∧
      Legal Serves [] m.history [7] ∧ (ofTask 0 m.history).map Prod.snd = [.moved [7, 7]] ∧
      n.undecided 0 = invocations 0 readAroundWrite := by
  obtain ⟨m, hrun, hqueue, hreply⟩ :
      ∃ m, replay Machine.step (readAroundWrite ++ bothReturn) globalfifoProbe = some m ∧
        m.queue = [7] ∧ (ofTask 0 m.history).map Prod.snd = [.moved [7, 7]] :=
    exists_of_replay_any (by decide +kernel)
  obtain ⟨hm, n, hn, hpart, -⟩ := linearised_of_schedule hrun
  refine ⟨m, n, hrun, hn, hqueue ▸ hm.legal, hreply, ?_⟩
  obtain rfl := Option.some.inj hn
  exact (hpart.answers 0).calls.symm

end LinuxDevelopment.Globalfifo
