import LinuxDevelopment.Globalfifo.Wakeup

/-!
# globalfifo: the turns of a task inside a call

`Moves` says what a step may do to the machine. Here a step of a task inside a
call is inverted with every test the code makes on the way. From it follow the
points a call can come to at all, and what a task that holds the mutex may rely
on until it gives it up.
-/

namespace LinuxDevelopment.Globalfifo

/-- The call takes the mutex: every call but an unknown command. -/
def Request.locks : Request → Bool
  | .ioctl cmd => cmd == fifoClear
  | _ => true

/-- The step is a turn of the task inside a call. -/
def Label.isTurn (t : Nat) : Label → Bool
  | .go u => u == t
  | .fault u _ => u == t
  | _ => false

/-- A turn of the task `t` in the call `c` at a point. -/
inductive Turn (m : Machine) (t : Nat) (c : Call) : Point → Machine → Prop where
  | enter {side : Side} (hside : c.request.side = some side) (hfree : m.mutex = none) :
      Turn m t c .entry (((m.lock t).addWaitQueue t side).goto t c .loop)
  | wouldBlock {side : Side} (hside : c.request.side = some side)
      (hwait : side.mustWait m.currentLen = true) (hnon : c.nonblock = true) :
      Turn m t c .loop ((m.settle t c (.error .eagain)).goto t c (.out (.error .eagain)))
  | sleep {side : Side} (hside : c.request.side = some side)
      (hwait : side.mustWait m.currentLen = true) (hnon : c.nonblock = false) :
      Turn m t c .loop ((m.setState t side.sleepState).goto t c .unlock)
  | proceed {side : Side} (hside : c.request.side = some side)
      (hready : side.mustWait m.currentLen = false) : Turn m t c .loop (m.goto t c .body)
  | unlock {side : Side} (hside : c.request.side = some side) :
      Turn m t c .unlock (m.unlock.goto t c .schedule)
  | scheduled {side : Side} (hside : c.request.side = some side) (hrun : m.runnable t = true) :
      Turn m t c .schedule ((m.setState t .running).goto t c .signals)
  | interrupted {side : Side} (hside : c.request.side = some side)
      (hint : side.interrupted m t = true) : Turn m t c .signals
        ((m.settle t c (.error .erestartsys)).goto t c (.out2 (.error .erestartsys)))
  | retry {side : Side} (hside : c.request.side = some side)
      (hint : side.interrupted m t = false) : Turn m t c .signals (m.goto t c .relock)
  | relock {side : Side} (hside : c.request.side = some side) (hfree : m.mutex = none) :
      Turn m t c .relock ((m.lock t).goto t c .loop)
  | take {count : Nat} (hreq : c.request = .read count) :
      Turn m t c .body (((m.takeBytes count).settle t c (.moved (m.taken count))).goto t c
        (.wakeUp (.moved (m.taken count))))
  | give {buf : Buffer} {count : Nat} (hreq : c.request = .write buf count) :
      Turn m t c .body (((m.giveBytes buf count).settle t c (.moved (m.given buf count))).goto t c
        (.wakeUp (.moved (m.given buf count))))
  | faultTake {count : Nat} (hreq : c.request = .read count) :
      Turn m t c .body ((m.settle t c (.error .efault)).goto t c (.out (.error .efault)))
  | faultGive {buf : Buffer} {count : Nat} (junk : List UInt8)
      (hreq : c.request = .write buf count) :
      Turn m t c .body (({ m with mem := m.mem.splice m.currentLen junk }.settle t c
        (.error .efault)).goto t c (.out (.error .efault)))
  | wakeUp {side : Side} {r : Reply} (hside : c.request.side = some side) :
      Turn m t c (.wakeUp r) ((m.wakeUpInterruptible side.other).goto t c (.out r))
  | out {r : Reply} (hlocks : c.request.locks = true) :
      Turn m t c (.out r) (m.unlock.goto t c (.out2 r))
  | leaveQueue {side : Side} {r : Reply} (hside : c.request.side = some side) :
      Turn m t c (.out2 r) (((m.removeWaitQueue t side).setState t .running).leave t)
  | lockBody (hside : c.request.side = none) (hlocks : c.request.locks = true)
      (hfree : m.mutex = none) : Turn m t c .entry ((m.lock t).goto t c .body)
  | badCommand (hside : c.request.side = none) (hlocks : c.request.locks = false) :
      Turn m t c .entry ((m.settle t c (.error .einval)).goto t c (.out2 (.error .einval)))
  | clear (hreq : c.request = .ioctl fifoClear) :
      Turn m t c .body ((m.clear.settle t c (.value 0)).goto t c (.out (.value 0)))
  | poll (hreq : c.request = .poll) :
      Turn m t c .body ((m.settle t c (.value m.pollMask)).goto t c (.out (.value m.pollMask)))
  | leave {r : Reply} (hside : c.request.side = none) : Turn m t c (.out2 r) (m.leave t)

@[simp] theorem Machine.pc_goto (m : Machine) (t : Nat) (c : Call) (p : Point) :
    (m.goto t c p).pc t = .inside c p := Function.update_self _ _ _

@[simp] theorem Machine.pc_leave (m : Machine) (t : Nat) : (m.leave t).pc t = .user :=
  Function.update_self _ _ _

section Inversion

variable {m n : Machine} {t : Nat} {c : Call} {p : Point}

theorem Request.locks_of_side {r : Request} {side : Side} (h : r.side = some side) :
    r.locks = true := by
  cases r <;> first | rfl | cases h

theorem turn_of_transfer {side : Side} {copy : Machine} (hside : c.request.side = some side)
    (hcopy : Turn m t c .body copy) (h : m.transfer t side c copy p = some n) :
    Turn m t c p n := by
  cases p with
  | entry =>
      obtain ⟨hfree, ⟨⟩⟩ := Option.ite_none_right_eq_some.mp h
      exact .enter hside hfree
  | loop =>
      simp only [Machine.transfer] at h
      split at h
      · rename_i hwait
        split at h
        · rename_i hnon
          obtain rfl := Option.some.inj h
          exact .wouldBlock hside hwait hnon
        · rename_i hnon
          obtain rfl := Option.some.inj h
          exact .sleep hside hwait (Bool.eq_false_iff.mpr hnon)
      · rename_i hwait
        obtain rfl := Option.some.inj h
        exact .proceed hside (Bool.eq_false_iff.mpr hwait)
  | unlock =>
      obtain rfl := Option.some.inj h
      exact .unlock hside
  | schedule =>
      obtain ⟨hrun, ⟨⟩⟩ := Option.ite_none_right_eq_some.mp h
      exact .scheduled hside hrun
  | signals =>
      simp only [Machine.transfer] at h
      split at h
      · rename_i hint
        obtain rfl := Option.some.inj h
        exact .interrupted hside hint
      · rename_i hint
        obtain rfl := Option.some.inj h
        exact .retry hside (Bool.eq_false_iff.mpr hint)
  | relock =>
      obtain ⟨hfree, ⟨⟩⟩ := Option.ite_none_right_eq_some.mp h
      exact .relock hside hfree
  | body =>
      obtain rfl := Option.some.inj h
      exact hcopy
  | wakeUp r =>
      obtain rfl := Option.some.inj h
      exact .wakeUp hside
  | out r =>
      obtain rfl := Option.some.inj h
      exact .out (Request.locks_of_side hside)
  | out2 r =>
      obtain rfl := Option.some.inj h
      exact .leaveQueue hside

theorem turn_of_globalfifoIoctl {cmd : Nat} (hreq : c.request = .ioctl cmd)
    (h : m.globalfifoIoctl t c cmd p = some n) : Turn m t c p n := by
  have hside : c.request.side = none := by rw [hreq]; rfl
  unfold Machine.globalfifoIoctl at h
  split at h
  · rename_i hcmd
    subst hcmd
    have hlocks : c.request.locks = true := by rw [hreq]; rfl
    cases p with
    | entry =>
        obtain ⟨hfree, ⟨⟩⟩ := Option.ite_none_right_eq_some.mp h
        exact .lockBody hside hlocks hfree
    | body =>
        obtain rfl := Option.some.inj h
        exact .clear hreq
    | out r =>
        obtain rfl := Option.some.inj h
        exact .out hlocks
    | out2 r =>
        obtain rfl := Option.some.inj h
        exact .leave hside
    | _ => cases h
  · rename_i hcmd
    have hlocks : c.request.locks = false := by
      rw [hreq]
      exact beq_false_of_ne hcmd
    cases p with
    | entry =>
        obtain rfl := Option.some.inj h
        exact .badCommand hside hlocks
    | out2 r =>
        obtain rfl := Option.some.inj h
        exact .leave hside
    | _ => cases h

theorem turn_of_globalfifoPoll (hreq : c.request = .poll)
    (h : m.globalfifoPoll t c p = some n) : Turn m t c p n := by
  have hside : c.request.side = none := by rw [hreq]; rfl
  have hlocks : c.request.locks = true := by rw [hreq]; rfl
  cases p with
  | entry =>
      obtain ⟨hfree, ⟨⟩⟩ := Option.ite_none_right_eq_some.mp h
      exact .lockBody hside hlocks hfree
  | body =>
      obtain rfl := Option.some.inj h
      exact .poll hreq
  | out r =>
      obtain rfl := Option.some.inj h
      exact .out hlocks
  | out2 r =>
      obtain rfl := Option.some.inj h
      exact .leave hside
  | _ => cases h

theorem turn_of_go (h : m.go t = some n) : ∃ c p, m.pc t = .inside c p ∧ Turn m t c p n := by
  unfold Machine.go at h
  split at h
  · cases h
  · rename_i c p hpc
    refine ⟨c, p, hpc, ?_⟩
    split at h
    · rename_i count hreq
      exact turn_of_transfer (by rw [hreq]; rfl) (.take hreq) h
    · rename_i buf count hreq
      exact turn_of_transfer (by rw [hreq]; rfl) (.give hreq) h
    · rename_i cmd hreq
      exact turn_of_globalfifoIoctl hreq h
    · rename_i hreq
      exact turn_of_globalfifoPoll hreq h

theorem turn_of_fault {junk : List UInt8} (h : m.fault t junk = some n) :
    ∃ c p, m.pc t = .inside c p ∧ Turn m t c p n := by
  unfold Machine.fault at h
  split at h
  · rename_i c hpc
    refine ⟨c, .body, hpc, ?_⟩
    split at h
    · rename_i count hreq
      obtain ⟨-, ⟨⟩⟩ := Option.ite_none_right_eq_some.mp h
      exact .faultTake hreq
    · rename_i buf count hreq
      obtain ⟨-, ⟨⟩⟩ := Option.ite_none_right_eq_some.mp h
      exact .faultGive junk hreq
    · cases h
  · cases h

/-- What a step does: a task calls the driver, takes a turn inside it, gets a
signal or handles its signals. -/
theorem cases_of_act {l : Label} (h : m.act l = some n) :
    (∃ c, l = .call l.task c ∧ m.pc l.task = .user ∧
      n = { m with touched := Function.update m.touched l.task false }.goto l.task c .entry) ∨
    (∃ c p, m.pc l.task = .inside c p ∧ Turn m l.task c p n ∧ l.isTurn l.task = true) ∨
    (∃ fatal, l = .signal l.task fatal ∧ n = m.signal l.task fatal) ∨
    (l = .handleSignals l.task ∧ m.pc l.task = .user ∧ n = m.handleSignals l.task) := by
  cases l with
  | call t c =>
      simp only [Machine.act] at h
      split at h
      · rename_i hpc
        obtain rfl := Option.some.inj h
        exact .inl ⟨c, rfl, hpc, rfl⟩
      · cases h
  | go t =>
      obtain ⟨c, p, hpc, hturn⟩ := turn_of_go h
      exact .inr (.inl ⟨c, p, hpc, hturn, beq_self_eq_true t⟩)
  | fault t junk =>
      obtain ⟨c, p, hpc, hturn⟩ := turn_of_fault h
      exact .inr (.inl ⟨c, p, hpc, hturn, beq_self_eq_true t⟩)
  | signal t fatal =>
      obtain rfl := Option.some.inj h
      exact .inr (.inr (.inl ⟨fatal, rfl, rfl⟩))
  | handleSignals t =>
      simp only [Machine.act] at h
      split at h
      · rename_i hpc
        obtain rfl := Option.some.inj h
        exact .inr (.inr (.inr ⟨rfl, hpc, rfl⟩))
      · cases h

end Inversion

section Placement

/-- The points a call comes to. Only a call that may block gets into the body
of the loop. -/
def Call.Visits (c : Call) : Point → Prop
  | .entry => True
  | .loop => ∃ side, c.request.side = some side
  | .unlock => (∃ side, c.request.side = some side) ∧ c.nonblock = false
  | .schedule => (∃ side, c.request.side = some side) ∧ c.nonblock = false
  | .signals => (∃ side, c.request.side = some side) ∧ c.nonblock = false
  | .relock => (∃ side, c.request.side = some side) ∧ c.nonblock = false
  | .body => c.request.locks = true
  | .wakeUp _ => ∃ side, c.request.side = some side
  | .out _ => c.request.locks = true
  | .out2 _ => True

/-- Every task is at a point its call comes to, and a read or a write behind
the loop still finds its condition false. -/
structure Machine.Placed (m : Machine) : Prop where
  visits : ∀ t c p, m.pc t = .inside c p → c.Visits p
  ready : ∀ t c side, m.pc t = .inside c .body → c.request.side = some side →
    side.mustWait m.currentLen = false

variable {m n : Machine} {t : Nat} {c d : Call} {p q : Point}

theorem Turn.visits (h : Turn m t c p n) (hp : c.Visits p) (hpc : n.pc t = .inside d q) :
    d.Visits q := by
  cases h with
  | leaveQueue | leave => simp [Machine.leave] at hpc
  | enter hside | proceed hside | wakeUp hside | relock hside =>
      obtain ⟨rfl, rfl⟩ := Pc.inside_of_update hpc
      first
      | exact ⟨_, hside⟩
      | exact Request.locks_of_side hside
  | sleep hside hwait hnon =>
      obtain ⟨rfl, rfl⟩ := Pc.inside_of_update hpc
      exact ⟨⟨_, hside⟩, hnon⟩
  | wouldBlock hside =>
      obtain ⟨rfl, rfl⟩ := Pc.inside_of_update hpc
      exact Request.locks_of_side hside
  | unlock | scheduled | retry | faultTake | faultGive | clear | poll =>
      obtain ⟨rfl, rfl⟩ := Pc.inside_of_update hpc
      exact hp
  | take hreq | give hreq =>
      obtain ⟨rfl, rfl⟩ := Pc.inside_of_update hpc
      exact ⟨_, congrArg Request.side hreq⟩
  | lockBody hside hlocks =>
      obtain ⟨rfl, rfl⟩ := Pc.inside_of_update hpc
      exact hlocks
  | interrupted | out | badCommand =>
      obtain ⟨rfl, rfl⟩ := Pc.inside_of_update hpc
      trivial

/-- A turn that changes the length is one at the body of a call. -/
theorem Turn.currentLen (h : Turn m t c p n) : n.currentLen = m.currentLen ∨ p = .body := by
  cases h with
  | take | give | clear => exact .inr rfl
  | _ => exact .inl rfl

theorem Turn.ready {side : Side} (h : Turn m t c p n) (hpc : n.pc t = .inside d .body)
    (hside : d.request.side = some side) : side.mustWait n.currentLen = false := by
  cases h with
  | proceed hs hready =>
      obtain ⟨rfl, -⟩ := Pc.inside_of_update hpc
      obtain rfl := Option.some.inj (hs.symm.trans hside)
      exact hready
  | lockBody hs =>
      obtain ⟨rfl, -⟩ := Pc.inside_of_update hpc
      cases hs.symm.trans hside
  | leaveQueue | leave => simp [Machine.leave] at hpc
  | _ => cases (Pc.inside_of_update hpc).2

theorem Machine.Placed.act {l : Label} (hm : m.Placed) (hex : m.Exclusive)
    (h : m.act l = some n) : n.Placed := by
  have hmoves := moves_of_act h
  obtain ⟨c, -, -, rfl⟩ | ⟨c, p, hpc, hturn, -⟩ | ⟨fatal, -, rfl⟩ | ⟨-, -, rfl⟩ := cases_of_act h
  · constructor
    · intro u d q hu
      by_cases hut : u = l.task
      · subst hut
        obtain ⟨rfl, rfl⟩ := Pc.inside_of_update hu
        trivial
      · exact hm.visits u d q ((hmoves.pc_of_ne hut).symm.trans hu)
    · intro u d side hu hside
      by_cases hut : u = l.task
      · subst hut
        cases (Pc.inside_of_update hu).2
      · exact hm.ready u d side ((hmoves.pc_of_ne hut).symm.trans hu) hside
  · constructor
    · intro u d q hu
      by_cases hut : u = l.task
      · subst hut
        exact hturn.visits (hm.visits _ c p hpc) hu
      · exact hm.visits u d q ((hmoves.pc_of_ne hut).symm.trans hu)
    · intro u d side hu hside
      by_cases hut : u = l.task
      · subst hut
        exact hturn.ready hu hside
      · have hold : m.pc u = .inside d .body := (hmoves.pc_of_ne hut).symm.trans hu
        obtain hlen | rfl := hturn.currentLen
        · rw [hlen]
          exact hm.ready u d side hold hside
        · -- two tasks cannot both be at the body: it is run under the mutex
          have hown := hex u d _ hold trivial
          exact absurd (Option.some.inj (hown.symm.trans (hex _ c _ hpc trivial))) hut
  · exact ⟨hm.visits, hm.ready⟩
  · exact ⟨hm.visits, hm.ready⟩

theorem placed_of_reachable (h : Reachable Machine.step globalfifoProbe m) : m.Placed := by
  refine Reaches.invariant h ?_ ?_
  · constructor
    · intro t c p hpc
      cases hpc
    · intro t c side hpc
      cases hpc
  · intro m m' l hrun hm _ hstep
    obtain ⟨n, hn, rfl⟩ := Option.map_eq_some_iff.mp hstep
    have hn' := hm.act (exclusive_of_reachable hrun) hn
    exact ⟨hn'.visits, hn'.ready⟩

end Placement

end LinuxDevelopment.Globalfifo
