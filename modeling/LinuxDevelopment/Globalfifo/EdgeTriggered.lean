import LinuxDevelopment.Globalfifo.Notification

/-!
# globalfifo: the edge-triggered client of `epoll.c`

`call_epoll` registers the device with `EPOLLIN | EPOLLET` and reads at most 100
bytes for each event. An edge-triggered client is told of the device again only
when the driver gives notice of it, by what `globalfifo_poll` returns or by a
wake-up of a queue the client is on; so bytes that such a read leaves behind would
be forgotten if no notice was given of them. It is: `globalfifo_poll` puts the
client on both wait queues, and the wake-up of the writers at the end of
`globalfifo_read` has no key, so the read of the client itself gives the notice.

Nothing is said here about what the kernel makes of a notice. While the client is
in `epoll_wait` the kernel may poll the device and may return to the client at any
moment. The other tasks call the driver as before. The named pipe `epoll.c` also
watches does not touch the device and is left out, as is the time limit of
`epoll_wait`.
-/

namespace LinuxDevelopment.Globalfifo

/-- `EPOLLIN`. -/
def epollin : Nat := 0x001

/-- `sizeof(buf)` in `call_epoll`. -/
def sizeofBuf : Nat := 100

/-- Where the client stands in `call_epoll`. -/
inductive Phase where
  /-- the device is open, before `epoll_ctl` -/
  | opened
  /-- in `epoll_ctl(epfd, EPOLL_CTL_ADD, fifofd, &ev)`, which polls the file -/
  | adding
  /-- in `epoll_wait`, or on the way to it -/
  | waiting
  /-- in `epoll_wait`, which polls the file -/
  | checking
  /-- `epoll_wait` has reported the device -/
  | reported
  /-- in `read(events[i].data.fd, buf, 100)` -/
  | reading
  | ended
  deriving DecidableEq, Repr

/-- The device and the client. The last field records what the driver has done and is
not read by anyone. -/
structure Epoll where
  device : Machine
  phase : Phase
  /-- `poll_wait` has put the client on `r_wait` and `w_wait` -/
  watching : Bool
  /-- the last poll for the client had `EPOLLIN` in its mask, or a queue it is on was
  woken since then, and it was not told of the device since -/
  notice : Bool

/-- The step is a wake-up of one of the two queues. It carries no key, so it counts
for all that is on the queue. -/
def Machine.alerts (m : Machine) (l : Label) : Bool := m.wakes .reader l || m.wakes .writer l

/-- Not a step of the client in the driver. -/
def Label.outside (me : Nat) : Label → Bool
  | .call t _ => t != me
  | .go t => t != me
  | .fault t _ => t != me
  | .signal _ _ => true
  | .handleSignals _ => true

inductive Move where
  | other (l : Label)
  /-- the client goes on in the driver or calls it, in `epoll_wait` to poll the device -/
  | client
  /-- `epoll_wait` returns with an event of the device -/
  | report

namespace Epoll

variable (me : Nat) (s : Epoll)

/-- A step of the device. -/
def deviceStep (l : Label) : Option Epoll :=
  (s.device.step l).map fun m =>
    { s with device := m, notice := s.notice || (s.watching && s.device.alerts l) }

/-- What the client does with the answer of a call. Its `read` fails only if a fatal
signal is pending. -/
def finish (r : Reply) : Epoll :=
  match s.phase, r with
  | .adding, .value _ => { s with phase := .waiting }
  | .checking, .value _ => { s with phase := .waiting }
  | .reading, .moved _ => { s with phase := .waiting }
  | _, _ => { s with phase := .ended }

/-- The body of `globalfifo_poll`. When it is called by `epoll_ctl` its `poll_wait` puts
the client on the two queues. -/
def polled : Epoll :=
  { s with
    watching := s.watching || s.phase == .adding
    notice := s.device.pollMask &&& epollin != 0 }

/-- The client inside the driver. -/
def clientGo (p : Point) : Option Epoll :=
  match p, s.phase with
  | .body, .adding => s.polled.deviceStep (.go me)
  | .body, .checking => s.polled.deviceStep (.go me)
  | .out2 r, _ => (s.deviceStep (.go me)).map fun s => s.finish r
  | _, _ => s.deviceStep (.go me)

/-- The client outside of the driver. -/
def clientCall : Option Epoll :=
  match s.phase with
  | .opened => (s.deviceStep (.call me ⟨.poll, false⟩)).map fun s => { s with phase := .adding }
  | .waiting => (s.deviceStep (.call me ⟨.poll, false⟩)).map fun s => { s with phase := .checking }
  | .reported =>
      (s.deviceStep (.call me ⟨.read sizeofBuf, false⟩)).map fun s => { s with phase := .reading }
  | _ => none

def step (s : Epoll) : Move → Option Epoll
  | .other l => if l.outside me then s.deviceStep l else none
  | .client =>
      match s.device.pc me with
      | .user => s.clientCall me
      | .inside _ p => s.clientGo me p
  | .report =>
      if s.phase = .waiting then some { s with phase := .reported, notice := false } else none

/-- Notice was given, or the device is empty, or a wake-up is due. -/
def Armed : Prop := s.notice = true ∨ s.device.Silent .reader

/-- A point of `globalfifo_poll`: once the mask is known the client is on the queues, and
notice is given of what is there. -/
def Polls : Point → Prop
  | .entry => True
  | .body => True
  | .out (.value _) => s.watching = true ∧ s.Armed
  | .out2 (.value _) => s.watching = true ∧ s.Armed
  | _ => False

/-- A point of `globalfifo_read`: when bytes have been moved and the writers woken, the
client has its notice. -/
def Reads : Point → Prop
  | .out (.moved _) => s.notice = true
  | .out2 (.moved _) => s.notice = true
  | _ => True

/-- What holds while the client is where it is. -/
def Fits : Phase → Pc → Prop
  | .opened, .user => True
  | .adding, .inside c p => c.request = .poll ∧ s.Polls p
  | .waiting, .user => s.watching = true ∧ s.Armed
  | .checking, .inside c p => c.request = .poll ∧ s.watching = true ∧ s.Polls p
  | .reported, .user => s.watching = true
  | .reading, .inside c p =>
      c.request = .read sizeofBuf ∧ s.watching = true ∧ s.Reads p
  | .ended, _ => True
  | _, _ => False

end Epoll

section Steps

variable {me : Nat} {s s' : Epoll} {l : Label}

namespace Epoll

theorem deviceStep_cases (h : s.deviceStep l = some s') :
    ∃ m, s.device.act l = some m ∧ s' = { s with
      device := s.device.observe l.task m
      notice := s.notice || (s.watching && s.device.alerts l) } := by
  obtain ⟨m', hm', rfl⟩ := Option.map_eq_some_iff.mp h
  obtain ⟨m, hm, rfl⟩ := Option.map_eq_some_iff.mp hm'
  exact ⟨m, hm, rfl⟩

/-- A step of the device gives notice of what it adds. -/
theorem Armed.deviceStep (harmed : s.Armed) (hwatching : s.watching = true)
    (h : s.deviceStep l = some s') : s'.Armed := by
  obtain ⟨m, hm, rfl⟩ := deviceStep_cases h
  obtain hnotice | hsilent := harmed
  · left
    dsimp only
    rw [hnotice, Bool.true_or]
  · obtain hsilent | hwakes | ⟨hside, -⟩ := hsilent.act hm
    · exact .inr hsilent
    · left
      simp [hwatching, Machine.alerts, hwakes]
    · cases hside

theorem notice_deviceStep (hnotice : s.notice = true) (h : s.deviceStep l = some s') :
    s'.notice = true := by
  obtain ⟨m, -, rfl⟩ := deviceStep_cases h
  dsimp only
  rw [hnotice, Bool.true_or]

theorem watching_deviceStep (h : s.deviceStep l = some s') : s'.watching = s.watching := by
  obtain ⟨m, -, rfl⟩ := deviceStep_cases h
  rfl

theorem phase_deviceStep (h : s.deviceStep l = some s') : s'.phase = s.phase := by
  obtain ⟨m, -, rfl⟩ := deviceStep_cases h
  rfl

theorem Polls.deviceStep {p : Point} (hp : s.Polls p) (h : s.deviceStep l = some s') :
    s'.Polls p := by
  cases p with
  | out r =>
      cases r with
      | value mask => exact ⟨(watching_deviceStep h).trans hp.1, hp.2.deviceStep hp.1 h⟩
      | _ => exact hp
  | out2 r =>
      cases r with
      | value mask => exact ⟨(watching_deviceStep h).trans hp.1, hp.2.deviceStep hp.1 h⟩
      | _ => exact hp
  | _ => exact hp

theorem Reads.deviceStep {p : Point} (hp : s.Reads p) (h : s.deviceStep l = some s') :
    s'.Reads p := by
  cases p with
  | out r =>
      cases r with
      | moved bytes => exact notice_deviceStep hp h
      | _ => exact hp
  | out2 r =>
      cases r with
      | moved bytes => exact notice_deviceStep hp h
      | _ => exact hp
  | _ => exact hp

/-- A step of another task, while the client stays where it is. -/
theorem Fits.deviceStep {phase : Phase} {pc : Pc} (hf : s.Fits phase pc)
    (h : s.deviceStep l = some s') : s'.Fits phase pc := by
  have hwatching := watching_deviceStep h
  cases phase <;> cases pc <;> try exact hf
  case adding.inside c p => exact ⟨hf.1, hf.2.deviceStep h⟩
  case waiting.user => exact ⟨hwatching.trans hf.1, hf.2.deviceStep hf.1 h⟩
  case checking.inside c p => exact ⟨hf.1, hwatching.trans hf.2.1, hf.2.2.deviceStep h⟩
  case reported.user => exact hwatching.trans hf
  case reading.inside c p => exact ⟨hf.1, hwatching.trans hf.2.1, hf.2.2.deviceStep h⟩

theorem pc_of_outside (hl : l.outside me = true) {m n : Machine} (h : m.act l = some n) :
    n.pc me = m.pc me := by
  by_cases htask : l.task = me
  · cases l with
    | signal t fatal =>
        obtain rfl := Option.some.inj h
        rfl
    | handleSignals t =>
        obtain ⟨c, hc, -⟩ | ⟨c, p, -, -, hturn⟩ | ⟨fatal, hc, -⟩ | ⟨-, -, rfl⟩ := cases_of_act h
        · cases hc
        · cases hturn
        · cases hc
        · rfl
    | _ =>
        have hne := ne_of_beq_false (Bool.not_eq_true' _ ▸ hl)
        exact absurd htask hne
  · exact (moves_of_act h).pc_of_ne (Ne.symm htask)

theorem pc_call {c : Call} (hpc : s.device.pc me = .user)
    (h : s.deviceStep (.call me c) = some s') : s'.device.pc me = .inside c .entry := by
  obtain ⟨m, hm, rfl⟩ := deviceStep_cases h
  simp only [Machine.act, hpc] at hm
  obtain rfl := Option.some.inj hm
  exact Machine.pc_goto ..

/-- The client calls the driver. -/
theorem Fits.clientCall (hf : s.Fits s.phase .user) (hpc : s.device.pc me = .user)
    (h : s.clientCall me = some s') : s'.Fits s'.phase (s'.device.pc me) := by
  unfold Epoll.clientCall at h
  cases hphase : s.phase <;> rw [hphase] at h hf <;> dsimp only at h
  case opened =>
    obtain ⟨t, ht, rfl⟩ := Option.map_eq_some_iff.mp h
    dsimp only
    rw [pc_call hpc ht]
    exact ⟨rfl, trivial⟩
  case waiting =>
    obtain ⟨t, ht, rfl⟩ := Option.map_eq_some_iff.mp h
    dsimp only
    rw [pc_call hpc ht]
    exact ⟨rfl, (watching_deviceStep ht).trans hf.1, trivial⟩
  case reported =>
    obtain ⟨t, ht, rfl⟩ := Option.map_eq_some_iff.mp h
    dsimp only
    rw [pc_call hpc ht]
    exact ⟨rfl, (watching_deviceStep ht).trans hf, trivial⟩
  all_goals cases h

/-- The step of the client in the driver, as a turn of the machine. -/
theorem turn_deviceStep {c : Call} {p : Point} (hpc : s.device.pc me = .inside c p)
    (h : s.deviceStep (.go me) = some s') :
    ∃ m, Turn s.device me c p m ∧ s'.device.pc me = m.pc me ∧
      s'.device.currentLen = m.currentLen := by
  obtain ⟨m, hm, rfl⟩ := deviceStep_cases h
  obtain ⟨d, q, hd, hturn⟩ := turn_of_go hm
  obtain ⟨rfl, rfl⟩ := Pc.inside.inj (hpc.symm.trans hd)
  exact ⟨m, hturn, rfl, rfl⟩

theorem pollMask_and_epollin {m : Machine} (h : m.pollMask &&& epollin = 0) : m.currentLen = 0 := by
  by_contra hlen
  unfold Machine.pollMask at h
  rw [if_pos hlen] at h
  split at h <;> exact absurd h (by decide)

/-- The mask of `globalfifo_poll` tells whether there are bytes. -/
theorem polled_notice : s.polled.notice = true ∨ s.device.currentLen = 0 := by
  by_cases hmask : s.device.pollMask &&& epollin = 0
  · exact .inr (pollMask_and_epollin hmask)
  · exact .inl (bne_iff_ne.mpr hmask)

/-- Outside of the body of `globalfifo_poll` and before its return the client makes a
step of the device and nothing else. -/
theorem clientGo_of_ne {p : Point} (hbody : p = .body → s.phase ≠ .adding ∧ s.phase ≠ .checking)
    (hout : ∀ r, p ≠ .out2 r) (h : s.clientGo me p = some s') :
    s.deviceStep (.go me) = some s' := by
  cases p with
  | body =>
      obtain ⟨hadding, hchecking⟩ := hbody rfl
      cases hs : s.phase with
      | adding => exact absurd hs hadding
      | checking => exact absurd hs hchecking
      | _ =>
          simp only [Epoll.clientGo, hs] at h
          exact h
  | out2 r => exact absurd rfl (hout r)
  | _ => exact h

/-- The body of `globalfifo_poll`: from here on the client is on the queues, and either
gets a notice or has seen an empty buffer. -/
theorem Polls.body {c : Call} (hreq : c.request = .poll) (hpc : s.device.pc me = .inside c .body)
    (hphase : s.phase = .adding ∨ s.phase = .checking ∧ s.watching = true)
    (h : s.clientGo me .body = some s') :
    ∃ q, s'.device.pc me = .inside c q ∧ s'.Polls q ∧ s'.phase = s.phase ∧
      s'.watching = true := by
  have hstep : s.polled.deviceStep (.go me) = some s' := by
    obtain hs | ⟨hs, -⟩ := hphase
    all_goals
      simp only [Epoll.clientGo, hs] at h
      exact h
  have hwatching : s'.watching = true := by
    rw [watching_deviceStep hstep]
    change (s.watching || s.phase == .adding) = true
    obtain hs | ⟨-, hwatching⟩ := hphase
    · simp [hs]
    · simp [hwatching]
  have hpc₀ : s.polled.device.pc me = .inside c .body := hpc
  obtain ⟨m, hturn, hpc', hlen⟩ := turn_deviceStep hpc₀ hstep
  have hphase' := phase_deviceStep hstep
  cases hturn with
  | poll =>
      refine ⟨.out (.value s.device.pollMask), hpc'.trans (Machine.pc_goto ..),
        ⟨hwatching, ?_⟩, hphase', hwatching⟩
      obtain hnotice | hempty := polled_notice (s := s)
      · exact .inl (notice_deviceStep hnotice hstep)
      · refine .inr (.inl ?_)
        rw [hlen]
        exact beq_iff_eq.mpr hempty
  | take h' => cases hreq.symm.trans h'
  | give h' => cases hreq.symm.trans h'
  | faultTake h' => cases hreq.symm.trans h'
  | faultGive _ h' => cases hreq.symm.trans h'
  | clear h' => cases hreq.symm.trans h'

/-- `globalfifo_poll` on behalf of the client, up to its return. -/
theorem Polls.clientGo {c : Call} {p : Point} (hreq : c.request = .poll)
    (hpc : s.device.pc me = .inside c p) (hp : s.Polls p)
    (hphase : s.phase = .adding ∨ s.phase = .checking ∧ s.watching = true)
    (hout : ∀ r, p ≠ .out2 r) (h : s.clientGo me p = some s') :
    ∃ q, s'.device.pc me = .inside c q ∧ s'.Polls q ∧ s'.phase = s.phase ∧
      (s.watching = true → s'.watching = true) := by
  have hside : ∀ side, c.request.side ≠ some side := by
    intro side heq
    rw [hreq] at heq
    cases heq
  cases p with
  | entry =>
      obtain ⟨m, hturn, hpc', -⟩ := turn_deviceStep hpc h
      refine ⟨.body, ?_, trivial, phase_deviceStep h, (watching_deviceStep h).trans⟩
      rw [hpc']
      cases hturn with
      | enter hs => exact absurd hs (hside _)
      | lockBody => exact Machine.pc_goto ..
      | badCommand _ hlocks =>
          rw [hreq] at hlocks
          cases hlocks
  | body =>
      obtain ⟨q, hpc', hq, hphase', hwatching⟩ := Polls.body hreq hpc hphase h
      exact ⟨q, hpc', hq, hphase', fun _ => hwatching⟩
  | out r =>
      obtain ⟨m, hturn, hpc', -⟩ := turn_deviceStep hpc h
      have hp' := hp.deviceStep h
      refine ⟨.out2 r, ?_, ?_, phase_deviceStep h, (watching_deviceStep h).trans⟩
      · rw [hpc']
        cases hturn with
        | out => exact Machine.pc_goto ..
      · cases r with
        | value mask => exact hp'
        | _ => exact hp'
  | out2 r => exact absurd rfl (hout r)
  | _ => exact absurd hp id

/-- `globalfifo_read` of the client, up to its return. The wake-up of the writers is
also a notice for the client. -/
theorem Reads.clientGo {c : Call} {p : Point} (hreq : c.request = .read sizeofBuf)
    (hpc : s.device.pc me = .inside c p) (hp : s.Reads p) (hwatching : s.watching = true)
    (hs : s.phase = .reading) (hout : ∀ r, p ≠ .out2 r) (h : s.clientGo me p = some s') :
    ∃ q, s'.device.pc me = .inside c q ∧ s'.Reads q ∧ s'.phase = .reading ∧
      s'.watching = true := by
  have hstep : s.deviceStep (.go me) = some s' := by
    refine clientGo_of_ne (fun _ => ?_) hout h
    rw [hs]
    exact ⟨by rintro ⟨⟩, by rintro ⟨⟩⟩
  have hphase := (phase_deviceStep hstep).trans hs
  have hwatching' := (watching_deviceStep hstep).trans hwatching
  obtain ⟨m, hturn, hpc', -⟩ := turn_deviceStep hpc hstep
  have hgoto : ∀ (k : Machine) (q : Point), m = k.goto me c q → s'.Reads q →
      ∃ q, s'.device.pc me = .inside c q ∧ s'.Reads q ∧ s'.phase = .reading ∧
        s'.watching = true := by
    rintro k q rfl hq
    exact ⟨q, hpc'.trans (Machine.pc_goto ..), hq, hphase, hwatching'⟩
  cases hturn with
  | wakeUp hside =>
      refine hgoto _ _ rfl ?_
      rename_i r
      cases r with
      | moved bytes =>
          obtain ⟨k, -, rfl⟩ := deviceStep_cases hstep
          have howes : s.device.wakes .writer (.go me) = true := by
            change (s.device.pc me).owes .writer = true
            rw [hpc]
            simp [Pc.owes, hreq, Request.side, Side.other]
          change (s.notice || (s.watching && s.device.alerts (.go me))) = true
          simp [Machine.alerts, howes, hwatching]
      | _ => trivial
  | out hlocks =>
      rename_i r
      have hp' := hp.deviceStep hstep
      refine hgoto _ _ rfl ?_
      cases r with
      | moved bytes => exact hp'
      | _ => trivial
  | clear h' => cases hreq.symm.trans h'
  | poll h' => cases hreq.symm.trans h'
  | leaveQueue => exact absurd rfl (hout _)
  | leave => exact absurd rfl (hout _)
  | _ => exact hgoto _ _ rfl trivial

theorem device_finish (r : Reply) : (s.finish r).device = s.device := by
  unfold Epoll.finish
  split <;> rfl

/-- A call of the client has returned. -/
theorem Fits.finish {c : Call} {r : Reply} (hf : s.Fits s.phase (.inside c (.out2 r))) :
    (s.finish r).Fits (s.finish r).phase .user := by
  cases hs : s.phase with
  | adding =>
      rw [hs] at hf
      cases r with
      | value mask =>
          simp only [Epoll.finish, hs]
          exact hf.2
      | _ => exact absurd hf.2 id
  | checking =>
      rw [hs] at hf
      cases r with
      | value mask =>
          simp only [Epoll.finish, hs]
          exact hf.2.2
      | _ => exact absurd hf.2.2 id
  | reading =>
      rw [hs] at hf
      cases r with
      | moved bytes =>
          obtain ⟨-, hwatching, hnotice⟩ := hf
          simp only [Epoll.finish, hs]
          exact ⟨hwatching, .inl hnotice⟩
      | _ =>
          simp only [Epoll.finish, hs]
          trivial
  | ended =>
      cases r <;> simp only [Epoll.finish, hs] <;> trivial
  | _ =>
      rw [hs] at hf
      exact absurd hf id

theorem pc_out2 {c : Call} {r : Reply} (hpc : s.device.pc me = .inside c (.out2 r))
    (h : s.deviceStep (.go me) = some s') : s'.device.pc me = .user := by
  obtain ⟨m, hturn, hpc', -⟩ := turn_deviceStep hpc h
  rw [hpc']
  cases hturn with
  | leaveQueue => exact Machine.pc_leave ..
  | leave => exact Machine.pc_leave ..

theorem Fits.clientGo {c : Call} {p : Point} (hpc : s.device.pc me = .inside c p)
    (hf : s.Fits s.phase (.inside c p)) (h : s.clientGo me p = some s') :
    s'.Fits s'.phase (s'.device.pc me) := by
  by_cases hout : ∃ r, p = .out2 r
  · obtain ⟨r, rfl⟩ := hout
    obtain ⟨t, ht, rfl⟩ := Option.map_eq_some_iff.mp h
    rw [device_finish, pc_out2 hpc ht]
    have hf' := hf.deviceStep ht
    rw [← phase_deviceStep ht] at hf'
    exact hf'.finish
  · have hout : ∀ r, p ≠ .out2 r := fun r heq => hout ⟨r, heq⟩
    cases hs : s.phase with
    | adding =>
        rw [hs] at hf
        obtain ⟨q, hq, hpolls, hphase, -⟩ := hf.2.clientGo hf.1 hpc (.inl hs) hout h
        rw [hq, hphase, hs]
        exact ⟨hf.1, hpolls⟩
    | checking =>
        rw [hs] at hf
        obtain ⟨q, hq, hpolls, hphase, hwatching⟩ :=
          hf.2.2.clientGo hf.1 hpc (.inr ⟨hs, hf.2.1⟩) hout h
        rw [hq, hphase, hs]
        exact ⟨hf.1, hwatching hf.2.1, hpolls⟩
    | reading =>
        rw [hs] at hf
        obtain ⟨q, hq, hreads, hphase, hwatching⟩ := hf.2.2.clientGo hf.1 hpc hf.2.1 hs hout h
        rw [hq, hphase]
        exact ⟨hf.1, hwatching, hreads⟩
    | ended =>
        have hstep : s.deviceStep (.go me) = some s' := by
          refine clientGo_of_ne (fun _ => ?_) hout h
          rw [hs]
          exact ⟨by rintro ⟨⟩, by rintro ⟨⟩⟩
        rw [(phase_deviceStep hstep).trans hs]
        exact trivial
    | _ =>
        rw [hs] at hf
        exact absurd hf id

theorem Fits.step {mv : Move} (hf : s.Fits s.phase (s.device.pc me))
    (h : s.step me mv = some s') : s'.Fits s'.phase (s'.device.pc me) := by
  cases mv with
  | other l =>
      obtain ⟨hl, h⟩ := Option.ite_none_right_eq_some.mp h
      have hf' := hf.deviceStep h
      obtain ⟨m, hm, rfl⟩ := deviceStep_cases h
      have hpc : m.pc me = s.device.pc me := pc_of_outside hl hm
      change Epoll.Fits _ s.phase (m.pc me)
      rw [hpc]
      exact hf'
  | client =>
      simp only [Epoll.step] at h
      cases hpc : s.device.pc me with
      | user =>
          rw [hpc] at h hf
          exact hf.clientCall hpc h
      | inside c p =>
          rw [hpc] at h hf
          exact hf.clientGo hpc h
  | report =>
      obtain ⟨hs, h⟩ := Option.ite_none_right_eq_some.mp h
      obtain rfl := Option.some.inj h
      rw [hs] at hf
      change Epoll.Fits _ .reported (s.device.pc me)
      cases hpc : s.device.pc me with
      | user =>
          rw [hpc] at hf
          exact hf.1
      | inside c p =>
          rw [hpc] at hf
          exact absurd hf id

theorem step_device (h : s.deviceStep l = some s') : s.device.step l = some s'.device := by
  obtain ⟨m, hm, rfl⟩ := Option.map_eq_some_iff.mp h
  exact hm

/-- A call or a step of the client is a step of the device. -/
theorem exists_step_clientCall (h : s.clientCall me = some s') :
    ∃ l, s.device.step l = some s'.device := by
  unfold Epoll.clientCall at h
  cases hs : s.phase with
  | opened | waiting | reported =>
      rw [hs] at h
      obtain ⟨t, ht, rfl⟩ := Option.map_eq_some_iff.mp h
      have hdevice := step_device ht
      exact ⟨_, hdevice⟩
  | _ =>
      rw [hs] at h
      cases h

theorem exists_step_clientGo {p : Point} (h : s.clientGo me p = some s') :
    ∃ l, s.device.step l = some s'.device := by
  unfold Epoll.clientGo at h
  split at h
  · have hdevice := step_device h
    exact ⟨_, hdevice⟩
  · have hdevice := step_device h
    exact ⟨_, hdevice⟩
  · obtain ⟨t, ht, rfl⟩ := Option.map_eq_some_iff.mp h
    rw [device_finish]
    exact ⟨_, step_device ht⟩
  · exact ⟨_, step_device h⟩

/-- A move is a step of the device or leaves it alone. -/
theorem exists_step_device {mv : Move} (h : s.step me mv = some s') :
    (∃ l, s.device.step l = some s'.device) ∨ s'.device = s.device := by
  cases mv with
  | other l =>
      obtain ⟨-, h⟩ := Option.ite_none_right_eq_some.mp h
      exact .inl ⟨l, step_device h⟩
  | client =>
      simp only [Epoll.step] at h
      cases hpc : s.device.pc me with
      | user =>
          rw [hpc] at h
          exact .inl (exists_step_clientCall h)
      | inside c p =>
          rw [hpc] at h
          exact .inl (exists_step_clientGo h)
  | report =>
      obtain ⟨-, h⟩ := Option.ite_none_right_eq_some.mp h
      obtain rfl := Option.some.inj h
      exact .inr rfl

end Epoll

end Steps

/-- The client has opened the device, whatever the other tasks are doing with it. -/
def Epoll.start (m : Machine) : Epoll := ⟨m, .opened, false, false⟩

/-- In every schedule of the client, the kernel and any number of other tasks, from any
moment at which the client opens the device: while the client is in `epoll_wait`,
nobody has the mutex and the driver has not given notice since the device was last
polled for the client or the client was last told of it, the device is empty. No byte
is left without a notice, although the client reads at most 100 of them per event. -/
theorem empty_of_waiting {m : Machine} {me : Nat} {s : Epoll}
    (hm : Reachable Machine.step globalfifoProbe m) (hme : m.pc me = .user)
    (h : Reachable (Epoll.step me) (Epoll.start m) s) (hphase : s.phase = .waiting)
    (hnotice : s.notice = false) (hfree : s.device.mutex = none) : s.device.currentLen = 0 := by
  obtain ⟨hreach, hfits⟩ : Reachable Machine.step globalfifoProbe s.device ∧
      s.Fits s.phase (s.device.pc me) := by
    refine h.invariant (P := fun s : Epoll => Reachable Machine.step globalfifoProbe s.device ∧
      s.Fits s.phase (s.device.pc me)) ⟨hm, ?_⟩ ?_
    · change (Epoll.start m).Fits .opened (m.pc me)
      rw [hme]
      trivial
    · rintro t u mv ⟨ht, hfits⟩ hu
      refine ⟨?_, hfits.step hu⟩
      obtain ⟨l, hl⟩ | hsame := Epoll.exists_step_device hu
      · exact ht.next hl
      · rwa [hsame]
  rw [hphase] at hfits
  cases hpc : s.device.pc me with
  | inside c p =>
      rw [hpc] at hfits
      exact absurd hfits id
  | user =>
      rw [hpc] at hfits
      obtain hset | hwait | ⟨t, howes⟩ := hfits.2
      · rw [hnotice] at hset
        cases hset
      · exact eq_of_beq hwait
      · cases hfree.symm.trans (mutex_of_owes (exclusive_of_reachable hreach) howes)

/-- The client registers; 150 bytes are written; the client is polled for and told of
them twice, and polled for once more. -/
def toldTwice : List Move :=
  List.replicate 5 .client ++ (.call 1 ⟨.write (fun _ => 7) 150, false⟩ ::
    List.replicate 6 (.go 1)).map .other ++
    (List.replicate 5 .client ++ .report :: List.replicate 7 .client) ++
    (List.replicate 5 .client ++ .report :: List.replicate 7 .client) ++
    List.replicate 5 .client

theorem empty_toldTwice : ∃ s,
    replay (Epoll.step 0) toldTwice (Epoll.start globalfifoProbe) = some s ∧
      s.phase = .waiting ∧ s.notice = false ∧ s.device.currentLen = 0 := by
  obtain ⟨s, hs, hphase, hnotice, hfree⟩ : ∃ s,
      replay (Epoll.step 0) toldTwice (Epoll.start globalfifoProbe) = some s ∧
        s.phase = .waiting ∧ s.notice = false ∧ s.device.mutex = none :=
    exists_of_replay_any (by decide +kernel)
  exact ⟨s, hs, hphase, hnotice, empty_of_waiting .refl rfl (.of_replay hs) hphase hnotice hfree⟩

end LinuxDevelopment.Globalfifo
