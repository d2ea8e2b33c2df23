import LinuxDevelopment.Globalfifo.Progress

/-!
# globalfifo: announcing that the device is ready

A task that has polled the device relies on the wait queues `globalfifo_poll`
has put it on, and a file that has asked for signals on `async_queue`. Every
change from not ready to ready is announced on the queue of its side before the
mutex is given up, except that `FIFO_CLEAR` makes room in silence. The files
are added to the machine as a layer of their own; for each write the driver calls
`kill_fasync` once with the entries of all files that have asked for it. What the
kernel does with an entry is not modelled.
-/

namespace LinuxDevelopment.Globalfifo

/-- The bits `globalfifo_poll` sets for a side: `POLLIN | POLLRDNORM` and
`POLLOUT | POLLWRNORM`. -/
def Side.events : Side → Nat
  | .reader => 0x0001 ||| 0x0040
  | .writer => 0x0004 ||| 0x0100

/-- The task has moved bytes and is about to call `wake_up_interruptible` on the
queue of a side. -/
def Pc.owes (side : Side) : Pc → Bool
  | .inside c (.wakeUp _) => c.request.side == some side.other
  | _ => false

/-- The step is the call of `wake_up_interruptible` on the queue of a side. -/
def Machine.wakes (m : Machine) (side : Side) : Label → Bool
  | .go t => (m.pc t).owes side
  | _ => false

section Announcement

variable {m n : Machine} {t u : Nat} {c : Call} {p : Point} {side : Side} {l : Label}

theorem pollMask_and_events :
    m.pollMask &&& side.events = 0 ↔ side.mustWait m.currentLen = true := by
  have hne : (0 : Nat) ≠ globalfifoSize := by decide
  unfold Machine.pollMask
  cases side with
  | reader =>
      by_cases hlen : m.currentLen = 0
      · simp [hlen, hne, Side.events, Side.mustWait]
      · by_cases hfull : m.currentLen = globalfifoSize <;>
          simp [hlen, hfull, hne.symm, Side.events, Side.mustWait]
  | writer =>
      by_cases hfull : m.currentLen = globalfifoSize
      · simp [hfull, hne.symm, Side.events, Side.mustWait]
      · by_cases hlen : m.currentLen = 0 <;>
          simp [hlen, hfull, hne, Side.events, Side.mustWait]

/-- The side has to wait, or what it waits for has come and the wake-up is on
its way. -/
def Machine.Silent (m : Machine) (side : Side) : Prop :=
  side.mustWait m.currentLen = true ∨ ∃ t, (m.pc t).owes side = true

theorem Point.holding_of_owes (h : (Pc.inside c p).owes side = true) : p.Holding := by
  cases p with
  | wakeUp r => trivial
  | _ => cases h

theorem mutex_of_owes (hm : m.Exclusive) (howes : (m.pc t).owes side = true) :
    m.mutex = some t := by
  cases hpc : m.pc t with
  | user =>
      rw [hpc] at howes
      cases howes
  | inside c p =>
      rw [hpc] at howes
      exact hm t c p hpc (Point.holding_of_owes howes)

/-- A turn that ends a wait owes the wake-up, or it is `FIFO_CLEAR`. -/
theorem Turn.announces (h : Turn m t c p n) (hwait : side.mustWait m.currentLen = true) :
    side.mustWait n.currentLen = true ∨ (n.pc t).owes side = true ∨
      (side = .writer ∧ c.request = .ioctl fifoClear ∧ p = .body) := by
  cases h with
  | take hreq =>
      rename_i count
      cases side with
      | reader =>
          left
          have hzero : m.currentLen = 0 := eq_of_beq hwait
          show (m.currentLen - min count m.currentLen == 0) = true
          simp [hzero]
      | writer =>
          right; left
          rw [Machine.pc_goto]
          simp [Pc.owes, hreq, Request.side, Side.other]
  | give hreq =>
      rename_i buf count
      cases side with
      | reader =>
          right; left
          rw [Machine.pc_goto]
          simp [Pc.owes, hreq, Request.side, Side.other]
      | writer =>
          left
          have hfull : m.currentLen = globalfifoSize := eq_of_beq hwait
          show (m.currentLen + min count (globalfifoSize - m.currentLen) == globalfifoSize) = true
          simp [hfull]
  | clear hreq =>
      cases side with
      | reader => exact .inl rfl
      | writer => exact .inr (.inr ⟨rfl, hreq, rfl⟩)
  | _ => exact .inl hwait

/-- Only the copy of a read or a write faults. -/
theorem body_of_fault {junk : List UInt8} (h : m.fault t junk = some n) :
    ∃ c side, m.pc t = .inside c .body ∧ c.request.side = some side := by
  unfold Machine.fault at h
  split at h
  · rename_i c hpc
    split at h
    · rename_i hreq
      exact ⟨c, .reader, hpc, congrArg Request.side hreq⟩
    · rename_i hreq
      exact ⟨c, .writer, hpc, congrArg Request.side hreq⟩
    · cases h
  · cases h

theorem wakes_eq_owes (h : m.act l = some n) (hturn : l.isTurn l.task = true) :
    m.wakes side l = (m.pc l.task).owes side := by
  cases l with
  | go t => rfl
  | fault t junk =>
      obtain ⟨c, s, hpc, -⟩ := body_of_fault h
      exact (congrArg (Pc.owes side) hpc).symm
  | _ => cases hturn

theorem clears_of_turn (h : m.act l = some n) (hturn : l.isTurn t = true)
    (hpc : m.pc t = .inside c .body) (hreq : c.request = .ioctl fifoClear) : m.Clears l := by
  cases l with
  | go v =>
      obtain rfl := eq_of_beq hturn
      exact ⟨v, c, rfl, hpc, hreq⟩
  | fault v junk =>
      obtain rfl := eq_of_beq hturn
      obtain ⟨d, s, hd, hs⟩ := body_of_fault h
      obtain ⟨rfl, -⟩ := Pc.inside.inj (hpc.symm.trans hd)
      rw [hreq] at hs
      cases hs
  | _ => cases hturn

/-- A step that breaks the silence is the wake-up or `FIFO_CLEAR`. -/
theorem Machine.Silent.act (hm : m.Silent side) (h : m.act l = some n) :
    n.Silent side ∨ m.wakes side l = true ∨ (side = .writer ∧ m.Clears l) := by
  have hmoves := moves_of_act h
  obtain hwait | ⟨u, howes⟩ := hm
  · obtain ⟨c, -, -, rfl⟩ | ⟨c, p, hpc, hturn, hl⟩ | ⟨fatal, -, rfl⟩ | ⟨-, -, rfl⟩ :=
      cases_of_act h
    · exact .inl (.inl hwait)
    · obtain hstill | howes | ⟨hside, hreq, rfl⟩ := hturn.announces hwait
      · exact .inl (.inl hstill)
      · exact .inl (.inr ⟨_, howes⟩)
      · exact .inr (.inr ⟨hside, clears_of_turn h hl hpc hreq⟩)
    · exact .inl (.inl hwait)
    · exact .inl (.inl hwait)
  · by_cases hu : u = l.task
    · subst hu
      obtain ⟨c, -, hpc, -⟩ | ⟨c, p, -, -, hl⟩ | ⟨fatal, -, rfl⟩ | ⟨-, hpc, -⟩ := cases_of_act h
      · rw [hpc] at howes
        cases howes
      · exact .inr (.inl ((wakes_eq_owes h hl).trans howes))
      · exact .inl (.inr ⟨_, howes⟩)
      · rw [hpc] at howes
        cases howes
    · refine .inl (.inr ⟨u, ?_⟩)
      rwa [hmoves.pc_of_ne hu]

/-- A schedule keeps the silence or has a step that breaks it. -/
theorem silent_or_announced {ls : List Label} (hm : m.Silent side)
    (hrun : replay Machine.step ls m = some n) :
    n.Silent side ∨ ∃ ks l rest k, ls = ks ++ l :: rest ∧ replay Machine.step ks m = some k ∧
      (k.wakes side l = true ∨ (side = .writer ∧ k.Clears l)) := by
  refine replay_invariant (P := fun ls n => n.Silent side ∨ ∃ ks l rest k, ls = ks ++ l :: rest ∧
    replay Machine.step ks m = some k ∧ (k.wakes side l = true ∨ (side = .writer ∧ k.Clears l)))
    hrun (.inl hm) ?_
  rintro ls k k' l hk (hsilent | ⟨ks, l', rest, k₀, rfl, hk₀, hl'⟩) hstep
  · obtain ⟨k', hact, rfl⟩ := Option.map_eq_some_iff.mp hstep
    obtain hstill | hl := hsilent.act hact
    · exact .inl hstill
    · exact .inr ⟨ls, l, [], k, rfl, hk, hl⟩
  · exact .inr ⟨ks, l', rest ++ [l], k₀, by simp, hk₀, hl'⟩

end Announcement

/-- When `globalfifo_poll` has to answer without the bits of a side and would
answer with them later, with the mutex free, the queue of that side has been
woken in between. Room for writers can also come from `FIFO_CLEAR`, which wakes
nobody. -/
theorem announced_of_schedule {m n : Machine} {side : Side} {ls : List Label}
    (h : Reachable Machine.step globalfifoProbe m) (hrun : replay Machine.step ls m = some n)
    (hfree : n.mutex = none) (hnot : m.pollMask &&& side.events = 0)
    (hready : n.pollMask &&& side.events ≠ 0) :
    ∃ ks l rest k, ls = ks ++ l :: rest ∧ replay Machine.step ks m = some k ∧
      (k.wakes side l = true ∨ (side = .writer ∧ k.Clears l)) := by
  obtain hsilent | hsplit := silent_or_announced (.inl (pollMask_and_events.mp hnot)) hrun
  · exfalso
    obtain hwait | ⟨t, howes⟩ := hsilent
    · exact hready (pollMask_and_events.mpr hwait)
    · have hn : n.Exclusive := exclusive_of_reachable (h.trans (Reachable.of_replay hrun))
      cases hfree.symm.trans (mutex_of_owes hn howes)
  · exact hsplit

/-- Bytes are written to the empty device. -/
def writeToPolled : List Label :=
  .call 1 ⟨.write (fun _ => 7) 3, false⟩ :: List.replicate 6 (.go 1)

theorem announced_writeToPolled :
    ∃ ks l rest k, writeToPolled = ks ++ l :: rest ∧
      replay Machine.step ks globalfifoProbe = some k ∧ k.wakes .reader l = true := by
  obtain ⟨n, hrun, hfree, hready⟩ : ∃ n,
      replay Machine.step writeToPolled globalfifoProbe = some n ∧ n.mutex = none ∧
        n.pollMask &&& Side.reader.events ≠ 0 :=
    exists_of_replay_any (by decide +kernel)
  have hnot : globalfifoProbe.pollMask &&& Side.reader.events = 0 := rfl
  obtain ⟨ks, l, rest, k, hls, hk, hl | ⟨hside, -⟩⟩ :=
    announced_of_schedule .refl hrun hfree hnot hready
  · exact ⟨ks, l, rest, k, hls, hk, hl⟩
  · cases hside

/-! ## One wake-up for each write -/

/-- The entry is a write that has moved bytes into the device. -/
def delivers : Nat × Call × Reply → Bool
  | (_, c, .moved _) => c.request.side == some .writer
  | _ => false

/-- How many writes have been decided. -/
def Machine.writes (m : Machine) : Nat := m.history.countP delivers

/-- The holder of the mutex is about to wake the queue of a side. -/
def Machine.owed (m : Machine) (side : Side) : Bool := m.mutex.any fun t => (m.pc t).owes side

section Count

variable {m n : Machine} {t u : Nat} {c : Call} {p : Point} {side : Side} {l : Label}

theorem owed_iff (hm : m.Exclusive) : m.owed side = true ↔ ∃ t, (m.pc t).owes side = true := by
  constructor
  · intro h
    unfold Machine.owed at h
    cases hmutex : m.mutex with
    | none =>
        rw [hmutex] at h
        cases h
    | some t =>
        rw [hmutex] at h
        exact ⟨t, h⟩
  · rintro ⟨t, ht⟩
    unfold Machine.owed
    rw [mutex_of_owes hm ht]
    exact ht

/-- A turn decides a write exactly when it comes to owe the wake-up of the
readers. -/
theorem Turn.writes (h : Turn m t c p n) :
    n.writes = m.writes + ((n.pc t).owes .reader).toNat := by
  have hsettle : ∀ (k : Machine) (r : Reply) (q : Point),
      ((k.settle t c r).goto t c q).writes = k.writes + (delivers (t, c, r)).toNat := by
    intro k r q
    show (k.history ++ [(t, c, r)]).countP delivers = _
    rw [List.countP_append, List.countP_singleton]
    cases delivers (t, c, r) <;> rfl
  cases h with
  | clear =>
      rw [Machine.pc_goto]
      exact hsettle m.clear (.value 0) _
  | take | give | wouldBlock | interrupted | faultTake | faultGive | badCommand | poll =>
      rw [Machine.pc_goto]
      exact hsettle _ _ _
  | leaveQueue | leave =>
      rw [Machine.pc_leave]
      rfl
  | _ =>
      rw [Machine.pc_goto]
      rfl

theorem owed_congr (hm : m.Exclusive) (hn : n.Exclusive)
    (h : ∀ t, (n.pc t).owes side = (m.pc t).owes side) : n.owed side = m.owed side := by
  rw [Bool.eq_iff_iff, owed_iff hn, owed_iff hm]
  exact exists_congr fun t => by rw [h t]

/-- Two tasks never owe a wake-up at once. -/
theorem owed_eq_false (hm : m.Exclusive) (hn : n.Exclusive) (hne : ∀ u, u ≠ t → n.pc u = m.pc u)
    (howes : (m.pc t).owes side = true) (hdone : (n.pc t).owes side = false) :
    n.owed side = false := by
  refine Bool.eq_false_iff.mpr fun howed => ?_
  obtain ⟨u, hu⟩ := (owed_iff hn).mp howed
  by_cases hut : u = t
  · subst hut
    exact Bool.false_ne_true (hdone.symm.trans hu)
  · rw [hne u hut] at hu
    exact hut (Option.some.inj ((mutex_of_owes hm hu).symm.trans (mutex_of_owes hm howes)))

theorem Turn.not_owes (h : Turn m t c p n) (howes : (Pc.inside c p).owes side = true) :
    (n.pc t).owes side = false := by
  cases h with
  | wakeUp =>
      rw [Machine.pc_goto]
      rfl
  | _ => cases howes

/-- The writes decided are those whose wake-up has been made, and the one whose
wake-up is owed. -/
theorem writes_of_act (hm : m.Exclusive) (hn : n.Exclusive) (h : m.act l = some n) :
    n.writes + (m.owed .reader).toNat =
      m.writes + (n.owed .reader).toNat + (m.wakes .reader l).toNat := by
  have hother : ∀ u, u ≠ l.task → n.pc u = m.pc u := fun u => (moves_of_act h).pc_of_ne
  obtain ⟨c, hl, hpc, hcall⟩ | ⟨c, p, hpc, hturn, hl⟩ | ⟨fatal, hl, rfl⟩ | ⟨hl, -, rfl⟩ :=
    cases_of_act h
  · have howed : n.owed .reader = m.owed .reader := by
      apply owed_congr hm hn
      intro u
      by_cases hu : u = l.task
      · subst hu
        rw [hpc, hcall, Machine.pc_goto]
        rfl
      · rw [hother u hu]
    rw [howed, hl, hcall]
    rfl
  · rw [hturn.writes, wakes_eq_owes h hl]
    by_cases hold : (m.pc l.task).owes .reader = true
    · have hnew : (n.pc l.task).owes .reader = false := hturn.not_owes (hpc ▸ hold)
      rw [hold, hnew, (owed_iff hm).mpr ⟨_, hold⟩, owed_eq_false hm hn hother hold hnew]
    · rw [Bool.not_eq_true] at hold
      by_cases hnew : (n.pc l.task).owes .reader = true
      · have hnone : m.owed .reader = false :=
          owed_eq_false hn hm (fun u hu => (hother u hu).symm) hnew hold
        rw [hold, hnew, hnone, (owed_iff hn).mpr ⟨_, hnew⟩]
      · rw [Bool.not_eq_true] at hnew
        have howed : n.owed .reader = m.owed .reader := by
          apply owed_congr hm hn
          intro u
          by_cases hu : u = l.task
          · rw [hu, hold, hnew]
          · rw [hother u hu]
        rw [hold, hnew, howed]
        rfl
  · rw [hl]
    rfl
  · rw [hl]
    rfl

end Count

/-! ## Files that ask for signals -/

/-- An entry of `async_queue`: `fa_file` and `fa_fd`. -/
structure FasyncStruct where
  file : Nat
  fd : Int
  deriving DecidableEq, Repr

/-- The entries of a file. -/
def entriesOf (f : Nat) (queue : List FasyncStruct) : List FasyncStruct :=
  queue.filter fun e => e.file == f

/-- What `fasync_helper` returns, and the queue it leaves. -/
structure Helped where
  ret : Int
  queue : List FasyncStruct
  deriving DecidableEq, Repr

/-- What is relied on of `fasync_helper(fd, filp, on, fapp)`: a file that is put on the
queue has one entry then, unless the call fails; one that is taken off it has none; and
the entries of the other files stay. -/
def Helps (fd : Int) (f : Nat) (on : Bool) (queue : List FasyncStruct) (k : Helped) : Prop :=
  k.queue.filter (fun e => e.file != f) = queue.filter (fun e => e.file != f) ∧
    entriesOf f k.queue =
      if on then if k.ret < 0 then entriesOf f queue else [⟨f, fd⟩] else []

instance (fd : Int) (f : Nat) (on : Bool) (queue : List FasyncStruct) (k : Helped) :
    Decidable (Helps fd f on queue k) := inferInstanceAs (Decidable (_ ∧ _))

/-- The machine with the files that are open on it. The last two fields record what
happened and are not read by the code: what the last call of `globalfifo_fasync` for a
file that did not fail has asked for, and the queues `kill_fasync` was called with. -/
structure Driver where
  device : Machine
  opened : Nat → Bool
  asyncQueue : List FasyncStruct
  asked : Nat → Bool
  kills : List (List FasyncStruct)

namespace Driver

def probe : Driver where
  device := globalfifoProbe
  opened := fun _ => false
  asyncQueue := []
  asked := fun _ => false
  kills := []

section Operations

variable (s : Driver) (fd : Int) (f : Nat)

/-- `globalfifo_fasync`, if `fasync_helper` can have this outcome. -/
def globalfifoFasync (mode : Bool) (k : Helped) : Option (Int × Driver) :=
  if Helps fd f mode s.asyncQueue k then
    some (k.ret, { s with
      asyncQueue := k.queue
      asked := if k.ret < 0 ∧ mode = true then s.asked else Function.update s.asked f mode })
  else none

def globalfifoOpen : Int × Driver := (0, s)

def globalfifoRelease (k : Helped) : Option (Int × Driver) :=
  (s.globalfifoFasync (-1) f false k).map fun x => (0, x.2)

/-- The call of `kill_fasync` in `globalfifo_write`. -/
def killFasync : Driver := { s with kills := s.kills ++ [s.asyncQueue] }

end Operations

end Driver

/-- A step of the machine, or a call of one of the file operations by the kernel. -/
inductive Event where
  | device (l : Label)
  | openFile (f : Nat)
  | fasync (fd : Int) (f : Nat) (mode : Bool) (k : Helped)
  | release (f : Nat) (k : Helped)

namespace Driver

/-- The kernel may call `globalfifo_fasync` at any moment for a file that is open, and
`globalfifo_release` once. A write calls `kill_fasync` right behind its wake-up if
`async_queue` is not empty. -/
def step (s : Driver) : Event → Option Driver
  | .device l =>
      (s.device.step l).map fun m =>
        if s.device.wakes .reader l ∧ s.asyncQueue ≠ [] then { s with device := m }.killFasync
        else { s with device := m }
  | .openFile f =>
      if s.opened f then none
      else some { s.globalfifoOpen.2 with opened := Function.update s.opened f true }
  | .fasync fd f mode k =>
      if s.opened f then (s.globalfifoFasync fd f mode k).map Prod.snd else none
  | .release f k =>
      if s.opened f then
        (s.globalfifoRelease f k).map fun x =>
          { x.2 with opened := Function.update s.opened f false }
      else none

/-- How many calls of `kill_fasync` had an entry of the file on their queue. -/
def told (s : Driver) (f : Nat) : Nat :=
  s.kills.countP fun queue => queue.any fun e => e.file == f

/-- The queue has one entry for each file that has asked for it, and no others; these
files are open. -/
structure Registered (s : Driver) : Prop where
  entry : ∀ f, (entriesOf f s.asyncQueue).length = (s.asked f).toNat
  opened : ∀ f, s.asked f = true → s.opened f = true

section Registration

variable {s s' : Driver} {e : Event} {fd : Int} {f g : Nat} {mode : Bool} {k : Helped}
  {queue : List FasyncStruct}

theorem any_file : (queue.any fun e => e.file == f) = true ↔ 0 < (entriesOf f queue).length := by
  rw [List.length_pos_iff_exists_mem, List.any_eq_true]
  simp only [entriesOf, List.mem_filter]

theorem Registered.any_file (hs : s.Registered) :
    (s.asyncQueue.any fun e => e.file == f) = s.asked f := by
  rw [Bool.eq_iff_iff, Driver.any_file, hs.entry]
  cases s.asked f <;> simp

/-- The entries of the other files stay. -/
theorem entriesOf_of_helps (h : Helps fd f mode queue k) (hg : g ≠ f) :
    entriesOf g k.queue = entriesOf g queue := by
  have hsub : ∀ q : List FasyncStruct,
      entriesOf g (q.filter fun e => e.file != f) = entriesOf g q := by
    intro q
    unfold entriesOf
    rw [List.filter_filter]
    refine List.filter_congr fun e _ => ?_
    by_cases he : e.file = g
    · simp [he, hg]
    · simp [he]
  rw [← hsub k.queue, h.1, hsub]

/-- What a call of `globalfifo_fasync` changes. -/
theorem fasync_cases {x : Int × Driver} (h : s.globalfifoFasync fd f mode k = some x) :
    Helps fd f mode s.asyncQueue k ∧ x.2 = { s with
      asyncQueue := k.queue
      asked := if k.ret < 0 ∧ mode = true then s.asked else Function.update s.asked f mode } := by
  obtain ⟨hk, h⟩ := Option.ite_none_right_eq_some.mp h
  exact ⟨hk, (congrArg Prod.snd (Option.some.inj h)).symm⟩

theorem asked_of_fasync_of_ne {x : Int × Driver} (h : s.globalfifoFasync fd f mode k = some x)
    (hg : g ≠ f) : x.2.asked g = s.asked g := by
  obtain ⟨-, hx⟩ := fasync_cases h
  rw [hx]
  dsimp only
  split_ifs
  · rfl
  · rw [Function.update_of_ne hg]

/-- The entries of the file follow what was asked for. -/
theorem Registered.entry_fasync (hs : s.Registered) {x : Int × Driver}
    (h : s.globalfifoFasync fd f mode k = some x) (g : Nat) :
    (entriesOf g x.2.asyncQueue).length = (x.2.asked g).toNat := by
  obtain ⟨hk, hx⟩ := fasync_cases h
  by_cases hg : g = f
  · subst hg
    rw [hx]
    dsimp only
    rw [hk.2]
    cases mode with
    | false =>
        rw [if_neg Bool.false_ne_true, if_neg (by rintro ⟨-, ⟨⟩⟩), Function.update_self]
        rfl
    | true =>
        by_cases hret : k.ret < 0
        · rw [if_pos rfl, if_pos hret, if_pos ⟨hret, rfl⟩]
          exact hs.entry g
        · rw [if_pos rfl, if_neg hret, if_neg (fun hfail => hret hfail.1), Function.update_self]
          rfl
  · rw [asked_of_fasync_of_ne h hg, hx]
    dsimp only
    rw [entriesOf_of_helps hk hg]
    exact hs.entry g

theorem Registered.step (hs : s.Registered) (h : s.step e = some s') : s'.Registered := by
  cases e with
  | device l =>
      obtain ⟨m, -, rfl⟩ := Option.map_eq_some_iff.mp h
      split_ifs
      · exact ⟨hs.entry, hs.opened⟩
      · exact ⟨hs.entry, hs.opened⟩
  | openFile f =>
      obtain ⟨-, h⟩ := Option.ite_none_left_eq_some.mp h
      obtain rfl := Option.some.inj h
      refine ⟨hs.entry, fun g hg => ?_⟩
      dsimp only
      by_cases hgf : g = f
      · rw [hgf, Function.update_self]
      · rw [Function.update_of_ne hgf]
        exact hs.opened g hg
  | fasync fd f mode k =>
      obtain ⟨hopen, h⟩ := Option.ite_none_right_eq_some.mp h
      obtain ⟨x, hx, rfl⟩ := Option.map_eq_some_iff.mp h
      refine ⟨hs.entry_fasync hx, fun g hg => ?_⟩
      rw [(fasync_cases hx).2]
      dsimp only
      by_cases hgf : g = f
      · rw [hgf, hopen]
      · rw [asked_of_fasync_of_ne hx hgf] at hg
        exact hs.opened g hg
  | release f k =>
      obtain ⟨hopen, h⟩ := Option.ite_none_right_eq_some.mp h
      obtain ⟨y, hy, rfl⟩ := Option.map_eq_some_iff.mp h
      obtain ⟨x, hx, rfl⟩ := Option.map_eq_some_iff.mp hy
      have hentry := hs.entry_fasync hx
      refine ⟨hentry, fun g hg => ?_⟩
      dsimp only at hg ⊢
      by_cases hgf : g = f
      · -- a file that is released has been taken off the queue
        subst hgf
        rw [(fasync_cases hx).2] at hg
        dsimp only at hg
        rw [if_neg (by rintro ⟨-, ⟨⟩⟩), Function.update_self] at hg
        cases hg
      · rw [asked_of_fasync_of_ne hx hgf] at hg
        rw [Function.update_of_ne hgf]
        exact hs.opened g hg

theorem registered_of_reachable (h : Reachable Driver.step probe s) : s.Registered := by
  refine h.invariant ⟨fun f => rfl, fun f hf => ?_⟩ fun hs hstep => hs.step hstep
  cases hf

end Registration

end Driver

/-- The event is a call that may change what the file asks for. -/
def Event.touches (f : Nat) : Event → Bool
  | .fasync _ g _ _ => g == f
  | .release g _ => g == f
  | _ => false

namespace Driver

section Signals

variable {s s' : Driver} {e : Event} {f : Nat}

theorem told_killFasync (s : Driver) (f : Nat) :
    s.killFasync.told f = s.told f + (s.asyncQueue.any fun e => e.file == f).toNat := by
  unfold told killFasync
  rw [List.countP_append, List.countP_singleton]
  cases s.asyncQueue.any fun e => e.file == f <;> rfl

/-- A step is one of the machine, with the call of `kill_fasync` a write makes, or it
leaves the machine and the calls alone. -/
theorem step_cases (hs : s.Registered) (h : s.step e = some s') :
    (∃ l m, e = .device l ∧ s.device.step l = some m ∧ s'.device = m ∧ s'.asked = s.asked ∧
      ∀ f, s'.told f =
        s.told f + if s.device.wakes .reader l then (s.asked f).toNat else 0) ∨
    (s'.device = s.device ∧ s'.kills = s.kills ∧
      ∀ f, e.touches f = false → s'.asked f = s.asked f) := by
  cases e with
  | device l =>
      left
      obtain ⟨m, hm, rfl⟩ := Option.map_eq_some_iff.mp h
      refine ⟨l, m, rfl, hm, ?_⟩
      split_ifs with hkill hwakes hwakes
      · refine ⟨rfl, rfl, fun f => ?_⟩
        rw [told_killFasync, ← hs.any_file]
        rfl
      · exact absurd hkill.1 hwakes
      · -- a wake-up that finds the queue empty tells nobody, and nobody has asked
        have hempty : s.asyncQueue = [] := by
          by_contra hne
          exact hkill ⟨hwakes, hne⟩
        refine ⟨rfl, rfl, fun f => ?_⟩
        rw [← hs.any_file, hempty]
        rfl
      · exact ⟨rfl, rfl, fun f => rfl⟩
  | openFile g =>
      right
      obtain ⟨-, h⟩ := Option.ite_none_left_eq_some.mp h
      obtain rfl := Option.some.inj h
      exact ⟨rfl, rfl, fun f _ => rfl⟩
  | fasync fd g mode k =>
      right
      obtain ⟨-, h⟩ := Option.ite_none_right_eq_some.mp h
      obtain ⟨x, hx, rfl⟩ := Option.map_eq_some_iff.mp h
      refine ⟨?_, ?_, fun f hf => asked_of_fasync_of_ne hx (ne_of_beq_false hf).symm⟩
      · rw [(fasync_cases hx).2]
      · rw [(fasync_cases hx).2]
  | release g k =>
      right
      obtain ⟨-, h⟩ := Option.ite_none_right_eq_some.mp h
      obtain ⟨y, hy, rfl⟩ := Option.map_eq_some_iff.mp h
      obtain ⟨x, hx, rfl⟩ := Option.map_eq_some_iff.mp hy
      have hasked : ∀ f, f ≠ g → x.2.asked f = s.asked f := fun f => asked_of_fasync_of_ne hx
      refine ⟨?_, ?_, fun f hf => hasked f (ne_of_beq_false hf).symm⟩
      · dsimp only
        rw [(fasync_cases hx).2]
      · dsimp only
        rw [(fasync_cases hx).2]

/-- The files watch the machine and do not disturb it. -/
theorem reachable_device (h : Reachable Driver.step probe s) :
    Reachable Machine.step globalfifoProbe s.device := by
  obtain ⟨hdevice, -⟩ := h.invariant (P := fun s : Driver =>
    Reachable Machine.step globalfifoProbe s.device ∧ s.Registered)
    ⟨Reaches.refl, registered_of_reachable .refl⟩ (by
      rintro t u e ⟨ht, hreg⟩ hu
      refine ⟨?_, hreg.step hu⟩
      obtain ⟨l, m, -, hm, rfl, -⟩ | ⟨hsame, -⟩ := step_cases hreg hu
      · exact ht.next hm
      · rwa [hsame])
  exact hdevice

/-- The books of a file: for every write decided `kill_fasync` was called with its
entry, but for the one whose wake-up is owed. -/
structure Informed (s : Driver) (f : Nat) (s' : Driver) : Prop where
  asked : s'.asked f = s.asked f
  told : s.asked f = true →
    s'.told f + s.device.writes + (s'.device.owed .reader).toNat =
      s.told f + s'.device.writes + (s.device.owed .reader).toNat
  spared : s.asked f = false → s'.told f = s.told f

theorem Informed.step {t u : Driver} (h : s.Informed f t) (ht : Reachable Driver.step probe t)
    (hkeep : e.touches f = false) (hu : t.step e = some u) : s.Informed f u := by
  obtain ⟨l, m, rfl, hm, hdev, hasked, htold⟩ | ⟨hdev, hkills, hasked⟩ :=
    step_cases (registered_of_reachable ht) hu
  · obtain ⟨n, hn, rfl⟩ := Option.map_eq_some_iff.mp hm
    have hex := exclusive_of_reachable (reachable_device ht)
    have hex' : n.Exclusive := (moves_of_act hn).exclusive hex
    have hbook := writes_of_act hex hex' hn
    have hwrites : u.device.writes = n.writes := by rw [hdev]; rfl
    have howed : u.device.owed .reader = n.owed .reader := by rw [hdev]; rfl
    have hnew := htold f
    rw [h.asked] at hnew
    refine ⟨by rw [hasked]; exact h.asked, fun hf => ?_, fun hf => ?_⟩
    · have hold := h.told hf
      rw [hf, Bool.toNat_true] at hnew
      rw [hwrites, howed]
      cases hw : t.device.wakes .reader l with
      | false =>
          rw [hw, if_neg Bool.false_ne_true] at hnew
          rw [hw, Bool.toNat_false] at hbook
          omega
      | true =>
          rw [hw, if_pos rfl] at hnew
          rw [hw, Bool.toNat_true] at hbook
          omega
    · rw [hf, Bool.toNat_false, ite_self, add_zero] at hnew
      exact hnew.trans (h.spared hf)
  · have htold : u.told f = t.told f := by rw [Driver.told, Driver.told, hkills]
    refine ⟨(hasked f hkeep).trans h.asked, fun hf => ?_, fun hf => ?_⟩
    · rw [htold, hdev]
      exact h.told hf
    · exact htold.trans (h.spared hf)

end Signals

/-- In every schedule, for all outcomes of `fasync_helper` that keep its contract: the
queue has one entry for each file that has asked for signals and none for any other, in
particular none for a file that was released; and as long as a file is left alone,
`kill_fasync` is called once with its entry for each write to the device if it has asked
for it, and never if it has not. -/
theorem kills_of_schedule {s s' : Driver} {es : List Event} {f : Nat}
    (h : Reachable Driver.step probe s) (hrun : replay Driver.step es s = some s')
    (hkeep : ∀ e ∈ es, e.touches f = false) (hfree : s.device.mutex = none)
    (hfree' : s'.device.mutex = none) :
    s'.Registered ∧
      (s.asked f = true → s'.told f + s.device.writes = s.told f + s'.device.writes) ∧
      (s.asked f = false → s'.told f = s.told f) := by
  have hinformed : s.Informed f s' := by
    refine replay_invariant (P := fun ks t => (∀ e ∈ ks, e.touches f = false) → s.Informed f t)
      hrun (fun _ => ⟨rfl, fun _ => rfl, fun _ => rfl⟩) ?_ hkeep
    intro ks t u e ht hbooks hu hks
    have hreach : Reachable Driver.step probe t := h.trans (Reachable.of_replay ht)
    exact (hbooks fun e he => hks e (List.mem_append_left _ he)).step hreach (hks e (by simp)) hu
  refine ⟨registered_of_reachable (h.trans (Reachable.of_replay hrun)), fun hf => ?_,
    hinformed.spared⟩
  have howed : s.device.owed .reader = false := by rw [Machine.owed, hfree]; rfl
  have howed' : s'.device.owed .reader = false := by rw [Machine.owed, hfree']; rfl
  have htold := hinformed.told hf
  rw [howed, howed'] at htold
  exact htold

/-- A file asks for signals through the descriptor 3. -/
def askForSignals : List Event := [.openFile 5, .fasync 3 5 true ⟨1, [⟨5, 3⟩]⟩]

/-- Bytes are written, and written again. -/
def writtenTwice : List Event := writeToPolled.map .device ++ writeToPolled.map .device

theorem kills_writtenTwice :
    ∃ s s', replay Driver.step askForSignals probe = some s ∧
      replay Driver.step writtenTwice s = some s' ∧ s'.told 5 = 2 := by
  obtain ⟨s, hask, s', hrun, hasked, hfree, hfree', htold, hwrites, hwrites'⟩ :
      ∃ s, replay Driver.step askForSignals probe = some s ∧ ∃ s',
        replay Driver.step writtenTwice s = some s' ∧ s.asked 5 = true ∧
        s.device.mutex = none ∧ s'.device.mutex = none ∧ s.told 5 = 0 ∧
        s.device.writes = 0 ∧ s'.device.writes = 2 := by
    refine ⟨_, rfl, ?_⟩
    exact exists_of_replay_any (by decide +kernel)
  refine ⟨s, s', hask, hrun, ?_⟩
  have htold' := (kills_of_schedule (f := 5) (Reachable.of_replay hask) hrun
    (by decide) hfree hfree').2.1 hasked
  omega

end Driver

end LinuxDevelopment.Globalfifo
