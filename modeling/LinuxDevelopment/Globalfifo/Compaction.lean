import LinuxDevelopment.Globalfifo.Queue

/-!
# globalfifo: the `memcpy` of a read

`globalfifo_read` moves what is left of the queue to the front by
`memcpy(dev->mem, dev->mem + count, dev->current_len - count)`. The two ranges
lie in one buffer, and whether they overlap depends on how full the device is.
The step of the model stores the bytes the queue had before the call. Where the
ranges are apart this is what `memcpy` does; where they overlap it is what an
implementation that copies upwards does, and other implementations may not.
-/

namespace LinuxDevelopment.Globalfifo

namespace Machine

variable (m : Machine)

/-- The `count` of the read the task is in, when the copy comes next. -/
def reading (t : Nat) : Option Nat :=
  match m.pc t with
  | .inside c .body =>
      match c.request with
      | .read count => some count
      | _ => none
  | _ => none

/-- The `memcpy` of a read, behind the clipping of `count`. -/
def memcpyOf (count : Nat) : Memcpy where
  dst := 0
  src := min count m.currentLen
  n := m.currentLen - min count m.currentLen

/-- The `memcpy` of the next step of a task, when that step is the copy of a
read. -/
def compaction (t : Nat) : Option Memcpy := (m.reading t).map m.memcpyOf

variable {m} {t count : Nat}

/-- The ranges are apart when the read takes at least half of the queue. -/
theorem defined_memcpyOf : (m.memcpyOf count).Defined ↔ m.currentLen ≤ 2 * count := by
  unfold Memcpy.Defined memcpyOf
  dsimp only
  omega

theorem pc_of_reading (h : m.reading t = some count) :
    ∃ c, m.pc t = .inside c .body ∧ c.request = .read count := by
  unfold reading at h
  split at h
  · rename_i c hpc
    split at h
    · rename_i n hreq
      cases h
      exact ⟨c, hpc, hreq⟩
    · exact nomatch h
  · exact nomatch h

/-- The copy of a read is never blocked. -/
theorem step_of_reading (h : m.reading t = some count) : ∃ m', m.step (.go t) = some m' ∧
    m'.mem = (m.takeBytes count).mem ∧ m'.currentLen = (m.takeBytes count).currentLen := by
  obtain ⟨c, hpc, hreq⟩ := pc_of_reading h
  simp only [step, act, go, hpc, hreq, globalfifoRead, transfer, Option.map_some]
  exact ⟨_, rfl, rfl, rfl⟩

/-- Every implementation of `memcpy` does what the step of the model does when
the ranges are apart. -/
theorem step_of_compaction {call : Memcpy} {mem : Buffer} (h : m.compaction t = some call)
    (hdef : call.Defined) (hy : call.Yields m.mem mem) :
    ∃ m', m.step (.go t) = some m' ∧ m'.mem = mem := by
  obtain ⟨count, hread, rfl⟩ := Option.map_eq_some_iff.mp h
  obtain ⟨m', hstep, hmem, -⟩ := step_of_reading hread
  exact ⟨m', hstep, hmem.trans (hdef.eq_splice hy).symm⟩

/-- An implementation that copies upwards does so in every case. -/
theorem step_of_ascending {call : Memcpy} (h : m.compaction t = some call) :
    ∃ m', m.step (.go t) = some m' ∧
      m'.mem = m.mem.copyInOrder call.dst call.src (List.range call.n) := by
  obtain ⟨count, hread, rfl⟩ := Option.map_eq_some_iff.mp h
  obtain ⟨m', hstep, hmem, -⟩ := step_of_reading hread
  exact ⟨m', hstep, hmem.trans (Buffer.copyInOrder_range (Nat.zero_le _)).symm⟩

end Machine

section Reachable

variable {m : Machine} {t count : Nat}

/-- How full the device is, from the calls that have been decided. -/
theorem currentLen_of_reachable (h : Reachable Machine.step globalfifoProbe m) :
    (movedSince .writer m.history).length =
      (movedSince .reader m.history).length + m.currentLen := by
  have hlen : m.queue.length = m.currentLen := Buffer.length_bytesAt
  rw [(accounted_of_reachable h).balanced, List.length_append, hlen]

/-- In every reachable state the `memcpy` a reader is about to call meets its
precondition exactly when the bytes accepted since the last `FIFO_CLEAR` exceed
the bytes returned by at most twice the count of the read. -/
theorem defined_compaction_iff_of_reachable (h : Reachable Machine.step globalfifoProbe m)
    (hread : m.reading t = some count) :
    ∃ call, m.compaction t = some call ∧
      (call.Defined ↔ (movedSince .writer m.history).length ≤
        (movedSince .reader m.history).length + 2 * count) := by
  refine ⟨m.memcpyOf count, congrArg (Option.map m.memcpyOf) hread, ?_⟩
  rw [Machine.defined_memcpyOf, currentLen_of_reachable h]
  omega

end Reachable

/-- Three bytes are written, then another task comes to the copy of its read. -/
def writeThenCopy (count : Nat) : List Label :=
  .call 0 ⟨.write (fun i => UInt8.ofNat (97 + i)) 3, false⟩ :: List.replicate 6 (.go 0) ++
    .call 1 ⟨.read count, false⟩ :: List.replicate 2 (.go 1)

/-- A read of two of three bytes moves one byte over a distance of two. -/
theorem defined_compaction_writeThenCopy :
    ∃ m, replay Machine.step (writeThenCopy 2) globalfifoProbe = some m ∧
      m.reading 1 = some 2 ∧ ∃ call, m.compaction 1 = some call ∧ call.Defined := by
  obtain ⟨m, hrun, hread, hin, hout⟩ :
      ∃ m, replay Machine.step (writeThenCopy 2) globalfifoProbe = some m ∧
        m.reading 1 = some 2 ∧ movedSince .writer m.history = [97, 98, 99] ∧
        movedSince .reader m.history = [] :=
    exists_of_replay_any (by decide +kernel)
  obtain ⟨call, hcall, hiff⟩ :=
    defined_compaction_iff_of_reachable (Reachable.of_replay hrun) hread
  refine ⟨m, hrun, hread, call, hcall, hiff.mpr ?_⟩
  rw [hin, hout]
  decide

/-- A read of one of three bytes moves two bytes over a distance of one. An
implementation of `memcpy` that copies downwards leaves the last byte twice. -/
theorem not_defined_compaction_writeThenCopy :
    ∃ m, Reachable Machine.step globalfifoProbe m ∧ ∃ call, m.compaction 1 = some call ∧
      ¬ call.Defined ∧ m.queue = [97, 98, 99] ∧
      ∃ mem, call.Yields m.mem mem ∧ mem.bytesAt 0 call.n = [99, 99] := by
  obtain ⟨m, hrun, hcall, hqueue, hmem⟩ :
      ∃ m, replay Machine.step (writeThenCopy 1) globalfifoProbe = some m ∧
        m.compaction 1 = some ⟨0, 1, 2⟩ ∧ m.queue = [97, 98, 99] ∧
        (m.mem.copyInOrder 0 1 [1, 0]).bytesAt 0 2 = [99, 99] :=
    exists_of_replay_any (by decide +kernel)
  have horder : [1, 0].Perm (List.range 2) := List.Perm.swap 0 1 []
  exact ⟨m, Reachable.of_replay hrun, _, hcall, by decide, hqueue, _, ⟨[1, 0], horder, rfl⟩, hmem⟩

end LinuxDevelopment.Globalfifo
