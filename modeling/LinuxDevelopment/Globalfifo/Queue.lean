import LinuxDevelopment.Globalfifo.Device

/-!
# globalfifo: a byte queue

The recorded outcomes are the history of the device in the order of the
critical sections. Since the last `FIFO_CLEAR`, the bytes that went in are the
bytes that came out followed by those still queued, whatever the calls, faults
and signals were.
-/

namespace LinuxDevelopment.Globalfifo

/-- Extend the bytes moved on one side since the last `FIFO_CLEAR` by the
outcome of one more call. -/
def collect (side : Side) (acc : List UInt8) : Nat × Call × Reply → List UInt8
  | (_, c, .moved bytes) => if c.request.side = some side then acc ++ bytes else acc
  | (_, c, .value _) =>
      match c.request with
      | .ioctl cmd => if cmd = fifoClear then [] else acc
      | _ => acc
  | (_, _, .error _) => acc

/-- The bytes moved since the last `FIFO_CLEAR`: returned by reads on the
reader's side, accepted by writes on the writer's side. -/
def movedSince (side : Side) (history : List (Nat × Call × Reply)) : List UInt8 :=
  history.foldl (collect side) []

theorem movedSince_append (side : Side) (history : List (Nat × Call × Reply))
    (e : Nat × Call × Reply) :
    movedSince side (history ++ [e]) = collect side (movedSince side history) e := by
  simp [movedSince]

/-- The reply a call is about to return. -/
def Point.reply? : Point → Option Reply
  | .wakeUp r => some r
  | .out r => some r
  | .out2 r => some r
  | _ => none

/-- The point is in front of the effect of a call, or on the way back from a
failure. -/
def Point.Ineffective (p : Point) : Prop := ∀ r, p.reply? = some r → ∃ e, r = .error e

/-- The bytes of the device agree with the record, and a call that has had no
effect has left them alone. -/
structure Accounted (m : Machine) : Prop where
  bounded : m.currentLen ≤ globalfifoSize
  balanced : movedSince .writer m.history = movedSince .reader m.history ++ m.queue
  untouched : ∀ t c p, m.pc t = .inside c p → p.Ineffective → m.touched t = false

theorem accounted_globalfifoProbe : Accounted globalfifoProbe where
  bounded := Nat.zero_le _
  balanced := rfl
  untouched := by
    intro t c p h
    exact nomatch h

section Bytes

variable (m : Machine)

theorem queue_takeBytes (count : Nat) : m.taken count ++ (m.takeBytes count).queue = m.queue := by
  have hle : min count m.currentLen ≤ m.currentLen := Nat.min_le_right _ _
  have hrest : (m.takeBytes count).queue =
      m.mem.bytesAt (min count m.currentLen) (m.currentLen - min count m.currentLen) := by
    have h := Buffer.bytesAt_splice_self m.mem 0
      (m.mem.bytesAt (min count m.currentLen) (m.currentLen - min count m.currentLen))
    rwa [Buffer.length_bytesAt] at h
  calc m.taken count ++ (m.takeBytes count).queue
      = m.mem.bytesAt 0 (min count m.currentLen) ++
          m.mem.bytesAt (0 + min count m.currentLen)
            (m.currentLen - min count m.currentLen) := by
        rw [hrest, Nat.zero_add, Machine.taken]
    _ = m.mem.bytesAt 0 (min count m.currentLen + (m.currentLen - min count m.currentLen)) :=
        (Buffer.bytesAt_add _).symm
    _ = m.queue := by rw [Nat.add_sub_cancel' hle, Machine.queue]

theorem queue_giveBytes (buf : Buffer) (count : Nat) :
    (m.giveBytes buf count).queue = m.queue ++ m.given buf count := by
  have h := Buffer.bytesAt_splice_append m.mem 0 m.currentLen (m.given buf count)
  rw [Nat.zero_add, Machine.given, Buffer.length_bytesAt] at h
  exact h

theorem currentLen_giveBytes_le (h : m.currentLen ≤ globalfifoSize) (buf : Buffer) (count : Nat) :
    (m.giveBytes buf count).currentLen ≤ globalfifoSize := by
  have hle : min count (globalfifoSize - m.currentLen) ≤ globalfifoSize - m.currentLen :=
    Nat.min_le_right _ _
  change m.currentLen + min count (globalfifoSize - m.currentLen) ≤ globalfifoSize
  omega

/-- Bytes stored by a faulting copy lie behind the queue. -/
theorem bytesAt_splice_behind (junk : List UInt8) :
    (m.mem.splice m.currentLen junk).bytesAt 0 m.currentLen = m.queue :=
  Buffer.bytesAt_splice_outside (by omega)

end Bytes

section Step

variable {m m' : Machine} {t : Nat}

/-- The bytes a move puts in and takes out are those it records. -/
theorem Moves.balanced (h : Moves m t m')
    (hb : movedSince .writer m.history = movedSince .reader m.history ++ m.queue) :
    movedSince .writer m'.history = movedSince .reader m'.history ++ m'.queue := by
  cases h with
  | take hpc hreq =>
      rename_i c count
      have hq := queue_takeBytes m count
      change movedSince .writer (m.history ++ [_]) =
        movedSince .reader (m.history ++ [_]) ++ (m.takeBytes count).queue
      simp [movedSince_append, collect, hreq, Request.side, hb, hq]
  | give hpc hreq =>
      rename_i c buf count
      have hq := queue_giveBytes m buf count
      change movedSince .writer (m.history ++ [_]) =
        movedSince .reader (m.history ++ [_]) ++ (m.giveBytes buf count).queue
      simp [movedSince_append, collect, hreq, Request.side, hb, hq]
  | clear hpc hreq =>
      change movedSince .writer (m.history ++ [_]) = movedSince .reader (m.history ++ [_]) ++ []
      simp [movedSince_append, collect, hreq]
  | poll hpc hreq =>
      change movedSince .writer (m.history ++ [_]) =
        movedSince .reader (m.history ++ [_]) ++ m.queue
      simpa [movedSince_append, collect, hreq] using hb
  | faultGive junk hpc hreq =>
      change movedSince .writer (m.history ++ [_]) =
        movedSince .reader (m.history ++ [_]) ++
          (m.mem.splice m.currentLen junk).bytesAt 0 m.currentLen
      simpa [movedSince_append, collect, bytesAt_splice_behind] using hb
  | wouldBlock | interrupted | badCommand | faultTake =>
      change movedSince .writer (m.history ++ [_]) =
        movedSince .reader (m.history ++ [_]) ++ m.queue
      simpa [movedSince_append, collect] using hb
  | _ => exact hb

theorem Moves.bounded (h : Moves m t m') (hb : m.currentLen ≤ globalfifoSize) :
    m'.currentLen ≤ globalfifoSize := by
  cases h with
  | take hpc hreq => exact (Nat.sub_le _ _).trans hb
  | give hpc hreq =>
      rename_i c buf count
      exact currentLen_giveBytes_le m hb buf count
  | clear hpc hreq => exact Nat.zero_le _
  | _ => exact hb

theorem Moves.touched_of_ne {u : Nat} (h : Moves m t m') (hu : u ≠ t) :
    m'.touched u = m.touched u := by
  cases h with
  | call c hat => exact Function.update_of_ne hu _ _
  | _ => rfl

/-- A move to an ineffective point comes from one, and leaves the queue alone. -/
theorem Moves.ineffective {c : Call} {p : Point} (h : Moves m t m')
    (hold : ∀ u c p, m.pc u = .inside c p → p.Ineffective → m.touched u = false)
    (hpc : m'.pc t = .inside c p) (hp : p.Ineffective) :
    m'.touched t = false ∧ m'.queue = m.queue := by
  cases h with
  | call d hat => exact ⟨Function.update_self _ _ _, rfl⟩
  | signal | handleSignals => exact ⟨hold t c p hpc hp, rfl⟩
  | leaveQueue | leave => simp [Machine.leave] at hpc
  | faultGive junk hat hreq =>
      exact ⟨hold t _ _ hat (fun _ h => nomatch h), bytesAt_splice_behind m junk⟩
  | take | give | clear | poll =>
      obtain ⟨rfl, rfl⟩ := Pc.inside_of_update hpc
      obtain ⟨e, he⟩ := hp _ rfl
      exact nomatch he
  | wakeUp hat _ | out hat =>
      obtain ⟨rfl, rfl⟩ := Pc.inside_of_update hpc
      exact ⟨hold t _ _ hat hp, rfl⟩
  | enter hat | wouldBlock hat | sleep hat | proceed hat | unlock hat | scheduled hat
  | interrupted hat | retry hat | relock hat | lockBody hat | badCommand hat | faultTake hat =>
      exact ⟨hold t _ _ hat (fun _ h => nomatch h), rfl⟩

theorem Moves.accounted {n : Machine} (h : Moves m t n) (hm : Accounted m) :
    Accounted (m.observe t n) where
  bounded := h.bounded hm.bounded
  balanced := h.balanced hm.balanced
  untouched := by
    intro u c p hpc hp
    by_cases hu : u = t
    · subst hu
      obtain ⟨htouched, hqueue⟩ := h.ineffective hm.untouched hpc hp
      simp [Machine.observe, htouched, hqueue]
    · have hpc' : m.pc u = .inside c p := (h.pc_of_ne hu).symm.trans hpc
      calc (m.observe t n).touched u = n.touched u := Function.update_of_ne hu _ _
        _ = m.touched u := h.touched_of_ne hu
        _ = false := hm.untouched u c p hpc' hp

theorem accounted_of_reachable (h : Reachable Machine.step globalfifoProbe m) : Accounted m := by
  refine h.invariant accounted_globalfifoProbe ?_
  intro m m' l hm hstep
  obtain ⟨n, hn, rfl⟩ := moves_of_step hstep
  exact hn.accounted hm

end Step

end LinuxDevelopment.Globalfifo
