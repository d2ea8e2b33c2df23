import LinuxDevelopment.Simplefs.Contents

/-!
# simplefs: reading a part of a file

`simplefs_read` tests the position against the size of the file and advances it,
but it always copies from the start of the block, and as much as the whole file
has. `readAll` is a reader that goes on until a read returns 0.
-/

namespace LinuxDevelopment.Simplefs

/-- The file behind the dentry has the contents `c`. -/
structure World.FileIs (w : World) (file : Path) (q : SimplefsInode) (c : List UInt8) : Prop where
  inode : w.simplefsInode file = some q
  size : q.fileSize.toNat = c.length
  le : c.length ≤ 4096
  data : (w.cache q.dataBlockNumber.toNat).bytesAt 0 c.length = c

/-- A read that returns the bytes of the file from its position on. -/
def ReadsPart (tid : Nat) (env : Env) (w : World) (file : Path) (c : List UInt8) (len pos : Nat) :
    Prop :=
  (simplefsRead file len pos).run (exec tid env) w =
    .done (((c.drop pos).take len).length, (c.drop pos).take len,
      pos + ((c.drop pos).take len).length) w

/-- Read with the given buffer sizes until a read returns 0, or until there is
no buffer left. -/
def readAll (tid : Nat) (env : Env) (file : Path) : List Nat → Nat → World → Option (List UInt8)
  | [], _, _ => none
  | len :: lens, pos, w =>
      ((simplefsRead file len pos).run (exec tid env) w).elim
        (fun r w' => if r.1 = 0 then some []
          else (readAll tid env file lens r.2.2 w').map (r.2.1 ++ ·)) none

/-- The reads that return what they should: at the end of the file or into an
empty buffer, and of a readable block those at a position where the file goes on
as it starts. -/
def StartRepeats (readable : Bool) (c : List UInt8) (len pos : Nat) : Prop :=
  c.length ≤ pos ∨ len = 0 ∨ readable = true ∧ (c.drop pos).take len = c.take len

/-- Each of successive reads returns what it should. -/
def EachRepeats (readable : Bool) (c : List UInt8) : List Nat → Nat → Prop
  | [], _ => True
  | len :: lens, pos => StartRepeats readable c len pos ∧ EachRepeats readable c lens (pos + len)

section Read

variable {tid : Nat} {env : Env} {w : World} {file : Path} {q : SimplefsInode} {c : List UInt8}
  {len pos : Nat} {lens : List Nat}

/-- What a read returns, whatever its position is. -/
theorem World.FileIs.run_read (h : w.FileIs file q c) (hfault : env.copyFault = none) :
    (simplefsRead file len pos).run (exec tid env) w =
      if c.length ≤ pos ∨ env.breadFails q.dataBlockNumber.toNat = true then .done (0, [], pos) w
      else .done ((c.take len).length, c.take len, pos + (c.take len).length) w := by
  have hle := h.le
  simp only [simplefsRead, Prog.run_bind, run_simplefsInode h.inode, Outcome.bind_done,
    Prog.run_ite, Prog.run_pure, run_sbBread, h.size, ge_iff_le]
  by_cases hend : c.length ≤ pos
  · rw [if_pos hend, if_pos (.inl hend)]
  rw [if_neg hend]
  cases hb : env.breadFails q.dataBlockNumber.toNat with
  | true =>
      rw [if_pos (Or.inr rfl : c.length ≤ pos ∨ true = true)]
      rfl
  | false =>
      have hdata : (w.cache q.dataBlockNumber.toNat).bytesAt 0 (min c.length len) = c.take len := by
        rw [← Buffer.take_bytesAt (Nat.min_le_left _ _), h.data, Nat.min_comm, ← List.take_eq_take_min]
      have hlen : min c.length len = (c.take len).length := by
        rw [List.length_take, Nat.min_comm]
      have hgo : ¬ (c.length ≤ pos ∨ false = true) := by simp [hend]
      rw [if_neg hgo, run_copyToUser (by omega), hfault, hdata, hlen]
      simp [copied]

/-- A read is right exactly where the file goes on as it starts. -/
theorem World.FileIs.readsPart_iff (h : w.FileIs file q c) (hfault : env.copyFault = none) :
    ReadsPart tid env w file c len pos ↔
      StartRepeats (!env.breadFails q.dataBlockNumber.toNat) c len pos := by
  unfold ReadsPart StartRepeats
  rw [h.run_read hfault]
  by_cases hend : c.length ≤ pos
  · rw [if_pos (.inl hend), List.drop_of_length_le hend, List.take_nil]
    simp [hend]
  cases hb : env.breadFails q.dataBlockNumber.toNat with
  | true =>
      rw [if_pos (Or.inr rfl : c.length ≤ pos ∨ true = true)]
      simp only [hend, Bool.not_true, Bool.false_eq_true, false_and, or_false, false_or]
      constructor
      · intro hrun
        have hnil : [] = (c.drop pos).take len := (Prod.mk.inj (Prod.mk.inj (Outcome.done.inj hrun).1).2).1
        rcases List.take_eq_nil_iff.mp hnil.symm with hlen | hdrop
        · exact hlen
        · exact absurd (List.drop_eq_nil_iff.mp hdrop) hend
      · rintro rfl
        rfl
  | false =>
      rw [if_neg (by simp [hend])]
      simp only [hend, Bool.not_false, true_and, false_or]
      constructor
      · intro hrun
        right
        exact (Prod.mk.inj (Prod.mk.inj (Outcome.done.inj hrun).1).2).1.symm
      · rintro (rfl | heq)
        · rfl
        · rw [heq]

theorem eachRepeats_of_le {readable : Bool} (hend : c.length ≤ pos) (lens : List Nat) :
    EachRepeats readable c lens pos := by
  induction lens generalizing pos with
  | nil => trivial
  | cons len lens ih => exact ⟨.inl hend, ih (Nat.le_add_right_of_le hend)⟩

theorem World.FileIs.readAll_cons (h : w.FileIs file q c) (hfault : env.copyFault = none) :
    readAll tid env file (len :: lens) pos w =
      if c.length ≤ pos ∨ env.breadFails q.dataBlockNumber.toNat = true ∨ len = 0 then some []
      else (readAll tid env file lens (pos + (c.take len).length) w).map (c.take len ++ ·) := by
  have hstep : readAll tid env file (len :: lens) pos w =
      ((simplefsRead file len pos).run (exec tid env) w).elim
        (fun r w' => if r.1 = 0 then some []
          else (readAll tid env file lens r.2.2 w').map (r.2.1 ++ ·)) none := rfl
  rw [hstep, h.run_read hfault]
  by_cases hend : c.length ≤ pos
  · rw [if_pos (.inl hend), if_pos (.inl hend)]
    rfl
  cases hb : env.breadFails q.dataBlockNumber.toNat with
  | true =>
      rw [if_pos (Or.inr rfl : c.length ≤ pos ∨ true = true),
        if_pos (Or.inr (Or.inl rfl) : c.length ≤ pos ∨ true = true ∨ len = 0)]
      rfl
  | false =>
      have hgo : ¬ (c.length ≤ pos ∨ false = true) := by simp [hend]
      have hempty : ((c.take len).length : Int) = 0 ↔ len = 0 := by
        rw [Int.natCast_eq_zero, List.length_take]
        omega
      rw [if_neg hgo, Outcome.elim_done]
      simp only [hempty]
      by_cases hlen : len = 0
      · rw [if_pos hlen, if_pos (Or.inr (Or.inr hlen) : c.length ≤ pos ∨ false = true ∨ len = 0)]
      · rw [if_neg hlen, if_neg (by simp [hend, hlen])]

/-- A start that reaches into the rest of the file as a part of it is a right read. -/
theorem take_eq_of_append_eq_drop {d : List UInt8} (h : c.take len ++ d = c.drop pos) :
    (c.drop pos).take len = c.take len := by
  have hlen := congrArg List.length h
  rw [List.length_append, List.length_take, List.length_drop] at hlen
  rcases Nat.le_total len c.length with hle | hle
  · rw [← h, List.take_left' (by rw [List.length_take]; omega)]
  · -- the whole file fits only at its start
    rcases Nat.eq_zero_or_pos pos with rfl | hpos
    · rfl
    · obtain rfl : c = [] := List.length_eq_zero_iff.mp (by omega)
      simp

/-- Behind a right read the rest of the file is left. The read advances by `len`,
or to the end of the file. -/
theorem drop_eq_append_of_take_eq (h : (c.drop pos).take len = c.take len) :
    c.drop pos = c.take len ++ c.drop (pos + (c.take len).length) ∧
      ((c.take len).length = len ∨ c.length ≤ (c.take len).length ∧ c.length ≤ len) := by
  rcases Nat.le_total len c.length with hle | hle
  · have hn : (c.take len).length = len := by
      rw [List.length_take]
      omega
    refine ⟨?_, .inl hn⟩
    rw [hn, ← h, ← List.drop_drop, List.take_append_drop]
  · have hall : c.take len = c := List.take_of_length_le hle
    have hdrop : (c.drop pos).length ≤ len := by
      rw [List.length_drop]
      omega
    rw [hall, List.take_of_length_le hdrop] at h
    rw [hall]
    refine ⟨?_, .inr ⟨Nat.le_refl _, hle⟩⟩
    rw [h, List.drop_of_length_le (Nat.le_add_left _ _), List.append_nil]

/-- Reading on from a position gives the rest of the file exactly if each of the
reads is right. -/
theorem World.FileIs.readAll_iff (h : w.FileIs file q c) (hfault : env.copyFault = none)
    (hpos : ∀ l ∈ lens, 0 < l) (hlong : c.length - pos < lens.length) :
    readAll tid env file lens pos w = some (c.drop pos) ↔
      EachRepeats (!env.breadFails q.dataBlockNumber.toNat) c lens pos := by
  induction lens generalizing pos with
  | nil => exact absurd hlong (Nat.not_lt_zero _)
  | cons len lens ih =>
      have hlen : 0 < len := hpos len List.mem_cons_self
      rw [h.readAll_cons hfault, List.length_cons] at *
      by_cases hend : c.length ≤ pos
      · rw [if_pos (.inl hend), List.drop_of_length_le hend]
        exact iff_of_true rfl (eachRepeats_of_le hend _)
      unfold EachRepeats StartRepeats
      cases hb : env.breadFails q.dataBlockNumber.toNat with
      | true =>
          rw [if_pos (Or.inr (Or.inl rfl) : c.length ≤ pos ∨ true = true ∨ len = 0)]
          refine iff_of_false (fun heq => ?_) (fun hr => ?_)
          · exact hend (List.drop_eq_nil_iff.mp (Option.some.inj heq).symm)
          · simp [hend, Nat.ne_of_gt hlen] at hr
      | false =>
          rw [if_neg (by simp [hend, Nat.ne_of_gt hlen])]
          have hrest := @ih (pos + (c.take len).length)
            (fun l hl => hpos l (List.mem_cons_of_mem _ hl))
            (by rw [List.length_take]; omega)
          rw [hb] at hrest
          have hnext : (c.drop pos).take len = c.take len →
              (EachRepeats (!false) c lens (pos + (c.take len).length) ↔
                EachRepeats (!false) c lens (pos + len)) := by
            intro hstart
            rcases (drop_eq_append_of_take_eq hstart).2 with heq | ⟨hle, hle'⟩
            · rw [heq]
            · exact iff_of_true (eachRepeats_of_le (Nat.le_add_left_of_le hle) _)
                (eachRepeats_of_le (Nat.le_add_left_of_le hle') _)
          constructor
          · intro heq
            obtain ⟨d, hd, happ⟩ := Option.map_eq_some_iff.mp heq
            have hstart := take_eq_of_append_eq_drop happ
            refine ⟨.inr (.inr ⟨rfl, hstart⟩), (hnext hstart).mp (hrest.mp ?_)⟩
            rw [(drop_eq_append_of_take_eq hstart).1] at happ
            rw [hd, List.append_cancel_left happ]
          · rintro ⟨hright, hall⟩
            have hstart : (c.drop pos).take len = c.take len := by
              rcases hright with hle | hzero | ⟨-, hstart⟩
              · exact absurd hle hend
              · exact absurd hzero (Nat.ne_of_gt hlen)
              · exact hstart
            rw [hrest.mpr ((hnext hstart).mpr hall), (drop_eq_append_of_take_eq hstart).1]
            rfl

/-- Which reads of a file are right, and which sequences of reads. -/
theorem readsPart_iff_startRepeats (h : w.FileIs file q c) (hfault : env.copyFault = none) :
    (∀ len pos, ReadsPart tid env w file c len pos ↔
      StartRepeats (!env.breadFails q.dataBlockNumber.toNat) c len pos) ∧
    ∀ lens : List Nat, (∀ l ∈ lens, 0 < l) → c.length < lens.length →
      (readAll tid env file lens 0 w = some c ↔
        EachRepeats (!env.breadFails q.dataBlockNumber.toNat) c lens 0) :=
  ⟨fun _ _ => h.readsPart_iff hfault, fun _ hpos hlong => h.readAll_iff hfault hpos hlong⟩

end Read

/-- After the first four of the `sampleCalls` the file `a/b` holds the two bytes `hi`. -/
theorem fileIs_sampleCalls : ∃ es w q, Run (World.ofImage (mkfs fun _ _ => 0)) es w ∧
    FaultFreeRun es ∧ w.FileIs [[98], [97]] q [104, 105] ∧
    ((simplefsRead [[98], [97]] 1 1).run (exec 0 .quiet) w).value? = some (1, [104], 2) ∧
    readAll 0 .quiet [[98], [97]] [1, 1, 1] 0 w = some [104, 104] := by
  have hx : (runCalls (World.ofImage (mkfs fun _ _ => 0)) (quietly (sampleCalls.take 4))).any
      (fun x => decide (x.2.simplefsInode [[98], [97]] = some ⟨0o100644, 11, 5, 2⟩ ∧
        (x.2.cache 5).bytesAt 0 2 = [104, 105] ∧
        ((simplefsRead [[98], [97]] 1 1).run (exec 0 .quiet) x.2).value? = some (1, [104], 2) ∧
        readAll 0 .quiet [[98], [97]] [1, 1, 1] 0 x.2 = some [104, 104])) = true := by
    decide +kernel
  obtain ⟨⟨es, w⟩, hcalls, heq⟩ := (Option.any_eq_true _ _).mp hx
  obtain ⟨hinode, hdata, hread, hall⟩ := of_decide_eq_true heq
  exact ⟨es, w, _, run_of_runCalls hcalls,
    env_of_runCalls hcalls (env_quietly ⟨Env.calm_quiet, rfl⟩ _),
    ⟨hinode, by decide, by decide, hdata⟩, hread, hall⟩

/-- The file read from its start into a buffer that is large enough. -/
theorem readsPart_wholeFile : ∃ w q, w.FileIs [[98], [97]] q [104, 105] ∧
    StartRepeats true [104, 105] 2 0 ∧ ReadsPart 0 .quiet w [[98], [97]] [104, 105] 2 0 := by
  obtain ⟨es, w, q, -, -, hfile, -⟩ := fileIs_sampleCalls
  have hstart : StartRepeats true [104, 105] 2 0 := .inr (.inr ⟨rfl, rfl⟩)
  exact ⟨w, q, hfile, hstart, ((readsPart_iff_startRepeats hfile rfl).1 2 0).mpr hstart⟩

/-- A read of the second byte returns the first one again, and reading byte by
byte gives `hh` for `hi`. -/
theorem not_readsPart_secondByte : ∃ es w q, Run (World.ofImage (mkfs fun _ _ => 0)) es w ∧
    FaultFreeRun es ∧ w.FileIs [[98], [97]] q [104, 105] ∧
    ((simplefsRead [[98], [97]] 1 1).run (exec 0 .quiet) w).value? = some (1, [104], 2) ∧
    ¬ ReadsPart 0 .quiet w [[98], [97]] [104, 105] 1 1 ∧
    readAll 0 .quiet [[98], [97]] [1, 1, 1] 0 w = some [104, 104] := by
  obtain ⟨es, w, q, hrun, hfree, hfile, hread, hall⟩ := fileIs_sampleCalls
  refine ⟨es, w, q, hrun, hfree, hfile, hread, fun h => ?_, hall⟩
  have hvalue := congrArg Outcome.value? h
  rw [hread, Outcome.value?_done] at hvalue
  exact absurd (Option.some.inj hvalue) (by decide)

end LinuxDevelopment.Simplefs
