import LinuxDevelopment.Simplefs.Format
import Mathlib.Data.Finset.Card
import Mathlib.Order.Interval.Finset.Nat

/-!
# simplefs: untrusted images

`simplefs_fill_super` looks at the magic number and the block size. All other
numbers of an image are followed without a test. `WellFormed` is what an image
has to satisfy for `lookup`, `iterate` and `read` to stay inside the blocks and
to find an inode wherever they need one, and nothing less will do.
-/

namespace LinuxDevelopment.Simplefs

/-- An access to a buffer stays inside its 4096 bytes, and no inode of the device
is missing where one is used. That `new_inode` returns `NULL` does not depend on
the image and is not counted here. -/
def Op.Tolerable : Op → World → Prop
  | .load _ off len, _ => off + len ≤ 4096
  | .copyToUser _ off len, _ => off + len ≤ 4096
  | .simplefsInode p, w => w.simplefsInode p ≠ none
  | .trap t, _ => t ≠ .nullPointer
  | _, _ => True

/-- All actions of an execution are tolerable. -/
def Safe {α : Type} (tid : Nat) (env : Env) (p : Code α) (w : World) : Prop :=
  p.Along (exec tid env) Op.Tolerable w

section Rules

variable {α β : Type} {tid : Nat} {env : Env} {w w' : World} {p : Prog Op.Res α}
  {f : α → Prog Op.Res β}

theorem safe_bind : Safe tid env (p >>= f) w ↔ Safe tid env p w ∧
    ∀ a w', p.run (exec tid env) w = .done a w' → Safe tid env (f a) w' :=
  Prog.along_bind

theorem safe_bind_of_run {a : α} (h : p.run (exec tid env) w = .done a w') :
    Safe tid env (p >>= f) w ↔ Safe tid env p w ∧ Safe tid env (f a) w' :=
  Prog.along_bind_of_run h

end Rules

section Loops

variable {tid : Nat} {env : Env} {w : World} {block off len left i : Nat} {name : Name}
  {ino : UInt64}

theorem safe_load : Safe tid env (load block off len) w ↔ off + len ≤ 4096 :=
  Prog.along_perform _ _

theorem safe_load64 : Safe tid env (load64 block off) w ↔ off + 8 ≤ 4096 := by
  refine safe_bind.trans ?_
  rw [safe_load]
  exact and_iff_left fun _ _ _ => trivial

/-- `strcmp` stops at the first byte that differs. -/
theorem safe_strcmpLoop {s : List UInt8} :
    Safe tid env (strcmpLoop block off s) w ↔
      ∀ n < s.length, (w.cache block).bytesAt off n = s.take n → off + n + 1 ≤ 4096 := by
  induction s generalizing off with
  | nil => exact iff_of_true trivial fun n hn => absurd hn (Nat.not_lt_zero n)
  | cons c s ih =>
      by_cases hload : off + 1 ≤ 4096
      · have hrun : (load block off 1).run (exec tid env) w = .done [w.cache block off] w :=
          run_load hload
        have hsplit : ∀ n, (w.cache block).bytesAt off (n + 1) =
            w.cache block off :: (w.cache block).bytesAt (off + 1) n := by
          intro n
          rw [Nat.add_comm n 1, Buffer.bytesAt_add]
          rfl
        refine (safe_bind_of_run hrun).trans ?_
        rw [safe_load]
        refine (and_iff_right hload).trans ?_
        by_cases hc : w.cache block off = c
        · rw [if_neg (by simp [hc]), ih]
          constructor
          · intro h n hn heq
            cases n with
            | zero => omega
            | succ n =>
                rw [hsplit] at heq
                have := h n (by simpa using hn) (List.cons.inj heq).2
                omega
          · intro h n hn heq
            have := h (n + 1) (by simpa using hn) (by rw [hsplit, hc, heq]; rfl)
            omega
        · rw [if_pos (by simp [hc])]
          refine iff_of_true trivial ?_
          intro n hn heq
          cases n with
          | zero => omega
          | succ n =>
              rw [hsplit] at heq
              exact absurd (List.cons.inj heq).1 hc
      · refine iff_of_false ?_ ?_
        · intro h
          exact hload (safe_load.mp (safe_bind.mp h).1)
        · intro h
          exact hload (h 0 (by simp) rfl)

theorem run_strcmpLoop_of_safe {s : List UInt8} (h : Safe tid env (strcmpLoop block off s) w) :
    (strcmpLoop block off s).run (exec tid env) w =
      .done (decide ((w.cache block).bytesAt off s.length = s)) w := by
  induction s generalizing off with
  | nil => simp [strcmpLoop, Buffer.bytesAt]
  | cons c s ih =>
      obtain ⟨hload, hrest⟩ := safe_bind.mp h
      have hrun := @run_load tid env w block off 1 (safe_load.mp hload)
      have hone : (w.cache block).bytesAt off 1 = [w.cache block off] := rfl
      have hrest := hrest _ _ hrun
      have hlen : (c :: s).length = 1 + s.length := Nat.add_comm _ _
      rw [hlen, Buffer.bytesAt_add, hone]
      simp only [strcmpLoop, Prog.run_bind, hrun, Outcome.bind_done, hone] at hrest ⊢
      by_cases hc : w.cache block off = c
      · rw [if_neg (by simp [hc])] at hrest ⊢
        rw [ih hrest]
        simp [hc]
      · rw [if_pos (by simp [hc])]
        simp [hc]

theorem safe_lookupLoop_succ (hn : ValidName name) :
    Safe tid env (lookupLoop block name (left + 1) i) w ↔
      Safe tid env (strcmpLoop block (264 * i) (name ++ [0])) w ∧
        if (w.cache block).HasCString (264 * i) name then 264 * i + 264 ≤ 4096
        else Safe tid env (lookupLoop block name left (i + 1)) w := by
  have hc : cString name = name ++ [0] := cString_of_nulFree hn.nulFree
  have hl : (name ++ [0]).length = name.length + 1 := by simp
  simp only [lookupLoop, hc, sizeofSimplefsDirRecord]
  by_cases hs : Safe tid env (strcmpLoop block (264 * i) (name ++ [0])) w
  · rw [safe_bind_of_run (run_strcmpLoop_of_safe hs), hl]
    refine and_congr_right fun _ => ?_
    by_cases hx : (w.cache block).HasCString (264 * i) name
    · have hx' : (w.cache block).bytesAt (264 * i) (name.length + 1) = name ++ [0] := hx
      rw [if_pos (decide_eq_true hx'), if_pos hx]
      refine safe_bind.trans ?_
      rw [safe_load64]
      exact and_iff_left fun _ _ _ => trivial
    · have hx' : ¬ (w.cache block).bytesAt (264 * i) (name.length + 1) = name ++ [0] := hx
      rw [if_neg (by simpa using hx'), if_neg hx]
  · exact iff_of_false (fun h => hs (safe_bind.mp h).1) fun h => hs h.1

theorem run_lookupLoop_of_safe (hn : ValidName name)
    (h : Safe tid env (lookupLoop block name left i) w) :
    (lookupLoop block name left i).run (exec tid env) w =
      .done (((List.range' i left).find? fun k => (w.cache block).HasCString (264 * k) name).map
        (recordIno (w.cache block))) w := by
  have hc : cString name = name ++ [0] := cString_of_nulFree hn.nulFree
  have hl : (name ++ [0]).length = name.length + 1 := by simp
  induction left generalizing i with
  | zero => rfl
  | succ left ih =>
      obtain ⟨hs, hrest⟩ := (safe_lookupLoop_succ hn).mp h
      rw [List.range'_succ]
      simp only [lookupLoop, Prog.run_bind, hc, sizeofSimplefsDirRecord]
      rw [run_strcmpLoop_of_safe hs, Outcome.bind_done, hl, List.find?_cons]
      by_cases hx : (w.cache block).HasCString (264 * i) name
      · have hx' : (w.cache block).bytesAt (264 * i) (name.length + 1) = name ++ [0] := hx
        rw [if_pos hx] at hrest
        rw [if_pos (decide_eq_true hx'), Prog.run_bind, run_load64 (by omega)]
        simp [hx, recordIno]
      · have hx' : ¬ (w.cache block).bytesAt (264 * i) (name.length + 1) = name ++ [0] := hx
        rw [if_neg hx] at hrest
        rw [if_neg (by simpa using hx'), ih hrest]
        simp [hx]

/-- Fifteen records lie inside the block. -/
theorem safe_lookupLoop_of_le (hn : ValidName name) (h : i + left ≤ 15) :
    Safe tid env (lookupLoop block name left i) w := by
  have hl := hn.le
  induction left generalizing i with
  | zero => trivial
  | succ left ih =>
      refine (safe_lookupLoop_succ hn).mpr ⟨?_, ?_⟩
      · refine safe_strcmpLoop.mpr ?_
        intro n hlen _
        rw [List.length_append, List.length_singleton] at hlen
        omega
      · split_ifs
        · omega
        · exact ih (by omega)

/-- The part of the sixteenth record that is in the block does not tell it from the name. -/
def Overruns (dir : Buffer) (name : Name) : Prop :=
  dir.bytesAt (264 * 15) (min (name.length + 1) 136) = (name ++ [0]).take 136

theorem overruns_of_hasCString {dir : Buffer} (h : dir.HasCString (264 * 15) name) :
    Overruns dir name := by
  have h' : dir.bytesAt (264 * 15) (name.length + 1) = name ++ [0] := h
  unfold Overruns
  rw [← h', ← Buffer.take_bytesAt (Nat.min_le_left _ _), List.take_eq_take_iff,
    Buffer.length_bytesAt]
  omega

theorem safe_lookupLoop_fifteen (hn : ValidName name) :
    Safe tid env (lookupLoop block name (left + 1) 15) w ↔
      ¬ Overruns (w.cache block) name ∧ Safe tid env (lookupLoop block name left 16) w := by
  have hl : (name ++ [0]).length = name.length + 1 := by simp
  rw [safe_lookupLoop_succ hn]
  constructor
  · rintro ⟨hs, hrest⟩
    have hno : ¬ Overruns (w.cache block) name := by
      intro hov
      unfold Overruns at hov
      by_cases hlong : name.length + 1 ≤ 136
      · rw [Nat.min_eq_left hlong, List.take_of_length_le (hl.le.trans hlong)] at hov
        have hx : (w.cache block).HasCString (264 * 15) name := hov
        rw [if_pos hx] at hrest
        omega
      · rw [Nat.min_eq_right (Nat.le_of_not_le hlong)] at hov
        have := safe_strcmpLoop.mp hs 136 (by omega) hov
        omega
    rw [if_neg fun hx => hno (overruns_of_hasCString hx)] at hrest
    exact ⟨hno, hrest⟩
  · rintro ⟨hno, hrest⟩
    rw [if_neg fun hx => hno (overruns_of_hasCString hx)]
    refine ⟨safe_strcmpLoop.mpr ?_, hrest⟩
    intro n hn' heq
    by_contra hlarge
    apply hno
    unfold Overruns
    rw [Nat.min_eq_right (by omega), ← Buffer.take_bytesAt (show 136 ≤ n by omega), heq,
      List.take_take, Nat.min_eq_left (by omega)]

/-- The seventeenth record starts behind the block. -/
theorem not_safe_lookupLoop_sixteen (hn : ValidName name) :
    ¬ Safe tid env (lookupLoop block name (left + 1) 16) w := by
  intro h
  have hs := ((safe_lookupLoop_succ hn).mp h).1
  have := safe_strcmpLoop.mp hs 0 (by simp) rfl
  omega

theorem safe_lookupLoop_add (hn : ValidName name) {m : Nat} (hm : i + m ≤ 15) :
    Safe tid env (lookupLoop block name (m + left) i) w ↔
      ((∀ k, i ≤ k → k < i + m → ¬ (w.cache block).HasCString (264 * k) name) →
        Safe tid env (lookupLoop block name left (i + m)) w) := by
  have hl := hn.le
  induction m generalizing i with
  | zero =>
      rw [Nat.zero_add, Nat.add_zero]
      exact ⟨fun h _ => h, fun h => h fun k hk hk' => absurd hk' (Nat.not_lt.mpr hk)⟩
  | succ m ih =>
      have hs : Safe tid env (strcmpLoop block (264 * i) (name ++ [0])) w := by
        refine safe_strcmpLoop.mpr ?_
        intro n hlen _
        rw [List.length_append, List.length_singleton] at hlen
        omega
      have hnext : i + (m + 1) = i + 1 + m := by omega
      rw [Nat.succ_add, safe_lookupLoop_succ hn, hnext]
      by_cases hx : (w.cache block).HasCString (264 * i) name
      · rw [if_pos hx]
        refine iff_of_true ⟨hs, by omega⟩ ?_
        intro h
        exact absurd hx (h i (Nat.le_refl i) (by omega))
      · rw [if_neg hx]
        refine (and_congr_right fun _ => ih (by omega)).trans ?_
        constructor
        · rintro ⟨-, h⟩ hno
          exact h fun k hk hk' => hno k (by omega) hk'
        · intro h
          refine ⟨hs, fun hno => h ?_⟩
          intro k hk hk'
          rcases Nat.eq_or_lt_of_le hk with rfl | hlt
          · exact hx
          · exact hno k hlt hk'

theorem findRecord_none_iff {dir : Buffer} {n : Nat} :
    findRecord dir name n = none ↔ ∀ k < n, ¬ dir.HasCString (264 * k) name := by
  unfold findRecord
  rw [List.find?_eq_none]
  simp [List.mem_range'_1]

/-- A lookup of one name stays inside the block of a directory with `n` records. -/
theorem safe_lookupLoop_iff (hn : ValidName name) {n : Nat} :
    Safe tid env (lookupLoop block name n 0) w ↔
      n ≤ 15 ∨ findRecord (w.cache block) name 15 ≠ none ∨
        n = 16 ∧ ¬ Overruns (w.cache block) name := by
  by_cases hle : n ≤ 15
  · exact iff_of_true (safe_lookupLoop_of_le hn (by omega)) (.inl hle)
  · obtain ⟨m, rfl⟩ : ∃ m, n = 15 + (m + 1) := ⟨n - 16, by omega⟩
    have hfirst : (∀ k, 0 ≤ k → k < 0 + 15 → ¬ (w.cache block).HasCString (264 * k) name) ↔
        findRecord (w.cache block) name 15 = none := by
      rw [findRecord_none_iff]
      exact ⟨fun h k hk => h k (Nat.zero_le k) (by omega), fun h k _ hk => h k (by omega)⟩
    rw [safe_lookupLoop_add hn (Nat.le_refl 15), hfirst]
    refine (imp_congr_right fun _ => safe_lookupLoop_fifteen hn).trans ?_
    constructor
    · intro h
      by_cases hnone : findRecord (w.cache block) name 15 = none
      · obtain ⟨hno, hrest⟩ := h hnone
        cases m with
        | zero => exact .inr (.inr ⟨rfl, hno⟩)
        | succ m => exact absurd hrest (not_safe_lookupLoop_sixteen hn)
      · exact .inr (.inl hnone)
    · rintro (h | h | ⟨h, hno⟩) hnone
      · exact absurd h hle
      · exact absurd hnone h
      · obtain rfl : m = 0 := by omega
        exact ⟨hno, trivial⟩

/-- Among sixteen names of one byte there is one that none of fifteen records has. -/
theorem exists_name_not_found (dir : Buffer) :
    ∃ name, ValidName name ∧ findRecord dir name 15 = none := by
  let taken : Finset Nat := (Finset.range 15).image fun k => (dir (264 * k)).toNat
  have hcard : taken.card < (Finset.Icc 1 16).card := by
    calc
      taken.card ≤ (Finset.range 15).card := Finset.card_image_le
      _ < (Finset.Icc 1 16).card := by decide
  obtain ⟨c, hc, hfree⟩ := Finset.exists_mem_notMem_of_card_lt_card hcard
  have hrange := Finset.mem_Icc.mp hc
  have hbyte : (UInt8.ofNat c).toNat = c := by
    simp
    omega
  refine ⟨[UInt8.ofNat c], ⟨by simp, by simp, ?_⟩, ?_⟩
  · intro x hx hzero
    rw [List.mem_singleton.mp hx] at hzero
    rw [hzero] at hbyte
    have : (0 : UInt8).toNat = 0 := rfl
    omega
  · rw [findRecord_none_iff]
    intro k hk hx
    apply hfree
    refine Finset.mem_image.mpr ⟨k, Finset.mem_range.mpr hk, ?_⟩
    rw [(Buffer.hasCString_cons.mp hx).1, hbyte]

/-- The records of a directory with the entry `d` and the block `dir` lie inside
the block. An entry that is not marked as a directory is not listed, so that a
sixteenth record is harmless if no lookup gets to it. -/
def RecordsFit (dir : Buffer) (d : SimplefsInode) : Prop :=
  d.dirChildrenCount ≤ 15 ∨ sIsdir d.mode = false ∧ d.dirChildrenCount = 16 ∧
    ∀ name, ValidName name → Overruns dir name → findRecord dir name 15 ≠ none

theorem safe_getInodeLoop_succ :
    Safe tid env (getInodeLoop ino (left + 1) i) w ↔ i < 128 ∧
      ((entryAt w.cache i).inodeNo ≠ ino → Safe tid env (getInodeLoop ino left (i + 1)) w) := by
  have hno : (entryAt w.cache i).inodeNo = (w.cache 1).get64 (32 * i + 8) := inodeNo_inodeAt
  by_cases hi : i < 128
  · have hload := @run_load64 tid env w 1 (32 * i + 8) (by omega)
    refine (safe_bind_of_run hload).trans ?_
    rw [safe_load64, hno]
    refine and_congr (iff_of_true (by omega) hi) ?_
    by_cases hc : (w.cache 1).get64 (32 * i + 8) = ino
    · rw [if_pos hc]
      refine iff_of_true ?_ fun h => absurd hc h
      refine safe_bind.mpr ⟨safe_bind.mpr ⟨?_, fun _ _ _ => trivial⟩, fun _ _ _ => trivial⟩
      refine safe_load.mpr ?_
      simp only [sizeofSimplefsInode]
      omega
    · rw [if_neg hc]
      exact ⟨fun h _ => h, fun h => h hc⟩
  · refine iff_of_false ?_ fun h => hi h.1
    intro h
    have hload := safe_load64.mp (safe_bind.mp h).1
    simp only [sizeofSimplefsInode] at hload
    omega

theorem run_getInodeLoop_of_safe (h : Safe tid env (getInodeLoop ino left i) w) :
    (getInodeLoop ino left i).run (exec tid env) w =
      .done (((List.range' i left).find? fun j => (entryAt w.cache j).inodeNo = ino).map
        (entryAt w.cache)) w := by
  induction left generalizing i with
  | zero => rfl
  | succ left ih =>
      obtain ⟨hi, hrest⟩ := safe_getInodeLoop_succ.mp h
      have hno : (entryAt w.cache i).inodeNo = (w.cache 1).get64 (32 * i + 8) := inodeNo_inodeAt
      rw [List.range'_succ, List.find?_cons]
      simp only [getInodeLoop, Prog.run_bind, simplefsInodestoreBlockNumber, sizeofSimplefsInode]
      rw [run_load64 (by omega), Outcome.bind_done, ← hno]
      by_cases hc : (entryAt w.cache i).inodeNo = ino
      · rw [if_pos hc, Prog.run_bind, run_loadInode (by omega)]
        simp [hc]
      · rw [if_neg hc, ih (hrest hc)]
        simp [hc]

/-- The search for an entry is safe and finds one exactly if the first match is
inside the store block. -/
theorem safe_getInodeLoop_found :
    (Safe tid env (getInodeLoop ino left i) w ∧
      (List.range' i left).find? (fun j => (entryAt w.cache j).inodeNo = ino) ≠ none) ↔
      ∃ j < 128, (List.range' i left).find? (fun j => (entryAt w.cache j).inodeNo = ino) =
        some j := by
  induction left generalizing i with
  | zero => simp
  | succ left ih =>
      rw [safe_getInodeLoop_succ, List.range'_succ, List.find?_cons]
      by_cases hc : (entryAt w.cache i).inodeNo = ino
      · simp [hc]
      · simp only [hc, decide_false, ne_eq, not_false_eq_true, forall_const]
        rw [and_assoc, ih]
        refine and_iff_right_of_imp ?_
        rintro ⟨j, hj, hfind⟩
        have hmem := List.mem_of_find?_eq_some hfind
        rw [List.mem_range'_1] at hmem
        omega

/-- The image has an entry with the number inside the store block. -/
def Locates (img : Image) (ino : UInt64) : Prop := ∃ j < 128, findEntry img ino = some j

theorem safe_iterateLoop :
    Safe tid env (iterateLoop block left i) w ↔ left = 0 ∨ i + left ≤ 15 := by
  induction left generalizing i with
  | zero => exact iff_of_true trivial (.inl rfl)
  | succ left ih =>
      by_cases hi : i < 15
      · have hname := @run_load tid env w block (264 * i) 255 (by omega)
        have hino := @run_load64 tid env w block (264 * i + 256) (by omega)
        have hrest : Safe tid env (iterateLoop block (left + 1) i) w ↔
            Safe tid env (iterateLoop block left (i + 1)) w := by
          refine (safe_bind_of_run hname).trans ?_
          refine (and_iff_right (safe_load.mpr (by omega))).trans ?_
          refine (safe_bind_of_run hino).trans ?_
          refine (and_iff_right (safe_load64.mpr (by omega))).trans ?_
          exact safe_bind.trans (and_iff_left fun _ _ _ => trivial)
        rw [hrest, ih]
        omega
      · refine iff_of_false ?_ (by omega)
        intro h
        have hload := safe_load.mp (safe_bind.mp h).1
        simp only [sizeofSimplefsDirRecord, simplefsFilenameMaxlen] at hload
        omega

end Loops

section Functions

variable {tid : Nat} {env : Env} {w w' : World} {p : Path} {d : SimplefsInode} {name : Name}
  {ino : UInt64} {block pos len : Nat}

theorem safe_sbBreadBugOn : Safe tid env (sbBreadBugOn block) w := by
  have hread : Safe tid env (sbBread block) w := ⟨trivial, fun _ _ _ => trivial⟩
  refine safe_bind.mpr ⟨hread, ?_⟩
  intro read v _
  cases read with
  | false => exact ⟨nofun, fun _ _ _ => trivial⟩
  | true => trivial

theorem safe_simplefsInode (hp : w.simplefsInode p = some d) :
    Safe tid env (simplefsInode p) w := by
  refine (Prog.along_perform _ _).mpr ?_
  change w.simplefsInode p ≠ none
  rw [hp]
  exact Option.some_ne_none d

theorem safe_simplefsGetInode {n : Nat} (h₁ : env.breadFails 1 = false)
    (hcount : (inodesCount w.cache).toNat = n) :
    Safe tid env (simplefsGetInode ino) w ↔ Safe tid env (getInodeLoop ino n 0) w := by
  subst hcount
  refine (safe_bind_of_run (run_sbBreadBugOn h₁)).trans ?_
  refine (and_iff_right safe_sbBreadBugOn).trans ?_
  refine (safe_bind_of_run run_sbInodesCount).trans ?_
  exact and_iff_right (safe_load64.mpr (by decide))

theorem run_simplefsGetInode_of_safe (h₁ : env.breadFails 1 = false)
    (h : Safe tid env (simplefsGetInode ino) w) :
    (simplefsGetInode ino).run (exec tid env) w =
      .done ((findEntry w.cache ino).map (entryAt w.cache)) w := by
  unfold simplefsGetInode findEntry
  rw [Prog.run_bind, simplefsInodestoreBlockNumber, run_sbBreadBugOn h₁, Outcome.bind_done,
    Prog.run_bind, run_sbInodesCount, Outcome.bind_done]
  generalize hcount : (inodesCount w.cache).toNat = n
  exact run_getInodeLoop_of_safe ((safe_simplefsGetInode h₁ hcount).mp h)

theorem safe_simplefsGetInode_found (h₁ : env.breadFails 1 = false) :
    Safe tid env (simplefsGetInode ino) w ∧ findEntry w.cache ino ≠ none ↔
      Locates w.cache ino := by
  unfold Locates findEntry
  generalize hcount : (inodesCount w.cache).toNat = n
  rw [safe_simplefsGetInode h₁ hcount]
  exact safe_getInodeLoop_found

theorem safe_newInodeUnchecked : Safe tid env newInodeUnchecked w := by
  have hnew : Safe tid env newInode w := ⟨trivial, fun _ _ _ => trivial⟩
  refine safe_bind.mpr ⟨hnew, ?_⟩
  intro ok v _
  cases ok with
  | false => exact ⟨nofun, fun _ _ _ => trivial⟩
  | true => trivial

/-- What follows `new_inode` is reached if there is memory for the inode. -/
theorem safe_newInodeUnchecked_bind {β : Type} {f : Unit → Prog Op.Res β} :
    Safe tid env (newInodeUnchecked >>= f) w ↔
      (env.newInodeFails = false → Safe tid env (f ()) w) := by
  refine safe_bind.trans ((and_iff_right safe_newInodeUnchecked).trans ?_)
  rw [run_newInodeUnchecked]
  cases env.newInodeFails with
  | true => exact iff_of_true nofun nofun
  | false => exact ⟨fun h _ => h () w rfl, fun h _ _ hrun => by cases hrun; exact h rfl⟩

/-- The inode behind a record is used whether it was found or not. -/
theorem safe_getInode_bind {β : Type} {f : Option SimplefsInode → Prog Op.Res β}
    (h₁ : env.breadFails 1 = false) (hsome : ∀ e v, Safe tid env (f (some e)) v) :
    Safe tid env (simplefsGetInode ino >>= f) w ↔
      Safe tid env (simplefsGetInode ino) w ∧
        (findEntry w.cache ino = none → Safe tid env (f none) w) := by
  refine safe_bind.trans (and_congr_right fun hs => ?_)
  rw [run_simplefsGetInode_of_safe h₁ hs]
  cases findEntry w.cache ino with
  | none => exact ⟨fun h _ => h none w rfl, fun h _ _ hrun => by cases hrun; exact h rfl⟩
  | some j =>
      refine iff_of_true ?_ fun h => absurd h (Option.some_ne_none j)
      rintro _ _ ⟨⟩
      exact hsome _ _

theorem safe_simplefsLookup (hn : ValidName name) (hp : w.simplefsInode p = some d)
    (hb : env.breadFails d.dataBlockNumber.toNat = false) (h₁ : env.breadFails 1 = false) :
    Safe tid env (simplefsLookup p name) w ↔
      Safe tid env (lookupLoop d.dataBlockNumber.toNat name d.dirChildrenCount 0) w ∧
        ∀ k, findRecord (w.cache d.dataBlockNumber.toNat) name d.dirChildrenCount = some k →
          Safe tid env (simplefsGetInode (recordIno (w.cache d.dataBlockNumber.toNat) k)) w ∧
            (findEntry w.cache (recordIno (w.cache d.dataBlockNumber.toNat) k) = none →
              env.newInodeFails ≠ false) := by
  refine (safe_bind_of_run (run_simplefsInode hp)).trans ?_
  refine (and_iff_right (safe_simplefsInode hp)).trans ?_
  refine (safe_bind_of_run (run_sbBreadBugOn hb)).trans ?_
  refine (and_iff_right safe_sbBreadBugOn).trans ?_
  by_cases hs : Safe tid env (lookupLoop d.dataBlockNumber.toNat name d.dirChildrenCount 0) w
  · refine (safe_bind_of_run (run_lookupLoop_of_safe hn hs)).trans (and_congr_right fun _ => ?_)
    have hfind : (List.range' 0 d.dirChildrenCount).find? (fun k =>
        (w.cache d.dataBlockNumber.toNat).HasCString (264 * k) name) =
        findRecord (w.cache d.dataBlockNumber.toNat) name d.dirChildrenCount := rfl
    rw [hfind]
    cases findRecord (w.cache d.dataBlockNumber.toNat) name d.dirChildrenCount with
    | none => exact iff_of_true trivial (by simp)
    | some k =>
        have htrap : ¬ Safe tid env (act (.trap .nullPointer)) w := fun h => h.1 rfl
        refine (safe_getInode_bind h₁ ?_).trans ?_
        · intro e v
          exact safe_newInodeUnchecked_bind.mpr fun _ => ⟨trivial, fun _ _ _ => trivial⟩
        · constructor
          · rintro ⟨hget, hnone⟩ _ ⟨⟩
            exact ⟨hget, fun hf hnew => htrap (safe_newInodeUnchecked_bind.mp (hnone hf) hnew)⟩
          · intro h
            obtain ⟨hget, hnone⟩ := h k rfl
            exact ⟨hget, fun hf => safe_newInodeUnchecked_bind.mpr fun hnew =>
              absurd hnew (hnone hf)⟩
  · exact iff_of_false (fun h => hs (safe_bind.mp h).1) fun h => hs h.1

/-- A block that cannot be read ends in `BUG_ON`, before anything is followed. -/
theorem safe_sbBreadBugOn_bind {β : Type} {f : Unit → Prog Op.Res β}
    (hb : env.breadFails block = true) : Safe tid env (sbBreadBugOn block >>= f) w := by
  refine safe_bind.mpr ⟨safe_sbBreadBugOn, ?_⟩
  intro _ v hrun
  obtain ⟨read, u, hread, hend⟩ := (Prog.run_bind_eq_done _).mp hrun
  cases hread
  rw [hb] at hend
  cases hend

theorem safe_simplefsLookup_unreadable (hp : w.simplefsInode p = some d)
    (hb : env.breadFails d.dataBlockNumber.toNat = true) :
    Safe tid env (simplefsLookup p name) w := by
  refine (safe_bind_of_run (run_simplefsInode hp)).mpr ⟨safe_simplefsInode hp, ?_⟩
  exact safe_sbBreadBugOn_bind hb

theorem run_simplefsLookup_of_safe (hn : ValidName name) (hp : w.simplefsInode p = some d)
    (hb : env.breadFails d.dataBlockNumber.toNat = false) (h₁ : env.breadFails 1 = false)
    (h : Safe tid env (simplefsLookup p name) w) :
    (simplefsLookup p name).run (exec tid env) w =
      match findRecord (w.cache d.dataBlockNumber.toNat) name d.dirChildrenCount with
      | none => .done () w
      | some k =>
          if env.newInodeFails then .stuck .nullInode w
          else match findEntry w.cache (recordIno (w.cache d.dataBlockNumber.toNat) k) with
          | none => .stuck .nullPointer w
          | some j => .done () (w.dAdd (name :: p)
              ⟨recordIno (w.cache d.dataBlockNumber.toNat) k, fopOf (entryAt w.cache j).mode,
                some (entryAt w.cache j)⟩) := by
  obtain ⟨hloop, hloc⟩ := (safe_simplefsLookup hn hp hb h₁).mp h
  have hfound : (lookupLoop d.dataBlockNumber.toNat name d.dirChildrenCount 0).run
      (exec tid env) w = .done ((findRecord (w.cache d.dataBlockNumber.toNat) name
        d.dirChildrenCount).map (recordIno (w.cache d.dataBlockNumber.toNat))) w :=
    run_lookupLoop_of_safe hn hloop
  simp only [simplefsLookup, Prog.run_bind, run_simplefsInode hp, run_sbBreadBugOn hb,
    Outcome.bind_done, hfound]
  cases hk : findRecord (w.cache d.dataBlockNumber.toNat) name d.dirChildrenCount with
  | none => rfl
  | some k =>
      have hget := run_simplefsGetInode_of_safe h₁ (hloc k hk).1
      simp only [Option.map_some, Prog.run_bind, hget, Outcome.bind_done, run_newInodeUnchecked]
      cases env.newInodeFails with
      | true => rfl
      | false => cases findEntry w.cache (recordIno (w.cache d.dataBlockNumber.toNat) k) <;> rfl

/-- Only entries that are marked as directories are listed. -/
theorem safe_simplefsIterate (hp : w.simplefsInode p = some d) :
    Safe tid env (simplefsIterate p pos) w ↔ (pos = 0 → sIsdir d.mode = true →
      env.breadFails d.dataBlockNumber.toNat = false → d.dirChildrenCount ≤ 15) := by
  unfold simplefsIterate
  by_cases hpos : pos = 0
  · rw [if_neg (not_not.mpr hpos), safe_bind_of_run (run_simplefsInode hp)]
    refine (and_iff_right (safe_simplefsInode hp)).trans ?_
    cases hd : sIsdir d.mode with
    | false => exact iff_of_true trivial nofun
    | true =>
        cases hb : env.breadFails d.dataBlockNumber.toNat with
        | true => exact iff_of_true (safe_sbBreadBugOn_bind hb) nofun
        | false =>
            refine (safe_bind_of_run (run_sbBreadBugOn hb)).trans ?_
            refine (and_iff_right safe_sbBreadBugOn).trans ?_
            refine safe_bind.trans ?_
            rw [safe_iterateLoop]
            constructor
            · rintro ⟨h, -⟩ _ _ _
              omega
            · intro h
              have := h hpos rfl rfl
              exact ⟨by omega, fun _ _ _ => trivial⟩
  · rw [if_pos hpos]
    exact iff_of_true trivial fun h => absurd h hpos

theorem safe_simplefsRead (hp : w.simplefsInode p = some d) :
    Safe tid env (simplefsRead p len pos) w ↔ (pos < d.fileSize.toNat →
      env.breadFails d.dataBlockNumber.toNat = false → min d.fileSize.toNat len ≤ 4096) := by
  refine (safe_bind_of_run (run_simplefsInode hp)).trans ?_
  refine (and_iff_right (safe_simplefsInode hp)).trans ?_
  by_cases hpos : pos ≥ d.fileSize.toNat
  · rw [if_pos hpos]
    exact iff_of_true trivial fun h => absurd h (Nat.not_lt.mpr hpos)
  · rw [if_neg hpos]
    have hread : Safe tid env (sbBread d.dataBlockNumber.toNat) w :=
      ⟨trivial, fun _ _ _ => trivial⟩
    refine (safe_bind_of_run run_sbBread).trans ((and_iff_right hread).trans ?_)
    cases hb : env.breadFails d.dataBlockNumber.toNat with
    | true => exact iff_of_true trivial nofun
    | false =>
        have hcopy : Safe tid env (copyToUser d.dataBlockNumber.toNat 0
            (min d.fileSize.toNat len)) w ↔ 0 + min d.fileSize.toNat len ≤ 4096 :=
          Prog.along_perform _ _
        refine safe_bind.trans ?_
        rw [hcopy, Nat.zero_add]
        constructor
        · intro h _ _
          exact h.1
        · intro h
          refine ⟨h (Nat.not_le.mp hpos) rfl, ?_⟩
          intro bytes v _
          cases bytes with
          | none => trivial
          | some bytes => trivial

end Functions

/-- The inodes that lookups on the device bring into memory, with the operations
they are given. The blocks in `bad` cannot be read. -/
inductive Reaches (img : Image) (bad : Nat → Bool) : Option FileOps → SimplefsInode → Prop
  | root {j : Nat} (found : findEntry img simplefsRootdirInodeNumber = some j) :
      Reaches img bad (some .dir) (entryAt img j)
  | child {d : SimplefsInode} {name : Name} {k j : Nat} (parent : Reaches img bad (some .dir) d)
      (readable : bad d.dataBlockNumber.toNat = false) (valid : ValidName name)
      (record : findRecord (img d.dataBlockNumber.toNat) name d.dirChildrenCount = some k)
      (found : findEntry img (recordIno (img d.dataBlockNumber.toNat) k) = some j) :
      Reaches img bad (fopOf (entryAt img j).mode) (entryAt img j)

/-- What an image has to satisfy: the entry of the root and those its records
name are in the store block, and the records and the bytes of every directory
and file that can be reached are in their block. -/
structure WellFormed (img : Image) (bad : Nat → Bool) : Prop where
  root : Locates img simplefsRootdirInodeNumber
  records : ∀ d, Reaches img bad (some .dir) d → bad d.dataBlockNumber.toNat = false →
    RecordsFit (img d.dataBlockNumber.toNat) d
  entries : ∀ d name k, Reaches img bad (some .dir) d → bad d.dataBlockNumber.toNat = false →
    ValidName name → findRecord (img d.dataBlockNumber.toNat) name d.dirChildrenCount = some k →
    Locates img (recordIno (img d.dataBlockNumber.toNat) k)
  bytes : ∀ f, Reaches img bad (some .file) f → bad f.dataBlockNumber.toNat = false →
    f.fileSize.toNat ≤ 4096

/-- The tests of `simplefs_fill_super`, on a device whose metadata can be read. -/
structure Accepted (img : Image) (bad : Nat → Bool) : Prop where
  superblock : bad 0 = false
  store : bad 1 = false
  magic : (img 0).get64 8 = simplefsMagic
  blockSize : (img 0).get64 16 = 4096

/-- The calls that only look at a mounted file system. -/
def Call.Looks : Call → Prop
  | .lookup .. | .iterate .. | .read .. => True
  | _ => False

/-- All actions of a call are tolerable. -/
def Call.Safe (c : Call) (tid : Nat) (env : Env) (w : World) : Prop :=
  LinuxDevelopment.Simplefs.Safe tid env c.code w

/-- A state some sequence of lookups, listings and reads leads to from the mount
of the image. -/
def Explored (img : Image) (bad : Nat → Bool) (w : World) : Prop :=
  ∃ tid env w₀ es, env.breadFails = bad ∧
    Call.mount.run tid env (World.ofImage img) = .done (.ret 0) w₀ ∧ Run w₀ es w ∧
    ∀ e ∈ es, e.call.Looks ∧ e.env.breadFails = bad

theorem explored_mount {img : Image} {w : World} {tid : Nat} {env : Env}
    (h : Call.mount.run tid env (World.ofImage img) = .done (.ret 0) w) :
    Explored img env.breadFails w :=
  ⟨tid, env, w, [], rfl, h, .nil w, List.forall_mem_nil _⟩

/-- The mount and all calls behind it stay inside the blocks and use no missing inode. -/
structure Tolerates (img : Image) (bad : Nat → Bool) : Prop where
  mount : ∀ tid env, env.breadFails = bad → Call.mount.Safe tid env (World.ofImage img)
  calls : ∀ (w : World) (c : Call) (tid : Nat) (env : Env), Explored img bad w → c.Allowed w →
    c.Looks → env.breadFails = bad → c.Safe tid env w

section Mount

variable {tid : Nat} {env : Env} {w w' : World}

theorem safe_simplefsFillSuper (h₀ : env.breadFails 0 = false)
    (hm : (w.cache 0).get64 8 = simplefsMagic) (hs : (w.cache 0).get64 16 = 4096) :
    Safe tid env simplefsFillSuper w ↔ (env.newInodeFails = false →
      Safe tid env (simplefsGetInode simplefsRootdirInodeNumber) w) := by
  have hmagic := @run_load64 tid env w 0 8 (by decide)
  have hsize := @run_load64 tid env w 0 16 (by decide)
  refine (safe_bind_of_run (run_sbBreadBugOn h₀)).trans ?_
  refine (and_iff_right safe_sbBreadBugOn).trans ?_
  refine (safe_bind_of_run hmagic).trans ?_
  refine (and_iff_right (safe_load64.mpr (by decide))).trans ?_
  rw [if_neg (not_not.mpr hm)]
  refine (safe_bind_of_run hsize).trans ?_
  refine (and_iff_right (safe_load64.mpr (by decide))).trans ?_
  rw [hs, if_neg (by decide)]
  refine safe_newInodeUnchecked_bind.trans (imp_congr_right fun _ => ?_)
  refine safe_bind.trans (and_iff_left ?_)
  exact fun _ _ _ => ⟨trivial, fun _ _ _ => trivial⟩

theorem run_simplefsFillSuper_of_safe (h₀ : env.breadFails 0 = false)
    (h₁ : env.breadFails 1 = false) (hm : (w.cache 0).get64 8 = simplefsMagic)
    (hs : (w.cache 0).get64 16 = 4096) (h : Safe tid env simplefsFillSuper w) :
    simplefsFillSuper.run (exec tid env) w =
      if env.newInodeFails then .stuck .nullInode w
      else .done 0 (w.dAdd []
        ⟨1, some .dir, (findEntry w.cache simplefsRootdirInodeNumber).map (entryAt w.cache)⟩) := by
  have hget := fun hnew => run_simplefsGetInode_of_safe h₁
    ((safe_simplefsFillSuper h₀ hm hs).mp h hnew)
  unfold simplefsFillSuper
  rw [Prog.run_bind, simplefsSuperblockBlockNumber, run_sbBreadBugOn h₀, Outcome.bind_done,
    Prog.run_bind, run_load64 (by decide), Outcome.bind_done, if_neg (not_not.mpr hm),
    Prog.run_bind, run_load64 (by decide), Outcome.bind_done, hs, if_neg (by decide),
    Prog.run_bind, run_newInodeUnchecked]
  cases hnew : env.newInodeFails with
  | true => rfl
  | false =>
      rw [if_neg Bool.false_ne_true, Outcome.bind_done, Prog.run_bind, hget hnew]
      rfl

end Mount

section Sufficient

variable {img : Image} {bad : Nat → Bool} {tid : Nat} {env : Env} {w w' : World} {p : Path}

theorem World.dcache_dAdd_self (w : World) (p : Path) (v : VfsInode) :
    (w.dAdd p v).dcache p = some v := by
  rw [World.dAdd_dcache, Function.update_self]

/-- The state shows the image, and every inode in memory is one of it. -/
structure World.Knows (w : World) (img : Image) (bad : Nat → Bool) : Prop where
  cache : w.cache = img
  memory : ∀ p x, w.dcache p = some x → ∃ q, x.iPrivate = some q ∧ Reaches img bad x.iFop q

theorem World.Knows.simplefsInode (h : w.Knows img bad) {fop : FileOps} (hp : w.Has p fop) :
    ∃ q, w.simplefsInode p = some q ∧ Reaches img bad (some fop) q := by
  obtain ⟨x, hx, hfop⟩ := hp
  obtain ⟨q, hq, hr⟩ := h.memory p x hx
  refine ⟨q, ?_, hfop ▸ hr⟩
  rw [World.simplefsInode, hx]
  exact hq

theorem World.Knows.dAdd (h : w.Knows img bad) {ino : UInt64} {fop : Option FileOps}
    {q : SimplefsInode} (hq : Reaches img bad fop q) :
    (w.dAdd p ⟨ino, fop, some q⟩).Knows img bad := by
  refine ⟨h.cache, ?_⟩
  intro p' x hx
  by_cases hp : p' = p
  · rw [hp, World.dcache_dAdd_self] at hx
    cases hx
    exact ⟨q, rfl, hq⟩
  · rw [World.dAdd_dcache, Function.update_of_ne hp] at hx
    exact h.memory p' x hx

/-- A lookup in a directory of a well-formed image. -/
theorem WellFormed.safe_lookup (hwf : WellFormed img bad) (h₁ : bad 1 = false)
    (hk : w.Knows img bad) (hb : env.breadFails = bad) {d : SimplefsInode} {name : Name}
    (hn : ValidName name) (hp : w.simplefsInode p = some d)
    (hd : Reaches img bad (some .dir) d) : Safe tid env (simplefsLookup p name) w := by
  cases hread : env.breadFails d.dataBlockNumber.toNat with
  | true => exact safe_simplefsLookup_unreadable hp hread
  | false =>
      have hread' : bad d.dataBlockNumber.toNat = false := hb ▸ hread
      refine (safe_simplefsLookup hn hp hread (hb ▸ h₁)).mpr ⟨?_, ?_⟩
      · rw [safe_lookupLoop_iff hn, hk.cache]
        rcases hwf.records d hd hread' with hle | ⟨-, hsixteen, hover⟩
        · exact .inl hle
        · by_cases hov : Overruns (img d.dataBlockNumber.toNat) name
          · exact .inr (.inl (hover name hn hov))
          · exact .inr (.inr ⟨hsixteen, hov⟩)
      · intro k hfound
        rw [hk.cache] at hfound
        have hloc := hwf.entries d name k hd hread' hn hfound
        rw [← hk.cache] at hloc
        obtain ⟨hget, hne⟩ := (safe_simplefsGetInode_found (hb ▸ h₁)).mpr hloc
        exact ⟨hget, fun hnone => absurd hnone hne⟩

theorem WellFormed.safe (hwf : WellFormed img bad) (h₁ : bad 1 = false) (hk : w.Knows img bad)
    (hb : env.breadFails = bad) {c : Call} (ha : c.Allowed w) (hc : c.Looks) :
    c.Safe tid env w := by
  cases c with
  | lookup dir name =>
      obtain ⟨d, hp, hd⟩ := hk.simplefsInode ha.1
      refine safe_bind.mpr ⟨hwf.safe_lookup h₁ hk hb ha.2.1 hp hd, ?_⟩
      exact fun _ _ _ => trivial
  | iterate dir pos =>
      obtain ⟨d, hp, hd⟩ := hk.simplefsInode ha
      refine safe_bind.mpr ⟨(safe_simplefsIterate hp).mpr ?_, fun _ _ _ => trivial⟩
      intro _ hdir hread
      rcases hwf.records d hd (hb ▸ hread) with hle | ⟨hno, -⟩
      · exact hle
      · rw [hdir] at hno
        cases hno
  | read file len pos =>
      obtain ⟨f, hp, hf⟩ := hk.simplefsInode ha
      refine safe_bind.mpr ⟨(safe_simplefsRead hp).mpr ?_, fun _ _ _ => trivial⟩
      intro _ hread
      have := hwf.bytes f hf (hb ▸ hread)
      omega
  | _ => exact hc.elim

theorem WellFormed.knows_step (hwf : WellFormed img bad) (h₁ : bad 1 = false)
    (hk : w.Knows img bad) (hb : env.breadFails = bad) {c : Call} {r : Reply} (ha : c.Allowed w)
    (hc : c.Looks) (hrun : c.run tid env w = .done r w') : w'.Knows img bad := by
  cases c with
  | lookup dir name =>
      obtain ⟨d, hp, hd⟩ := hk.simplefsInode ha.1
      have hsafe := @WellFormed.safe_lookup _ _ tid _ _ _ hwf h₁ hk hb _ _ ha.2.1 hp hd
      have hlook : (simplefsLookup dir name).run (exec tid env) w = .done () w' := by
        cases Call.ran_of_run hrun with
        | lookup run => exact run
      have hread : env.breadFails d.dataBlockNumber.toNat = false := by
        obtain ⟨q, x, hq, hrest⟩ := (Prog.run_bind_eq_done _).mp hlook
        cases (run_simplefsInode hp).symm.trans hq
        obtain ⟨_, y, hbread, -⟩ := (Prog.run_bind_eq_done _).mp hrest
        exact readable_of_run hbread
      rw [run_simplefsLookup_of_safe ha.2.1 hp hread (hb ▸ h₁) hsafe, hk.cache] at hlook
      cases hrecord : findRecord (img d.dataBlockNumber.toNat) name d.dirChildrenCount with
      | none =>
          rw [hrecord] at hlook
          cases hlook
          exact hk
      | some k =>
          simp only [hrecord] at hlook
          split_ifs at hlook
          cases hentry : findEntry img (recordIno (img d.dataBlockNumber.toNat) k) with
          | none =>
              simp only [hentry] at hlook
              cases hlook
          | some j =>
              simp only [hentry] at hlook
              obtain ⟨-, rfl⟩ := Outcome.done.inj hlook
              exact hk.dAdd (.child hd (hb ▸ hread) ha.2.1 hrecord hentry)
  | iterate dir pos => rwa [(reads_iterate dir pos).run_eq hrun]
  | read file len pos => rwa [(reads_read file len pos).run_eq hrun]
  | _ => exact hc.elim

theorem WellFormed.knows_run (hwf : WellFormed img bad) (h₁ : bad 1 = false) {es : List Event}
    (hk : w.Knows img bad) (hrun : Run w es w')
    (hes : ∀ e ∈ es, e.call.Looks ∧ e.env.breadFails = bad) : w'.Knows img bad := by
  induction hrun with
  | nil => exact hk
  | snoc _ allowed step ih =>
      have hlast := hes _ (List.mem_append_right _ List.mem_cons_self)
      have hinit := ih fun e he => hes e (List.mem_append_left _ he)
      exact hwf.knows_step h₁ hinit hlast.2 allowed hlast.1 step

theorem WellFormed.tolerates (hwf : WellFormed img bad) (hacc : Accepted img bad) :
    Tolerates img bad := by
  have hmount : ∀ tid env, env.breadFails = bad →
      Safe tid env simplefsFillSuper (World.ofImage img) := by
    intro tid env hb
    refine (@safe_simplefsFillSuper tid env (World.ofImage img) (hb ▸ hacc.superblock) hacc.magic
      hacc.blockSize).mpr fun _ => ?_
    exact ((@safe_simplefsGetInode_found tid env (World.ofImage img) _
      (hb ▸ hacc.store)).mpr hwf.root).1
  refine ⟨fun tid env hb => safe_bind.mpr ⟨hmount tid env hb, fun _ _ _ => trivial⟩, ?_⟩
  rintro w c tid env ⟨tid₀, env₀, w₀, es, hb₀, hrun₀, hrun, hes⟩ ha hc hb
  have hknows : w₀.Knows img bad := by
    obtain ⟨r, u, hfill, hret⟩ := (Prog.run_bind_eq_done _).mp hrun₀
    obtain ⟨-, rfl⟩ := Outcome.done.inj hret
    obtain ⟨j, -, hj⟩ := hwf.root
    have hfound : findEntry (World.ofImage img).cache simplefsRootdirInodeNumber = some j := hj
    rw [@run_simplefsFillSuper_of_safe tid₀ env₀ (World.ofImage img) (hb₀ ▸ hacc.superblock)
      (hb₀ ▸ hacc.store) hacc.magic hacc.blockSize (hmount tid₀ env₀ hb₀), hfound] at hfill
    split_ifs at hfill
    obtain ⟨-, rfl⟩ := Outcome.done.inj hfill
    have hstart : (World.ofImage img).Knows img bad := ⟨rfl, nofun⟩
    exact hstart.dAdd (.root hj)
  exact hwf.safe hacc.store (hwf.knows_run hacc.store hknows hrun hes) hb ha hc

end Sufficient

section Necessary

variable {img : Image} {bad : Nat → Bool} {w w' : World} {p : Path} {fop : Option FileOps}
  {e : SimplefsInode}

/-- A kernel in which nothing else goes wrong. -/
def Env.unreadable (bad : Nat → Bool) : Env := { Env.quiet with breadFails := bad }

theorem Env.newInodeFails_unreadable : (Env.unreadable bad).newInodeFails = false := rfl

theorem Explored.next (h : Explored img bad w) {c : Call} {r : Reply} (ha : c.Allowed w)
    (hc : c.Looks) (hrun : c.run 0 (.unreadable bad) w = .done r w') : Explored img bad w' := by
  obtain ⟨tid, env, w₀, es, hb, hmount, hes, hlooks⟩ := h
  refine ⟨tid, env, w₀, es ++ [⟨0, c, .unreadable bad, r⟩], hb, hmount, .snoc hes ha hrun, ?_⟩
  intro e he
  rcases List.mem_append.mp he with he | he
  · exact hlooks e he
  · rw [List.mem_singleton.mp he]
    exact ⟨hc, rfl⟩

/-- The inode `e` is in memory behind the dentry `p`, and no dentry is deeper. -/
structure World.Deepest (w : World) (img : Image) (bad : Nat → Bool) (p : Path)
    (fop : Option FileOps) (e : SimplefsInode) : Prop where
  explored : Explored img bad w
  cache : w.cache = img
  inode : ∃ ino, w.dcache p = some ⟨ino, fop, some e⟩
  deepest : ∀ p', w.dcache p' ≠ none → p'.length ≤ p.length

namespace World.Deepest

theorem simplefsInode (h : w.Deepest img bad p fop e) : w.simplefsInode p = some e := by
  obtain ⟨ino, hx⟩ := h.inode
  rw [World.simplefsInode, hx]
  rfl

theorem has {f : FileOps} (h : w.Deepest img bad p (some f) e) : w.Has p f := by
  obtain ⟨ino, hx⟩ := h.inode
  exact ⟨_, hx, rfl⟩

theorem absent (h : w.Deepest img bad p fop e) (name : Name) : w.dcache (name :: p) = none := by
  by_contra hne
  have := h.deepest (name :: p) hne
  rw [List.length_cons] at this
  omega

theorem safe_lookup (h : w.Deepest img bad p (some .dir) e) (ht : Tolerates img bad) {name : Name}
    (hn : ValidName name) : Safe 0 (.unreadable bad) (simplefsLookup p name) w := by
  have hcall := ht.calls w (.lookup p name) 0 (.unreadable bad) h.explored
    ⟨h.has, hn, h.absent name⟩ trivial rfl
  exact (safe_bind.mp hcall).1

/-- A lookup takes one step down. -/
theorem child (h : w.Deepest img bad p (some .dir) e) (ht : Tolerates img bad)
    (h₁ : bad 1 = false) {name : Name} {k j : Nat}
    (hread : bad e.dataBlockNumber.toNat = false) (hn : ValidName name)
    (hrecord : findRecord (img e.dataBlockNumber.toNat) name e.dirChildrenCount = some k)
    (hentry : findEntry img (recordIno (img e.dataBlockNumber.toNat) k) = some j) :
    ∃ w' : World, w'.Deepest img bad (name :: p) (fopOf (entryAt img j).mode) (entryAt img j) := by
  have hrun := run_simplefsLookup_of_safe hn h.simplefsInode hread h₁ (h.safe_lookup ht hn)
  simp only [h.cache, hrecord, hentry, Env.newInodeFails_unreadable, Bool.false_eq_true,
    if_false] at hrun
  obtain ⟨r, hcall⟩ : ∃ r, (Call.lookup p name).run 0 (.unreadable bad) w = .done r (w.dAdd
      (name :: p) ⟨recordIno (img e.dataBlockNumber.toNat) k, fopOf (entryAt img j).mode,
        some (entryAt img j)⟩) := by
    simp only [Call.run, Call.code, Prog.run_bind, hrun, Outcome.bind_done]
    exact ⟨_, rfl⟩
  have hallowed : (Call.lookup p name).Allowed w := ⟨h.has, hn, h.absent name⟩
  refine ⟨_, h.explored.next hallowed trivial hcall, h.cache, ⟨_, World.dcache_dAdd_self _ _ _⟩, ?_⟩
  intro p' hp'
  by_cases heq : p' = name :: p
  · rw [heq]
  · rw [World.dAdd_dcache, Function.update_of_ne heq] at hp'
    exact (h.deepest p' hp').trans (Nat.le_succ _)

end World.Deepest

/-- What the mount leaves: the root inode, or none. -/
theorem Tolerates.mounted (ht : Tolerates img bad) (hacc : Accepted img bad) :
    Explored img bad ((World.ofImage img).dAdd [] ⟨1, some .dir,
      (findEntry img simplefsRootdirInodeNumber).map (entryAt img)⟩) := by
  have hsafe := (safe_bind.mp (ht.mount 0 (.unreadable bad) rfl)).1
  have hfill : simplefsFillSuper.run (exec 0 (.unreadable bad)) (World.ofImage img) =
      .done 0 ((World.ofImage img).dAdd [] ⟨1, some .dir,
        (findEntry img simplefsRootdirInodeNumber).map (entryAt img)⟩) :=
    @run_simplefsFillSuper_of_safe 0 (.unreadable bad) (World.ofImage img)
      hacc.superblock hacc.store hacc.magic hacc.blockSize hsafe
  apply @explored_mount img _ 0 (.unreadable bad)
  simp only [Call.run, Call.code, Prog.run_bind, hfill, Outcome.bind_done]
  rfl

theorem Tolerates.deepest_root (ht : Tolerates img bad) (hacc : Accepted img bad) {j : Nat}
    (hj : findEntry img simplefsRootdirInodeNumber = some j) :
    ∃ w : World, w.Deepest img bad [] (some .dir) (entryAt img j) := by
  have hmounted := ht.mounted hacc
  rw [hj] at hmounted
  refine ⟨_, hmounted, rfl, ⟨1, World.dcache_dAdd_self _ _ _⟩, ?_⟩
  intro p' hp'
  by_cases heq : p' = []
  · rw [heq]
  · rw [World.dAdd_dcache, Function.update_of_ne heq] at hp'
    exact absurd rfl hp'

/-- The root inode is used by the first listing. -/
theorem Tolerates.locates_root (ht : Tolerates img bad) (hacc : Accepted img bad) :
    Locates img simplefsRootdirInodeNumber := by
  have hmount := (safe_bind.mp (ht.mount 0 (.unreadable bad) rfl)).1
  have hget := (@safe_simplefsFillSuper 0 (.unreadable bad) (World.ofImage img) hacc.superblock
    hacc.magic hacc.blockSize).mp hmount rfl
  refine (@safe_simplefsGetInode_found 0 (.unreadable bad) (World.ofImage img) _ hacc.store).mp
    ⟨hget, ?_⟩
  intro hnone
  have hmissing : findEntry img simplefsRootdirInodeNumber = none := hnone
  have hmounted := ht.mounted hacc
  rw [hmissing] at hmounted
  have hlist := ht.calls _ (.iterate [] 0) 0 (.unreadable bad) hmounted
    ⟨_, World.dcache_dAdd_self _ _ _, rfl⟩ trivial rfl
  have hroot := (safe_bind.mp (safe_bind.mp hlist).1).1
  exact hroot.1 rfl

theorem Tolerates.deepest (ht : Tolerates img bad) (hacc : Accepted img bad)
    (h : Reaches img bad fop e) : ∃ w p, World.Deepest w img bad p fop e := by
  induction h with
  | root found =>
      obtain ⟨w, hw⟩ := ht.deepest_root hacc found
      exact ⟨w, [], hw⟩
  | child _ readable valid record found ih =>
      obtain ⟨w, p, hw⟩ := ih
      obtain ⟨w', hw'⟩ := hw.child ht hacc.store readable valid record found
      exact ⟨w', _, hw'⟩

/-- A directory that can be listed and searched for every name has its records
in the block. -/
theorem World.Deepest.recordsFit (h : w.Deepest img bad p (some .dir) e) (ht : Tolerates img bad)
    (h₁ : bad 1 = false) (hread : bad e.dataBlockNumber.toNat = false) :
    RecordsFit (img e.dataBlockNumber.toNat) e := by
  have hlist := ht.calls w (.iterate p 0) 0 (.unreadable bad) h.explored h.has trivial rfl
  have hlist := (safe_simplefsIterate h.simplefsInode).mp (safe_bind.mp hlist).1 rfl
  have hloop : ∀ name, ValidName name → e.dirChildrenCount ≤ 15 ∨
      findRecord (img e.dataBlockNumber.toNat) name 15 ≠ none ∨
        e.dirChildrenCount = 16 ∧ ¬ Overruns (img e.dataBlockNumber.toNat) name := by
    intro name hn
    have hsafe := ((safe_simplefsLookup hn h.simplefsInode hread h₁).mp (h.safe_lookup ht hn)).1
    rw [safe_lookupLoop_iff hn, h.cache] at hsafe
    exact hsafe
  by_cases hle : e.dirChildrenCount ≤ 15
  · exact .inl hle
  · obtain ⟨fresh, hfresh, hnone⟩ := exists_name_not_found (img e.dataBlockNumber.toNat)
    have hsixteen : e.dirChildrenCount = 16 :=
      (((hloop fresh hfresh).resolve_left hle).resolve_left (not_not.mpr hnone)).1
    refine .inr ⟨?_, hsixteen, ?_⟩
    · cases hd : sIsdir e.mode with
      | false => rfl
      | true => exact absurd (hlist hd hread) hle
    · intro name hn hov hmissing
      exact (((hloop name hn).resolve_left hle).resolve_left (not_not.mpr hmissing)).2 hov

theorem Tolerates.wellFormed (ht : Tolerates img bad) (hacc : Accepted img bad) :
    WellFormed img bad where
  root := ht.locates_root hacc
  records := by
    intro d hd hread
    obtain ⟨w, p, hw⟩ := ht.deepest hacc hd
    exact hw.recordsFit ht hacc.store hread
  entries := by
    intro d name k hd hread hn hrecord
    obtain ⟨w, p, hw⟩ := ht.deepest hacc hd
    have hsafe := (safe_simplefsLookup hn hw.simplefsInode hread hacc.store).mp
      (hw.safe_lookup ht hn)
    obtain ⟨hget, hnone⟩ := hsafe.2 k (by rwa [hw.cache])
    rw [← hw.cache]
    exact (safe_simplefsGetInode_found hacc.store).mp ⟨hget, fun hf => hnone hf rfl⟩
  bytes := by
    intro f hf hread
    obtain ⟨w, p, hw⟩ := ht.deepest hacc hf
    have hcall := ht.calls w (.read p 4097 0) 0 (.unreadable bad) hw.explored hw.has trivial rfl
    have hmin := (safe_simplefsRead hw.simplefsInode).mp (safe_bind.mp hcall).1
    by_contra hlarge
    have := hmin (by omega) hread
    omega

end Necessary

/-- A mount that returns 0 has made the tests. -/
theorem accepted_of_run {img : Image} {tid : Nat} {env : Env} {w : World}
    (h : Call.mount.run tid env (World.ofImage img) = .done (.ret 0) w) :
    Accepted img env.breadFails := by
  obtain ⟨r, u, hfill, hret⟩ := (Prog.run_bind_eq_done _).mp h
  obtain ⟨hr, -⟩ := Outcome.done.inj hret
  cases hr
  obtain ⟨_, w₁, hsb, hrest⟩ := (Prog.run_bind_eq_done _).mp hfill
  obtain rfl := (reads_sbBreadBugOn _).run_eq hsb
  rw [Prog.run_bind, simplefsSuperblockBlockNumber, run_load64 (by decide), Outcome.bind_done,
    Prog.run_ite] at hrest
  split_ifs at hrest with hmagic
  · cases hrest
  rw [Prog.run_bind, run_load64 (by decide), Outcome.bind_done, Prog.run_ite] at hrest
  split_ifs at hrest with hsize
  · cases hrest
  obtain ⟨_, _, -, hrest⟩ := (Prog.run_bind_eq_done _).mp hrest
  obtain ⟨root, w₂, hget, -⟩ := (Prog.run_bind_eq_done _).mp hrest
  obtain ⟨_, w₃, hstore, -⟩ := (Prog.run_bind_eq_done _).mp hget
  refine ⟨readable_of_run hsb, readable_of_run hstore, not_not.mp hmagic, ?_⟩
  exact UInt64.toNat_inj.mp (not_not.mp hsize)

/-- An image that `simplefs_fill_super` accepts is handled without an access out
of range and without a missing inode exactly if it is well formed. -/
theorem tolerates_iff {img : Image} {bad : Nat → Bool} (hacc : Accepted img bad) :
    Tolerates img bad ↔ WellFormed img bad :=
  ⟨fun h => h.wellFormed hacc, fun h => h.tolerates hacc⟩

section Fresh

variable {dev : Image} {bad : Nat → Bool}

theorem findEntry_mkfs (dev : Image) :
    findEntry (mkfs dev) 1 = some 0 ∧ findEntry (mkfs dev) 2 = some 1 := by
  have hrange : List.range' 0 (2 : UInt64).toNat = [0, 1] := rfl
  unfold findEntry
  rw [inodesCount_mkfs, hrange]
  simp only [List.find?_cons, entryAt_mkfs_zero, entryAt_mkfs_one]
  exact ⟨rfl, rfl⟩

theorem eq_zero_of_findRecord {dir : Buffer} {name : Name} {k : Nat}
    (h : findRecord dir name rootInode.dirChildrenCount = some k) : k = 0 := by
  have hmem : k ∈ [0] := List.mem_of_find?_eq_some h
  exact List.mem_singleton.mp hmem

theorem Reaches.of_mkfs {fop : Option FileOps} {e : SimplefsInode}
    (h : Reaches (mkfs dev) bad fop e) :
    fop = some .dir ∧ e = rootInode ∨ fop = some .file ∧ e = welcome := by
  induction h with
  | root found =>
      cases (findEntry_mkfs dev).1.symm.trans found
      exact .inl ⟨rfl, entryAt_mkfs_zero dev⟩
  | @child d name k j _ _ _ record found ih =>
      rcases ih with ⟨-, rfl⟩ | ⟨hfile, -⟩
      · obtain rfl := eq_zero_of_findRecord record
        have hino : recordIno (mkfs dev rootInode.dataBlockNumber.toNat) 0 = 2 :=
          recordIno_mkfs dev
        rw [hino] at found
        cases (findEntry_mkfs dev).2.symm.trans found
        rw [entryAt_mkfs_one]
        exact .inr ⟨rfl, rfl⟩
      · cases hfile

/-- What `mkfs` writes is well formed, whatever was on the device. -/
theorem mkfs_wellFormed (dev : Image) (bad : Nat → Bool) : WellFormed (mkfs dev) bad where
  root := ⟨0, by decide, (findEntry_mkfs dev).1⟩
  records := by
    intro d hd _
    rcases hd.of_mkfs with ⟨-, rfl⟩ | ⟨hfile, -⟩
    · exact .inl (by decide)
    · cases hfile
  entries := by
    intro d name k hd _ _ hrecord
    rcases hd.of_mkfs with ⟨-, rfl⟩ | ⟨hfile, -⟩
    · obtain rfl := eq_zero_of_findRecord hrecord
      refine ⟨1, by decide, ?_⟩
      rw [← (findEntry_mkfs dev).2]
      exact congrArg _ (recordIno_mkfs dev)
    · cases hfile
  bytes := by
    intro f hf _
    rcases hf.of_mkfs with ⟨hdir, -⟩ | ⟨-, rfl⟩
    · cases hdir
    · decide

end Fresh

/-- A freshly formatted device is accepted and handled. -/
theorem tolerates_mkfs_sample : Tolerates (mkfs fun _ _ => 0) fun _ => false :=
  (tolerates_iff ⟨rfl, rfl, mkfs_magic, mkfs_blockSize⟩).mpr (mkfs_wellFormed _ _)

instance (tid : Nat) (env : Env) (c : Call) (w : World) : Decidable (c.Safe tid env w) :=
  have : ∀ (o : Op) (w : World), Decidable (o.Tolerable w)
    | .load .., _ | .copyToUser .., _ => inferInstanceAs (Decidable (_ ≤ _))
    | .simplefsInode _, _ => inferInstanceAs (Decidable (_ ≠ _))
    | .trap _, _ => inferInstanceAs (Decidable (_ ≠ _))
    | .mutexLockInterruptible _, _ | .mutexUnlock _, _ | .sbBread _, _ | .store .., _ => isTrue trivial
    | .markBufferDirty _, _ | .syncDirtyBuffer _, _ | .newInode, _ => isTrue trivial
    | .setFileSize .., _ | .dAdd .., _ | .copyFromUser .., _ => isTrue trivial
  inferInstanceAs (Decidable (Prog.Along _ _ _ _))

/-- The device of `mkfs` with no counted inode. -/
def rootlessImage : Image := setCount (mkfs fun _ _ => 0) 0

/-- The device of `mkfs` with sixteen records in the root directory. -/
def crowdedImage : Image := setEntry (mkfs fun _ _ => 0) 0 { rootInode with fileSize := 16 }

/-- Both images are mounted. The first listing follows a missing root inode on
one of them, and reads behind the block of the root directory on the other. -/
theorem not_tolerates_rootless_crowded :
    ((Call.mount.run 0 .quiet (World.ofImage rootlessImage)).value? = some (.ret 0) ∧
      ¬ Tolerates rootlessImage fun _ => false) ∧
    (Call.mount.run 0 .quiet (World.ofImage crowdedImage)).value? = some (.ret 0) ∧
      ¬ Tolerates crowdedImage fun _ => false := by
  have hlist : ∀ img ∈ [rootlessImage, crowdedImage],
      (Call.mount.run 0 .quiet (World.ofImage img)).value? = some (.ret 0) ∧
        (Call.iterate [] 0).Allowed ((World.ofImage img).after .mount .quiet) ∧
        ¬ (Call.iterate [] 0).Safe 0 .quiet ((World.ofImage img).after .mount .quiet) := by
    decide +kernel
  have hnot : ∀ img ∈ [rootlessImage, crowdedImage],
      (Call.mount.run 0 .quiet (World.ofImage img)).value? = some (.ret 0) ∧
        ¬ Tolerates img fun _ => false := by
    intro img himg
    obtain ⟨hmount, hallowed, hunsafe⟩ := hlist img himg
    refine ⟨hmount, fun ht => hunsafe ?_⟩
    exact ht.calls _ _ 0 .quiet (explored_mount (run_after hmount)) hallowed trivial rfl
  exact ⟨hnot _ (.head _), hnot _ (.tail _ (.head _))⟩

end LinuxDevelopment.Simplefs
