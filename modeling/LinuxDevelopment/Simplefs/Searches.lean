import LinuxDevelopment.Simplefs.SameFile

/-!
# simplefs: the two searches of the inode store

`simplefs_get_inode` compares the numbers of the first `inodes_count` entries.
`simplefs_inode_search` compares one more: its loop stops at `inodes_count`, and
the entry there is compared once again behind the loop. What stands there is not
an inode of the file system, since `mkfs-simplefs` seeks over the rest of the
block. `simplefs_inode_save` stores through the result of the second search.
-/

namespace LinuxDevelopment.Simplefs

/-- A copy of a whole entry of the store is one of entry `i`. -/
def Op.CopiesEntry (i : Nat) : Op → Prop
  | .load b off len =>
      len = sizeofSimplefsInode →
        b = simplefsInodestoreBlockNumber ∧ off = sizeofSimplefsInode * i
  | _ => True

section Index

variable {tid : Nat} {env : Env} {w : World} {ino : UInt64} {left i k : Nat}

theorem along_loadInode (h : 32 * i + 32 ≤ 4096) :
    (loadInode i).Along (exec tid env) (fun o _ => o.CopiesEntry k) w ↔ i = k := by
  have hload := @run_load tid env w 1 (32 * i) 32 h
  have hperform : (load 1 (32 * i) 32).Along (exec tid env) (fun o _ => o.CopiesEntry k) w ↔
      i = k := by
    refine (Prog.along_perform _ _).trans ⟨fun hcopies => ?_, fun hik _ => ⟨rfl, hik ▸ rfl⟩⟩
    have hoff : 32 * i = 32 * k := (hcopies rfl).2
    omega
  simp only [loadInode, simplefsInodestoreBlockNumber, sizeofSimplefsInode]
  rw [Prog.along_bind_of_run hload, Prog.along_pure, and_true, hperform]

/-- The entry the loop copies is the first one with the number. -/
theorem along_getInodeLoop (h : 32 * (i + left) ≤ 4096) :
    (getInodeLoop ino left i).Along (exec tid env) (fun o _ => o.CopiesEntry k) w ↔
      ∀ j, (List.range' i left).find? (fun j => (entryAt w.cache j).inodeNo = ino) = some j →
        j = k := by
  induction left generalizing i with
  | zero => simp [getInodeLoop]
  | succ left ih =>
      have hload : (load64 1 (32 * i + 8)).Only (Op.CopiesEntry k) :=
        .bind (.perform fun hlen => absurd hlen (by decide)) fun _ => trivial
      have hrun := @run_load64 tid env w 1 (32 * i + 8) (by omega)
      have hno : (entryAt w.cache i).inodeNo = (w.cache 1).get64 (32 * i + 8) := inodeNo_inodeAt
      rw [List.range'_succ, List.find?_cons, hno]
      simp only [getInodeLoop, simplefsInodestoreBlockNumber, sizeofSimplefsInode]
      rw [Prog.along_bind_of_run hrun, and_iff_right (hload.along w)]
      by_cases hc : (w.cache 1).get64 (32 * i + 8) = ino
      · rw [if_pos hc, Prog.along_bind_of_run (run_loadInode (by omega)), Prog.along_pure, and_true,
          along_loadInode (by omega)]
        simp [hc]
      · rw [if_neg hc, ih (by omega)]
        simp [hc]

theorem along_simplefsGetInode (hb : env.breadFails 1 = false)
    (h : 32 * (inodesCount w.cache).toNat ≤ 4096) :
    (simplefsGetInode ino).Along (exec tid env) (fun o _ => o.CopiesEntry k) w ↔
      ∀ j, findEntry w.cache ino = some j → j = k := by
  have hread : (sbBreadBugOn 1).Only (Op.CopiesEntry k) :=
    .bind (.perform trivial) fun _ => .ite (.perform trivial) trivial
  have hcount : sbInodesCount.Only (Op.CopiesEntry k) :=
    .bind (.perform fun hlen => absurd hlen (by decide)) fun _ => trivial
  simp only [simplefsGetInode, simplefsInodestoreBlockNumber]
  rw [Prog.along_bind_of_run (run_sbBreadBugOn hb), and_iff_right (hread.along w),
    Prog.along_bind_of_run run_sbInodesCount, and_iff_right (hcount.along w),
    along_getInodeLoop (by omega)]
  rfl

end Index

/-- `simplefs_get_inode` returns a copy of entry `i` of the store. -/
structure GetsEntry (tid : Nat) (env : Env) (w : World) (ino : UInt64) (i : Nat) : Prop where
  returns : (simplefsGetInode ino).run (exec tid env) w = .done (some (entryAt w.cache i)) w
  copies : (simplefsGetInode ino).Along (exec tid env) (fun o _ => o.CopiesEntry i) w

/-- The two searches for the number of `q` agree, and the save of `q`, the
in-memory inode of `p`, changes at most a counted entry and fails with `-EIO`
when no counted entry has the number. -/
structure SearchesAgree (tid : Nat) (env : Env) (w : World) (p : Path) (q : SimplefsInode) :
    Prop where
  same : ∀ i, (simplefsInodeSearch q).run (exec tid env) w = .done (some i) w ↔
    GetsEntry tid env w q.inodeNo i
  missing : (simplefsInodeSearch q).run (exec tid env) w = .done none w ↔
    (simplefsGetInode q.inodeNo).run (exec tid env) w = .done none w
  counted : ∀ i, (simplefsInodeSearch q).run (exec tid env) w = .done (some i) w →
    i < (inodesCount w.cache).toNat
  saves : ∃ r w', (simplefsInodeSave p).run (exec tid env) w = .done r w' ∧
    (w'.cache = w.cache ∨
      ∃ i < (inodesCount w.cache).toNat, w'.cache = setEntry w.cache i q) ∧
    ((∀ i < (inodesCount w.cache).toNat, (entryAt w.cache i).inodeNo ≠ q.inodeNo) →
      r = -eio ∧ w'.cache = w.cache)

section Agreement

variable {tid : Nat} {env : Env} {w : World} {ino : UInt64} {i : Nat} {p : Path}
  {q : SimplefsInode}

theorem getsEntry_iff (hb : env.breadFails 1 = false)
    (h : 32 * (inodesCount w.cache).toNat ≤ 4096) :
    GetsEntry tid env w ino i ↔ findEntry w.cache ino = some i := by
  have hrun := @run_simplefsGetInode tid env w ino hb h
  constructor
  · intro hgets
    cases hf : findEntry w.cache ino with
    | none =>
        rw [hf] at hrun
        exact nomatch hrun.symm.trans hgets.returns
    | some j => rw [(along_simplefsGetInode hb h).mp hgets.copies j hf]
  · intro hf
    refine ⟨by rw [hrun, hf, Option.map_some], (along_simplefsGetInode hb h).mpr ?_⟩
    intro j hj
    exact Option.some.inj (hj.symm.trans hf)

/-- The second search is the first one and a look at the entry behind. -/
theorem searchEntry_eq_findEntry_or (img : Image) (ino : UInt64) :
    searchEntry img ino =
      (findEntry img ino).or
        (if (entryAt img (inodesCount img).toNat).inodeNo = ino then
          some (inodesCount img).toNat else none) := by
  unfold searchEntry findEntry
  generalize (inodesCount img).toNat = n
  rw [List.range'_concat, List.find?_append, Nat.one_mul, Nat.zero_add, List.find?_singleton]
  simp only [decide_eq_true_eq]

/-- A counted entry with the number is found by both searches. -/
theorem searchEntry_eq_findEntry (h : (entryAt w.cache (inodesCount w.cache).toNat).inodeNo = ino →
    ∃ i < (inodesCount w.cache).toNat, (entryAt w.cache i).inodeNo = ino) :
    searchEntry w.cache ino = findEntry w.cache ino := by
  rw [searchEntry_eq_findEntry_or]
  split_ifs with hbehind
  · obtain ⟨i, hi, hno⟩ := h hbehind
    obtain ⟨j, hj⟩ := findEntry_isSome hi hno
    rw [hj, Option.some_or]
  · rw [Option.or_none]

theorem findEntry_eq_none (h : ∀ i < (inodesCount w.cache).toNat,
    (entryAt w.cache i).inodeNo ≠ ino) : findEntry w.cache ino = none := by
  unfold findEntry
  rw [List.find?_eq_none]
  intro i hi
  simpa using h i (by simpa using hi)

/-- When they do not agree, the entry behind the counted ones is found. -/
theorem searchEntry_eq_behind (hno : (entryAt w.cache (inodesCount w.cache).toNat).inodeNo = ino)
    (h : ∀ i < (inodesCount w.cache).toNat, (entryAt w.cache i).inodeNo ≠ ino) :
    searchEntry w.cache ino = some (inodesCount w.cache).toNat := by
  rw [searchEntry_eq_findEntry_or, findEntry_eq_none h, if_pos hno, Option.none_or]

/-- A save stores through the result of the search. -/
theorem saves_of_searchEntry_eq (hcount : (inodesCount w.cache).toNat ≤ 64)
    (hb : env.breadFails 1 = false) (henv : env.interrupted .inodeSave = false)
    (hfree : w.owner .sbLock = none) (hq : w.simplefsInode p = some q)
    (heq : searchEntry w.cache q.inodeNo = findEntry w.cache q.inodeNo) :
    ∃ r w', (simplefsInodeSave p).run (exec tid env) w = .done r w' ∧
      (w'.cache = w.cache ∨
        ∃ i < (inodesCount w.cache).toNat, w'.cache = setEntry w.cache i q) ∧
      ((∀ i < (inodesCount w.cache).toNat, (entryAt w.cache i).inodeNo ≠ q.inodeNo) →
        r = -eio ∧ w'.cache = w.cache) := by
  rw [run_simplefsInodeSave hb hq (by omega), henv, if_neg Bool.false_ne_true, if_pos hfree, heq]
  cases hf : findEntry w.cache q.inodeNo with
  | none => exact ⟨_, _, rfl, .inl rfl, fun _ => ⟨rfl, rfl⟩⟩
  | some i =>
      refine ⟨_, _, rfl, .inr ⟨i, findEntry_lt hf, rfl⟩, ?_⟩
      intro hnone
      rw [findEntry_eq_none hnone] at hf
      exact nomatch hf

theorem searchesAgree_of_searchEntry_eq (hcount : (inodesCount w.cache).toNat ≤ 64)
    (hb : env.breadFails 1 = false) (henv : env.interrupted .inodeSave = false)
    (hfree : w.owner .sbLock = none) (hq : w.simplefsInode p = some q)
    (heq : searchEntry w.cache q.inodeNo = findEntry w.cache q.inodeNo) :
    SearchesAgree tid env w p q := by
  have hsearch : (simplefsInodeSearch q).run (exec tid env) w =
      .done (searchEntry w.cache q.inodeNo) w := run_simplefsInodeSearch (by omega)
  rw [heq] at hsearch
  have hsome : ∀ i, (simplefsInodeSearch q).run (exec tid env) w = .done (some i) w ↔
      findEntry w.cache q.inodeNo = some i := by
    intro i
    rw [hsearch]
    simp
  constructor
  case same => exact fun i => (hsome i).trans (getsEntry_iff hb (by omega)).symm
  case missing =>
    rw [hsearch, run_simplefsGetInode hb (by omega)]
    simp
  case counted => exact fun i hi => findEntry_lt ((hsome i).mp hi)
  case saves => exact saves_of_searchEntry_eq hcount hb henv hfree hq heq

theorem not_searchesAgree_of_behind (hcount : (inodesCount w.cache).toNat ≤ 64)
    (hno : (entryAt w.cache (inodesCount w.cache).toNat).inodeNo = q.inodeNo)
    (hnone : ∀ i < (inodesCount w.cache).toNat, (entryAt w.cache i).inodeNo ≠ q.inodeNo) :
    ¬ SearchesAgree tid env w p q := by
  intro hagree
  have hsearch : (simplefsInodeSearch q).run (exec tid env) w =
      .done (searchEntry w.cache q.inodeNo) w := run_simplefsInodeSearch (by omega)
  rw [searchEntry_eq_behind hno hnone] at hsearch
  exact Nat.lt_irrefl _ (hagree.counted _ hsearch)

/-- For every contents of the store and at most 64 counted entries: the searches
agree on a number exactly when the entry behind the counted ones does not have
it, or a counted one has it too. -/
theorem searchesAgree_iff (hcount : (inodesCount w.cache).toNat ≤ 64)
    (hb : env.breadFails 1 = false) (henv : env.interrupted .inodeSave = false)
    (hfree : w.owner .sbLock = none) (hq : w.simplefsInode p = some q) :
    SearchesAgree tid env w p q ↔
      ((entryAt w.cache (inodesCount w.cache).toNat).inodeNo = q.inodeNo →
        ∃ i < (inodesCount w.cache).toNat, (entryAt w.cache i).inodeNo = q.inodeNo) := by
  constructor
  · intro hagree hno
    by_contra hnone
    refine not_searchesAgree_of_behind hcount hno ?_ hagree
    intro i hi heq
    exact hnone ⟨i, hi, heq⟩
  · intro h
    exact searchesAgree_of_searchEntry_eq hcount hb henv hfree hq (searchEntry_eq_findEntry h)

end Agreement

/-- On a mounted fresh device the searches agree on the number of the root. -/
theorem searchesAgree_root : SearchesAgree 0 .quiet mountedSample [] rootInode := by
  refine (searchesAgree_iff (by decide +kernel) rfl rfl rfl (by decide +kernel)).mpr ?_
  intro _
  exact ⟨0, by decide +kernel, by decide +kernel⟩

/-- In a run without interruptions and read failures every inode in memory has
its entry, so that the searches agree whatever stands behind the counted ones. -/
theorem searchesAgree_of_calmRun {dev : Image} {es : List Event} {w : World} {tid : Nat}
    {env : Env} {p : Path} {q : SimplefsInode} (hrun : Run (World.ofImage (mkfs dev)) es w)
    (hc : CalmRun es) (henv : env.Calm) (hq : w.simplefsInode p = some q) :
    SearchesAgree tid env w p q := by
  obtain ⟨v, hs, -⟩ := hrun.settled_of_mkfs hc
  obtain ⟨x, hx, hprivate⟩ := Option.bind_eq_some_iff.mp hq
  obtain ⟨i, hl, rfl⟩ := hs.cached p x hx
  cases hprivate
  have hi : i < v.count := hl.lt
  refine searchesAgree_of_searchEntry_eq hrun.sane.count_le (henv.breadFails 1)
    (henv.interrupted .inodeSave) (hs.unowned .sbLock) hq ?_
  rw [searchEntry_eq hs.wf hs.shows hi, findEntry_eq hs.wf hs.shows hi]

/-- A device on which a file was created is formatted again, and the creation of
a file is interrupted in `simplefs_inode_add`. -/
def formattedAgain : Option (List Event × World) :=
  runCalls (World.ofImage (mkfs Tasks.emptyFile.cache))
    [(0, .mount, .quiet), (0, .create [] [97] 0o100644, .interrupting [.inodeAddMgmt])]

/-- The file is in memory with the number of the entry the first file system has
left behind the counted ones. Saving it overwrites that entry and reports
success. -/
theorem not_searchesAgree_formattedAgain :
    ∃ es w q, Run (World.ofImage (mkfs Tasks.emptyFile.cache)) es w ∧
      w.simplefsInode [[97]] = some q ∧ (inodesCount w.cache).toNat = 2 ∧
      (simplefsInodeSearch q).run (exec 0 .quiet) w = .done (some 2) w ∧
      (simplefsGetInode q.inodeNo).run (exec 0 .quiet) w = .done none w ∧
      (∃ w', (simplefsInodeSave [[97]]).run (exec 0 .quiet) w = .done 0 w' ∧
        w'.cache = setEntry w.cache 2 q) ∧
      ¬ SearchesAgree 0 .quiet w [[97]] q := by
  have hx : formattedAgain.any (fun x => decide (
      ∃ q ∈ x.2.simplefsInode [[97]], (inodesCount x.2.cache).toNat = 2 ∧
        x.2.owner .sbLock = none ∧ (entryAt x.2.cache 2).inodeNo = q.inodeNo ∧
        ∀ i < 2, (entryAt x.2.cache i).inodeNo ≠ q.inodeNo)) = true := by
    decide +kernel
  obtain ⟨⟨es, w⟩, hcalls, hstate⟩ := (Option.any_eq_true _ _).mp hx
  obtain ⟨q, hq, hcount, hfree, hno, hnone⟩ :
      ∃ q ∈ w.simplefsInode [[97]], (inodesCount w.cache).toNat = 2 ∧ w.owner .sbLock = none ∧
        (entryAt w.cache 2).inodeNo = q.inodeNo ∧
        ∀ i < 2, (entryAt w.cache i).inodeNo ≠ q.inodeNo := of_decide_eq_true hstate
  rw [← hcount] at hno hnone
  have hle : (inodesCount w.cache).toNat ≤ 64 := by omega
  have hsearch : searchEntry w.cache q.inodeNo = some 2 := by
    rw [searchEntry_eq_behind hno hnone, hcount]
  refine ⟨es, w, q, run_of_runCalls hcalls, hq, hcount, ?_, ?_, ?_,
    not_searchesAgree_of_behind hle hno hnone⟩
  · rw [← hsearch]
    exact run_simplefsInodeSearch (by omega)
  · rw [run_simplefsGetInode rfl (by omega), findEntry_eq_none hnone, Option.map_none]
  · rw [run_simplefsInodeSave rfl hq (by omega), hsearch, if_pos hfree]
    exact ⟨_, rfl, rfl⟩

end LinuxDevelopment.Simplefs
