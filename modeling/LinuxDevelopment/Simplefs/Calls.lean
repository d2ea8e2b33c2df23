import LinuxDevelopment.Simplefs.Memory
import LinuxDevelopment.Simplefs.Reading

/-!
# simplefs: what a finished call has done

One inversion lemma per call that changes the state, for whatever the kernel
answers. The invariants of runs are derived from these lemmas and
from the stage lemmas of `World.Models`.
-/

namespace LinuxDevelopment.Simplefs

/-- A call of `simplefs_create_fs_object` gets as far as taking a block out of
the free map. -/
structure World.Allocates (w : World) (env : Env) (mode : UInt16) : Prop where
  createChildren : env.interrupted .createChildren = false
  sbGetObjectsCount : env.interrupted .sbGetObjectsCount = false
  sbGetAFreeblock : env.interrupted .sbGetAFreeblock = false
  directoryChildrenUpdateLock : w.owner .directoryChildrenUpdateLock = none
  inodesMgmtLock : w.owner .inodesMgmtLock = none
  sbLock : w.owner .sbLock = none
  count : (inodesCount w.cache).toNat < 64
  kind : sIsdir mode.toUInt32 = true ∨ sIsreg mode.toUInt32 = true
  newInode : env.newInodeFails = false
  freeblock : freeblockScan (freeBlocks w.cache) ≠ 64

/-- The state when the record of the new object has been written: `q` is the
in-memory inode of the directory. -/
def World.recorded (w : World) (tid : Nat) (env : Env) (q : SimplefsInode) (mode : UInt16)
    (name : Name) : World :=
  (afterAdd tid env w.allocBlock (newEntry w.cache mode)).addRecord q.dataBlockNumber.toNat
    q.dirChildrenCount (newEntry w.cache mode).inodeNo name

/-- The ways in which `simplefs_create_fs_object` returns. -/
inductive CreateEnd (tid : Nat) (env : Env) (w : World) (dir : Path) (q : SimplefsInode)
    (name : Name) (mode : UInt16) : Int → World → Prop
  /-- an error before anything was changed -/
  | refused {r : Int} (neg : r < 0) (early : ¬ w.Allocates env mode) :
      CreateEnd tid env w dir q name mode r w
  /-- interrupted at the lock for the free map, which is released nevertheless -/
  | released (site : env.interrupted .sbGetAFreeblock = true) :
      CreateEnd tid env w dir q name mode (-4) (w.setOwner .sbLock none)
  /-- interrupted before the record is counted -/
  | uncounted (alloc : w.Allocates env mode) (room : q.dirChildrenCount < 15)
      (site : env.interrupted .createMgmt = true) :
      CreateEnd tid env w dir q name mode (-4) (w.recorded tid env q mode name)
  /-- the record is counted in memory only -/
  | unsaved {r : Int} (neg : r < 0) (alloc : w.Allocates env mode)
      (room : q.dirChildrenCount < 15)
      (site : env.interrupted .createMgmt = false)
      (free : (w.recorded tid env q mode name).owner .inodesMgmtLock = none)
      (why : env.interrupted .inodeSave = true ∨
        searchEntry (w.recorded tid env q mode name).cache q.inodeNo = none) :
      CreateEnd tid env w dir q name mode r
        ((w.recorded tid env q mode name).setFileSize dir (q.fileSize + 1))
  /-- the object is there -/
  | created {i : Nat} (alloc : w.Allocates env mode) (room : q.dirChildrenCount < 15)
      (site : env.interrupted .createMgmt = false) (save : env.interrupted .inodeSave = false)
      (free : (w.recorded tid env q mode name).owner .inodesMgmtLock = none)
      (found : searchEntry (w.recorded tid env q mode name).cache q.inodeNo = some i) :
      CreateEnd tid env w dir q name mode 0
        ((((w.recorded tid env q mode name).setFileSize dir (q.fileSize + 1)).saveInode i
          { q with fileSize := q.fileSize + 1 }).dAdd (name :: dir)
            ⟨(newEntry w.cache mode).inodeNo, fopOf (newEntry w.cache mode).mode,
              some (newEntry w.cache mode)⟩)

section Create

variable {tid : Nat} {env : Env} {w w' : World} {dir : Path} {q : SimplefsInode} {name : Name}
  {mode : UInt16} {r : Int}

theorem afterAdd_setOwner (e : SimplefsInode) (t : Option Nat) :
    afterAdd tid env (w.setOwner .directoryChildrenUpdateLock t) e =
      (afterAdd tid env w e).setOwner .directoryChildrenUpdateLock t := by
  unfold afterAdd
  split_ifs
  · rfl
  · simp only [World.setOwner, World.mk.injEq, true_and]
    exact Function.update_comm (by decide) _ _ _
  · rfl

theorem afterAdd_owner (e : SimplefsInode) {m : Mutex} (hm : m ≠ .inodesMgmtLock) :
    (afterAdd tid env w e).owner m = w.owner m := by
  unfold afterAdd
  split_ifs
  · rfl
  · exact Function.update_of_ne hm _ _
  · rfl

theorem recorded_simplefsInode (hq : w.simplefsInode dir = some q) :
    (w.recorded tid env q mode name).simplefsInode dir = some q := by
  unfold World.recorded afterAdd
  split_ifs <;> exact hq

theorem recorded_inodesCount_lt (alloc : w.Allocates env mode)
    (hq : 2 ≤ q.dataBlockNumber.toNat) :
    (inodesCount (w.recorded tid env q mode name).cache).toNat < 127 := by
  have hc := alloc.count
  have hmod : ∀ n : Nat, n < 64 → (n + 1) % 18446744073709551616 < 127 := by omega
  unfold World.recorded afterAdd World.addRecord
  simp only [World.flush_cache, World.store_cache, inodesCount_update hq]
  split_ifs
  · rw [World.allocBlock_cache, inodesCount_setFree]
    omega
  · rw [World.setOwner_cache, World.allocBlock_cache, inodesCount_setFree]
    omega
  · rw [World.addInode_cache, inodesCount_setCount, World.allocBlock_cache, inodesCount_setFree,
      UInt64.toNat_add]
    exact hmod _ hc

/-- The end of the call, with the record written and the lock on the children held. -/
theorem createCommit_cases (hb : env.BreadOk) (hq : w.simplefsInode dir = some q)
    (hq2 : 2 ≤ q.dataBlockNumber.toNat) (alloc : w.Allocates env mode)
    (room : q.dirChildrenCount < 15)
    (hrun : (createCommit dir name (newEntry w.cache mode)).run (exec tid env)
      ((w.recorded tid env q mode name).setOwner .directoryChildrenUpdateLock (some tid)) =
        .done r w') :
    CreateEnd tid env w dir q name mode r w' := by
  have hdcl : (w.recorded tid env q mode name).owner .directoryChildrenUpdateLock = none :=
    (afterAdd_owner _ (by decide)).trans alloc.directoryChildrenUpdateLock
  have hsb : (w.recorded tid env q mode name).owner .sbLock = none :=
    (afterAdd_owner _ (by decide)).trans alloc.sbLock
  have hback : ∀ x : World, x.owner = (w.recorded tid env q mode name).owner →
      x.setOwner .directoryChildrenUpdateLock none = x := by
    intro x hx
    exact World.setOwner_eq_self (by rw [hx, hdcl])
  have hqr : (w.recorded tid env q mode name).simplefsInode dir = some q :=
    recorded_simplefsInode hq
  have hq' : ((w.recorded tid env q mode name).setOwner .directoryChildrenUpdateLock
      (some tid)).simplefsInode dir = some q := hqr
  rw [run_createCommit hb hq' (recorded_inodesCount_lt alloc hq2) (by simpa using hsb)] at hrun
  simp only [World.setOwner_setOwner, World.setFileSize_setOwner, World.setOwner_cache] at hrun
  rw [hback _ rfl, hback _ (by rfl)] at hrun
  cases h₁ : env.interrupted .createMgmt with
  | true =>
      rw [h₁, if_pos rfl] at hrun
      cases hrun
      exact .uncounted alloc room h₁
  | false =>
      rw [h₁, if_neg Bool.false_ne_true] at hrun
      split_ifs at hrun with h₂ h₃
      · cases hrun
        exact .unsaved (by decide) alloc room h₁ (by simpa using h₂) (.inl h₃)
      · cases hf : searchEntry (w.recorded tid env q mode name).cache q.inodeNo with
        | none =>
            rw [hf] at hrun
            cases hrun
            exact .unsaved (by decide) alloc room h₁ (by simpa using h₂) (.inr hf)
        | some i =>
            rw [hf] at hrun
            cases hrun
            exact .created alloc room h₁ (by simpa using h₃) (by simpa using h₂) hf

/-- The tail of the call, with the lock on the children taken. -/
theorem createTail_cases (hb : env.BreadOk) (hn : ValidName name)
    (hq : w.simplefsInode dir = some q) (hq2 : 2 ≤ q.dataBlockNumber.toNat)
    (alloc : w.Allocates env mode)
    (hrun : (createTail dir name (newEntry w.cache mode)).run (exec tid env)
      (w.allocBlock.setOwner .directoryChildrenUpdateLock (some tid)) = .done r w') :
    CreateEnd tid env w dir q name mode r w' := by
  have hq' : (w.allocBlock.setOwner .directoryChildrenUpdateLock
      (some tid)).simplefsInode dir = some q := hq
  have hcount : (inodesCount (w.allocBlock.setOwner .directoryChildrenUpdateLock
      (some tid)).cache).toNat < 64 := by
    have := alloc.count
    simpa [World.allocBlock_cache] using this
  by_cases room : q.dirChildrenCount < 15
  · rw [run_createTail hb hn hq' room hcount (by simpa using alloc.inodesMgmtLock)
      (by simpa using alloc.sbLock), afterAdd_setOwner, World.addRecord_setOwner] at hrun
    exact createCommit_cases hb hq hq2 alloc room hrun
  · obtain ⟨t, u, hstuck⟩ : ∃ t u, (createTail dir name (newEntry w.cache mode)).run
        (exec tid env) (w.allocBlock.setOwner .directoryChildrenUpdateLock (some tid)) =
          .stuck t u := run_createTail_outOfRange hb hq' room hcount
    rw [hstuck] at hrun
    cases hrun

theorem create_cases_of_breadOk (hb : env.BreadOk) (hn : ValidName name)
    (hq : w.simplefsInode dir = some q) (hq2 : 2 ≤ q.dataBlockNumber.toNat)
    (hrun : (simplefsCreateFsObject dir name mode).run (exec tid env) w = .done r w') :
    CreateEnd tid env w dir q name mode r w' := by
  rw [run_simplefsCreateFsObject hb] at hrun
  by_cases h₁ : env.interrupted .createChildren = true
  · rw [if_pos h₁] at hrun
    cases hrun
    exact .refused (by decide) fun a => by simp [a.createChildren] at h₁
  rw [if_neg h₁] at hrun
  by_cases h₂ : w.owner .directoryChildrenUpdateLock = none
  case neg => rw [if_neg h₂] at hrun; cases hrun
  rw [if_pos h₂] at hrun
  by_cases h₃ : env.interrupted .sbGetObjectsCount = true
  · rw [if_pos h₃] at hrun
    cases hrun
    exact .refused (by decide) fun a => by simp [a.sbGetObjectsCount] at h₃
  rw [if_neg h₃] at hrun
  by_cases h₄ : w.owner .inodesMgmtLock = none
  case neg => rw [if_neg h₄] at hrun; cases hrun
  rw [if_pos h₄] at hrun
  by_cases h₅ : 64 ≤ (inodesCount w.cache).toNat
  · rw [if_pos h₅] at hrun
    cases hrun
    exact .refused (by decide) fun a => absurd a.count (Nat.not_lt.mpr h₅)
  rw [if_neg h₅] at hrun
  by_cases h₆ : (!sIsdir mode.toUInt32 && !sIsreg mode.toUInt32) = true
  · rw [if_pos h₆] at hrun
    cases hrun
    refine .refused (by decide) fun a => ?_
    rcases a.kind with hk | hk <;> simp [hk] at h₆
  rw [if_neg h₆] at hrun
  by_cases h₇ : env.newInodeFails = true
  · rw [if_pos h₇] at hrun
    cases hrun
    exact .refused (by decide) fun a => by simp [a.newInode] at h₇
  rw [if_neg h₇] at hrun
  by_cases h₈ : env.interrupted .sbGetAFreeblock = true
  · rw [if_pos h₈] at hrun
    cases hrun
    exact .released h₈
  rw [if_neg h₈] at hrun
  by_cases h₉ : w.owner .sbLock = none
  case neg => rw [if_neg h₉] at hrun; cases hrun
  rw [if_pos h₉] at hrun
  by_cases h₁₀ : freeblockScan (freeBlocks w.cache) = 64
  · rw [if_pos h₁₀] at hrun
    cases hrun
    exact .refused (by decide) fun a => a.freeblock h₁₀
  rw [if_neg h₁₀] at hrun
  refine createTail_cases hb hn hq hq2 ?_ hrun
  constructor
  case createChildren => simpa using h₁
  case sbGetObjectsCount => simpa using h₃
  case sbGetAFreeblock => simpa using h₈
  case directoryChildrenUpdateLock => exact h₂
  case inodesMgmtLock => exact h₄
  case sbLock => exact h₉
  case count => exact Nat.lt_of_not_le h₅
  case kind =>
    cases hd : sIsdir mode.toUInt32 <;> cases hr : sIsreg mode.toUInt32 <;> simp [hd, hr] at h₆ ⊢
  case newInode => simpa using h₇
  case freeblock => exact h₁₀

theorem World.allocates_readable : w.Allocates env.readable mode ↔ w.Allocates env mode :=
  ⟨fun a => ⟨a.1, a.2, a.3, a.4, a.5, a.6, a.7, a.8, a.9, a.10⟩,
    fun a => ⟨a.1, a.2, a.3, a.4, a.5, a.6, a.7, a.8, a.9, a.10⟩⟩

/-- Everything a finished call can have done. -/
theorem create_cases (hn : ValidName name) (hq : w.simplefsInode dir = some q)
    (hq2 : 2 ≤ q.dataBlockNumber.toNat)
    (hrun : (simplefsCreateFsObject dir name mode).run (exec tid env) w = .done r w') :
    CreateEnd tid env w dir q name mode r w' := by
  have hrun' := (bugsOnNull_simplefsCreateFsObject dir name mode).run_readable hrun
  -- the ends speak about the locks only, which are the same for both kernels
  cases create_cases_of_breadOk env.breadOk_readable hn hq hq2 hrun' with
  | refused neg early => exact .refused neg fun a => early (World.allocates_readable.mpr a)
  | released site => exact .released site
  | uncounted alloc room site => exact .uncounted (World.allocates_readable.mp alloc) room site
  | unsaved neg alloc room site free why =>
      exact .unsaved neg (World.allocates_readable.mp alloc) room site free why
  | created alloc room site save free found =>
      exact .created (World.allocates_readable.mp alloc) room site save free found

end Create

/-- The bytes a write moves into the data block. -/
def writeBytes (buf : List UInt8) (pos : Nat) : List UInt8 := buf.take (writeLength buf pos)

@[simp] theorem length_writeBytes (buf : List UInt8) (pos : Nat) :
    (writeBytes buf pos).length = writeLength buf pos := by
  exact length_take_writeLength buf pos

/-- The state when the bytes of a write are in the data block of the file `q`. -/
def World.copiedIn (w : World) (q : SimplefsInode) (buf : List UInt8) (pos : Nat) : World :=
  w.writeData q.dataBlockNumber.toNat pos (writeBytes buf pos)

/-- The ways in which `simplefs_write` returns. -/
inductive WriteEnd (env : Env) (w : World) (p : Path) (q : SimplefsInode) (buf : List UInt8)
    (pos : Nat) : Int → Nat → World → Prop
  /-- the position is past the largest file -/
  | tooBig (large : 4096 ≤ pos ∧ (buf.length ≠ 0 ∨ 4096 < pos)) : WriteEnd env w p q buf pos (-27) pos w
  /-- the data block cannot be read -/
  | unread (fails : env.breadFails q.dataBlockNumber.toNat = true) :
      WriteEnd env w p q buf pos 0 pos w
  /-- the copy faults after some bytes -/
  | fault (small : ¬ (4096 ≤ pos ∧ (buf.length ≠ 0 ∨ 4096 < pos)))
      (short : (copied env.copyFault (writeBytes buf pos)).length ≠ writeLength buf pos) :
      WriteEnd env w p q buf pos (-14) pos
        (w.store q.dataBlockNumber.toNat pos (zeroFilled env.copyFault (writeBytes buf pos)))
  /-- interrupted before the size is changed -/
  | unsized (fit : pos + writeLength buf pos ≤ 4096) (site : env.interrupted .write = true) :
      WriteEnd env w p q buf pos (-4) (pos + writeLength buf pos) (w.copiedIn q buf pos)
  /-- the size is changed in memory only -/
  | unsaved {r : Int} (neg : r < 0) (fit : pos + writeLength buf pos ≤ 4096)
      (why : env.interrupted .inodeSave = true ∨
        searchEntry (w.copiedIn q buf pos).cache q.inodeNo = none) :
      WriteEnd env w p q buf pos r (pos + writeLength buf pos)
        ((w.copiedIn q buf pos).setFileSize p (UInt64.ofNat (pos + writeLength buf pos)))
  /-- the bytes and the size are there -/
  | written {i : Nat} (fit : pos + writeLength buf pos ≤ 4096)
      (small : ¬ (4096 ≤ pos ∧ (buf.length ≠ 0 ∨ 4096 < pos)))
      (moved : (copied env.copyFault (writeBytes buf pos)).length = writeLength buf pos)
      (found : searchEntry (w.copiedIn q buf pos).cache q.inodeNo = some i) :
      WriteEnd env w p q buf pos (writeLength buf pos) (pos + writeLength buf pos)
        (((w.copiedIn q buf pos).setFileSize p (UInt64.ofNat (pos + writeLength buf pos))).saveInode
          i { q with fileSize := UInt64.ofNat (pos + writeLength buf pos) })

section Write

variable {tid : Nat} {env : Env} {w w' : World} {p : Path} {q : SimplefsInode} {buf : List UInt8}
  {pos pos' : Nat} {r : Int}

theorem writeCommit_cases (hq : w.simplefsInode p = some q) (hq2 : 2 ≤ q.dataBlockNumber.toNat)
    (hc : (inodesCount w.cache).toNat < 127)
    (small : ¬ (4096 ≤ pos ∧ (buf.length ≠ 0 ∨ 4096 < pos)))
    (moved : (copied env.copyFault (writeBytes buf pos)).length = writeLength buf pos)
    (hrun : (writeCommit p (writeLength buf pos) (pos + writeLength buf pos)).run (exec tid env)
      (w.copiedIn q buf pos) = .done (r, pos') w') : WriteEnd env w p q buf pos r pos' w' := by
  have hfit := add_writeLength_le small
  have hq' : (w.copiedIn q buf pos).simplefsInode p = some q := hq
  have hc' : (inodesCount (w.copiedIn q buf pos).cache).toNat < 127 := by
    unfold World.copiedIn
    rw [inodesCount_writeData (by omega)]
    exact hc
  have hrun' := (bugsOnNull_writeCommit _ _ _).run_readable hrun
  rw [run_writeCommit (env.breadOk_readable 1) hq' hc'] at hrun'
  split_ifs at hrun' with h₃ h₄ h₅ h₆
  · cases hrun'
    exact .unsized hfit h₃
  · cases hrun'
    exact .unsaved (by decide) hfit (.inl h₅)
  · cases hf : searchEntry (w.copiedIn q buf pos).cache q.inodeNo with
    | none =>
        rw [hf] at hrun'
        cases hrun'
        exact .unsaved (by decide) hfit (.inr hf)
    | some i =>
        rw [hf] at hrun'
        cases hrun'
        exact .written hfit small moved hf

theorem write_cases (hq : w.simplefsInode p = some q) (hq2 : 2 ≤ q.dataBlockNumber.toNat)
    (hc : (inodesCount w.cache).toNat < 127)
    (hrun : (simplefsWrite p buf pos).run (exec tid env) w = .done (r, pos') w') :
    WriteEnd env w p q buf pos r pos' w' := by
  rw [run_simplefsWrite hq] at hrun
  split_ifs at hrun with h₁ h₂ h₃
  · cases hrun
    exact .tooBig h₁
  · cases hrun
    exact .unread h₂
  · cases hrun
    exact .fault h₁ h₃
  · exact writeCommit_cases hq hq2 hc h₁ (not_not.mp h₃) hrun

end Write

section Lookup

open Volume

variable {tid : Nat} {env : Env} {w w' : World} {v : Volume} {dir p : Path} {name : Name}
  {i j k : Nat}

/-- An inode that is not in memory is the one in the store. -/
theorem World.Models.entryAt_eq (h : w.Models v) (hl : v.Leads p j) (hp : w.dcache p = none) :
    entryAt w.cache j = v.entry j := by
  by_contra hne
  obtain ⟨q, hq, hd⟩ := h.ahead j hl.lt hne
  rw [hq.injective h.wf hl, hp] at hd
  cases hd

/-- The records of a directory, as the loops over them see the block. -/
theorem World.Models.findRecord_eq_some (h : w.Models v) (hi : i < v.count)
    (hd : sIsdir (v.entry i).mode = true) (hn : ValidName name) :
    findRecord (w.cache (v.entry i).dataBlockNumber.toNat) name (v.entry i).dirChildrenCount =
      some k ↔ v.Live i k ∧ v.childName i k = name := by
  rw [← h.data_eq hi, Simplefs.findRecord_eq_some hn]
  constructor
  · rintro ⟨hk, hname, -⟩
    exact ⟨⟨hi, hd, hk⟩, hname⟩
  · rintro ⟨hl, hname⟩
    refine ⟨hl.2.2, hname, ?_⟩
    intro c hc hcn
    have hlc : v.Live i c := ⟨hi, hd, Nat.lt_trans hc hl.2.2⟩
    exact Nat.ne_of_lt hc (h.wf.name_inj i c k hlc hl (hcn.trans hname.symm))

theorem World.Models.findRecord_eq_none (h : w.Models v) (hi : i < v.count)
    (hd : sIsdir (v.entry i).mode = true) (hn : ValidName name) :
    findRecord (w.cache (v.entry i).dataBlockNumber.toNat) name (v.entry i).dirChildrenCount =
      none ↔ ∀ k, v.Live i k → v.childName i k ≠ name := by
  rw [← h.data_eq hi, Simplefs.findRecord_eq_none hn]
  constructor
  · intro hk k hl
    exact hk k hl.2.2
  · intro hk k hlt
    exact hk k ⟨hi, hd, hlt⟩

/-- A lookup finds the entry the path leads to, or nothing if the directory has
no record with the name. -/
theorem run_lookup (h : w.Models v) (hb : env.BreadOk) (hn : ValidName name)
    (hl : v.Leads dir i) (hd : sIsdir (v.entry i).mode = true)
    (hq : w.simplefsInode dir = some (v.entry i)) (hp : w.dcache (name :: dir) = none) :
    ((∀ k, v.Live i k → v.childName i k ≠ name) ∧
        (simplefsLookup dir name).run (exec tid env) w = .done () w) ∨
      ∃ j, v.Leads (name :: dir) j ∧
        (simplefsLookup dir name).run (exec tid env) w =
          if env.newInodeFails then .stuck .nullInode w
          else .done () (w.dAdd (name :: dir) (v.inode j)) := by
  have hi := hl.lt
  have hcount := h.shows.count
  have hle := h.wf.count_le
  rw [run_simplefsLookup hb hn hq (h.wf.children_le i hi hd) (by omega)]
  cases hf : findRecord (w.cache (v.entry i).dataBlockNumber.toNat) name
      (v.entry i).dirChildrenCount with
  | none => exact .inl ⟨(h.findRecord_eq_none hi hd hn).mp hf, rfl⟩
  | some k =>
      obtain ⟨hlive, hname⟩ := (h.findRecord_eq_some hi hd hn).mp hf
      obtain ⟨-, j, hj, hno⟩ := h.wf.named i k hlive
      have hrec : recordIno (w.cache (v.entry i).dataBlockNumber.toNat) k =
          (v.entry j).inodeNo := by
        rw [← h.data_eq hi, hno]
        rfl
      have hlead : v.Leads (name :: dir) j := by
        rw [← hname]
        exact .child hl hlive hj hno
      refine .inr ⟨j, hlead, ?_⟩
      simp only [hrec, findEntry_eq h.wf h.shows hj, h.entryAt_eq hlead hp]
      rfl

/-- The VFS calls `create` only for names the directory does not have. -/
theorem World.Absent.childName_ne (ha : w.Absent dir name) (h : w.Models v)
    (hn : ValidName name) (hl : v.Leads dir i) (hd : sIsdir (v.entry i).mode = true)
    (hq : w.simplefsInode dir = some (v.entry i)) :
    ∀ k, v.Live i k → v.childName i k ≠ name := by
  obtain ⟨hp, w', hrun, hnone⟩ := ha
  obtain ⟨hne, -⟩ | ⟨j, -, hj⟩ := @run_lookup 0 _ _ _ _ _ _ h Env.calm_quiet.breadOk hn hl hd hq hp
  · exact hne
  · rw [hrun] at hj
    cases hj
    simp at hnone

/-- The root inode of a mount is the entry with number 1. -/
theorem World.Models.root_inode (h : w.Models v) (hp : w.dcache [] = none) :
    ∃ i, v.Leads [] i ∧
      ⟨1, some .dir, (findEntry w.cache 1).map (entryAt w.cache)⟩ = v.inode i := by
  obtain ⟨i, hi, hno, hd⟩ := h.wf.root
  have hl : v.Leads [] i := .root hi hno
  have hf : findEntry w.cache 1 = some i := by
    rw [← hno]
    exact findEntry_eq h.wf h.shows hi
  refine ⟨i, hl, ?_⟩
  rw [hf, Option.map_some, h.entryAt_eq hl hp]
  unfold inode
  rw [hno, fopOf_eq_dir.mpr hd]

theorem run_mount (h : w.Models v) (hb : env.BreadOk)
    (hm : (w.cache 0).get64 8 = simplefsMagic) (hs : (w.cache 0).get64 16 = 4096)
    (hp : w.dcache [] = none) :
    ∃ i, v.Leads [] i ∧ simplefsFillSuper.run (exec tid env) w =
      if env.newInodeFails then .stuck .nullInode w else .done 0 (w.dAdd [] (v.inode i)) := by
  obtain ⟨i, hl, hroot⟩ := h.root_inode hp
  have hcount := h.shows.count
  have hle := h.wf.count_le
  refine ⟨i, hl, ?_⟩
  rw [run_simplefsFillSuper hb hm hs (by omega), hroot]

end Lookup

end LinuxDevelopment.Simplefs
