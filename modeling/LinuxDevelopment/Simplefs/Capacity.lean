import LinuxDevelopment.Simplefs.FreeMap
import LinuxDevelopment.Simplefs.StoreInvariant

/-!
# simplefs: how many objects there can be

In a calm run the free map is a function of the number of objects made so far,
and so are the inode number and the block of each of them. The header reserves
room for 64 objects and the free map of `mkfs-simplefs` has 60 bits set; a calm
run makes 31 objects and no more, and from then on every attempt is answered by
`-ENOSPC`.
-/

namespace LinuxDevelopment.Simplefs

open Volume

/-- The call made an object. -/
def Event.creates (e : Event) : Bool := e.call.makes.isSome && e.reply == .ret 0

/-- The objects a run has made. -/
def objectsMade (es : List Event) : Nat := es.countP Event.creates

/-- The answer of `simplefs_create_fs_object` when `n` objects have been made. -/
def createAnswer (env : Env) (mode : UInt16) (n : Nat) : Int :=
  if !sIsdir mode.toUInt32 && !sIsreg mode.toUInt32 then -einval
  else if env.newInodeFails then -enomem
  else if n = 31 then -enospc
  else 0

section Maps

theorem scanMap_succ (n : Nat) (free : UInt64) : scanMap (n + 1) free =
    if freeblockScan (scanMap n free) = 64 then scanMap n free
    else freeAfter (scanMap n free) := by
  induction n generalizing free with
  | zero => rfl
  | succ n ih => exact ih _

/-- The block handed out next, after `n` calls on a fresh device. -/
theorem scan_scanMap_mkfs {n : Nat} (hn : n ≤ 31) :
    freeblockScan (scanMap n mkfsFreeBlocks) = if n = 31 then 64 else n + 4 := by
  have hall : ∀ n < 32, freeblockScan (scanMap n mkfsFreeBlocks) =
      if n = 31 then 64 else n + 4 := by decide +kernel
  exact hall n (by omega)

end Maps

/-- The volume after `n` objects have been made on a fresh device. -/
structure Volume.Allotted (v : Volume) (n : Nat) : Prop where
  le : n ≤ 31
  count : v.count = n + 2
  free : v.free = scanMap n mkfsFreeBlocks
  block : ∀ i < v.count, (v.entry i).dataBlockNumber.toNat = i + 2
  number : ∀ i < v.count, (v.entry i).inodeNo.toNat = if i < 2 then i + 1 else i + 8

section Step

variable {w w' : World} {v v' : Volume} {env : Env} {tid n : Nat} {c : Call} {reply : Reply}

theorem allotted_mkfs (dev : Image) : (ofImage (mkfs dev)).Allotted 0 where
  le := Nat.zero_le _
  count := count_mkfs dev
  free := freeBlocks_mkfs dev
  block := by
    intro i hi
    obtain ⟨rfl, he⟩ | ⟨rfl, he⟩ := mkfs_cases hi <;> rw [he] <;> rfl
  number := by
    intro i hi
    obtain ⟨rfl, he⟩ | ⟨rfl, he⟩ := mkfs_cases hi <;> rw [he] <;> rfl

/-- The blocks and the sizes of the entries do not matter. -/
theorem Volume.Allotted.congr (h : v.Allotted n) (hcount : v'.count = v.count)
    (hfree : v'.free = v.free) (hsame : ∀ i < v.count, (v'.entry i).Same (v.entry i)) :
    v'.Allotted n where
  le := h.le
  count := hcount.trans h.count
  free := hfree.trans h.free
  block := by
    intro i hi
    rw [hcount] at hi
    rw [(hsame i hi).dataBlockNumber]
    exact h.block i hi
  number := by
    intro i hi
    rw [hcount] at hi
    rw [(hsame i hi).inodeNo]
    exact h.number i hi

theorem Volume.Allotted.created {i : Nat} {name : Name} {mode : UInt16} {img : Image}
    (h : v.Allotted n) (hfree : v.free = freeBlocks img)
    (c : v.alloc.Creatable i (newEntry img mode) name) :
    (v.alloc.created i (newEntry img mode) name).Allotted (n + 1) := by
  have hscan : freeblockScan (scanMap n mkfsFreeBlocks) < 64 := by
    rw [← h.free, hfree, ← toNat_newEntry_block img mode]
    exact c.add.placed.2
  have hlt : n ≠ 31 := by
    rintro rfl
    rw [scan_scanMap_mkfs h.le, if_pos rfl] at hscan
    exact absurd hscan (lt_irrefl 64)
  have hle := h.le
  have hentry : ∀ j < v.count + 1, j < v.count ∨ j = v.count := fun j hj => by omega
  have hnew : (v.alloc.created i (newEntry img mode) name).entry v.count = newEntry img mode :=
    created_entry_new (v := v.alloc) c.lt
  have hold : ∀ j < v.count,
      ((v.alloc.created i (newEntry img mode) name).entry j).Same (v.entry j) :=
    fun j hj => created_same (v := v.alloc) hj
  constructor
  case le => omega
  case count => exact congrArg (· + 1) h.count
  case free =>
    change freeAfter v.free = _
    rw [scanMap_succ, if_neg (by omega), h.free]
  case block =>
    intro j hj
    obtain hj | rfl := hentry j hj
    · rw [(hold j hj).dataBlockNumber]
      exact h.block j hj
    · rw [hnew, toNat_newEntry_block, ← hfree, h.free, scan_scanMap_mkfs h.le, if_neg hlt, h.count]
  case number =>
    intro j hj
    obtain hj | rfl := hentry j hj
    · rw [(hold j hj).inodeNo]
      exact h.number j hj
    · have hcount := h.count
      rw [hnew, if_neg (by omega)]
      exact c.add.ino

/-- A step of a calm run makes at most one object. -/
theorem CalmStep.allotted (hs : w.Settled v) (h : v.Allotted n)
    (hstep : CalmStep env w v c reply w' v') :
    v'.Allotted (n + if c.makes.isSome && reply == .ret 0 then 1 else 0) := by
  cases hstep with
  | refused makes neg =>
      rename_i m r
      have hne : (Reply.ret r == .ret 0) = false := by
        refine beq_false_of_ne fun heq => ?_
        obtain rfl := Reply.ret.inj heq
        exact absurd neg (Int.lt_irrefl 0)
      rw [hne, Bool.and_false]
      exact h
  | created makes leads cached cond =>
      rw [makes]
      exact h.created hs.shows.free cond
  | fault leads isreg => exact h.congr rfl rfl fun _ _ => .refl _
  | unmount => exact h.congr rfl rfl fun _ _ => .refl _
  | wrote leads cached isreg fit => exact h.congr rfl rfl fun k _ => setSize_same k
  | _ => exact h

theorem Run.allotted {es : List Event} (hrun : Run w es w') (hc : CalmRun es)
    (hs : w.Settled v) (h : v.Allotted n) :
    ∃ v', w'.Settled v' ∧ v'.Allotted (n + objectsMade es) := by
  induction hrun with
  | nil => exact ⟨v, hs, h⟩
  | @snoc w' w'' es e init allowed step ih =>
      have hcalm : CalmRun es := fun x hx => hc x (List.mem_append_left _ hx)
      have he : e.env.Calm := hc e (List.mem_append_right _ List.mem_cons_self)
      obtain ⟨v₁, hs₁, h₁⟩ := ih hcalm
      obtain ⟨v₂, hstep⟩ := hs₁.step he allowed step
      refine ⟨v₂, hstep.settled hs₁, ?_⟩
      have hnext := hstep.allotted hs₁ h₁
      rwa [objectsMade, List.countP_append, List.countP_singleton, ← Nat.add_assoc]

/-- A call that has got its block does not fail in a calm run: it would leave a
trace. -/
theorem World.Settled.create_of_allocates {dir : Path} {name : Name} {mode : UInt16} {r : Int}
    (hs : w.Settled v) (hc : env.Calm) (hd : w.Has dir .dir) (hn : ValidName name)
    (ha : w.Absent dir name) (hroom : w.Allocates env mode)
    (hrun : (simplefsCreateFsObject dir name mode).run (exec tid env) w = .done r w') :
    r = 0 := by
  obtain ⟨i, hl, -, hq, -⟩ := hs.toModels.simplefsInode hd
  obtain ⟨neg, hw⟩ | ⟨hr, -⟩ := hs.create_cases hc hd hn ha hrun
  · cases Simplefs.create_cases hn hq (hs.wf.block_ge i hl.lt) hrun with
    | refused _ early => exact absurd hroom early
    | released site => simp [hc.interrupted] at site
    | uncounted _ _ site => simp [hc.interrupted] at site
    | unsaved _ alloc room site free why =>
        have hrec : (w.recorded tid env (v.entry i) mode name).simplefsInode dir =
            some (v.entry i) := recorded_simplefsInode hq
        have hsize := simplefsInode_setFileSize (v := (v.entry i).fileSize + 1) hrec
        rw [hw, hq] at hsize
        have heq := congrArg (fun q => q.fileSize.toNat) (Option.some.inj hsize)
        simp only [UInt64.toNat_add, UInt64.reduceToNat] at heq
        have hlt := (v.entry i).fileSize.toNat_lt
        omega
    | created => exact absurd neg (Int.lt_irrefl 0)
  · exact hr

/-- Whatever kind of object is asked for, in whichever directory, the answer
depends on the number of objects alone. -/
theorem World.Settled.create_answer {dir : Path} {name : Name} {mode : UInt16} {r : Int}
    (hs : w.Settled v) (h : v.Allotted n) (hc : env.Calm) (hd : w.Has dir .dir)
    (hn : ValidName name) (ha : w.Absent dir name)
    (hrun : (simplefsCreateFsObject dir name mode).run (exec tid env) w = .done r w') :
    r = createAnswer env mode n := by
  have hle := h.le
  have hcount : (inodesCount w.cache).toNat = n + 2 := hs.shows.count.symm.trans h.count
  have hscan : freeblockScan (freeBlocks w.cache) = if n = 31 then 64 else n + 4 := by
    rw [← hs.shows.free, h.free, scan_scanMap_mkfs hle]
  have hchecks := hrun
  rw [run_simplefsCreateFsObject hc.breadOk] at hchecks
  simp only [hc.interrupted, hs.unowned, Bool.false_eq_true, if_false, if_true] at hchecks
  rw [if_neg (by omega : ¬ 64 ≤ (inodesCount w.cache).toNat)] at hchecks
  unfold createAnswer
  split_ifs at hchecks with hkind hnew hfull
  · cases hchecks
    rw [if_pos hkind]
    rfl
  · cases hchecks
    rw [if_neg hkind, if_pos hnew]
    rfl
  · cases hchecks
    have hmax : n = 31 := by
      by_contra hne
      rw [hscan, if_neg hne] at hfull
      omega
    rw [if_neg hkind, if_neg hnew, if_pos hmax]
    rfl
  · have hmax : n ≠ 31 := by
      intro heq
      rw [hscan, if_pos heq] at hfull
      exact hfull rfl
    rw [if_neg hkind, if_neg hnew, if_neg hmax]
    refine hs.create_of_allocates hc hd hn ha ?_ hrun
    constructor
    case kind =>
      cases hdir : sIsdir mode.toUInt32 <;> cases hreg : sIsreg mode.toUInt32 <;>
        simp [hdir, hreg] at hkind ⊢
    case count => omega
    case newInode => exact Bool.eq_false_iff.mpr hnew
    case freeblock => exact hfull
    all_goals first | exact hc.interrupted _ | exact hs.unowned _

end Step

/-- In every calm run the objects made so far determine which inode numbers and
blocks are in use and how the next attempt to make one is answered. There are
never more than 31 of them. -/
theorem allocation_of_calmRun {dev : Image} {es : List Event} {w : World}
    (hrun : Run (World.ofImage (mkfs dev)) es w) (hc : CalmRun es) :
    objectsMade es ≤ 31 ∧ (inodesCount w.cache).toNat = objectsMade es + 2 ∧
      (∀ i < objectsMade es + 2, (entryAt w.cache i).dataBlockNumber.toNat = i + 2 ∧
        (entryAt w.cache i).inodeNo.toNat = if i < 2 then i + 1 else i + 8) ∧
      ∀ tid env dir name mode r w', env.Calm → w.Has dir .dir → ValidName name →
        w.Absent dir name →
        (simplefsCreateFsObject dir name mode).run (exec tid env) w = .done r w' →
        r = createAnswer env mode (objectsMade es) := by
  obtain ⟨v, hs, h⟩ := hrun.allotted hc (mkfs_settled dev) (allotted_mkfs dev)
  rw [Nat.zero_add] at h
  refine ⟨h.le, hs.shows.count.symm.trans h.count, fun i hi => ?_, ?_⟩
  · rw [← h.count] at hi
    have hsame := hs.shows.same i hi
    rw [hsame.dataBlockNumber, hsame.inodeNo]
    exact ⟨h.block i hi, h.number i hi⟩
  · intro tid env dir name mode r w' hcalm hd hn ha hcreate
    exact hs.create_answer h hcalm hd hn ha hcreate

theorem allocation_sampleCalls : ∃ es w, Run (World.ofImage (mkfs fun _ _ => 0xAA)) es w ∧
    CalmRun es ∧ objectsMade es = 2 ∧ (entryAt w.cache 3).dataBlockNumber.toNat = 5 := by
  have hx : (runCalls (World.ofImage (mkfs fun _ _ => 0xAA)) (quietly sampleCalls)).map
      (fun x => objectsMade x.1) = some 2 := by decide +kernel
  obtain ⟨⟨es, w⟩, hcalls, hmade⟩ := Option.map_eq_some_iff.mp hx
  have hrun := run_of_runCalls hcalls
  have hcalm : CalmRun es := env_of_runCalls hcalls (env_quietly Env.calm_quiet _)
  obtain ⟨-, -, hentry, -⟩ := allocation_of_calmRun hrun hcalm
  exact ⟨es, w, hrun, hcalm, hmade, (hentry 3 (by rw [hmade]; decide)).1⟩

end LinuxDevelopment.Simplefs
