import LinuxDevelopment.Simplefs.Effects
import LinuxDevelopment.Simplefs.Tree

/-!
# simplefs: what a crash leaves on the device

A volume allows a version of a block when the records, entries and fields of
the volume are in it; whatever else the block holds does not matter. An image
whose blocks are all allowed by a consistent volume has the records, the
entries and the free map in order, even if it was put together from blocks that
were written at different times.
-/

namespace LinuxDevelopment.Simplefs

/-- A name that was made in the directory with the number `parent`, and the
inode that was filled in for it. -/
structure Fill where
  parent : UInt64
  name : Name
  entry : SimplefsInode

/-- The inodes a walk over the records of an image can meet. -/
inductive ReachableInode (img : Image) : SimplefsInode → Prop
  | root {e : SimplefsInode} (found : resolveIno img 1 = some e) : ReachableInode img e
  | child {d e : SimplefsInode} {k : Nat} (init : ReachableInode img d)
      (isdir : sIsdir d.mode = true) (counted : k < d.dirChildrenCount)
      (found : resolveIno img (recordIno (img d.dataBlockNumber.toNat) k) = some e) :
      ReachableInode img e

/-- The order of an image that a crash has left. -/
structure CrashConsistent (fills : List Fill) (img : Image) : Prop where
  /-- a counted record names a stored inode, the first one being the one that was
  filled in for it -/
  records : ∀ {d k}, ReachableInode img d → sIsdir d.mode = true → k < d.dirChildrenCount →
    ∃ e f, resolveIno img (recordIno (img d.dataBlockNumber.toNat) k) = some e ∧ f ∈ fills ∧
      f.parent = d.inodeNo ∧ f.name = recordName (img d.dataBlockNumber.toNat) k ∧
      f.entry.Same e
  /-- the block of an inode is not free -/
  taken : ∀ {e}, ReachableInode img e → e.inodeNo ≠ 1 →
    e.dataBlockNumber.toNat < 64 ∧ (freeBlocks img).toNat.testBit e.dataBlockNumber.toNat = false
  disjoint : ∀ {e e'}, ReachableInode img e → ReachableInode img e' →
    e.dataBlockNumber = e'.dataBlockNumber → e = e'

/-- The masks of the scan cover the bit of each block that was handed out. -/
theorem Taken.testBit {free : UInt64} {b : Nat} (h : Taken free b) (hge : 3 ≤ b) (hlt : b < 64) :
    free.toNat.testBit b = false := by
  have hmask : ∀ m : UInt64, free &&& m = 0 → m.toNat.testBit b = true →
      free.toNat.testBit b = false := by
    intro m hz hm
    have hand : (free.toNat &&& m.toNat).testBit b = false := by
      rw [← UInt64.toNat_and, hz]
      exact Nat.zero_testBit b
    rw [Nat.testBit_and, hm, Bool.and_true] at hand
    exact hand
  by_cases hb : b < 31
  · have hown : ∀ c < 31, (freeblockMask c).toNat.testBit c = true := by decide
    exact hmask _ (h.own hge) (hown b hb)
  · have hhigh : ∀ c < 64, 31 ≤ c → (freeblockMask 31).toNat.testBit c = true := by decide
    exact hmask _ (h.high (Nat.le_of_not_lt hb)) (hhigh b hlt (Nat.le_of_not_lt hb))

namespace Volume

/-- A version of the block `b` in which everything of the volume is in place. -/
structure Allows (v : Volume) (b : Nat) (x : Buffer) : Prop where
  count : b = 0 → v.count ≤ (x.get64 24).toNat
  free : b = 0 → ∀ i < v.count, Taken (x.get64 32) (v.entry i).dataBlockNumber.toNat
  same : b = 1 → ∀ i < v.count, (inodeAt x i).Same (v.entry i)
  children : b = 1 → ∀ i < v.count, sIsdir (v.entry i).mode = true →
    (inodeAt x i).dirChildrenCount ≤ (v.entry i).dirChildrenCount
  records : ∀ i k, v.Live i k → (v.entry i).dataBlockNumber.toNat = b →
    recordIno x k = v.childIno i k ∧ recordName x k = v.childName i k

/-- The names of the volume were made with these inodes. -/
def Filled (v : Volume) (fills : List Fill) : Prop :=
  ∀ i k j, v.Live i k → j < v.count → (v.entry j).inodeNo = v.childIno i k →
    ∃ f ∈ fills, f.parent = (v.entry i).inodeNo ∧ f.name = v.childName i k ∧
      f.entry.Same (v.entry j)

/-- The data blocks are those the free map speaks about. -/
def Placed (v : Volume) : Prop :=
  ∀ i < v.count, (v.entry i).inodeNo ≠ 1 →
    3 ≤ (v.entry i).dataBlockNumber.toNat ∧ (v.entry i).dataBlockNumber.toNat < 64

variable {v : Volume} {img : Image} {fills : List Fill} {i j k : Nat} {e : SimplefsInode}

section Image

variable (ha : ∀ b, v.Allows b (img b))

include ha

theorem same_of_allows (hi : i < v.count) : (entryAt img i).Same (v.entry i) :=
  (ha 1).same rfl i hi

/-- The first entry with the number of an entry of the volume is that entry. -/
theorem resolveIno_of_allows (h : v.Wf) (hj : j < v.count) :
    resolveIno img (v.entry j).inodeNo = some (entryAt img j) := by
  unfold resolveIno
  rw [findEntry_eq_of_same h ((ha 0).count rfl) (fun i hi => same_of_allows ha hi) hj]
  rfl

/-- A counted record of a persisted directory is a record of the volume. -/
theorem live_of_allows (hi : i < v.count) (hd : sIsdir (entryAt img i).mode = true)
    (hk : k < (entryAt img i).dirChildrenCount) : v.Live i k := by
  have hdir : sIsdir (v.entry i).mode = true := by
    rw [← (same_of_allows ha hi).mode]
    exact hd
  exact ⟨hi, hdir, Nat.lt_of_lt_of_le hk ((ha 1).children rfl i hi hdir)⟩

theorem record_of_allows (hl : v.Live i k) :
    recordIno (img (entryAt img i).dataBlockNumber.toNat) k = v.childIno i k ∧
      recordName (img (entryAt img i).dataBlockNumber.toNat) k = v.childName i k := by
  rw [(same_of_allows ha hl.1).dataBlockNumber]
  exact (ha _).records i k hl rfl

/-- Every inode that can be reached is one of the volume. -/
theorem reachable_of_allows (h : v.Wf) (hr : ReachableInode img e) :
    ∃ i < v.count, e = entryAt img i := by
  induction hr with
  | root found =>
      obtain ⟨i, hi, hno, -⟩ := h.root
      rw [← hno, resolveIno_of_allows ha h hi] at found
      exact ⟨i, hi, (Option.some.inj found).symm⟩
  | child init isdir counted found ih =>
      obtain ⟨i, hi, rfl⟩ := ih
      have hl := live_of_allows ha hi isdir counted
      obtain ⟨-, j, hj, hno⟩ := h.named i _ hl
      rw [(record_of_allows ha hl).1, ← hno, resolveIno_of_allows ha h hj] at found
      exact ⟨j, hj, (Option.some.inj found).symm⟩

/-- Blocks that a consistent volume allows make up a consistent image. -/
theorem crashConsistent_of_allows (h : v.Wf) (hf : v.Filled fills) (hp : v.Placed) :
    CrashConsistent fills img := by
  constructor
  case records =>
    intro d k hr hd hk
    obtain ⟨i, hi, rfl⟩ := reachable_of_allows ha h hr
    have hl := live_of_allows ha hi hd hk
    obtain ⟨-, j, hj, hno⟩ := h.named i k hl
    obtain ⟨f, hmem, hparent, hname, hsame⟩ := hf i k j hl hj hno
    obtain ⟨hrecIno, hrecName⟩ := record_of_allows ha hl
    refine ⟨entryAt img j, f, ?_, hmem, ?_, ?_, ?_⟩
    · rw [hrecIno, ← hno]
      exact resolveIno_of_allows ha h hj
    · rw [hparent, (same_of_allows ha hi).inodeNo]
    · rw [hname, hrecName]
    · exact hsame.trans (same_of_allows ha hj).symm
  case taken =>
    intro e hr hne
    obtain ⟨i, hi, rfl⟩ := reachable_of_allows ha h hr
    have hs := same_of_allows ha hi
    rw [hs.inodeNo] at hne
    rw [hs.dataBlockNumber]
    obtain ⟨hge, hlt⟩ := hp i hi hne
    exact ⟨hlt, ((ha 0).free rfl i hi).testBit hge hlt⟩
  case disjoint =>
    intro e e' hr hr' heq
    obtain ⟨i, hi, rfl⟩ := reachable_of_allows ha h hr
    obtain ⟨j, hj, rfl⟩ := reachable_of_allows ha h hr'
    rw [(same_of_allows ha hi).dataBlockNumber, (same_of_allows ha hj).dataBlockNumber] at heq
    rw [h.block_inj i hi j hj heq]

end Image

/-- The blocks of an image that holds the volume. -/
theorem Shows.allows (hs : v.Shows img) (h : v.Wf) (b : Nat) : v.Allows b (img b) := by
  constructor
  case count =>
    rintro rfl
    exact Nat.le_of_eq hs.count
  case free =>
    rintro rfl i hi
    change Taken (freeBlocks img) _
    rw [← hs.free]
    exact h.taken i hi
  case same =>
    rintro rfl i hi
    exact hs.same i hi
  case children =>
    rintro rfl i hi hd
    exact hs.children i hi hd
  case records =>
    rintro i k hl rfl
    rw [← hs.block _ (h.block_ge i hl.1)]
    exact ⟨rfl, rfl⟩

section Keeps

variable {b : Nat} {x : Buffer} {q : SimplefsInode} {name : Name} {ino : UInt64} {pos : Nat}
  {bytes : List UInt8}

/-- Data blocks only have to hold the records of the volume. -/
theorem Allows.of_ge (hb : 2 ≤ b) (hrec : ∀ i k, v.Live i k →
    (v.entry i).dataBlockNumber.toNat = b →
      recordIno x k = v.childIno i k ∧ recordName x k = v.childName i k) : v.Allows b x where
  count := fun h₀ => by omega
  free := fun h₀ => by omega
  same := fun h₁ => by omega
  children := fun h₁ => by omega
  records := hrec

theorem Wf.allows_zero (h : v.Wf) (hcount : v.count ≤ (x.get64 24).toNat)
    (hfree : ∀ i < v.count, Taken (x.get64 32) (v.entry i).dataBlockNumber.toNat) :
    v.Allows 0 x where
  count := fun _ => hcount
  free := fun _ => hfree
  same := fun h₁ => by cases h₁
  children := fun h₁ => by cases h₁
  records := by
    intro i k hl hb
    have := h.block_ge i hl.1
    omega

theorem Wf.allows_one (h : v.Wf) (hs : ∀ i < v.count, (inodeAt x i).Same (v.entry i))
    (hc : ∀ i < v.count, sIsdir (v.entry i).mode = true →
      (inodeAt x i).dirChildrenCount ≤ (v.entry i).dirChildrenCount) : v.Allows 1 x where
  count := fun h₀ => by cases h₀
  free := fun h₀ => by cases h₀
  same := fun _ => hs
  children := fun _ => hc
  records := by
    intro i k hl hb
    have := h.block_ge i hl.1
    omega

/-- Taking a block keeps the blocks of the volume taken. -/
theorem Wf.keeps_allocOps (h : v.Wf) (hfree : v.free = freeBlocks img) :
    ∀ o ∈ allocOps img, Disk.Keeps v.Allows o := by
  intro o ho
  simp only [allocOps, flushOps, List.mem_cons, List.not_mem_nil, or_false] at ho
  rcases ho with rfl | rfl | rfl
  · intro x hx
    refine h.allows_zero ?_ ?_
    · rw [Buffer.get64_splice_outside (by simp)]
      exact hx.count rfl
    · intro i hi
      rw [Buffer.get64_splice_self, ← hfree]
      exact (h.taken i hi).and _
  · trivial
  · trivial

/-- The new entry and the new count are behind what the volume needs. -/
theorem Wf.keeps_addOps (h : v.Wf) (hcount : v.count = (inodesCount img).toNat) (e : SimplefsInode) :
    ∀ o ∈ addOps img e, Disk.Keeps v.Allows o := by
  intro o ho
  simp only [addOps, flushOps, List.mem_cons, List.not_mem_nil, or_false] at ho
  rcases ho with rfl | rfl | rfl | rfl | rfl
  · intro x hx
    have hsame : ∀ i < v.count,
        inodeAt (x.splice (32 * (inodesCount img).toNat) e.encode) i = inodeAt x i := by
      intro i hi
      exact inodeAt_splice_of_ne e (by omega)
    refine h.allows_one ?_ ?_
    · intro i hi
      rw [hsame i hi]
      exact hx.same rfl i hi
    · intro i hi hd
      rw [hsame i hi]
      exact hx.children rfl i hi hd
  · intro x hx
    have hle := h.count_le
    refine h.allows_zero ?_ ?_
    · rw [Buffer.get64_splice_self, toNat_succ hcount.symm (by omega)]
      exact Nat.le_succ _
    · intro i hi
      rw [Buffer.get64_splice_outside (by simp)]
      exact hx.free rfl i hi
  · trivial
  · trivial
  · trivial

/-- A record behind the counted ones does not disturb them. -/
theorem Wf.keeps_recordOps (h : v.Wf) (hn : ValidName name) (hi : i < v.count) :
    ∀ o ∈ recordOps (v.entry i).dataBlockNumber.toNat (v.entry i).dirChildrenCount ino name,
      Disk.Keeps v.Allows o := by
  have hlen := length_cString_le hn
  have hlive : ∀ a c, v.Live a c →
      (v.entry a).dataBlockNumber.toNat = (v.entry i).dataBlockNumber.toNat →
        c < (v.entry i).dirChildrenCount := by
    intro a c hl hb
    obtain rfl := h.toNat_block_inj hl.1 hi hb
    exact hl.2.2
  intro o ho
  simp only [recordOps, flushOps, List.mem_cons, List.not_mem_nil, or_false] at ho
  rcases ho with rfl | rfl | rfl | rfl
  · intro x hx
    refine .of_ge (h.block_ge i hi) ?_
    intro a c hl hb
    have hc := hlive a c hl hb
    rw [recordIno_splice_outside (by simp; omega), recordName_splice_outside (by simp; omega)]
    exact hx.records a c hl hb
  · intro x hx
    refine .of_ge (h.block_ge i hi) ?_
    intro a c hl hb
    have hc := hlive a c hl hb
    rw [recordIno_splice_outside (by omega), recordName_splice_outside (by omega)]
    exact hx.records a c hl hb
  · trivial
  · trivial

/-- Saving an entry of the volume, or another size of a file. -/
theorem Wf.keeps_saveOps (h : v.Wf) (hq : q.Same (v.entry i))
    (hc : sIsdir (v.entry i).mode = true → q.dirChildrenCount ≤ (v.entry i).dirChildrenCount) :
    ∀ o ∈ saveOps i q, Disk.Keeps v.Allows o := by
  intro o ho
  simp only [saveOps, flushOps, List.mem_cons, List.not_mem_nil, or_false] at ho
  rcases ho with rfl | rfl | rfl
  · intro x hx
    refine h.allows_one ?_ ?_
    · intro a ha
      by_cases hai : a = i
      · subst hai
        rw [inodeAt_splice_self]
        exact hq
      · rw [inodeAt_splice_of_ne q hai]
        exact hx.same rfl a ha
    · intro a ha hd
      by_cases hai : a = i
      · subst hai
        rw [inodeAt_splice_self]
        exact hc hd
      · rw [inodeAt_splice_of_ne q hai]
        exact hx.children rfl a ha hd
  · trivial
  · trivial

/-- The data of a file is not part of the metadata. -/
theorem Wf.keeps_fileEdit (h : v.Wf) (hj : j < v.count) (hr : sIsreg (v.entry j).mode = true)
    (f : Buffer → Buffer) : Disk.Keeps v.Allows (.edit (v.entry j).dataBlockNumber.toNat f) := by
  intro x _
  refine .of_ge (h.block_ge j hj) ?_
  intro a c hl hb
  exact absurd (h.toNat_block_inj hl.1 hj hb) (hl.ne_file hr)

end Keeps

section Created

variable {b : Nat} {x : Buffer} {name : Name}

theorem allows_alloc : v.alloc.Allows b x ↔ v.Allows b x :=
  ⟨fun h => ⟨h.count, h.free, h.same, h.children, h.records⟩,
    fun h => ⟨h.count, h.free, h.same, h.children, h.records⟩⟩

/-- Outside the store, what the larger volume needs is more. -/
theorem Creatable.allows_old (c : v.Creatable i e name) (h : v.Wf)
    (hx : (v.created i e name).Allows b x) (hb : b ≠ 1) : v.Allows b x where
  count := fun h₀ => Nat.le_of_succ_le (hx.count h₀)
  free := by
    intro h₀ j hj
    have hs : ((v.created i e name).entry j).Same (v.entry j) := created_same hj
    rw [← hs.dataBlockNumber]
    exact hx.free h₀ j (Nat.lt_succ_of_lt hj)
  same := fun h₁ => absurd h₁ hb
  children := fun h₁ => absurd h₁ hb
  records := by
    intro a k hl hab
    rw [← (c.child h hl).1, ← (c.child h hl).2]
    apply hx.records a k ((c.live_iff h).mpr (.inl hl))
    rw [(created_same hl.1).dataBlockNumber]
    exact hab

/-- The other directories have the records they had. -/
theorem Creatable.allows_other (c : v.Creatable i e name) (h : v.Wf) (hx : v.Allows b x)
    (hb : 2 ≤ b) (hne : (v.entry i).dataBlockNumber.toNat ≠ b) :
    (v.created i e name).Allows b x := by
  refine .of_ge hb ?_
  intro a k hl hab
  rcases (c.live_iff h).mp hl with hl | ⟨rfl, rfl⟩
  · rw [(created_same hl.1).dataBlockNumber] at hab
    rw [(c.child h hl).1, (c.child h hl).2]
    exact hx.records a k hl hab
  · rw [(created_same c.lt).dataBlockNumber] at hab
    exact absurd hab hne

/-- With the record written, the blocks hold the larger volume, whose directory
is still to be saved. -/
theorem Shows.allows_created (hs : (v.recorded i e name).Shows img) (c : v.Creatable i e name)
    (h : v.Wf) (b : Nat) : (v.created i e name).Allows b (img b) := by
  have hw := recorded_wf h c.add c.valid c.lt
  have hx := hs.allows hw b
  have hsame : ∀ j, ((v.created i e name).entry j).Same ((v.recorded i e name).entry j) :=
    setSize_same
  constructor
  case count => exact hx.count
  case free =>
    intro h₀ j hj
    rw [(hsame j).dataBlockNumber]
    exact hx.free h₀ j hj
  case same =>
    intro h₁ j hj
    exact (hx.same h₁ j hj).trans (hsame j).symm
  case children =>
    intro h₁ j hj hd
    rw [(hsame j).mode] at hd
    apply (hx.children h₁ j hj hd).trans
    by_cases hji : j = i
    · subst hji
      have hlink : ((v.created j e name).entry j).dirChildrenCount = _ :=
        link_children (c.linkable h)
      rw [hlink, recorded_entry_of_lt c.lt]
      exact Nat.le_succ _
    · have he : (v.created i e name).entry j = (v.recorded i e name).entry j :=
        setSize_entry_of_ne hji
      rw [he]
  case records =>
    rintro a k hl rfl
    have hino : (v.created i e name).childIno a k = (v.recorded i e name).childIno a k :=
      setSize_childIno a k
    have hname : (v.created i e name).childName a k = (v.recorded i e name).childName a k :=
      setSize_childName a k
    rw [hino, hname, (hsame a).dataBlockNumber, ← hs.block _ (hw.block_ge a hl.1)]
    exact ⟨rfl, rfl⟩

theorem Filled.mono {v' : Volume} (hf : v.Filled fills) (hcount : v'.count = v.count)
    (hsame : ∀ i < v.count, (v'.entry i).Same (v.entry i))
    (hlive : ∀ i k, v'.Live i k → v.Live i k ∧ v'.childIno i k = v.childIno i k ∧
      v'.childName i k = v.childName i k) : v'.Filled fills := by
  intro i k j hl hj hno
  rw [hcount] at hj
  obtain ⟨hl, hino, hname⟩ := hlive i k hl
  rw [hino, (hsame j hj).inodeNo] at hno
  obtain ⟨f, hmem, hparent, hfname, hfsame⟩ := hf i k j hl hj hno
  refine ⟨f, hmem, ?_, ?_, hfsame.trans (hsame j hj).symm⟩
  · rw [hparent, (hsame i hl.1).inodeNo]
  · rw [hfname, hname]

/-- A new name is made with the new inode. -/
theorem Filled.created (hf : v.Filled fills) (c : v.Creatable i e name) (h : v.Wf) {f : Fill}
    (hmem : f ∈ fills) (hparent : f.parent = (v.entry i).inodeNo) (hname : f.name = name)
    (hentry : f.entry = e) : (v.created i e name).Filled fills := by
  intro a k j hl hj hno
  have hnew : ((v.created i e name).entry v.count).inodeNo = e.inodeNo := by
    rw [created_entry_new c.lt]
  rcases (c.live_iff h).mp hl with hold | ⟨rfl, rfl⟩
  · obtain ⟨hino, hchild⟩ := c.child h hold
    obtain ⟨-, b, hb, hbno⟩ := h.named a k hold
    rw [hino, ← hbno, ← (created_same hb).inodeNo] at hno
    obtain rfl := (c.wf h).ino_inj _ hj _ (Nat.lt_succ_of_lt hb) hno
    obtain ⟨g, hg, hgparent, hgname, hgsame⟩ := hf a k j hold hb hbno
    refine ⟨g, hg, ?_, ?_, hgsame.trans (created_same hb).symm⟩
    · rw [hgparent, (created_same hold.1).inodeNo]
    · rw [hgname, hchild]
  · rw [created_childIno_new c.valid, ← hnew] at hno
    obtain rfl := (c.wf h).ino_inj _ hj _ (Nat.lt_succ_self _) hno
    refine ⟨f, hmem, ?_, ?_, ?_⟩
    · rw [hparent, (created_same c.lt).inodeNo]
    · rw [hname, created_childName_new c.valid]
    · rw [hentry, created_entry_new c.lt]
      exact .refl e

theorem Placed.mono {v' : Volume} (hp : v.Placed) (hcount : v'.count = v.count)
    (hsame : ∀ i < v.count, (v'.entry i).Same (v.entry i)) : v'.Placed := by
  intro i hi hne
  rw [hcount] at hi
  rw [(hsame i hi).inodeNo] at hne
  rw [(hsame i hi).dataBlockNumber]
  exact hp i hi hne

theorem Placed.created (hp : v.Placed) (hi : i < v.count)
    (he : 3 ≤ e.dataBlockNumber.toNat ∧ e.dataBlockNumber.toNat < 64) :
    (v.created i e name).Placed := by
  intro j hj hne
  rcases Nat.lt_succ_iff_lt_or_eq.mp hj with hlt | rfl
  · rw [(created_same hlt).inodeNo] at hne
    rw [(created_same hlt).dataBlockNumber]
    exact hp j hlt hne
  · rw [created_entry_new hi]
    exact he

end Created

end Volume

end LinuxDevelopment.Simplefs
