import LinuxDevelopment.Simplefs.AnyRun

/-!
# simplefs: names that were made stay

As long as no call of `create` or `mkdir` is interrupted at the first lock of
`simplefs_inode_add`, the volume in memory stays consistent, however the other
locks are interrupted. What a successful call has saved is in the store, and
the store only grows, also over an unmount that forgets the inodes in memory
which were not saved.
-/

namespace LinuxDevelopment.Simplefs

/-- A name that a call has made: the number of its directory, and the number it got. -/
structure Made where
  parent : UInt64
  name : Name
  ino : UInt64
  deriving DecidableEq

namespace Volume

variable {v v' v'' : Volume} {img : Image} {i j k : Nat} {m : Made}

/-- A record of the volume has the name and the number of a stored entry. -/
def Names (v : Volume) (m : Made) : Prop :=
  ∃ i k j, v.Live i k ∧ (v.entry i).inodeNo = m.parent ∧ v.childName i k = m.name ∧
    v.childIno i k = m.ino ∧ j < v.count ∧ (v.entry j).inodeNo = m.ino

/-- The second volume has all entries and records of the first one. -/
structure Extends (v v' : Volume) : Prop where
  count_le : v.count ≤ v'.count
  same : ∀ i < v.count, (v'.entry i).Same (v.entry i)
  children : ∀ i < v.count, sIsdir (v.entry i).mode = true →
    (v.entry i).dirChildrenCount ≤ (v'.entry i).dirChildrenCount
  child : ∀ i k, v.Live i k →
    v'.childIno i k = v.childIno i k ∧ v'.childName i k = v.childName i k

namespace Extends

theorem refl (v : Volume) : v.Extends v :=
  ⟨Nat.le_refl _, fun _ _ => .refl _, fun _ _ _ => Nat.le_refl _, fun _ _ _ => ⟨rfl, rfl⟩⟩

theorem live (h : v.Extends v') (hl : v.Live i k) : v'.Live i k := by
  obtain ⟨hi, hd, hk⟩ := hl
  refine ⟨Nat.lt_of_lt_of_le hi h.count_le, ?_, Nat.lt_of_lt_of_le hk (h.children i hi hd)⟩
  rw [(h.same i hi).mode]
  exact hd

theorem trans (h₁ : v.Extends v') (h₂ : v'.Extends v'') : v.Extends v'' where
  count_le := h₁.count_le.trans h₂.count_le
  same := fun i hi => (h₂.same i (Nat.lt_of_lt_of_le hi h₁.count_le)).trans (h₁.same i hi)
  children := by
    intro i hi hd
    have hi' := Nat.lt_of_lt_of_le hi h₁.count_le
    refine (h₁.children i hi hd).trans (h₂.children i hi' ?_)
    rw [(h₁.same i hi).mode]
    exact hd
  child := by
    intro i k hl
    obtain ⟨hino, hname⟩ := h₂.child i k (h₁.live hl)
    exact ⟨hino.trans (h₁.child i k hl).1, hname.trans (h₁.child i k hl).2⟩

theorem names (h : v.Extends v') (hm : v.Names m) : v'.Names m := by
  obtain ⟨i, k, j, hl, hparent, hname, hino, hj, hno⟩ := hm
  refine ⟨i, k, j, h.live hl, ?_, ?_, ?_, Nat.lt_of_lt_of_le hj h.count_le, ?_⟩
  · rw [(h.same i hl.1).inodeNo, hparent]
  · rw [(h.child i k hl).2, hname]
  · rw [(h.child i k hl).1, hino]
  · rw [(h.same j hj).inodeNo, hno]

end Extends

/-- The volume in memory has what is in the store. -/
theorem Shows.extends (hs : v.Shows img) (h : v.Wf) : (ofImage img).Extends v where
  count_le := Nat.le_of_eq hs.count.symm
  same := by
    intro i hi
    exact (hs.same i (by rwa [hs.count])).symm
  children := by
    intro i hi hd
    have hi' : i < v.count := by rwa [hs.count]
    refine hs.children i hi' ?_
    rw [← (hs.same i hi').mode]
    exact hd
  child := by
    intro i k hl
    have hi : i < v.count := by
      rw [hs.count]
      exact hl.1
    unfold childIno childName
    rw [h.data_eq hs hi]
    exact ⟨rfl, rfl⟩

section Images

variable {f : UInt64} {e q : SimplefsInode} {b : Nat} {buf : Buffer}

/-- A data block of an image is one of its volume. -/
theorem ofImage_update (hb : 2 ≤ b) :
    ofImage (Function.update img b buf) = (ofImage img).setBlock b buf := by
  have hentry : entryAt (Function.update img b buf) = entryAt img := by
    funext j
    exact entryAt_update hb j
  unfold ofImage setBlock
  rw [inodesCount_update hb, freeBlocks_update hb, hentry]

theorem extends_of_meta {img' : Image} (h : (ofImage img).Wf)
    (hcount : (inodesCount img).toNat ≤ (inodesCount img').toNat)
    (hsame : ∀ i < (inodesCount img).toNat, (entryAt img' i).Same (entryAt img i))
    (hchildren : ∀ i < (inodesCount img).toNat, sIsdir (entryAt img i).mode = true →
      (entryAt img i).dirChildrenCount ≤ (entryAt img' i).dirChildrenCount)
    (hblock : ∀ c, 2 ≤ c → img' c = img c) : (ofImage img).Extends (ofImage img') := by
  refine ⟨hcount, hsame, hchildren, ?_⟩
  intro i k hl
  have hdata : (ofImage img').data i = (ofImage img).data i := by
    unfold data
    rw [ofImage_entry, ofImage_block, (hsame i hl.1).dataBlockNumber]
    exact hblock _ (h.block_ge i hl.1)
  unfold childIno childName
  rw [hdata]
  exact ⟨rfl, rfl⟩

theorem extends_setFree (h : (ofImage img).Wf) : (ofImage img).Extends (ofImage (setFree img f)) := by
  refine extends_of_meta h ?_ ?_ ?_ fun c hc => setFree_of_ne (by omega)
  · rw [inodesCount_setFree]
  · intro i _
    rw [entryAt_setFree]
    exact .refl _
  · intro i _ _
    rw [entryAt_setFree]

theorem extends_addInode (h : (ofImage img).Wf) :
    (ofImage img).Extends (ofImage (setCount (setEntry img (inodesCount img).toNat e)
      (inodesCount img + 1))) := by
  have hle : (inodesCount img).toNat ≤ 64 := h.count_le
  have hentry : ∀ i < (inodesCount img).toNat, entryAt (setCount (setEntry img
      (inodesCount img).toNat e) (inodesCount img + 1)) i = entryAt img i := by
    intro i hi
    rw [entryAt_setCount, entryAt_setEntry_of_ne (Nat.ne_of_lt hi)]
  refine extends_of_meta h ?_ ?_ ?_ ?_
  · rw [inodesCount_setCount, toNat_succ rfl (by omega)]
    exact Nat.le_succ _
  · intro i hi
    rw [hentry i hi]
    exact .refl _
  · intro i hi _
    rw [hentry i hi]
  · intro c hc
    rw [setCount_of_ne (by omega), setEntry_of_ne (by omega)]

theorem extends_setEntry (h : (ofImage img).Wf) (hq : q.Same (entryAt img i))
    (hc : sIsdir q.mode = true → (entryAt img i).dirChildrenCount ≤ q.dirChildrenCount) :
    (ofImage img).Extends (ofImage (setEntry img i q)) := by
  refine extends_of_meta h ?_ ?_ ?_ fun c hc => setEntry_of_ne (by omega)
  · rw [inodesCount_setEntry]
  · intro j _
    by_cases hji : j = i
    · subst hji
      rw [entryAt_setEntry_self]
      exact hq
    · rw [entryAt_setEntry_of_ne hji]
      exact .refl _
  · intro j _ hd
    by_cases hji : j = i
    · subst hji
      rw [entryAt_setEntry_self]
      exact hc (hq.mode ▸ hd)
    · rw [entryAt_setEntry_of_ne hji]

theorem extends_setRecord (h : v.Wf) {ino : UInt64} {name : Name} (hn : ValidName name)
    (hi : i < v.count) (hk : (v.entry i).dirChildrenCount ≤ k) :
    v.Extends (v.setRecord i k ino name) :=
  ⟨Nat.le_refl _, fun _ _ => .refl _, fun _ _ _ => Nat.le_refl _,
    fun _ _ hl => setRecord_child_of_live h.toStoreWf hn hi hk hl⟩

theorem extends_stored (h : v.Wf) {pos : Nat} {bytes : List UInt8} (hj : j < v.count)
    (hr : sIsreg (v.entry j).mode = true) : v.Extends (v.stored j pos bytes) :=
  ⟨Nat.le_refl _, fun _ _ => .refl _, fun _ _ _ => Nat.le_refl _,
    fun _ _ hl => stored_child h.toStoreWf hj hr hl⟩

end Images

end Volume

open Volume

/-- A mounted or unmounted file system whose metadata is on the device, or will
be at the latest when it is unmounted. -/
structure World.Kept (w : World) (v : Volume) : Prop extends w.Models v where
  device : ∀ b, w.dirty b = true ∨ w.media b = w.cache b ∨
    ∃ j < v.count, sIsreg (v.entry j).mode = true ∧ (v.entry j).dataBlockNumber.toNat = b

namespace World.Kept

variable {w w' : World} {v v' : Volume} {i j k : Nat} {p : Path} {e : SimplefsInode} {name : Name}

/-- Each block is up to date, or it is as it was. -/
theorem of_models (h : w.Kept v) (hm : w'.Models v')
    (hsame : ∀ j < v.count, j < v'.count ∧ (v'.entry j).Same (v.entry j))
    (hdev : ∀ b, w'.dirty b = true ∨ w'.media b = w'.cache b ∨
      (w'.dirty b = w.dirty b ∧ w'.media b = w.media b ∧ w'.cache b = w.cache b) ∨
      ∃ j < v.count, sIsreg (v.entry j).mode = true ∧ (v.entry j).dataBlockNumber.toNat = b) :
    w'.Kept v' := by
  have hfile : ∀ b, (∃ j < v.count, sIsreg (v.entry j).mode = true ∧
      (v.entry j).dataBlockNumber.toNat = b) → ∃ j < v'.count, sIsreg (v'.entry j).mode = true ∧
        (v'.entry j).dataBlockNumber.toNat = b := by
    rintro b ⟨j, hj, hr, hb⟩
    obtain ⟨hlt, hs⟩ := hsame j hj
    refine ⟨j, hlt, ?_, ?_⟩
    · rw [hs.mode]
      exact hr
    · rw [hs.dataBlockNumber]
      exact hb
  refine ⟨hm, fun b => ?_⟩
  rcases hdev b with hd | heq | ⟨hd, hmedia, hcache⟩ | hf
  · exact .inl hd
  · exact .inr (.inl heq)
  · rw [hd, hmedia, hcache]
    rcases h.device b with h₁ | h₂ | h₃
    · exact .inl h₁
    · exact .inr (.inl h₂)
    · exact .inr (.inr (hfile b h₃))
  · exact .inr (.inr (hfile b hf))

theorem congr (h : w.Kept v) (hm : w'.Models v')
    (hsame : ∀ j < v.count, j < v'.count ∧ (v'.entry j).Same (v.entry j))
    (hd : w'.dirty = w.dirty) (hmedia : w'.media = w.media) (hcache : w'.cache = w.cache) :
    w'.Kept v' := by
  refine h.of_models hm hsame fun b => .inr (.inr (.inl ?_))
  rw [hd, hmedia, hcache]
  exact ⟨rfl, rfl, rfl⟩

theorem setOwner (h : w.Kept v) (m : Mutex) (t : Option Nat) : (w.setOwner m t).Kept v :=
  ⟨h.toModels.setOwner m t, h.device⟩

theorem allocBlock (h : w.Kept v) : w.allocBlock.Kept v.alloc := by
  refine h.of_models h.toModels.allocBlock (fun j hj => ⟨hj, .refl _⟩) ?_
  intro b
  by_cases hb : b = 0
  · subst hb
    exact .inr (.inl (by simp [World.allocBlock]))
  · exact .inr (.inr (.inl (by simp [World.allocBlock, hb])))

theorem addInode (h : w.Kept v) (a : v.Addable e) : (w.addInode e).Kept (v.add e) := by
  refine h.of_models (h.toModels.addInode a) ?_ ?_
  · intro j hj
    refine ⟨Nat.lt_succ_of_lt hj, ?_⟩
    rw [add_entry_of_lt hj]
    exact .refl _
  · intro b
    by_cases h₀ : b = 0
    · subst h₀
      exact .inr (.inl (by simp [World.addInode]))
    · by_cases h₁ : b = 1
      · subst h₁
        exact .inl (by simp [World.addInode])
      · exact .inr (.inr (.inl (by simp [World.addInode, h₀, h₁])))

theorem addRecord {ino : UInt64} (h : w.Kept v) (hn : ValidName name) (hi : i < v.count)
    (hk : (v.entry i).dirChildrenCount ≤ k) :
    (w.addRecord (v.entry i).dataBlockNumber.toNat k ino name).Kept
      (v.setRecord i k ino name) := by
  refine h.of_models (h.toModels.addRecord hn hi hk) (fun j hj => ⟨hj, .refl _⟩) ?_
  intro b
  by_cases hb : b = (v.entry i).dataBlockNumber.toNat
  · subst hb
    exact .inr (.inl (by simp [World.addRecord]))
  · exact .inr (.inr (.inl (by simp [World.addRecord, hb])))

theorem saveInode (h : w.Kept v) : (w.saveInode i (v.entry i)).Kept v := by
  refine h.of_models h.toModels.saveInode (fun j hj => ⟨hj, .refl _⟩) ?_
  intro b
  by_cases hb : b = 1
  · subst hb
    exact .inr (.inl (by simp [World.saveInode]))
  · exact .inr (.inr (.inl (by simp [World.saveInode, hb])))

theorem storeData (h : w.Kept v) (hj : j < v.count) (hr : sIsreg (v.entry j).mode = true)
    (pos : Nat) (bytes : List UInt8) :
    (w.store (v.entry j).dataBlockNumber.toNat pos bytes).Kept (v.stored j pos bytes) := by
  refine h.of_models (h.toModels.storeData hj hr pos bytes) (fun j hj => ⟨hj, .refl _⟩) ?_
  intro b
  by_cases hb : (v.entry j).dataBlockNumber.toNat = b
  · exact .inr (.inr (.inr ⟨j, hj, hr, hb⟩))
  · exact .inr (.inr (.inl (by simp [Ne.symm hb])))

theorem flush (h : w.Kept v) (b : Nat) : (w.flush b).Kept v := by
  refine h.of_models (h.toModels.flush b) (fun j hj => ⟨hj, .refl _⟩) ?_
  intro c
  by_cases hcb : c = b
  · subst hcb
    exact .inr (.inl (by simp))
  · exact .inr (.inr (.inl (by simp [hcb])))

theorem dAdd (h : w.Kept v) (hl : v.Leads p i) : (w.dAdd p (v.inode i)).Kept v :=
  ⟨h.toModels.dAdd hl, h.device⟩

theorem setFileSize_file {s : UInt64} (h : w.Kept v) (hl : v.Leads p i)
    (hp : w.dcache p = some (v.inode i)) (hr : sIsreg (v.entry i).mode = true)
    (hs : s.toNat ≤ 4096) : (w.setFileSize p s).Kept (v.setSize i s) :=
  h.congr (h.toModels.setFileSize_file hl hp hr hs) (fun j hj => ⟨hj, setSize_same j⟩) rfl rfl rfl

/-- The directories of the volume are on the device, or will be. -/
theorem unmount_dir (h : w.Kept v) (hi : i < v.count) (hd : sIsdir (v.entry i).mode = true) :
    w.unmount.cache (v.entry i).dataBlockNumber.toNat =
      w.cache (v.entry i).dataBlockNumber.toNat := by
  change (if w.dirty _ then w.cache _ else w.media _) = _
  rcases h.device (v.entry i).dataBlockNumber.toNat with hdirty | hmedia | ⟨j, hj, hr, hb⟩
  · rw [if_pos hdirty]
  · rw [hmedia, ite_self]
  · obtain rfl := h.wf.toNat_block_inj hj hi hb
    rw [not_sIsreg_of_sIsdir hd] at hr
    exact absurd hr Bool.false_ne_true

end World.Kept

/-- The volume that the buffer cache holds, without the inodes in memory. -/
abbrev World.saved (w : World) : Volume := Volume.ofImage w.cache

namespace World.Models

variable {w : World} {v : Volume} {i j k : Nat} {e : SimplefsInode} {name : Name}

/-- What is in the store is consistent, too. -/
theorem saved_wf (h : w.Models v) : w.saved.Wf := h.wf.ofImage h.shows

theorem lt_saved (h : w.Models v) (hi : i < v.count) : i < w.saved.count := by
  rw [ofImage_count, ← h.shows.count]
  exact hi

theorem extends_allocBlock (h : w.Models v) : w.saved.Extends w.allocBlock.saved :=
  extends_setFree h.saved_wf

theorem extends_addInode (h : w.Models v) : w.saved.Extends (w.addInode e).saved :=
  Volume.extends_addInode h.saved_wf

theorem extends_addRecord {ino : UInt64} (h : w.Models v) (hn : ValidName name) (hi : i < v.count)
    (hd : sIsdir (v.entry i).mode = true) (hk : (v.entry i).dirChildrenCount ≤ k) :
    w.saved.Extends (w.addRecord (v.entry i).dataBlockNumber.toNat k ino name).saved := by
  have hrec : (w.addRecord (v.entry i).dataBlockNumber.toNat k ino name).saved =
      w.saved.setRecord i k ino name := by
    unfold World.saved
    rw [World.addRecord_cache, ofImage_update (h.wf.block_ge i hi),
      ← (h.shows.same i hi).dataBlockNumber]
    rfl
  rw [hrec]
  exact extends_setRecord h.saved_wf hn (h.lt_saved hi) ((h.shows.children i hi hd).trans hk)

theorem extends_saveInode (h : w.Models v) (hi : i < v.count) :
    w.saved.Extends (w.saveInode i (v.entry i)).saved := by
  refine extends_setEntry h.saved_wf (h.shows.same i hi).symm ?_
  exact h.shows.children i hi

theorem extends_storeData (h : w.Models v) (hj : j < v.count)
    (hr : sIsreg (v.entry j).mode = true) (pos : Nat) (bytes : List UInt8) :
    w.saved.Extends (w.store (v.entry j).dataBlockNumber.toNat pos bytes).saved := by
  have hstored : (w.store (v.entry j).dataBlockNumber.toNat pos bytes).saved =
      w.saved.stored j pos bytes := by
    unfold World.saved
    rw [World.store_cache, ofImage_update (h.wf.block_ge j hj),
      ← (h.shows.same j hj).dataBlockNumber]
    rfl
  rw [hstored]
  refine extends_stored h.saved_wf (h.lt_saved hj) ?_
  rw [ofImage_entry, (h.shows.same j hj).mode]
  exact hr

end World.Models

/-- The volume behind a call has at least the saved records of the one before. -/
structure World.Advances (w w' : World) (v' : Volume) : Prop where
  kept : w'.Kept v'
  saved : w.saved.Extends w'.saved

section Unmount

variable {w w' : World} {v : Volume} {tid : Nat} {env : Env} {dir : Path} {name : Name} {r : Int}

/-- What is saved survives an unmount. -/
theorem World.Kept.unmount (h : w.Kept v) (hs : w.Sane) : w.Advances w.unmount w.unmount.saved := by
  have h₀ : w.unmount.cache 0 = w.cache 0 := hs.unmount_eq (by decide)
  have h₁ : w.unmount.cache 1 = w.cache 1 := hs.unmount_eq (by decide)
  have hcount : w.unmount.saved.count = w.saved.count := by
    rw [ofImage_count, ofImage_count]
    unfold inodesCount
    rw [h₀]
  have hfree : w.unmount.saved.free = w.saved.free := by
    rw [ofImage_free, ofImage_free]
    unfold freeBlocks
    rw [h₀]
  have hentry : w.unmount.saved.entry = w.saved.entry := by
    funext i
    rw [ofImage_entry, ofImage_entry]
    unfold entryAt
    rw [h₁]
  have hchild : ∀ i k, w.saved.Live i k → w.unmount.saved.childIno i k = w.saved.childIno i k ∧
      w.unmount.saved.childName i k = w.saved.childName i k := by
    intro i k hl
    have hi : i < v.count := by
      rw [h.shows.count]
      exact hl.1
    have hsame := h.shows.same i hi
    have hdir : sIsdir (v.entry i).mode = true := by
      rw [← hsame.mode]
      exact hl.2.1
    have hdata : w.unmount.saved.data i = w.saved.data i := by
      unfold data
      rw [hentry, ofImage_entry, hsame.dataBlockNumber]
      exact h.unmount_dir hi hdir
    unfold childIno childName
    rw [hdata]
    exact ⟨rfl, rfl⟩
  have hlive : ∀ i k, w.unmount.saved.Live i k ↔ w.saved.Live i k := by
    intro i k
    unfold Live
    rw [hcount, hentry]
  have hwf : w.unmount.saved.Wf := by
    refine h.saved_wf.mono hcount ?_ ?_ ?_ ?_ fun i k hl => hchild i k ((hlive i k).mp hl)
    · intro b hb
      rwa [hfree]
    · intro i _
      rw [hentry]
      exact .refl _
    · intro i hi hr
      rw [hentry]
      exact h.saved_wf.size_le i hi hr
    · intro i _ _
      rw [hentry]
  constructor
  case kept =>
    refine ⟨⟨shows_ofImage hwf, hwf, ?_, fun _ _ hne => absurd rfl hne⟩, fun b => .inr (.inl rfl)⟩
    intro p x hx
    cases hx
  case saved =>
    refine ⟨Nat.le_of_eq hcount.symm, ?_, ?_, hchild⟩
    · intro i _
      rw [hentry]
      exact .refl _
    · intro i _ _
      rw [hentry]

end Unmount

section Create

variable {w w' : World} {v : Volume} {tid : Nat} {env : Env} {dir : Path} {name : Name} {r : Int}
  {i : Nat} {e : SimplefsInode} {mode : UInt16}

theorem World.Kept.recorded (h : w.Kept v) (c : v.Creatable i e name) :
    w.Advances ((w.addInode e).addRecord (v.entry i).dataBlockNumber.toNat
      (v.entry i).dirChildrenCount e.inodeNo name) (v.recorded i e name) := by
  have hent : (v.add e).entry i = v.entry i := add_entry_of_lt c.lt
  have hi : i < (v.add e).count := Nat.lt_succ_of_lt c.lt
  have hk : ((v.add e).entry i).dirChildrenCount ≤ (v.entry i).dirChildrenCount :=
    Nat.le_of_eq (add_children_of_lt c.lt)
  have hd : sIsdir ((v.add e).entry i).mode = true := by
    rw [hent]
    exact c.dir
  have hadd := h.addInode c.add
  have hrec : ((w.addInode e).addRecord ((v.add e).entry i).dataBlockNumber.toNat
      (v.entry i).dirChildrenCount e.inodeNo name).Kept (v.recorded i e name) :=
    hadd.addRecord c.valid hi hk
  have hext : (w.addInode e).saved.Extends ((w.addInode e).addRecord
      ((v.add e).entry i).dataBlockNumber.toNat (v.entry i).dirChildrenCount e.inodeNo name).saved :=
    hadd.toModels.extends_addRecord c.valid hi hd hk
  rw [hent] at hrec hext
  exact ⟨hrec, h.toModels.extends_addInode.trans hext⟩

/-- The record of the new object is written; it is behind those that memory counts. -/
theorem World.Kept.recorded_any (h : w.Kept v) (hsite : env.interrupted .inodeAddMgmt = false)
    (c : v.alloc.Creatable i (newEntry w.cache mode) name) :
    ∃ v', w.Advances (w.recorded tid env (v.entry i) mode name) v' := by
  unfold World.recorded afterAdd
  rw [if_neg (by simp [hsite])]
  split_ifs
  · have hk := (h.allocBlock.setOwner .inodesMgmtLock (some tid))
    refine ⟨_, hk.addRecord c.valid c.lt (Nat.le_refl _), ?_⟩
    exact h.toModels.extends_allocBlock.trans
      (hk.toModels.extends_addRecord c.valid c.lt c.dir (Nat.le_refl _))
  · have hrec := h.allocBlock.recorded c
    exact ⟨_, hrec.kept, h.toModels.extends_allocBlock.trans hrec.saved⟩

/-- When the call gets its lock again, the entry is in the store. -/
theorem recorded_eq_of_free (hsite : env.interrupted .inodeAddMgmt = false) {q : SimplefsInode}
    (free : (w.recorded tid env q mode name).owner .inodesMgmtLock = none) :
    w.recorded tid env q mode name = (w.allocBlock.addInode (newEntry w.cache mode)).addRecord
      q.dataBlockNumber.toNat q.dirChildrenCount (newEntry w.cache mode).inodeNo name := by
  unfold World.recorded afterAdd at free ⊢
  rw [if_neg (by simp [hsite])] at free ⊢
  split_ifs at free ⊢
  · simp at free
  · rfl

theorem World.Kept.linked (h : w.Kept v) (c : v.alloc.Creatable i (newEntry w.cache mode) name)
    (hl : v.Leads dir i) (hp : w.dcache dir = some (v.inode i)) :
    w.Advances (((w.allocBlock.addInode (newEntry w.cache mode)).addRecord
      (v.entry i).dataBlockNumber.toNat (v.entry i).dirChildrenCount
      (newEntry w.cache mode).inodeNo name).setFileSize dir ((v.entry i).fileSize + 1))
      (v.alloc.created i (newEntry w.cache mode) name) := by
  have hrec := h.allocBlock.recorded c
  refine ⟨?_, h.toModels.extends_allocBlock.trans hrec.saved⟩
  exact hrec.kept.congr (h.allocBlock.toModels.linked c hl.alloc hp)
    (fun j hj => ⟨hj, setSize_same j⟩) rfl rfl rfl

theorem World.Kept.created (h : w.Kept v) (c : v.alloc.Creatable i (newEntry w.cache mode) name)
    (hl : v.Leads dir i) (hp : w.dcache dir = some (v.inode i)) :
    w.Advances (w.created dir i (v.entry i) (newEntry w.cache mode) name)
      (v.alloc.created i (newEntry w.cache mode) name) := by
  have hlink := h.linked c hl hp
  have hself : (v.alloc.created i (newEntry w.cache mode) name).entry i = _ :=
    created_entry_self c.lt
  have hsave := hlink.kept.saveInode (i := i)
  have hext := hlink.kept.toModels.extends_saveInode (i := i) (Nat.lt_succ_of_lt c.lt)
  rw [hself] at hsave hext
  have hadd := hsave.dAdd (c.leads_new h.allocBlock.wf hl.alloc)
  unfold inode at hadd
  rw [created_entry_new c.lt] at hadd
  exact ⟨hadd, hlink.saved.trans hext⟩

/-- The name of a successful call is in the store. -/
theorem World.Kept.created_names (h : w.Kept v)
    (c : v.alloc.Creatable i (newEntry w.cache mode) name) (hl : v.Leads dir i)
    (hp : w.dcache dir = some (v.inode i)) :
    (w.created dir i (v.entry i) (newEntry w.cache mode) name).saved.Names
      ⟨(v.entry i).inodeNo, name, (newEntry w.cache mode).inodeNo⟩ := by
  have hk := (h.created c hl hp).kept
  have hself : (w.created dir i (v.entry i) (newEntry w.cache mode) name).saved.entry i =
      { v.entry i with fileSize := (v.entry i).fileSize + 1 } := by
    rw [ofImage_entry, World.created_cache, entryAt_setEntry_self]
  have hchildren : ((w.created dir i (v.entry i) (newEntry w.cache mode) name).saved.entry
      i).dirChildrenCount = (v.entry i).dirChildrenCount + 1 := by
    rw [hself]
    exact toNat_succ rfl (Nat.lt_trans c.room (by decide))
  have hlt : i < (v.alloc.created i (newEntry w.cache mode) name).count := Nat.lt_succ_of_lt c.lt
  have hdata := hk.wf.data_eq hk.shows hlt
  refine ⟨i, (v.entry i).dirChildrenCount, v.count, ⟨hk.lt_saved hlt, ?_, ?_⟩, ?_, ?_, ?_,
    hk.lt_saved (Nat.lt_succ_self _), ?_⟩
  · rw [hself]
    exact c.dir
  · rw [hchildren]
    exact Nat.lt_succ_self _
  · rw [hself]
  · unfold childName
    rw [hdata]
    exact created_childName_new (v := v.alloc) c.valid
  · unfold childIno
    rw [hdata]
    exact created_childIno_new (v := v.alloc) c.valid
  · have hnew : (v.alloc.created i (newEntry w.cache mode) name).entry v.count = _ :=
      created_entry_new (v := v.alloc) c.lt
    rw [ofImage_entry, (hk.shows.same v.count (Nat.lt_succ_self _)).inodeNo, hnew]

/-- What a call has made, if it has made something. -/
def Event.made (x : Event) (w w' : World) : List Made :=
  match x.call.makes with
  | some (dir, name, _) =>
      if x.reply = .ret 0 then
        (do let d ← w.dcache dir
            let y ← w'.dcache (name :: dir)
            return ⟨d.iIno, name, y.iIno⟩ : Option Made).toList
      else []
  | none => []

/-- The names in a list are in the store, and their numbers were not there before. -/
structure Stores (w w' : World) (ms : List Made) : Prop where
  names : ∀ m ∈ ms, w'.saved.Names m
  fresh : ∀ m ∈ ms, ∀ j < w.saved.count, (w.saved.entry j).inodeNo ≠ m.ino
  nodup : (ms.map Made.ino).Nodup

theorem Stores.nil : Stores w w' [] :=
  ⟨fun _ hm => absurd hm List.not_mem_nil, fun _ hm => absurd hm List.not_mem_nil, List.nodup_nil⟩

theorem World.Kept.create (h : w.Kept v) (hsite : env.interrupted .inodeAddMgmt = false)
    (hd : w.Has dir .dir) (hn : ValidName name) (ha : w.Absent dir name)
    (hrun : (simplefsCreateFsObject dir name mode).run (exec tid env) w = .done r w') :
    ∃ v', w.Advances w' v' ∧ (r = 0 → ∃ d y, w.dcache dir = some d ∧
      w'.dcache (name :: dir) = some y ∧ Stores w w' [⟨d.iIno, name, y.iIno⟩]) := by
  obtain ⟨i, hl, hdc, hq, hfop⟩ := h.toModels.simplefsInode hd
  have hdir := fopOf_eq_dir.mp hfop
  have hnew := ha.childName_ne h.toModels hn hl hdir hq
  have hfail : r < 0 → (r = 0 → ∃ d y, w.dcache dir = some d ∧
      w'.dcache (name :: dir) = some y ∧ Stores w w' [⟨d.iIno, name, y.iIno⟩]) := by
    intro hneg hzero
    omega
  cases create_cases hn hq (h.wf.block_ge i hl.lt) hrun with
  | refused neg => exact ⟨v, ⟨h, .refl _⟩, hfail neg⟩
  | released => exact ⟨v, ⟨h.setOwner _ _, .refl _⟩, hfail (by decide)⟩
  | uncounted alloc room =>
      have c := h.toModels.creatable alloc hn hl.lt hdir room hnew
      obtain ⟨v', hadv⟩ := h.recorded_any hsite c
      exact ⟨v', hadv, hfail (by decide)⟩
  | unsaved neg alloc room _ free =>
      have c := h.toModels.creatable alloc hn hl.lt hdir room hnew
      have hadv := h.linked c hl hdc
      rw [← recorded_eq_of_free hsite free] at hadv
      exact ⟨_, hadv, hfail neg⟩
  | created alloc room _ _ free found =>
      have c := h.toModels.creatable alloc hn hl.lt hdir room hnew
      have hrec := recorded_eq_of_free hsite free
      have hm := h.toModels.allocBlock.recorded c
      have hfound := searchEntry_eq hm.wf hm.shows (Nat.lt_succ_of_lt c.lt)
      rw [recorded_entry_of_lt c.lt] at hfound
      rw [hrec] at found ⊢
      cases found.symm.trans hfound
      refine ⟨_, h.created c hl hdc, fun _ => ⟨v.inode i, _, hdc, Function.update_self _ _ _, ?_, ?_,
        List.nodup_cons.mpr ⟨List.not_mem_nil, List.nodup_nil⟩⟩⟩
      · intro m hmem
        obtain rfl := List.mem_singleton.mp hmem
        exact h.created_names c hl hdc
      · intro m hmem j hj
        obtain rfl := List.mem_singleton.mp hmem
        have hj' : j < v.count := by
          rw [h.shows.count]
          exact hj
        rw [ofImage_entry, (h.shows.same j hj').inodeNo]
        exact Addable.ino_ne (v := v.alloc) h.wf.alloc.toStoreWf c.add hj'

end Create

section Step

variable {w w' : World} {v : Volume} {tid : Nat} {env : Env} {p dir : Path} {name : Name} {r : Int}
  {buf : List UInt8} {pos pos' : Nat}

theorem World.Kept.write (h : w.Kept v) (hf : w.Has p .file)
    (hrun : (simplefsWrite p buf pos).run (exec tid env) w = .done (r, pos') w') :
    ∃ v', w.Advances w' v' := by
  obtain ⟨j, hl, hdc, hq, hfop⟩ := h.toModels.simplefsInode hf
  obtain ⟨-, hr⟩ := fopOf_eq_file.mp hfop
  have hcount := h.shows.count
  have hle := h.wf.count_le
  have hdata : ∀ bytes, w.Advances (w.store (v.entry j).dataBlockNumber.toNat pos bytes)
      (v.stored j pos bytes) :=
    fun bytes => ⟨h.storeData hl.lt hr pos bytes, h.toModels.extends_storeData hl.lt hr pos bytes⟩
  have hcopied : w.Advances (w.copiedIn (v.entry j) buf pos) (v.stored j pos (writeBytes buf pos)) :=
    ⟨(hdata _).kept.flush _, (hdata _).saved⟩
  have hsized : pos + writeLength buf pos ≤ 4096 →
      w.Advances ((w.copiedIn (v.entry j) buf pos).setFileSize p
        (UInt64.ofNat (pos + writeLength buf pos)))
        ((v.stored j pos (writeBytes buf pos)).setSize j
          (UInt64.ofNat (pos + writeLength buf pos))) := by
    intro hfit
    refine ⟨hcopied.kept.setFileSize_file (hl.setBlock_file h.wf hl.lt hr) hdc hr ?_,
      hcopied.saved⟩
    rw [UInt64.toNat_ofNat_of_lt' (by change _ < 2 ^ 64; omega)]
    exact hfit
  cases write_cases hq (h.wf.block_ge j hl.lt) (by omega) hrun with
  | tooBig => exact ⟨v, h, .refl _⟩
  | unread => exact ⟨v, h, .refl _⟩
  | fault => exact ⟨_, hdata _⟩
  | unsized => exact ⟨_, hcopied⟩
  | unsaved _ fit => exact ⟨_, hsized fit⟩
  | written fit _ _ found =>
      have hm := hcopied.kept
      have hfound := searchEntry_eq hm.wf hm.shows (j := j) hl.lt
      cases found.symm.trans hfound
      have hs := hsized fit
      have hsave := hs.kept.saveInode (i := j)
      have hext := hs.kept.toModels.extends_saveInode (i := j) hl.lt
      rw [setSize_entry_self] at hsave hext
      exact ⟨_, hsave, hs.saved.trans hext⟩

theorem World.Kept.lookup (h : w.Kept v) (hd : w.Has dir .dir) (hn : ValidName name)
    (hp : w.dcache (name :: dir) = none)
    (hrun : (simplefsLookup dir name).run (exec tid env) w = .done () w') : w.Advances w' v := by
  obtain ⟨i, hl, -, hq, hfop⟩ := h.toModels.simplefsInode hd
  have hrun' := (bugsOnNull_simplefsLookup dir name).run_readable hrun
  have hcases := @run_lookup tid _ _ _ _ _ _ h.toModels env.breadOk_readable hn hl
    (fopOf_eq_dir.mp hfop) hq hp
  rcases hcases with ⟨-, hx⟩ | ⟨j, hlj, hx⟩
  · rw [hx] at hrun'
    cases hrun'
    exact ⟨h, .refl _⟩
  · rw [hx] at hrun'
    split_ifs at hrun'
    cases hrun'
    exact ⟨h.dAdd hlj, .refl _⟩

theorem World.Kept.mount (h : w.Kept v) (hp : w.dcache [] = none)
    (hrun : simplefsFillSuper.run (exec tid env) w = .done r w') : w.Advances w' v := by
  have hcount := h.shows.count
  have hle := h.wf.count_le
  rcases mount_cases (by omega) hrun with rfl | rfl
  · exact ⟨h, .refl _⟩
  · obtain ⟨i, hl, hroot⟩ := h.toModels.root_inode hp
    rw [hroot]
    exact ⟨h.dAdd hl, .refl _⟩

/-- The condition on a call: its inode goes into the store. -/
def Event.StoresInode (x : Event) : Prop :=
  x.call.makes ≠ none → x.env.interrupted .inodeAddMgmt = false

instance (x : Event) : Decidable x.StoresInode := inferInstanceAs (Decidable (_ → _))

theorem World.Kept.step_makes {x : Event} {mode : UInt16} (h : w.Kept v) (hx : x.StoresInode)
    (hm : x.call.makes = some (dir, name, mode)) (hd : w.Has dir .dir) (hn : ValidName name)
    (ha : w.Absent dir name)
    (hrun : (simplefsCreateFsObject dir name mode >>= fun r => pure (Reply.ret r) :
      Code Reply).run (exec x.tid x.env) w = .done x.reply w') :
    ∃ v', w.Advances w' v' ∧ Stores w w' (x.made w w') := by
  obtain ⟨r, u, hc, hret⟩ := (Prog.run_bind_eq_done _).mp hrun
  have hsite := hx (by rw [hm]; exact Option.some_ne_none _)
  obtain ⟨v', hadv, hmade⟩ := h.create hsite hd hn ha hc
  obtain ⟨hreply, rfl⟩ := Outcome.done.inj hret
  refine ⟨v', hadv, ?_⟩
  unfold Event.made
  rw [hm, ← hreply]
  by_cases hr : r = 0
  · obtain ⟨d, y, hdd, hy, hs⟩ := hmade hr
    subst hr
    simpa [hdd, hy] using hs
  · have hne : Reply.ret r ≠ .ret 0 := fun heq => hr (Reply.ret.inj heq)
    simpa [hne] using Stores.nil

/-- A call that makes nothing. -/
theorem World.Advances.stores {x : Event} {v' : Volume} (h : w.Advances w' v')
    (hm : x.call.makes = none) : ∃ v', w.Advances w' v' ∧ Stores w w' (x.made w w') := by
  refine ⟨v', h, ?_⟩
  unfold Event.made
  rw [hm]
  exact .nil

/-- Every call that ends keeps the volume and adds what it has made. -/
theorem World.Kept.step {x : Event} (h : w.Kept v) (hs : w.Sane) (hx : x.StoresInode)
    (ha : x.call.Allowed w) (hrun : x.call.run x.tid x.env w = .done x.reply w') :
    ∃ v', w.Advances w' v' ∧ Stores w w' (x.made w w') := by
  obtain ⟨tid, c, env, reply⟩ := x
  cases Call.ran_of_run hrun with
  | mount run => exact (h.mount ha run).stores rfl
  | unmount => exact (h.unmount hs).stores rfl
  | lookup run => exact (h.lookup ha.1 ha.2.1 ha.2.2 run).stores rfl
  | create => exact h.step_makes hx rfl ha.1 ha.2.1 ha.2.2 hrun
  | mkdir => exact h.step_makes hx rfl ha.1 ha.2.1 ha.2.2 hrun
  | iterate => exact World.Advances.stores ⟨h, .refl _⟩ rfl
  | read => exact World.Advances.stores ⟨h, .refl _⟩ rfl
  | write run =>
      obtain ⟨v', hadv⟩ := h.write ha run
      exact hadv.stores rfl

end Step

/-- A run and the names its successful calls have made. -/
inductive LoggedRun : World → List Event → World → List Made → Prop
  | nil (w : World) : LoggedRun w [] w []
  | snoc {w w' w'' : World} {es : List Event} {log : List Made} {e : Event}
      (init : LoggedRun w es w' log) (allowed : e.call.Allowed w')
      (step : e.call.run e.tid e.env w' = .done e.reply w'') :
      LoggedRun w (es ++ [e]) w'' (log ++ e.made w' w'')

section Runs

variable {dev : Image} {es : List Event} {w : World} {v : Volume} {log : List Made} {m : Made}

theorem LoggedRun.run {w₀ : World} (h : LoggedRun w₀ es w log) : Run w₀ es w := by
  induction h with
  | nil => exact .nil _
  | snoc _ allowed step ih => exact .snoc ih allowed step

theorem Run.logged {w₀ : World} (h : Run w₀ es w) : ∃ log, LoggedRun w₀ es w log := by
  induction h with
  | nil => exact ⟨[], .nil _⟩
  | snoc _ allowed step ih =>
      obtain ⟨log, hlog⟩ := ih
      exact ⟨_, hlog.snoc allowed step⟩

theorem mkfs_kept (dev : Image) : (World.ofImage (mkfs dev)).Kept (Volume.ofImage (mkfs dev)) :=
  ⟨(mkfs_settled dev).toModels, fun _ => .inr (.inl rfl)⟩

/-- The store keeps every name that was made, and no number is given twice. -/
theorem LoggedRun.names (h : LoggedRun (World.ofImage (mkfs dev)) es w log)
    (hes : ∀ e ∈ es, e.StoresInode) :
    (∃ v, w.Kept v) ∧ (∀ m ∈ log, w.saved.Names m) ∧ (log.map Made.ino).Nodup := by
  generalize hw : World.ofImage (mkfs dev) = w₀ at h
  induction h with
  | nil =>
      rw [← hw]
      exact ⟨⟨_, mkfs_kept dev⟩, fun _ hm => absurd hm List.not_mem_nil, List.nodup_nil⟩
  | @snoc w₁ w₂ es log e init allowed step ih =>
      obtain ⟨⟨v, hk⟩, hnames, hnodup⟩ := ih fun x hx => hes x (List.mem_append_left _ hx)
      have hsane : w₁.Sane := by
        rw [← hw] at init
        exact init.run.sane
      have he := hes e (List.mem_append_right _ List.mem_cons_self)
      obtain ⟨v', hadv, hstores⟩ := hk.step hsane he allowed step
      refine ⟨⟨v', hadv.kept⟩, ?_, ?_⟩
      · intro m hm
        rcases List.mem_append.mp hm with hm | hm
        · exact hadv.saved.names (hnames m hm)
        · exact hstores.names m hm
      · rw [List.map_append]
        refine List.nodup_append.mpr ⟨hnodup, hstores.nodup, ?_⟩
        intro ino hold ino' hnew heq
        obtain ⟨m, hm, rfl⟩ := List.mem_map.mp hold
        obtain ⟨m', hm', rfl⟩ := List.mem_map.mp hnew
        obtain ⟨-, -, j, -, -, -, -, hj, hno⟩ := hnames m hm
        exact hstores.fresh m' hm' j hj (hno.trans heq)

end Runs

section Samples

/-- One more call of a run. -/
theorem LoggedRun.call {w₀ w : World} {es : List Event} {log : List Made}
    (h : LoggedRun w₀ es w log) (c : Call) (env : Env) {reply : Reply} (ha : c.Allowed w)
    (hr : (c.run 0 env w).value? = some reply) :
    LoggedRun w₀ (es ++ [⟨0, c, env, reply⟩]) (w.after c env)
      (log ++ Event.made ⟨0, c, env, reply⟩ w (w.after c env)) :=
  h.snoc (e := ⟨0, c, env, reply⟩) ha (run_after hr)

end Samples

end LinuxDevelopment.Simplefs
