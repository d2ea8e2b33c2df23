import LinuxDevelopment.Simplefs.Format

/-!
# simplefs: the store invariant over whole runs

From the image of `mkfs-simplefs` on, every sequence of calls in which no lock
is interrupted and every block can be read keeps the inode store, the data
blocks and the directory records consistent, in the buffer cache and on the
device.
-/

namespace LinuxDevelopment.Simplefs

open Volume

section Runs

variable {w w' : World} {v : Volume} {es : List Event}

/-- What one call preserves, a run preserves. -/
theorem Run.settled (hrun : Run w es w') (hc : CalmRun es) (h : w.Settled v) (hr : v.Rooted) :
    ∃ v', w'.Settled v' ∧ v'.Rooted := by
  induction hrun with
  | nil => exact ⟨v, h, hr⟩
  | @snoc w' w'' es e init allowed step ih =>
      have hcalm : CalmRun es := fun x hx => hc x (List.mem_append_left _ hx)
      have he : e.env.Calm := hc e (List.mem_append_right _ List.mem_cons_self)
      obtain ⟨v₁, h₁, hr₁⟩ := ih hcalm
      obtain ⟨v₂, hstep⟩ := h₁.step he allowed step
      exact ⟨v₂, hstep.settled h₁, hstep.rooted h₁ hr₁⟩

/-- The states of the calm runs from a fresh device. -/
theorem Run.settled_of_mkfs {dev : Image} (hrun : Run (World.ofImage (mkfs dev)) es w)
    (hc : CalmRun es) : ∃ v, w.Settled v ∧ v.Rooted :=
  hrun.settled hc (mkfs_settled dev) (mkfs_rooted dev)

end Runs

/-- The inode store, the data blocks and the records of an image. -/
structure StoreInvariant (img : Image) : Prop where
  inode_no_distinct : ∀ i < (inodesCount img).toNat, ∀ j < (inodesCount img).toNat,
    (entryAt img i).inodeNo = (entryAt img j).inodeNo → i = j
  data_block_distinct : ∀ i < (inodesCount img).toNat, ∀ j < (inodesCount img).toNat,
    (entryAt img i).dataBlockNumber = (entryAt img j).dataBlockNumber → i = j
  data_block_not_reserved : ∀ i < (inodesCount img).toNat,
    (entryAt img i).dataBlockNumber ≠ 0 ∧ (entryAt img i).dataBlockNumber ≠ 1
  /-- the records below `dir_children_count` carry numbers that are in the store -/
  records_stored : ∀ i < (inodesCount img).toNat, sIsdir (entryAt img i).mode = true →
    ∀ k < (entryAt img i).dirChildrenCount, ∃ j < (inodesCount img).toNat,
      (entryAt img j).inodeNo = recordIno (img (entryAt img i).dataBlockNumber.toNat) k
  /-- every entry but the root is named by one record of one directory -/
  named_once : ∀ j < (inodesCount img).toNat, (entryAt img j).inodeNo ≠ 1 →
    ∃! r : Nat × Nat, (ofImage img).Live r.1 r.2 ∧
      (ofImage img).childIno r.1 r.2 = (entryAt img j).inodeNo
  /-- no record names the root, and one path from the root leads to each entry -/
  root_unnamed : ∀ i k, (ofImage img).Live i k → (ofImage img).childIno i k ≠ 1
  tree : ∀ j < (inodesCount img).toNat, ∃! p : Path, (ofImage img).Leads p j
  inodes_count_le : (inodesCount img).toNat ≤ 64

section Tree

variable {v : Volume} {img : Image}

/-- Following the records up, every entry is reached from the root. -/
theorem Volume.Rooted.leads (hr : v.Rooted) (j : Nat) (hj : j < v.count) : ∃ p, v.Leads p j := by
  induction j using Nat.strong_induction_on with
  | _ j ih =>
      by_cases hroot : (v.entry j).inodeNo = 1
      · exact ⟨[], .root hj hroot⟩
      · obtain ⟨i, hi, k, hl, hno⟩ := hr j hj hroot
        obtain ⟨p, hp⟩ := ih i hi (Nat.lt_trans hi hj)
        exact ⟨v.childName i k :: p, .child hp hl hj hno.symm⟩

/-- The blocks of an image that is up to date are rooted when the volume is. -/
theorem Volume.Rooted.ofImage (hr : v.Rooted) (h : v.Wf) (hs : v.Shows img)
    (hx : v.Exact img) : (ofImage img).Rooted := by
  refine hr.mono hs.count.symm (fun j hj => by rw [ofImage_entry, hx j hj]) ?_
  intro a k hl
  have he : (Volume.ofImage img).entry a = v.entry a := hx a hl.1
  refine ⟨⟨?_, ?_, ?_⟩, ?_⟩
  · rw [ofImage_count, ← hs.count]
    exact hl.1
  · rw [he]
    exact hl.2.1
  · rw [he]
    exact hl.2.2
  · unfold childIno
    rw [h.data_eq hs hl.1]

theorem storeInvariant_of_wf (h : (ofImage img).Wf) (hr : (ofImage img).Rooted) :
    StoreInvariant img := by
  constructor
  case inode_no_distinct => exact h.ino_inj
  case data_block_distinct => exact h.block_inj
  case data_block_not_reserved =>
    intro i hi
    have hge := h.block_ge i hi
    rw [ofImage_entry] at hge
    constructor
    · intro h₀
      rw [h₀] at hge
      exact absurd hge (by decide)
    · intro h₁
      rw [h₁] at hge
      exact absurd hge (by decide)
  case records_stored =>
    intro i hi hd k hk
    exact (h.named i k ⟨hi, hd, hk⟩).2
  case named_once =>
    intro j hj hne
    obtain ⟨i, -, k, hl, hno⟩ := hr j hj hne
    refine ⟨(i, k), ⟨hl, hno⟩, ?_⟩
    rintro ⟨i', k'⟩ ⟨hl', hno'⟩
    obtain ⟨rfl, rfl⟩ := h.unique i' k' i k hl' hl (hno'.trans hno.symm)
    rfl
  case root_unnamed =>
    intro i k hl
    exact (h.named i k hl).1
  case tree =>
    intro j hj
    obtain ⟨p, hp⟩ := hr.leads j hj
    exact ⟨p, hp, fun q hq => hq.injective h hp⟩
  case inodes_count_le => exact h.count_le

end Tree

/-- The store invariant holds in every state of every calm run, in memory and on
the device. -/
theorem storeInvariant_of_calmRun {dev : Image} {es : List Event} {w : World}
    (hrun : Run (World.ofImage (mkfs dev)) es w) (hc : CalmRun es) :
    StoreInvariant w.cache ∧ StoreInvariant w.media := by
  obtain ⟨v, hs, hr⟩ := hrun.settled_of_mkfs hc
  constructor
  · exact storeInvariant_of_wf (hs.wf.ofImage hs.shows) (hr.ofImage hs.wf hs.shows hs.saved)
  · have hexact : (v.onDevice w.media).Exact w.media := by
      intro i hi
      rw [hs.entryAt_media]
      exact hs.saved i hi
    exact storeInvariant_of_wf (hs.onDevice_wf.ofImage hs.onDevice_shows)
      ((hs.onDevice_rooted hr).ofImage hs.onDevice_wf hs.onDevice_shows hexact)

/-- Mount, make the directory `a`, make the file `a/b`, write to it and unmount. -/
def sampleCalls : List Call :=
  [.mount, .mkdir [] [97] 0o755, .create [[97]] [98] 0o100644, .write [[98], [97]] [104, 105] 0,
    .unmount]

theorem storeInvariant_sampleCalls : ∃ es w, Run (World.ofImage (mkfs fun _ _ => 0xAA)) es w ∧
    CalmRun es ∧ inodesCount w.cache = 4 ∧ StoreInvariant w.cache ∧ StoreInvariant w.media := by
  have hx : (runCalls (World.ofImage (mkfs fun _ _ => 0xAA)) (quietly sampleCalls)).map
      (fun x => inodesCount x.2.cache) = some 4 := by decide +kernel
  obtain ⟨⟨es, w⟩, hcalls, hcount⟩ := Option.map_eq_some_iff.mp hx
  have hrun := run_of_runCalls hcalls
  have hcalm : CalmRun es := env_of_runCalls hcalls (env_quietly Env.calm_quiet _)
  exact ⟨es, w, hrun, hcalm, hcount, storeInvariant_of_calmRun hrun hcalm⟩

end LinuxDevelopment.Simplefs
