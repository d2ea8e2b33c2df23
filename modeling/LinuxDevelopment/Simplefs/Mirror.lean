import LinuxDevelopment.Simplefs.WriteSteps

/-!
# simplefs: the caches of a concurrent run and those of a serial one

Calls of `create` and `mkdir` work under one lock from their first action to
their last but one, and nothing they do depends on the files. The caches of a
concurrent run are therefore those of the same creates run one after the other,
with the stores of the writes laid over them: `Mirrors` states this, and every
action of a create or of a write keeps it.
-/

namespace LinuxDevelopment.Simplefs

open Volume

/-- The caches of a consistent store, with an in-memory inode only for what is
in the store. -/
structure Caches.Sound (v : Caches) : Prop where
  store : (ofImage v.cache).StoreWf
  inode : ∀ p x, v.dcache p = some x → ∃ q i, x.iPrivate = some q ∧
    i < (inodesCount v.cache).toNat ∧ q.Same (entryAt v.cache i) ∧ x.iFop = fopOf q.mode

/-- What is in `v` is still in `v'`, up to the sizes. -/
structure Caches.Later (v' v : Caches) : Prop where
  count_le : (inodesCount v.cache).toNat ≤ (inodesCount v'.cache).toNat
  same : ∀ i < (inodesCount v.cache).toNat, (entryAt v'.cache i).Same (entryAt v.cache i)
  dcache : ∀ p x, v.dcache p = some x → ∃ y, v'.dcache p = some y ∧ y.Alike x

section Create

variable {v v' : Caches} {e q : SimplefsInode} {env : Env} {dir : Path} {name : Name}
  {mode : UInt16} {r : Int} {w : World} {tid : Nat}

theorem World.Settled.sound {V : Volume} (h : w.Settled V) : w.caches.Sound := by
  have hcount := h.shows.count
  refine ⟨(h.wf.ofImage h.shows).toStoreWf, fun p x hx => ?_⟩
  obtain ⟨i, hl, rfl⟩ := h.cached p x hx
  refine ⟨V.entry i, i, rfl, ?_, ?_, rfl⟩
  · change i < (inodesCount w.cache).toNat
    rw [← hcount]
    exact hl.lt
  · exact (h.shows.same i hl.lt).symm

theorem Caches.Sound.alike_refl (h : v.Sound) {p : Path} {x : VfsInode} (hx : v.dcache p = some x) :
    x.Alike x := by
  obtain ⟨q, -, hq, -⟩ := h.inode p x hx
  exact ⟨rfl, q, q, hq, hq, .refl q⟩

theorem Caches.Sound.later_refl (h : v.Sound) : v.Later v :=
  ⟨Nat.le_refl _, fun _ _ => .refl _, fun _ x hx => ⟨x, hx, h.alike_refl hx⟩⟩

theorem Caches.Sound.extends_refl (h : v.Sound) : v.Extends v :=
  ⟨Nat.le_refl _, fun _ _ => rfl, fun _ x hx => ⟨x, hx, h.alike_refl hx⟩⟩

/-- One entry more, the inode of which may be in memory. -/
theorem Caches.Sound.grow (h : v.Sound) (a : (ofImage v.cache).alloc.Addable e)
    (hcount : inodesCount v'.cache = inodesCount v.cache + 1)
    (hfree : freeBlocks v'.cache = freeAfter (freeBlocks v.cache))
    (hsame : ∀ i < (inodesCount v.cache).toNat, (entryAt v'.cache i).Same (entryAt v.cache i))
    (hnew : entryAt v'.cache (inodesCount v.cache).toNat = e)
    (hkept : ∀ p x, v.dcache p = some x → ∃ y, v'.dcache p = some y ∧ y.Alike x)
    (hdcache : ∀ p x, v'.dcache p = some x → (∃ y, v.dcache p = some y ∧ x.Alike y) ∨
      x.iPrivate = some e ∧ x.iFop = fopOf e.mode) : v'.Sound ∧ v'.Later v := by
  have hroom : (inodesCount v.cache).toNat < 64 := a.room
  have hsucc : (inodesCount v'.cache).toNat = (inodesCount v.cache).toNat + 1 := by
    rw [hcount]
    exact Volume.toNat_succ rfl (Nat.lt_trans hroom (by decide))
  have halloc : (ofImage v.cache).alloc.StoreWf :=
    h.store.mono rfl (fun _ hb => hb.and _) fun _ _ => .refl _
  refine ⟨⟨(halloc.add a).mono hsucc ?_ ?_, fun p x hx => ?_⟩, ⟨by omega, hsame, hkept⟩⟩
  · intro b hb
    rw [ofImage_free, hfree]
    exact hb
  · intro i hi
    rcases add_cases hi with hlt | heq
    · rw [add_entry_of_lt hlt]
      exact hsame i hlt
    · rw [heq, add_entry_count, ofImage_entry]
      exact hnew ▸ .refl _
  · rcases hdcache p x hx with ⟨y, hy, hxy⟩ | ⟨hxe, hfop⟩
    · obtain ⟨q, i, hq, hi, hqs, hfop⟩ := h.inode p y hy
      obtain ⟨q', q₁, hq', hq₁, hqq⟩ := hxy.iPrivate
      obtain rfl : q = q₁ := Option.some.inj (hq.symm.trans hq₁)
      refine ⟨q', i, hq', by omega, hqq.trans (hqs.trans (hsame i hi).symm), ?_⟩
      rw [hxy.iFop, hfop, hqq.mode]
    · refine ⟨e, (inodesCount v.cache).toNat, hxe, by omega, ?_, hfop⟩
      rw [hnew]
      exact .refl e

/-- The store when the record of a new object has been written. -/
theorem recorded_store (henv : ∀ site, env.interrupted site = false)
    (hq : 2 ≤ q.dataBlockNumber.toNat) :
    inodesCount (w.recorded tid env q mode name).cache = inodesCount w.cache + 1 ∧
      freeBlocks (w.recorded tid env q mode name).cache = freeAfter (freeBlocks w.cache) ∧
      entryAt (w.recorded tid env q mode name).cache (inodesCount w.cache).toNat =
        newEntry w.cache mode ∧
      ∀ i < (inodesCount w.cache).toNat,
        entryAt (w.recorded tid env q mode name).cache i = entryAt w.cache i := by
  unfold World.recorded afterAdd
  rw [if_neg (by simp [henv]), if_neg (by simp [henv]), World.addRecord_cache]
  rw [inodesCount_update hq, freeBlocks_update hq, entryAt_update hq, World.addInode_cache,
    World.allocBlock_cache]
  refine ⟨?_, ?_, ?_, fun i hi => ?_⟩
  · rw [inodesCount_setCount, inodesCount_setFree]
  · rw [freeBlocks_setCount, freeBlocks_setEntry, freeBlocks_setFree]
    rfl
  · rw [entryAt_setCount, inodesCount_setFree, entryAt_setEntry_self]
  · rw [entryAt_update hq, entryAt_setCount, inodesCount_setFree,
      entryAt_setEntry_of_ne (Nat.ne_of_lt hi), entryAt_setFree]

theorem recorded_dcache : (w.recorded tid env q mode name).dcache = w.dcache := by
  unfold World.recorded afterAdd
  split_ifs <;> rfl

/-- An inode of which there is an entry is found at that entry. -/
theorem searchEntry_eq_of_first {img : Image} {i j : Nat}
    (hno : (entryAt img j).inodeNo = q.inodeNo)
    (hinj : ∀ k ≤ j, (entryAt img k).inodeNo = (entryAt img j).inodeNo → k = j)
    (hfound : searchEntry img q.inodeNo = some i) : i = j := by
  unfold searchEntry at hfound
  obtain ⟨hi, -, hfirst⟩ := List.find?_range'_eq_some.mp hfound
  have hle : i ≤ j := by
    by_contra hlt
    have := hfirst j (Nat.zero_le _) (by omega)
    simp [hno] at this
  refine hinj i hle ?_
  rw [hno]
  simpa using hi

theorem Caches.Sound.setFileSize_of_dcache (h : v.Sound) (s : UInt64) {p : Path} {y : VfsInode}
    (hy : v.dcache p = some y) : ∃ z, (v.setFileSize dir s).dcache p = some z ∧ z.Alike y := by
  obtain ⟨e, -, he, -⟩ := h.inode p y hy
  exact v.setFileSize_alike hy he

/-- No dentry appears when a size is set. -/
theorem Caches.Sound.dcache_of_setFileSize (h : v.Sound) {s : UInt64} {p : Path} {z : VfsInode}
    (hz : (v.setFileSize dir s).dcache p = some z) : ∃ y, v.dcache p = some y ∧ z.Alike y := by
  cases hy : v.dcache p with
  | some y =>
      obtain ⟨z', hz', hzy⟩ := h.setFileSize_of_dcache s hy
      obtain rfl := Option.some.inj (hz.symm.trans hz')
      exact ⟨y, rfl, hzy⟩
  | none =>
      rw [Caches.setFileSize_dcache] at hz
      by_cases hp : p = dir
      · subst hp
        rw [Function.update_self, hy] at hz
        cases hz
      · rw [Function.update_of_ne hp, hy] at hz
        cases hz

/-- A create that is alone leaves caches behind that are sound again. -/
theorem Caches.Sound.create (h : v.Sound) {x : VfsInode} (hx : v.dcache dir = some x)
    (hn : ValidName name) (hnone : v.dcache (name :: dir) = none)
    (henv : ∀ site, env.interrupted site = false)
    (hrun : (simplefsCreateFsObject dir name mode).run (solo env) v = .done r v') :
    v'.Sound ∧ v'.Later v := by
  obtain ⟨q, j, hq, hj, hqs, -⟩ := h.inode dir x hx
  have hinode : v.alone.simplefsInode dir = some q := by
    unfold World.simplefsInode
    rw [show v.alone.dcache dir = some x from hx]
    exact hq
  have hq2 : 2 ≤ q.dataBlockNumber.toNat := by
    rw [hqs.dataBlockNumber]
    exact h.store.block_ge j hj
  have howned : v.alone.OwnedBy 0 (.working []) :=
    ⟨.nil, fun m => by simp [Caches.alone, LockState.held], fun m t ht => by cases ht⟩
  obtain ⟨w', hrun', rfl, -⟩ := run_of_solo (orderly_simplefsCreateFsObject dir name mode)
    (fun site _ => henv site) howned hrun
  have hstore := @recorded_store q env name mode v.alone 0 henv hq2
  have hdcache : ((v.alone.recorded 0 env q mode name).setFileSize dir (q.fileSize + 1)).dcache =
      (v.setFileSize dir (q.fileSize + 1)).dcache := by
    rw [World.setFileSize_dcache, recorded_dcache]
    rfl
  generalize hR : v.alone.recorded 0 env q mode name = R at hstore hdcache
  obtain ⟨hcount, hfree, hnew, hold⟩ := hstore
  cases create_cases hn hinode hq2 hrun' with
  | refused => exact ⟨h, h.later_refl⟩
  | released site => exact absurd (site.symm.trans (henv _)) (by decide)
  | uncounted _ _ site => exact absurd (site.symm.trans (henv _)) (by decide)
  | unsaved _ alloc =>
      have a := h.store.addable rfl rfl alloc.count alloc.kind alloc.freeblock
      rw [hR]
      refine h.grow a hcount hfree (fun i hi => hold i hi ▸ .refl _) hnew (fun p y hy => ?_)
        fun p z hz => .inl (h.dcache_of_setFileSize ((congrFun hdcache p).symm.trans hz))
      obtain ⟨z, hz, hzy⟩ := h.setFileSize_of_dcache (q.fileSize + 1) hy
      exact ⟨z, (congrFun hdcache p).trans hz, hzy⟩
  | @created i alloc _ _ _ _ found =>
      have a := h.store.addable rfl rfl alloc.count alloc.kind alloc.freeblock
      rw [hR] at found ⊢
      obtain rfl : i = j := by
        refine searchEntry_eq_of_first ?_ ?_ found
        · rw [hold j hj, hqs.inodeNo]
          rfl
        · intro k hk hno
          rw [hold j hj, hold k (Nat.lt_of_le_of_lt hk hj)] at hno
          exact h.store.ino_inj k (Nat.lt_of_le_of_lt hk hj) j hj hno
      refine h.grow a (inodesCount_setEntry.trans hcount) (freeBlocks_setEntry.trans hfree)
        (fun k hk => ?_) ?_ (fun p y hy => ?_) fun p z hz => ?_
      · change (entryAt (setEntry R.cache i _) k).Same _
        by_cases hki : k = i
        · rw [hki, entryAt_setEntry_self]
          exact ⟨hqs.mode, hqs.inodeNo, hqs.dataBlockNumber⟩
        · rw [entryAt_setEntry_of_ne hki, hold k hk]
          exact .refl _
      · exact (entryAt_setEntry_of_ne (Nat.ne_of_gt hj)).trans hnew
      · obtain ⟨z, hz, hzy⟩ := h.setFileSize_of_dcache (q.fileSize + 1) hy
        refine ⟨z, ?_, hzy⟩
        change Function.update _ _ _ p = _
        rw [Function.update_of_ne (fun hp => by simp [hp, hnone] at hy)]
        exact (congrFun hdcache p).trans hz
      · change Function.update _ _ _ p = _ at hz
        by_cases hp : p = name :: dir
        · rw [hp, Function.update_self] at hz
          obtain rfl := Option.some.inj hz
          exact .inr ⟨rfl, rfl⟩
        · rw [Function.update_of_ne hp] at hz
          exact .inl (h.dcache_of_setFileSize ((congrFun hdcache p).symm.trans hz))

end Create

/-- The dentry `p` has an inode with the operations `fop`. -/
def Caches.Has (m : Caches) (p : Path) (fop : FileOps) : Prop :=
  ∃ x, m.dcache p = some x ∧ x.iFop = some fop

/-- The directory `dir` has the inode `q` in memory, which is that of entry `j`. -/
structure Caches.DirAt (v : Caches) (dir : Path) (q : SimplefsInode) (j : Nat) : Prop where
  inode : v.simplefsInode dir = some q
  lt : j < (inodesCount v.cache).toNat
  same : q.Same (entryAt v.cache j)
  kind : sIsdir q.mode = true

/-- The file is in memory, and in the store. -/
structure Caches.FileAt (v : Caches) (f : FileRef) : Prop where
  dentry : ∃ x q, v.dcache f.path = some x ∧ x.iFop = some .file ∧ x.iPrivate = some q ∧
    q.Same f.inode
  lt : f.index < (inodesCount v.cache).toNat
  same : f.inode.Same (entryAt v.cache f.index)
  kind : sIsdir f.inode.mode = false

/-- The block of an entry that is not a directory. -/
def Caches.FileBlock (v : Caches) (b : Nat) : Prop :=
  ∃ i < (inodesCount v.cache).toNat, sIsdir (entryAt v.cache i).mode = false ∧
    (entryAt v.cache i).dataBlockNumber.toNat = b

section Kinds

variable {v v' : Caches} {dir file : Path} {q : SimplefsInode} {f : FileRef} {b i j : Nat}

theorem Caches.Sound.dirAt (h : v.Sound) (hd : v.Has dir .dir) : ∃ q j, v.DirAt dir q j := by
  obtain ⟨x, hx, hfop⟩ := hd
  obtain ⟨q, j, hq, hj, hqs, hxq⟩ := h.inode dir x hx
  refine ⟨q, j, Caches.simplefsInode_eq_some.mpr ⟨x, hx, hq⟩, hj, hqs, ?_⟩
  exact fopOf_eq_dir.mp (hxq.symm.trans hfop)

theorem Caches.Sound.fileAt (h : v.Sound) (hf : v.Has file .file) :
    ∃ f : FileRef, f.path = file ∧ v.FileAt f := by
  obtain ⟨x, hx, hfop⟩ := hf
  obtain ⟨q, i, hq, hi, hqs, hxq⟩ := h.inode file x hx
  refine ⟨⟨file, i, q⟩, rfl, ⟨x, q, hx, hfop, hq, .refl q⟩, hi, hqs, ?_⟩
  exact (fopOf_eq_file.mp (hxq.symm.trans hfop)).1

theorem Caches.FileAt.dcache_ne_none (h : v.FileAt f) : v.dcache f.path ≠ none := by
  obtain ⟨x, -, hx, -⟩ := h.dentry
  rw [hx]
  exact Option.some_ne_none x

theorem Caches.FileAt.later (h : v.FileAt f) (hl : v'.Later v) : v'.FileAt f := by
  obtain ⟨x, q, hx, hfop, hq, hqs⟩ := h.dentry
  obtain ⟨y, hy, hyx⟩ := hl.dcache _ x hx
  obtain ⟨q', q₁, hq', hq₁, hqq⟩ := hyx.iPrivate
  obtain rfl : q = q₁ := Option.some.inj (hq.symm.trans hq₁)
  refine ⟨⟨y, q', hy, hyx.iFop.trans hfop, hq', hqq.trans hqs⟩, ?_, ?_, h.kind⟩
  · exact Nat.lt_of_lt_of_le h.lt hl.count_le
  · exact h.same.trans (hl.same _ h.lt).symm

theorem Caches.FileBlock.later (h : v.FileBlock b) (hl : v'.Later v) : v'.FileBlock b := by
  obtain ⟨i, hi, hmode, rfl⟩ := h
  have hsame := hl.same i hi
  refine ⟨i, Nat.lt_of_lt_of_le hi hl.count_le, ?_, ?_⟩
  · rw [hsame.mode]
    exact hmode
  · rw [hsame.dataBlockNumber]

theorem Caches.FileAt.fileBlock (h : v.FileAt f) : v.FileBlock f.block :=
  ⟨f.index, h.lt, by rw [← h.same.mode]; exact h.kind, by rw [← h.same.dataBlockNumber]; rfl⟩

theorem Caches.Sound.two_le_of_fileBlock (h : v.Sound) (hb : v.FileBlock b) : 2 ≤ b := by
  obtain ⟨i, hi, -, rfl⟩ := hb
  exact h.store.block_ge i hi

/-- The block of a directory belongs to no file. -/
theorem Caches.Sound.not_fileBlock (h : v.Sound) (hj : j < (inodesCount v.cache).toNat)
    (hkind : sIsdir (entryAt v.cache j).mode = true) :
    ¬ v.FileBlock (entryAt v.cache j).dataBlockNumber.toNat := by
  rintro ⟨i, hi, hmode, hblock⟩
  obtain rfl : i = j := h.store.block_inj i hi j hj (UInt64.toNat_inj.mp hblock)
  exact absurd (hkind.symm.trans hmode) (by decide)

end Kinds

/-- An entry and the index under which it is stored. -/
abbrev EntryLog := List (Nat × SimplefsInode)

/-- The stores of the entries of a log. -/
def EntryLog.stores (log : EntryLog) : List (Nat × List UInt8) :=
  log.map fun x => (32 * x.1, x.2.encode)

section Log

variable {b : Buffer} {log : EntryLog} {i : Nat}

/-- An entry is the old one, or one of the log. -/
theorem inodeAt_overlay (b : Buffer) (log : EntryLog) (i : Nat) :
    inodeAt (b.overlay log.stores) i = inodeAt b i ∨
      ∃ x ∈ log, x.1 = i ∧ inodeAt (b.overlay log.stores) i = x.2 := by
  induction log generalizing b with
  | nil => exact .inl rfl
  | cons x log ih =>
      change inodeAt ((b.splice (32 * x.1) x.2.encode).overlay (EntryLog.stores log)) i = _ ∨
        ∃ y ∈ x :: log, y.1 = i ∧
          inodeAt ((b.splice (32 * x.1) x.2.encode).overlay (EntryLog.stores log)) i = y.2
      rcases ih (b.splice (32 * x.1) x.2.encode) with hold | ⟨y, hy, hyi, hnew⟩
      · rw [hold]
        by_cases hxi : i = x.1
        · subst hxi
          exact .inr ⟨x, List.mem_cons_self, rfl, inodeAt_splice_self x.2⟩
        · exact .inl (inodeAt_splice_of_ne x.2 hxi)
      · exact .inr ⟨y, List.mem_cons_of_mem _ hy, hyi, hnew⟩

/-- A store to an entry that is not in the log could have come first. -/
theorem splice_stores (hlog : ∀ x ∈ log, x.1 ≠ i) (e : SimplefsInode) :
    (b.overlay log.stores).splice (32 * i) e.encode =
      (b.splice (32 * i) e.encode).overlay log.stores := by
  apply Buffer.splice_overlay
  intro s hs
  obtain ⟨x, hx, rfl⟩ := List.mem_map.mp hs
  have hne := hlog x hx
  simp only [SimplefsInode.length_encode]
  omega

end Log

/-- The caches `m` of a concurrent run beside the caches `u` of a create that is
alone and has started with `v`. They differ by the entries that writes have
stored, by the blocks of files, and by the sizes of the files in memory. A dentry
that is to be added last may still be missing. -/
structure Caches.Mirrors (m v u : Caches) (log : EntryLog) : Prop where
  super : m.cache 0 = u.cache 0
  store : m.cache 1 = (u.cache 1).overlay log.stores
  logged : ∀ x ∈ log, x.1 < (inodesCount v.cache).toNat ∧ x.2.Same (entryAt v.cache x.1) ∧
    sIsdir x.2.mode = false
  block : ∀ b, 2 ≤ b → m.cache b = u.cache b ∨ v.FileBlock b
  dcache : ∀ p y, m.dcache p = some y → ∃ x, u.dcache p = some x ∧ y.Alike x ∧
    (x.iFop = some .dir → y = x)

namespace Caches.Mirrors

variable {m m' v v' u : Caches} {log : EntryLog} {dir p : Path} {q e : SimplefsInode} {i j b off : Nat}
  {bytes : List UInt8} {f : FileRef} {env : Env} {name : Name} {o : Op} {r : o.Res}

theorem refl (h : v.Sound) : v.Mirrors v v [] where
  super := rfl
  store := rfl
  logged := by simp
  block := fun _ _ => .inl rfl
  dcache := fun _ y hy => ⟨y, hy, h.alike_refl hy, fun _ => rfl⟩

theorem inodesCount_eq (h : m.Mirrors v u log) : inodesCount m.cache = inodesCount u.cache := by
  unfold inodesCount
  rw [h.super]

/-- The numbers of the entries are the same. -/
theorem inodeNo_eq (h : m.Mirrors v u log) (hu : u.Extends v) (i : Nat) :
    (entryAt m.cache i).inodeNo = (entryAt u.cache i).inodeNo := by
  unfold entryAt
  rw [h.store]
  rcases inodeAt_overlay (u.cache 1) log i with hold | ⟨x, hx, rfl, hnew⟩
  · rw [hold]
  · obtain ⟨hlt, hsame, -⟩ := h.logged x hx
    rw [hnew, hsame.inodeNo]
    exact (hu.number _ hlt).symm

theorem has (h : m.Mirrors v u log) {fop : FileOps} (hp : m.Has p fop) : u.Has p fop := by
  obtain ⟨y, hy, hfop⟩ := hp
  obtain ⟨x, hx, hyx, -⟩ := h.dcache p y hy
  exact ⟨x, hx, hyx.iFop.symm.trans hfop⟩

/-- The inode of a directory is the same. -/
theorem dcache_dir (h : m.Mirrors v u log) (hdir : m.Has dir .dir) :
    m.dcache dir = u.dcache dir := by
  obtain ⟨y, hy, hfop⟩ := hdir
  obtain ⟨x, hx, hyx, heq⟩ := h.dcache dir y hy
  rw [hy, hx, heq (hyx.iFop.symm.trans hfop)]

section Create

theorem poke_super (h : m.Mirrors v u log) (off : Nat) (bytes : List UInt8) :
    (m.poke 0 off bytes).Mirrors v (u.poke 0 off bytes) log := by
  refine ⟨?_, ?_, h.logged, fun b hb => ?_, h.dcache⟩
  · rw [Caches.poke_cache, Caches.poke_cache, Function.update_self, Function.update_self, h.super]
  · rw [Caches.poke_cache, Caches.poke_cache, Function.update_of_ne (by decide),
      Function.update_of_ne (by decide)]
    exact h.store
  · rw [Caches.poke_cache, Caches.poke_cache, Function.update_of_ne (by omega),
      Function.update_of_ne (by omega)]
    exact h.block b hb

/-- An entry that no write has stored. -/
theorem poke_entry (h : m.Mirrors v u log) (hi : ∀ x ∈ log, x.1 ≠ i) (e : SimplefsInode) :
    (m.poke 1 (32 * i) e.encode).Mirrors v (u.poke 1 (32 * i) e.encode) log := by
  refine ⟨?_, ?_, h.logged, fun b hb => ?_, h.dcache⟩
  · rw [Caches.poke_cache, Caches.poke_cache, Function.update_of_ne (by decide),
      Function.update_of_ne (by decide)]
    exact h.super
  · rw [Caches.poke_cache, Caches.poke_cache, Function.update_self, Function.update_self, h.store]
    exact splice_stores hi e
  · rw [Caches.poke_cache, Caches.poke_cache, Function.update_of_ne (by omega),
      Function.update_of_ne (by omega)]
    exact h.block b hb

theorem poke_record (h : m.Mirrors v u log) (hb : 2 ≤ b) (hnot : ¬ v.FileBlock b) (off : Nat)
    (bytes : List UInt8) : (m.poke b off bytes).Mirrors v (u.poke b off bytes) log := by
  refine ⟨?_, ?_, h.logged, fun b' hb' => ?_, h.dcache⟩
  · rw [Caches.poke_cache, Caches.poke_cache, Function.update_of_ne (by omega),
      Function.update_of_ne (by omega)]
    exact h.super
  · rw [Caches.poke_cache, Caches.poke_cache, Function.update_of_ne (by omega),
      Function.update_of_ne (by omega)]
    exact h.store
  · rw [Caches.poke_cache, Caches.poke_cache]
    by_cases hbb : b' = b
    · subst hbb
      rw [Function.update_self, Function.update_self, (h.block b' hb).resolve_right hnot]
      exact .inl rfl
    · rw [Function.update_of_ne hbb, Function.update_of_ne hbb]
      exact h.block b' hb'

theorem resize_dir (h : m.Mirrors v u log) (hdir : m.Has dir .dir)
    (hu : ∃ p, u.simplefsInode dir = some p) (s : UInt64) :
    (m.setFileSize dir s).Mirrors v (u.setFileSize dir s) log := by
  refine ⟨h.super, h.store, h.logged, h.block, fun p y hy => ?_⟩
  by_cases hp : p = dir
  · subst hp
    obtain ⟨q, hq⟩ := hu
    obtain ⟨x, hx, hxq⟩ := Caches.simplefsInode_eq_some.mp hq
    have hmx := (h.dcache_dir hdir).trans hx
    rw [m.setFileSize_dcache_self hmx hxq] at hy
    obtain rfl := Option.some.inj hy
    exact ⟨_, u.setFileSize_dcache_self hx hxq, ⟨rfl, _, _, rfl, rfl, .refl _⟩, fun _ => rfl⟩
  · rw [m.setFileSize_dcache_of_ne hp] at hy
    rw [u.setFileSize_dcache_of_ne hp]
    exact h.dcache p y hy

theorem solo_store_at {b off : Nat} {bytes : List UInt8} {r : Unit}
    (hx : solo env (.store b off bytes) m = .done r m') (n : Caches) :
    solo env (.store b off bytes) n = .done r (n.poke b off bytes) := by
  rw [solo_store] at hx ⊢
  split_ifs at hx ⊢
  rfl

/-- An action of a create does to the caches what it does where it is alone. -/
theorem create (h : m.Mirrors v u log) (hv : v.Sound) (hu : Amid v dir q u) (hd : v.DirAt dir q j)
    (hdir : m.Has dir .dir) (ho : CreateOp v dir name q u o) (hadd : ∀ p x, o ≠ .dAdd p x)
    (hx : solo env o m = .done r m') : ∃ u', solo env o u = .done r u' ∧ m'.Mirrors v u' log := by
  have hnot : ¬ v.FileBlock q.dataBlockNumber.toNat := by
    rw [hd.same.dataBlockNumber]
    exact hv.not_fileBlock hd.lt (by rw [← hd.same.mode]; exact hd.kind)
  have hge : 2 ≤ q.dataBlockNumber.toNat := by
    rw [hd.same.dataBlockNumber]
    exact hv.store.block_ge j hd.lt
  cases ho with
  | blind ho =>
      obtain ⟨rfl, hall⟩ := solo_blind ho hx
      exact ⟨u, hall u, h⟩
  | super off len =>
      rw [solo_load] at hx ⊢
      split_ifs at hx ⊢
      cases hx
      exact ⟨u, by rw [h.super], h⟩
  | number i =>
      have hword : (m.cache 1).get64 (32 * i + 8) = (u.cache 1).get64 (32 * i + 8) := by
        rw [← inodeNo_inodeAt, ← inodeNo_inodeAt]
        exact h.inodeNo_eq hu.extends_ i
      rw [solo_load] at hx ⊢
      split_ifs at hx ⊢
      cases hx
      exact ⟨u, by rw [Buffer.bytesAt_eq_of_get64 hword], h⟩
  | free f =>
      have hall := solo_store_at hx
      obtain rfl := solo_store_eq hx
      exact ⟨_, hall u, h.poke_super _ _⟩
  | count c hc =>
      have hall := solo_store_at hx
      obtain rfl := solo_store_eq hx
      exact ⟨_, hall u, h.poke_super _ _⟩
  | append i e hi =>
      have hall := solo_store_at hx
      obtain rfl := solo_store_eq hx
      refine ⟨_, hall u, h.poke_entry (fun x hxlog hxi => ?_) e⟩
      obtain ⟨hlt, -⟩ := h.logged x hxlog
      omega
  | save i e hi he =>
      have hall := solo_store_at hx
      obtain rfl := solo_store_eq hx
      refine ⟨_, hall u, h.poke_entry (fun x hxlog hxi => ?_) e⟩
      -- the parent has the number of no file
      obtain ⟨hlt, hsame, hkind⟩ := h.logged x hxlog
      subst hxi
      rw [hu.extends_.number _ hlt, hd.same.inodeNo] at hi
      obtain rfl := hv.store.ino_inj _ hlt j hd.lt hi
      rw [hsame.mode, ← hd.same.mode, hd.kind] at hkind
      cases hkind
  | record off bytes =>
      have hall := solo_store_at hx
      obtain rfl := solo_store_eq hx
      exact ⟨_, hall u, h.poke_record hge hnot off bytes⟩
  | inode =>
      obtain ⟨hq, rfl⟩ := simplefsInode_of_solo hx
      refine ⟨u, ?_, h⟩
      have hsame : u.simplefsInode dir = some r := by
        unfold Caches.simplefsInode at hq ⊢
        rwa [← h.dcache_dir hdir]
      rw [solo_simplefsInode, hsame]
  | resize s =>
      cases hx
      obtain ⟨p, hp, -⟩ := hu.inode
      exact ⟨_, rfl, h.resize_dir hdir ⟨p, hp⟩ s⟩
  | dAdd x => exact absurd rfl (hadd _ x)

end Create

section Write

theorem has_file (h : m.Mirrors v u log) (hu : u.Extends v) (hf : v.FileAt f)
    (hm : m.dcache f.path ≠ none) : m.Has f.path .file := by
  obtain ⟨y, hy⟩ := Option.ne_none_iff_exists'.mp hm
  obtain ⟨x, hx, hyx, -⟩ := h.dcache _ y hy
  obtain ⟨z, -, hz, hfop, -, -⟩ := hf.dentry
  obtain ⟨x', hx', hxz⟩ := hu.dcache _ z hz
  obtain rfl := Option.some.inj (hx.symm.trans hx')
  exact ⟨y, hy, (hyx.iFop.trans hxz.iFop).trans hfop⟩

/-- A write knows its file. -/
theorem knows (h : m.Mirrors v u log) (hv : v.Sound) (hu : u.Extends v) (hf : v.FileAt f)
    (hm : m.dcache f.path ≠ none) : m.Knows f := by
  constructor
  case inode =>
    obtain ⟨y, hy⟩ := Option.ne_none_iff_exists'.mp hm
    obtain ⟨x, hx, hyx, -⟩ := h.dcache _ y hy
    obtain ⟨z, q, hz, -, hq, hqs⟩ := hf.dentry
    obtain ⟨x', hx', hxz⟩ := hu.dcache _ z hz
    obtain rfl := Option.some.inj (hx.symm.trans hx')
    obtain ⟨e, q', he, hq', heq⟩ := (hyx.trans hxz).iPrivate
    obtain rfl := Option.some.inj (hq.symm.trans hq')
    exact ⟨e, Caches.simplefsInode_eq_some.mpr ⟨y, hy, he⟩, heq.trans hqs⟩
  case index_lt =>
    rw [h.inodesCount_eq]
    exact Nat.lt_of_lt_of_le hf.lt hu.count_le
  case number =>
    intro i hi
    have hlt := Nat.lt_of_le_of_lt hi hf.lt
    rw [h.inodeNo_eq hu, hu.number i hlt, hf.same.inodeNo]
    refine ⟨hv.store.ino_inj i hlt f.index hf.lt, ?_⟩
    rintro rfl
    rfl

theorem copy (h : m.Mirrors v u log) (hb : v.FileBlock b) (hge : 2 ≤ b) (off : Nat)
    (bytes : List UInt8) : (m.poke b off bytes).Mirrors v u log := by
  refine ⟨?_, ?_, h.logged, fun b' hb' => ?_, h.dcache⟩
  · rw [Caches.poke_cache, Function.update_of_ne (by omega)]
    exact h.super
  · rw [Caches.poke_cache, Function.update_of_ne (by omega)]
    exact h.store
  · by_cases hbb : b' = b
    · exact .inr (hbb ▸ hb)
    · rw [Caches.poke_cache, Function.update_of_ne hbb]
      exact h.block b' hb'

theorem resize_file (h : m.Mirrors v u log) (hf : m.Has p .file) (s : UInt64) :
    (m.setFileSize p s).Mirrors v u log := by
  refine ⟨h.super, h.store, h.logged, h.block, fun p' y hy => ?_⟩
  by_cases hp : p' = p
  · subst hp
    obtain ⟨z, hz, hfop⟩ := hf
    obtain ⟨x, hx, hzx, -⟩ := h.dcache p' z hz
    obtain ⟨q, -, hq, -⟩ := hzx.iPrivate
    obtain ⟨y', hy', hyz⟩ := m.setFileSize_alike (p := p') (s := s) hz hq
    obtain rfl := Option.some.inj (hy.symm.trans hy')
    refine ⟨x, hx, hyz.trans hzx, fun hdir => ?_⟩
    rw [← hzx.iFop, hfop] at hdir
    cases hdir
  · rw [m.setFileSize_dcache_of_ne hp] at hy
    exact h.dcache p' y hy

theorem save (h : m.Mirrors v u log) (hi : i < (inodesCount v.cache).toNat)
    (he : e.Same (entryAt v.cache i)) (hkind : sIsdir e.mode = false) :
    (m.poke 1 (32 * i) e.encode).Mirrors v u (log ++ [(i, e)]) := by
  refine ⟨?_, ?_, fun x hx => ?_, fun b hb => ?_, h.dcache⟩
  · rw [Caches.poke_cache, Function.update_of_ne (by decide)]
    exact h.super
  · rw [Caches.poke_cache, Function.update_self, h.store, EntryLog.stores, EntryLog.stores,
      List.map_append, Buffer.overlay_append]
    rfl
  · rcases List.mem_append.mp hx with hx | hx
    · exact h.logged x hx
    · obtain rfl := List.mem_singleton.mp hx
      exact ⟨hi, he, hkind⟩
  · rw [Caches.poke_cache, Function.update_of_ne (by omega)]
    exact h.block b hb

end Write

section Commit

/-- The create has ended, and its dentry is there, or is to be added. -/
theorem commit (h : m.Mirrors v u log) (hl : v'.Later v) (hcache : v'.cache = u.cache)
    (hdcache : ∀ p x, u.dcache p = some x → v'.dcache p = some x) : m.Mirrors v' v' log := by
  constructor
  case super => rw [hcache, h.super]
  case store => rw [hcache, h.store]
  case logged =>
    intro x hx
    obtain ⟨hlt, hsame, hkind⟩ := h.logged x hx
    exact ⟨Nat.lt_of_lt_of_le hlt hl.count_le, hsame.trans (hl.same _ hlt).symm, hkind⟩
  case block =>
    intro b hb
    rw [hcache]
    exact (h.block b hb).imp_right fun hf => hf.later hl
  case dcache =>
    intro p y hy
    obtain ⟨x, hx, hyx⟩ := h.dcache p y hy
    exact ⟨x, hdcache p x hx, hyx⟩

theorem dAdd (h : m.Mirrors v u log) {x : VfsInode} (hx : u.dcache p = some x)
    (hq : x.iPrivate = some q) : (m.dAdd p x).Mirrors v u log := by
  refine ⟨h.super, h.store, h.logged, h.block, fun p' y hy => ?_⟩
  by_cases hp : p' = p
  · subst hp
    rw [Caches.dAdd_dcache, Function.update_self] at hy
    obtain rfl := Option.some.inj hy
    exact ⟨_, hx, ⟨rfl, q, q, hq, hq, .refl q⟩, fun _ => rfl⟩
  · rw [m.dAdd_dcache_of_ne hp] at hy
    exact h.dcache p' y hy

end Commit

end Caches.Mirrors

end LinuxDevelopment.Simplefs
