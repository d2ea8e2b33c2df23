import LinuxDevelopment.Simplefs.Format
import LinuxDevelopment.Simplefs.Persistence

/-!
# simplefs: crash consistency

The machine of this module performs the actions of the calls one by one, and
writes dirty blocks back whenever it likes. Wherever it stops, the blocks on
the device are consistent: until the entry of the directory is saved, all of
them are versions that the volume before the call allows; from then on the
superblock and the directory block are final, and the store is the old or the
new one.
-/

namespace LinuxDevelopment.Simplefs

open Volume

/-- The inode that a call fills in, should it make an object. -/
def Call.fill (c : Call) (w : World) : Option Fill :=
  match c.makes with
  | some (dir, name, mode) =>
      (w.simplefsInode dir).map fun d => ⟨d.inodeNo, name, newEntry w.cache mode⟩
  | none => none

/-- A call in progress: what is left to do, and the inode it fills in. -/
structure Task where
  tid : Nat
  env : Env
  call : Call
  rest : Code Reply
  fill : Option Fill

/-- The state of the file system, the call in progress and the names made so far. -/
structure Machine where
  world : World
  task : Option Task
  fills : List Fill

/-- The names made so far and the one in progress. -/
def Machine.allFills (m : Machine) : List Fill := m.fills ++ (m.task.bind Task.fill).toList

/-- One step of the machine. -/
inductive Machine.Step : Machine → Machine → Prop
  | start {w : World} {fills : List Fill} (tid : Nat) {env : Env} {c : Call} (calm : env.Calm)
      (allowed : c.Allowed w) (code : c ≠ .unmount) :
      Step ⟨w, none, fills⟩ ⟨w, some ⟨tid, env, c, c.code, c.fill w⟩, fills⟩
  | unmount {w : World} {fills : List Fill} (allowed : Call.unmount.Allowed w) :
      Step ⟨w, none, fills⟩ ⟨w.unmount, none, fills⟩
  | act {w w' : World} {fills : List Fill} {t : Task} {o : Op} {k : o.Res → Code Reply} {r : o.Res}
      (next : t.rest = .call o k) (done : exec t.tid t.env o w = .done r w') :
      Step ⟨w, some t, fills⟩ ⟨w', some { t with rest := k r }, fills⟩
  /-- a dirty buffer is written back on its own -/
  | writeback {w : World} {t : Option Task} {fills : List Fill} (b : Nat) :
      Step ⟨w, t, fills⟩ ⟨w.syncDirtyBuffer b, t, fills⟩
  | finish {w : World} {fills : List Fill} {t : Task} {reply : Reply}
      (rest : t.rest = .ret reply) :
      Step ⟨w, some t, fills⟩
        ⟨w, none, fills ++ if reply = .ret 0 then t.fill.toList else []⟩

/-- `mkfs-simplefs` has made one name. -/
def mkfsFills : List Fill := [⟨simplefsRootdirInodeNumber, vanakkam, welcome⟩]

/-- The machines that a fresh device can become. -/
inductive Machine.Reachable (dev : Image) : Machine → Prop
  | init : Reachable dev ⟨World.ofImage (mkfs dev), none, mkfsFills⟩
  | step {m m' : Machine} (init : Reachable dev m) (step : m.Step m') : Reachable dev m'

/-- The block writes up to the record of a new object. -/
def recordedOps (img : Image) (q e : SimplefsInode) (name : Name) : List (DiskOp Buffer) :=
  allocOps img ++ addOps img e ++
    recordOps q.dataBlockNumber.toNat q.dirChildrenCount e.inodeNo name

/-- The sequences of block writes of a calm call. -/
inductive WriteOrder (tid : Nat) (env : Env) (w : World) (v : Volume) :
    Call → List (DiskOp Buffer) → Prop
  | silent {c : Call} : WriteOrder tid env w v c []
  /-- no room for the record: the call leaves the block it works on -/
  | added {c : Call} {dir : Path} {name : Name} {mode : UInt16}
      (makes : c.makes = some (dir, name, mode))
      (stuck : ∀ reply w', c.code.run (exec tid env) w ≠ .done reply w') :
      WriteOrder tid env w v c (allocOps w.cache ++ addOps w.cache (newEntry w.cache mode))
  | created {c : Call} {dir : Path} {name : Name} {mode : UInt16} {i : Nat}
      (makes : c.makes = some (dir, name, mode)) (leads : v.Leads dir i)
      (cached : w.dcache dir = some (v.inode i))
      (cond : v.alloc.Creatable i (newEntry w.cache mode) name) :
      WriteOrder tid env w v c (recordedOps w.cache (v.entry i) (newEntry w.cache mode) name ++
        saveOps i { v.entry i with fileSize := (v.entry i).fileSize + 1 })
  | fault {c : Call} {j : Nat} {f : Buffer → Buffer} (lt : j < v.count)
      (isreg : sIsreg (v.entry j).mode = true) :
      WriteOrder tid env w v c [.edit (v.entry j).dataBlockNumber.toNat f]
  | wrote {c : Call} {j pos : Nat} {bytes : List UInt8} {s : UInt64} (lt : j < v.count)
      (isreg : sIsreg (v.entry j).mode = true) :
      WriteOrder tid env w v c (dataOps (v.entry j).dataBlockNumber.toNat pos bytes ++
        saveOps j { v.entry j with fileSize := s })

section Order

variable {tid : Nat} {env : Env} {w : World} {v : Volume} {c : Call}

theorem World.Settled.writeOrder_makes (h : w.Settled v) (hc : env.Calm) {dir : Path}
    {name : Name} {mode : UInt16} (hm : c.makes = some (dir, name, mode))
    (hcode : c.code = simplefsCreateFsObject dir name mode >>= fun r => pure (.ret r))
    (hd : w.Has dir .dir) (hn : ValidName name) (ha : w.Absent dir name) :
    WriteOrder tid env w v c (diskOps tid env c.code w) := by
  have hops : diskOps tid env c.code w =
      diskOps tid env (simplefsCreateFsObject dir name mode) w := by
    rw [hcode]
    exact diskOps_map _ _
  rw [hops]
  have hcases : diskOps tid env (simplefsCreateFsObject dir name mode) w = [] ∨ _ :=
    h.diskOps_create hc hd hn ha
  rcases hcases with hnil | ⟨i, hl, hdc, -, -, ⟨⟨t, u, hstuck⟩, hadd⟩ | ⟨cond, hall⟩⟩
  · rw [hnil]
    exact .silent
  · rw [hadd]
    refine .added hm ?_
    intro reply w' hrun
    rw [hcode, Prog.run_bind, hstuck] at hrun
    cases hrun
  · rw [hall]
    exact .created hm hl hdc cond

/-- The block writes of every calm call. -/
theorem World.Settled.writeOrder (h : w.Settled v) (hc : env.Calm) (ha : c.Allowed w) :
    WriteOrder tid env w v c (diskOps tid env c.code w) := by
  have hsilent : Silent env c.code → WriteOrder tid env w v c (diskOps tid env c.code w) := by
    intro hs
    rw [hs.diskOps]
    exact .silent
  cases c with
  | mount => exact hsilent (.bind silent_simplefsFillSuper fun _ => trivial)
  | unmount => exact hsilent trivial
  | lookup dir name => exact hsilent (.bind (silent_simplefsLookup _ _) fun _ => trivial)
  | iterate dir pos => exact hsilent (reads_iterate dir pos).silent
  | read file len pos => exact hsilent (reads_read file len pos).silent
  | create dir name mode => exact h.writeOrder_makes hc rfl rfl ha.1 ha.2.1 ha.2.2
  | mkdir dir name mode => exact h.writeOrder_makes hc rfl rfl ha.1 ha.2.1 ha.2.2
  | write file buf pos =>
      have hops : diskOps tid env (Call.write file buf pos).code w =
          diskOps tid env (simplefsWrite file buf pos) w := diskOps_map _ _
      rw [hops]
      have hcases : diskOps tid env (simplefsWrite file buf pos) w = [] ∨ _ :=
        h.diskOps_write hc ha
      rcases hcases with hnil | ⟨j, hl, hr, hfault | hall⟩
      · rw [hnil]
        exact .silent
      · rw [hfault]
        exact .fault hl.lt hr
      · rw [hall]
        exact .wrote hl.lt hr

end Order

section Consistent

variable {tid : Nat} {env : Env} {w : World} {v : Volume} {c : Call} {fills : List Fill}
  {ops es : List (DiskOp Buffer)} {d : Disk Buffer}

/-- Between two calls the volume allows every block, in memory and on the device. -/
theorem World.Settled.within (h : w.Settled v) : w.disk.Within v.Allows v.Allows := by
  intro b
  refine ⟨h.shows.allows h.wf b, ?_⟩
  have hx := h.onDevice_shows.allows h.onDevice_wf b
  refine ⟨hx.count, hx.free, hx.same, hx.children, ?_⟩
  intro i k hl hb
  rw [← (h.onDevice_child hl).1, ← (h.onDevice_child hl).2]
  exact hx.records i k hl hb

theorem Volume.Filled.append (hf : v.Filled fills) (more : List Fill) : v.Filled (fills ++ more) := by
  intro i k j hl hj hno
  obtain ⟨f, hmem, hrest⟩ := hf i k j hl hj hno
  exact ⟨f, List.mem_append_left _ hmem, hrest⟩

/-- As long as every write keeps what the volume needs, a crash finds the volume. -/
theorem World.Settled.consistent_of_keeps (h : w.Settled v) (hf : v.Filled fills) (hp : v.Placed)
    (hd : Disk.Delayed w.disk es d) (hes : ∀ o ∈ es, Disk.Keeps v.Allows o) :
    CrashConsistent fills d.media := by
  have hw := hd.within h.within (fun _ _ hx => hx) hes
  exact crashConsistent_of_allows (fun b => (hw b).2) h.wf hf hp

section Created

variable {dir : Path} {i : Nat} {e : SimplefsInode} {name : Name}

theorem World.Settled.keeps_recordedOps (h : w.Settled v) (c : v.alloc.Creatable i e name) :
    ∀ o ∈ recordedOps w.cache (v.entry i) e name, Disk.Keeps v.Allows o := by
  intro o ho
  unfold recordedOps at ho
  rcases List.mem_append.mp ho with ho | ho
  · rcases List.mem_append.mp ho with ho | ho
    · exact h.wf.keeps_allocOps h.shows.free o ho
    · exact h.wf.keeps_addOps h.shows.count e o ho
  · exact h.wf.keeps_recordOps c.valid c.lt o ho

theorem World.applyAll_recordedOps (q : SimplefsInode) :
    (w.disk.applyAll (recordedOps w.cache q e name)) =
      ((w.allocBlock.addInode e).addRecord q.dataBlockNumber.toNat q.dirChildrenCount e.inodeNo
        name).disk := by
  have hcount : inodesCount w.cache = inodesCount w.allocBlock.cache := by
    rw [World.allocBlock_cache, inodesCount_setFree]
  have hadd : addOps w.cache e = addOps w.allocBlock.cache e := by
    unfold addOps
    rw [hcount]
  unfold recordedOps
  rw [Disk.applyAll_append, Disk.applyAll_append, hadd]
  rfl

/-- Then the superblock and the directory are on the device. -/
theorem status_recordedOps {q : SimplefsInode} (hq : 2 ≤ q.dataBlockNumber.toNat) {b : Nat}
    (hb : b = 0 ∨ b = q.dataBlockNumber.toNat) (img : Image) :
    Disk.status b (recordedOps img q e name) = .synced := by
  have h₀ : q.dataBlockNumber.toNat ≠ 0 := by omega
  have h₁ : q.dataBlockNumber.toNat ≠ 1 := by omega
  rcases hb with rfl | rfl
  · simp [recordedOps, allocOps, addOps, recordOps, flushOps, Disk.status, Disk.Status.next, h₀]
  · simp [recordedOps, allocOps, addOps, recordOps, flushOps, Disk.status, Disk.Status.next]

variable {mode : UInt16}

/-- The blocks once the record is written: the volume with the new object allows
all of them, but for the store on the device. -/
theorem World.Settled.within_recorded (h : w.Settled v) (cond : v.alloc.Creatable i e name)
    (hd : Disk.Delayed w.disk (recordedOps w.cache (v.entry i) e name) d) :
    d.Within (v.alloc.created i e name).Allows
      fun b x => (v.alloc.created i e name).Allows b x ∨ b = 1 ∧ v.Allows b x := by
  have hold := hd.within h.within (fun _ _ hx => hx) (h.keeps_recordedOps cond)
  have hblk := h.wf.block_ge i cond.lt
  have hcache : ∀ b, (v.alloc.created i e name).Allows b (d.cache b) := by
    intro b
    rw [hd.cache_eq, World.applyAll_recordedOps]
    exact (h.toModels.allocBlock.recorded cond).shows.allows_created cond h.wf.alloc b
  have hsynced : ∀ b, b = 0 ∨ b = (v.entry i).dataBlockNumber.toNat → d.media b = d.cache b := by
    intro b hb
    have hs := hd.status b
    rw [status_recordedOps hblk hb] at hs
    exact hs.2
  intro b
  refine ⟨hcache b, ?_⟩
  rcases Nat.lt_or_ge b 2 with hlt | hge
  · obtain rfl | rfl : b = 0 ∨ b = 1 := by omega
    · rw [hsynced 0 (.inl rfl)]
      exact .inl (hcache 0)
    · exact .inr ⟨rfl, (hold 1).2⟩
  · by_cases hb : b = (v.entry i).dataBlockNumber.toNat
    · rw [hsynced b (.inr hb)]
      exact .inl (hcache b)
    · exact .inl (cond.allows_other h.wf.alloc (allows_alloc.mpr (hold b).2) hge (Ne.symm hb))

/-- A crash while an object is made finds the volume without it or with it. -/
theorem World.Settled.consistent_created (h : w.Settled v) (hf : v.Filled fills) (hp : v.Placed)
    (cond : v.alloc.Creatable i (newEntry w.cache mode) name) {f : Fill} (hmem : f ∈ fills)
    (hparent : f.parent = (v.entry i).inodeNo) (hname : f.name = name)
    (hentry : f.entry = newEntry w.cache mode)
    (hpre : es <+: recordedOps w.cache (v.entry i) (newEntry w.cache mode) name ++
      saveOps i { v.entry i with fileSize := (v.entry i).fileSize + 1 })
    (hd : Disk.Delayed w.disk es d) : CrashConsistent fills d.media := by
  obtain ⟨rest, hall⟩ := hpre
  rcases List.append_eq_append_iff.mp hall with ⟨more, hrec, -⟩ | ⟨saved, rfl, hsave⟩
  · refine h.consistent_of_keeps hf hp hd ?_
    intro o ho
    apply h.keeps_recordedOps cond o
    rw [hrec]
    exact List.mem_append_left _ ho
  · obtain ⟨d₁, hd₁, hd₂⟩ := hd.split
    have hsaved : ∀ o ∈ saved, Disk.Keeps
        (v.alloc.created i (newEntry w.cache mode) name).Allows o := by
      intro o ho
      refine (cond.wf h.wf.alloc).keeps_saveOps ?_ ?_ o (hsave ▸ List.mem_append_left _ ho)
      · rw [created_entry_self cond.lt]
        exact .refl _
      · intro _
        rw [created_entry_self cond.lt]
        exact Nat.le_refl _
    have hw := hd₂.within (h.within_recorded cond hd₁) (fun _ _ hx => .inl hx) hsaved
    rcases (hw 1).2 with hnew | ⟨-, hold⟩
    · refine crashConsistent_of_allows ?_ (cond.wf h.wf.alloc)
        (Filled.created (v := v.alloc) hf cond h.wf.alloc hmem hparent hname hentry)
        (Placed.created (v := v.alloc) hp cond.lt cond.add.placed)
      intro b
      rcases (hw b).2 with hx | ⟨rfl, -⟩
      · exact hx
      · exact hnew
    · refine crashConsistent_of_allows ?_ h.wf hf hp
      intro b
      rcases (hw b).2 with hx | ⟨rfl, hx⟩
      · by_cases hb : b = 1
        · subst hb
          exact hold
        · exact allows_alloc.mp (cond.allows_old h.wf.alloc hx hb)
      · exact hx

end Created

/-- Nothing stays dirty behind a call that ends. -/
theorem WriteOrder.settles (ho : WriteOrder tid env w v c ops) (h : v.Wf) {reply : Reply}
    {w' : World} (hrun : c.code.run (exec tid env) w = .done reply w') (b : Nat) :
    .mark b ∉ ops ∨ Disk.status b ops = .synced := by
  cases ho with
  | silent => exact .inl List.not_mem_nil
  | added _ stuck => exact absurd hrun (stuck _ _)
  | @created dir name mode i _ leads _ _ =>
      have hb := h.block_ge i leads.lt
      have h₀ : (v.entry i).dataBlockNumber.toNat ≠ 0 := by omega
      have h₁ : (v.entry i).dataBlockNumber.toNat ≠ 1 := by omega
      by_cases hmark : b = 0 ∨ b = 1 ∨ b = (v.entry i).dataBlockNumber.toNat
      · right
        rcases hmark with rfl | rfl | rfl <;>
          simp [recordedOps, allocOps, addOps, recordOps, saveOps, flushOps, Disk.status,
            Disk.Status.next, h₀, h₁, Ne.symm h₁]
      · left
        simp only [not_or] at hmark
        simp [recordedOps, allocOps, addOps, recordOps, saveOps, flushOps, hmark]
  | fault => exact .inl (by simp)
  | @wrote j pos bytes s lt _ =>
      have hb := h.block_ge j lt
      have h₁ : 1 ≠ (v.entry j).dataBlockNumber.toNat := by omega
      by_cases hmark : b = 1 ∨ b = (v.entry j).dataBlockNumber.toNat
      · right
        rcases hmark with rfl | rfl <;>
          simp [dataOps, saveOps, flushOps, Disk.status, Disk.Status.next, h₁]
      · left
        simp only [not_or] at hmark
        simp [dataOps, saveOps, flushOps, hmark]

theorem Call.fill_eq {dir : Path} {name : Name} {mode : UInt16} {i : Nat}
    (hm : c.makes = some (dir, name, mode)) (hdc : w.dcache dir = some (v.inode i)) :
    c.fill w = some ⟨(v.entry i).inodeNo, name, newEntry w.cache mode⟩ := by
  have hq : w.simplefsInode dir = some (v.entry i) := by
    unfold World.simplefsInode
    rw [hdc]
    rfl
  unfold Call.fill
  rw [hm]
  change (w.simplefsInode dir).map _ = _
  rw [hq]
  rfl

/-- A crash in the middle of a call finds a consistent image. -/
theorem WriteOrder.consistent (ho : WriteOrder tid env w v c ops) (h : w.Settled v)
    (hf : v.Filled fills) (hp : v.Placed) (hpre : es <+: ops) (hd : Disk.Delayed w.disk es d) :
    CrashConsistent (fills ++ (c.fill w).toList) d.media := by
  have hkeeps : (∀ o ∈ ops, Disk.Keeps v.Allows o) →
      CrashConsistent (fills ++ (c.fill w).toList) d.media := by
    intro hops
    exact h.consistent_of_keeps (hf.append _) hp hd fun o ho => hops o (hpre.subset ho)
  cases ho with
  | silent => exact hkeeps fun o ho => absurd ho List.not_mem_nil
  | added =>
      apply hkeeps
      intro o ho
      rcases List.mem_append.mp ho with ho | ho
      · exact h.wf.keeps_allocOps h.shows.free o ho
      · exact h.wf.keeps_addOps h.shows.count _ o ho
  | @created dir name mode i makes leads cached cond =>
      rw [Call.fill_eq makes cached]
      exact h.consistent_created (hf.append _) hp cond
        (List.mem_append_right _ List.mem_cons_self) rfl rfl rfl hpre hd
  | fault lt isreg =>
      apply hkeeps
      intro o ho
      obtain rfl := List.mem_singleton.mp ho
      exact h.wf.keeps_fileEdit lt isreg _
  | @wrote j pos bytes s lt isreg =>
      apply hkeeps
      intro o ho
      rcases List.mem_append.mp ho with ho | ho
      · simp only [dataOps, flushOps, List.mem_cons, List.not_mem_nil, or_false] at ho
        rcases ho with rfl | rfl | rfl
        · exact h.wf.keeps_fileEdit lt isreg _
        · trivial
        · trivial
      · have hsame : SimplefsInode.Same { v.entry j with fileSize := s } (v.entry j) :=
          ⟨rfl, rfl, rfl⟩
        refine h.wf.keeps_saveOps hsame ?_ o ho
        intro hdir
        rw [not_sIsreg_of_sIsdir hdir] at isreg
        cases isreg

end Consistent

section Calls

variable {env : Env} {w w' : World} {v v' : Volume} {c : Call} {reply : Reply} {fills : List Fill}

/-- The names of the volume are those made by `mkfs-simplefs` and by the calls
that returned 0. -/
theorem CalmStep.filled (hstep : CalmStep env w v c reply w' v') (h : w.Settled v)
    (hf : v.Filled fills) :
    v'.Filled (fills ++ if reply = .ret 0 then (c.fill w).toList else []) := by
  cases hstep with
  | created makes leads cached cond =>
      rw [if_pos rfl, Call.fill_eq makes cached]
      exact Filled.created (v := v.alloc) (hf.append _) cond h.wf.alloc
        (List.mem_append_right _ List.mem_cons_self) rfl rfl rfl
  | unmount =>
      refine Filled.mono (hf.append _) rfl (fun _ _ => .refl _) ?_
      intro i k hl
      exact ⟨hl, h.onDevice_child hl⟩
  | fault leads isreg =>
      refine Filled.mono (hf.append _) rfl (fun _ _ => .refl _) ?_
      intro i k hl
      exact ⟨hl, stored_child h.wf.toStoreWf leads.lt isreg hl⟩
  | wrote leads _ isreg =>
      refine Filled.mono (hf.append _) rfl (fun i _ => setSize_same i) ?_
      intro i k hl
      have hlive := (wrote_live_iff isreg).mp hl
      exact ⟨hlive, wrote_child h.wf.toStoreWf leads.lt isreg hlive⟩
  | mount => exact hf.append _
  | miss => exact hf.append _
  | hit => exact hf.append _
  | refused => exact hf.append _
  | iterate => exact hf.append _
  | read => exact hf.append _
  | tooBig => exact hf.append _

theorem CalmStep.placed (hstep : CalmStep env w v c reply w' v') (hp : v.Placed) :
    v'.Placed := by
  cases hstep with
  | created _ leads _ cond => exact Placed.created (v := v.alloc) hp leads.lt cond.add.placed
  | unmount => exact hp
  | fault => exact hp
  | wrote => exact hp.mono rfl fun i _ => setSize_same i
  | mount => exact hp
  | miss => exact hp
  | hit => exact hp
  | refused => exact hp
  | iterate => exact hp
  | read => exact hp
  | tooBig => exact hp

theorem mkfs_filled (dev : Image) : (ofImage (mkfs dev)).Filled mkfsFills := by
  intro i k j hl hj hno
  obtain ⟨rfl, rfl, hino, hname⟩ := mkfs_live hl
  rw [hino] at hno
  refine ⟨_, List.mem_cons_self, ?_, hname.symm, ?_⟩
  · rw [ofImage_entry, entryAt_mkfs_zero]
    rfl
  · rcases mkfs_cases hj with ⟨rfl, he⟩ | ⟨rfl, he⟩
    · rw [he] at hno
      exact absurd hno (by decide)
    · rw [he]
      exact .refl welcome

theorem mkfs_placed (dev : Image) : (ofImage (mkfs dev)).Placed := by
  intro i hi hne
  rcases mkfs_cases hi with ⟨rfl, he⟩ | ⟨rfl, he⟩
  · rw [he] at hne
    exact absurd rfl hne
  · rw [he]
    decide

end Calls

/-- The invariant between two calls. -/
def World.Quiescent (w : World) (fills : List Fill) : Prop :=
  ∃ v, w.Settled v ∧ v.Filled fills ∧ v.Placed

/-- The invariant within a call, which was started in the state `w₀` and would
be in the state `wp` if no block had been written back on its own. -/
structure Task.Progress (t : Task) (fills : List Fill) (w w₀ wp : World)
    (es : List (DiskOp Buffer)) : Prop where
  started : w₀.Quiescent fills
  calm : t.env.Calm
  allowed : t.call.Allowed w₀
  code : t.call ≠ .unmount
  fill : t.fill = t.call.fill w₀
  steps : Prog.StepsTo (exec t.tid t.env) t.call.code w₀ t.rest wp
  agrees : wp.Agrees w
  delayed : Disk.Delayed w₀.disk es w.disk
  ops : diskOps t.tid t.env t.call.code w₀ = es ++ diskOps t.tid t.env t.rest wp

/-- What every step of the machine keeps. -/
def Machine.Inv (m : Machine) : Prop :=
  match m.task with
  | none => m.world.Quiescent m.fills
  | some t => ∃ w₀ wp es, t.Progress m.fills m.world w₀ wp es

section Machine

variable {w w' : World} {fills : List Fill} {t : Task} {c : Call} {reply : Reply} {tid : Nat}
  {env : Env}

theorem Call.run_of_code (hc : c ≠ .unmount)
    (hrun : c.code.run (exec tid env) w = .done reply w') :
    ∃ reply', c.run tid env w = .done reply' w' ∧ (reply' = reply ∨ c.makes = none) := by
  cases c with
  | unmount => exact absurd rfl hc
  | lookup dir name =>
      refine ⟨.found (w'.dcache (name :: dir)), ?_, .inr rfl⟩
      change Outcome.bind _ _ = _
      rw [hrun]
      rfl
  | mount => exact ⟨reply, hrun, .inl rfl⟩
  | create => exact ⟨reply, hrun, .inl rfl⟩
  | mkdir => exact ⟨reply, hrun, .inl rfl⟩
  | iterate => exact ⟨reply, hrun, .inl rfl⟩
  | read => exact ⟨reply, hrun, .inl rfl⟩
  | write => exact ⟨reply, hrun, .inl rfl⟩

theorem Call.fill_eq_none (hm : c.makes = none) (w : World) : c.fill w = none := by
  unfold Call.fill
  rw [hm]

/-- A call that has ended leaves a quiescent state. -/
theorem World.Quiescent.call (h : w.Quiescent fills) (hc : env.Calm) (ha : c.Allowed w)
    (hu : c ≠ .unmount) (hrun : c.code.run (exec tid env) w = .done reply w') :
    w'.Quiescent (fills ++ if reply = .ret 0 then (c.fill w).toList else []) := by
  obtain ⟨v, hs, hf, hp⟩ := h
  obtain ⟨reply', hrun', hreply⟩ := Call.run_of_code hu hrun
  obtain ⟨v', hstep⟩ := hs.step hc ha hrun'
  refine ⟨v', hstep.settled hs, ?_, hstep.placed hp⟩
  have hfilled := hstep.filled hs hf
  rcases hreply with rfl | hm
  · exact hfilled
  · rw [Call.fill_eq_none hm] at hfilled ⊢
    rw [Option.toList_none, ite_self] at hfilled ⊢
    exact hfilled

theorem World.Quiescent.unmount (h : w.Quiescent fills) : w.unmount.Quiescent fills := by
  obtain ⟨v, hs, hf, hp⟩ := h
  have hstep : CalmStep .quiet w v .unmount .unit w.unmount (v.onDevice w.media) := .unmount
  have hfilled := hstep.filled hs hf
  rw [if_neg (by decide), List.append_nil] at hfilled
  exact ⟨_, hstep.settled hs, hfilled, hstep.placed hp⟩

theorem World.Quiescent.syncDirtyBuffer (h : w.Quiescent fills) (b : Nat) :
    (w.syncDirtyBuffer b).Quiescent fills := by
  obtain ⟨v, hs, hf, hp⟩ := h
  have hself : w.syncDirtyBuffer b = w := by
    unfold World.syncDirtyBuffer
    rw [hs.clean b, if_neg Bool.false_ne_true, Function.update_eq_self, ← hs.clean b,
      Function.update_eq_self]
  rw [hself]
  exact ⟨v, hs, hf, hp⟩

namespace Task.Progress

variable {w₀ wp : World} {es : List (DiskOp Buffer)}

/-- One more action of the call. -/
theorem act (h : t.Progress fills w w₀ wp es) {o : Op} {k : o.Res → Code Reply} {r : o.Res}
    (next : t.rest = .call o k) (done : exec t.tid t.env o w = .done r w') :
    ∃ wp', { t with rest := k r }.Progress fills w' w₀ wp' (es ++ o.effects t.env) := by
  obtain ⟨wp', hr, hag⟩ := exec_of_agrees done h.agrees.symm
  have hsteps := h.steps
  have hops := h.ops
  rw [next] at hsteps hops
  refine ⟨wp', h.started, h.calm, h.allowed, h.code, h.fill, .step hsteps hr, hag.symm, ?_, ?_⟩
  · rw [exec_disk done]
    exact h.delayed.ops _
  · have htrace : diskOps t.tid t.env (Prog.call o k) wp = _ := Prog.trace_call_of_done hr
    rw [hops, htrace, List.append_assoc]
    rfl

theorem writeback (h : t.Progress fills w w₀ wp es) (b : Nat) :
    t.Progress fills (w.syncDirtyBuffer b) w₀ wp es :=
  ⟨h.started, h.calm, h.allowed, h.code, h.fill, h.steps,
    ⟨h.agrees.cache, h.agrees.dcache, h.agrees.owner⟩, h.delayed.writeback b, h.ops⟩

/-- The call returns, and all it has written is on the device. -/
theorem finish (h : t.Progress fills w w₀ wp es) (rest : t.rest = .ret reply) :
    w.Quiescent (fills ++ if reply = .ret 0 then t.fill.toList else []) := by
  have hrun : t.call.code.run (exec t.tid t.env) w₀ = .done reply wp := by
    rw [h.steps.run_eq, rest]
    rfl
  have hes : es = diskOps t.tid t.env t.call.code w₀ := by
    rw [h.ops, rest]
    exact (List.append_nil es).symm
  obtain ⟨v, hs, -, -⟩ := h.started
  have horder : WriteOrder t.tid t.env w₀ v t.call es := by
    rw [hes]
    exact hs.writeOrder h.calm h.allowed
  have hdisk : w.disk = wp.disk := by
    rw [h.delayed.eq_applyAll hs.clean (horder.settles hs.wf hrun), run_disk hrun, hes]
  rw [h.agrees.eq hdisk, h.fill]
  exact h.started.call h.calm h.allowed h.code hrun

theorem consistent (h : t.Progress fills w w₀ wp es) :
    CrashConsistent (fills ++ t.fill.toList) w.media := by
  obtain ⟨v, hs, hf, hp⟩ := h.started
  have horder : WriteOrder t.tid t.env w₀ v t.call _ := hs.writeOrder h.calm h.allowed
  rw [h.fill]
  refine horder.consistent hs hf hp ?_ h.delayed
  rw [h.ops]
  exact List.prefix_append _ _

end Task.Progress

variable {m m' : Machine} {dev : Image}

theorem Machine.Inv.step (h : m.Inv) (hstep : m.Step m') : m'.Inv := by
  cases hstep with
  | @start w fills tid env c calm allowed code =>
      exact ⟨w, w, [], h, calm, allowed, code, rfl, .refl _ _, ⟨rfl, rfl, rfl⟩, .nil, rfl⟩
  | unmount => exact World.Quiescent.unmount h
  | act next done =>
      obtain ⟨w₀, wp, es, hp⟩ := h
      obtain ⟨wp', hp'⟩ := hp.act next done
      exact ⟨w₀, wp', _, hp'⟩
  | @writeback w t fills b =>
      cases t with
      | none => exact World.Quiescent.syncDirtyBuffer h b
      | some t =>
          obtain ⟨w₀, wp, es, hp⟩ := h
          exact ⟨w₀, wp, es, hp.writeback b⟩
  | finish rest =>
      obtain ⟨w₀, wp, es, hp⟩ := h
      exact hp.finish rest

theorem Machine.Reachable.inv (h : Reachable dev m) : m.Inv := by
  induction h with
  | init => exact ⟨_, mkfs_settled dev, mkfs_filled dev, mkfs_placed dev⟩
  | step _ hstep ih => exact ih.step hstep

/-- Start a call of the task 0 that nothing disturbs. -/
def Machine.start (m : Machine) (c : Call) : Machine :=
  ⟨m.world, some ⟨0, .quiet, c, c.code, c.fill m.world⟩, m.fills⟩

/-- Perform the next action of the call in progress. -/
def Machine.next (m : Machine) : Machine :=
  match m with
  | ⟨_, none, _⟩ => m
  | ⟨w, some ⟨_, _, _, .ret reply, fill⟩, fills⟩ =>
      ⟨w, none, fills ++ if reply = .ret 0 then fill.toList else []⟩
  | ⟨w, some ⟨tid, env, c, .call o k, fill⟩, fills⟩ =>
      (exec tid env o w).elim (fun r w' => ⟨w', some ⟨tid, env, c, k r, fill⟩, fills⟩) m

theorem Machine.Reachable.start (h : Reachable dev m)
    (hc : m.task = none ∧ c.Allowed m.world ∧ c ≠ .unmount) : Reachable dev (m.start c) := by
  obtain ⟨w, task, fills⟩ := m
  obtain ⟨rfl, hallowed, hcode⟩ := hc
  exact h.step (.start 0 Env.calm_quiet hallowed hcode)

theorem Machine.Reachable.next (h : Reachable dev m) : Reachable dev m.next := by
  obtain ⟨w, _ | ⟨tid, env, c, reply | ⟨o, k⟩, fill⟩, fills⟩ := m
  · exact h
  · exact h.step (.finish rfl)
  · cases hr : exec tid env o w with
    | done r w' =>
        have hstep := h.step (.act rfl hr)
        change Reachable dev ((exec tid env o w).elim _ _)
        rwa [hr]
    | stuck trap w' =>
        change Reachable dev ((exec tid env o w).elim _ _)
        rwa [hr]

theorem Machine.Reachable.repeat (h : Reachable dev m) (n : Nat) :
    Reachable dev (Nat.repeat Machine.next n m) := by
  induction n with
  | zero => exact h
  | succ n ih => exact ih.next

/-- Wherever a run is cut off, inside a call or between two calls, what is on the
device is in order. -/
theorem crashConsistent_of_reachable (h : Machine.Reachable dev m) :
    CrashConsistent m.allFills m.world.media := by
  have hinv := h.inv
  obtain ⟨w, task, fills⟩ := m
  cases task with
  | none =>
      obtain ⟨v, hs, hf, hp⟩ := hinv
      exact crashConsistent_of_allows (fun b => (hs.within b).2) hs.wf (hf.append _) hp
  | some t =>
      obtain ⟨w₀, wp, es, hp⟩ := hinv
      exact hp.consistent

/-- The state in which the new count is on the device, while the store with the
new entry is only marked. -/
def sampleMachine : Machine :=
  let fresh : Machine := ⟨World.ofImage (mkfs fun _ _ => 0), none, mkfsFills⟩
  let mounted := Nat.repeat Machine.next 30 (fresh.start .mount)
  Nat.repeat Machine.next 30 (mounted.start (.create [] [97] 33188))

theorem sampleMachine_reachable : Machine.Reachable (fun _ _ => 0) sampleMachine := by
  refine Machine.Reachable.repeat (.start (.repeat (.start .init ?_) 30) ?_) 30
  · decide +kernel
  · decide +kernel

theorem crashConsistent_sampleMachine :
    sampleMachine.world.dirty 1 = true ∧
      (inodesCount sampleMachine.world.media).toNat = 3 ∧
      CrashConsistent sampleMachine.allFills sampleMachine.world.media :=
  ⟨by decide +kernel, by decide +kernel, crashConsistent_of_reachable sampleMachine_reachable⟩

end Machine

end LinuxDevelopment.Simplefs
