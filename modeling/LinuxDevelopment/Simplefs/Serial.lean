import LinuxDevelopment.Simplefs.Mirror
import LinuxDevelopment.Simplefs.SameFile

/-!
# simplefs: the metadata under concurrent calls

Any number of tasks create files and directories and write to files. A create
takes effect when it gives `simplefs_directory_children_update_lock` back, and a
write when it stores the entry of its file. The metadata of the concurrent run are
those of a serial one: first all creates in the order in which they held that
lock, and then all writes in the order of their stores.
-/

namespace LinuxDevelopment.Simplefs

/-- Perform calls one after the other, each to its end. -/
def runSerially (w : World) : List (Nat × Call × Env) → Option World
  | [] => some w
  | (tid, c, env) :: rest =>
      match c.run tid env w with
      | .done _ w' => runSerially w' rest
      | .stuck _ _ => none

/-- The super block, the inode store and the directory blocks are the same. -/
structure World.SameMetadata (w w' : World) : Prop where
  inodesCount : inodesCount w.cache = inodesCount w'.cache
  freeBlocks : freeBlocks w.cache = freeBlocks w'.cache
  store : w.cache 1 = w'.cache 1
  directory : ∀ i < (Simplefs.inodesCount w.cache).toNat, sIsdir (entryAt w.cache i).mode = true →
    w.cache (entryAt w.cache i).dataBlockNumber.toNat =
      w'.cache (entryAt w.cache i).dataBlockNumber.toNat

/-- The path of the dentry a call adds. -/
def Call.target (c : Call) : Option Path := c.makes.map fun x => x.2.1 :: x.1

/-- The inode of a file with a size. -/
def FileRef.sized (f : FileRef) (s : UInt64) : SimplefsInode := { f.inode with fileSize := s }

/-- The entries that writes store when they are performed in this order, on the
files of `v`. -/
inductive Logs (v : Caches) : List (Nat × Call × Env) → EntryLog → Prop
  | nil : Logs v [] []
  | saved {cs : List (Nat × Call × Env)} {log : EntryLog} {tid : Nat} {env : Env} {f : FileRef}
      {buf : List UInt8} {pos : Nat} (init : Logs v cs log) (file : v.FileAt f)
      (calm : ∀ site, env.interrupted site = false) (readable : env.breadFails 1 = false)
      (copies : Copies env f buf pos) (arrives : Arrives env buf pos) :
      Logs v (cs ++ [(tid, .write f.path buf pos, env)])
        (log ++ [(f.index, f.sized (writeEnd buf pos))])
  | lost {cs : List (Nat × Call × Env)} {log : EntryLog} {tid : Nat} {env : Env} {f : FileRef}
      {buf : List UInt8} {pos : Nat} (init : Logs v cs log) (file : v.FileAt f)
      (fails : ¬ (Copies env f buf pos ∧ Arrives env buf pos)) :
      Logs v (cs ++ [(tid, .write f.path buf pos, env)]) log

section Serial

variable {w w₁ w₂ : World} {v v' m m' : Caches} {log : EntryLog} {cs : List (Nat × Call × Env)}
  {f : FileRef} {e : SimplefsInode} {env : Env} {buf : List UInt8} {pos tid : Nat} {c : Call}

theorem runSerially_append (cs ds : List (Nat × Call × Env)) :
    runSerially w (cs ++ ds) = (runSerially w cs).bind fun w' => runSerially w' ds := by
  induction cs generalizing w with
  | nil => rfl
  | cons x cs ih =>
      obtain ⟨tid, c, env⟩ := x
      rw [List.cons_append, runSerially, runSerially]
      cases c.run tid env w with
      | done r w' => exact ih
      | stuck t w' => rfl

theorem runSerially_snoc {reply : Reply} (h : runSerially w cs = some w₁)
    (hrun : c.run tid env w₁ = .done reply w₂) :
    runSerially w (cs ++ [(tid, c, env)]) = some w₂ := by
  rw [runSerially_append, h, Option.bind_some, runSerially, hrun]
  rfl

theorem Logs.later (h : Logs v cs log) (hl : v'.Later v) : Logs v' cs log := by
  induction h with
  | nil => exact .nil
  | saved _ file henv readable copies arrives ih =>
      exact ih.saved (file.later hl) henv readable copies arrives
  | lost _ file fails ih => exact ih.lost (file.later hl) fails

theorem FileRef.sized_same (s : UInt64) : (f.sized s).Same f.inode := ⟨rfl, rfl, rfl⟩

theorem FileRef.sized_of_same (h : e.Same f.inode) (s : UInt64) :
    { e with fileSize := s } = f.sized s := by
  obtain ⟨mode, ino, block, size⟩ := e
  obtain ⟨hmode, hino, hblock⟩ := h
  dsimp only at hmode hino hblock
  subst hmode hino hblock
  rfl

theorem World.wroteTo_caches (h : e.Same f.inode) : (w.wroteTo f e buf pos).caches =
    ((w.caches.poke f.block pos (writeBytes buf pos)).setFileSize f.path (writeEnd buf pos)).poke 1
      (32 * f.index) (f.sized (writeEnd buf pos)).encode := by
  have hb : e.dataBlockNumber.toNat = f.block := by
    rw [h.dataBlockNumber]
    rfl
  unfold World.wroteTo World.copiedIn
  rw [hb, FileRef.sized_of_same h]
  rfl

/-- The writes one after the other, on caches that have all files of `v`. -/
theorem Logs.runSerially (h : Logs v cs log) (hv : v.Sound) (hw : w.caches = v)
    (hfree : ∀ m, w.owner m = none) : ∃ w', Simplefs.runSerially w cs = some w' ∧
      w'.caches.Mirrors v v log ∧ (∀ m, w'.owner m = none) ∧
      ∀ p, v.dcache p ≠ none → w'.dcache p ≠ none := by
  have hext := hv.extends_refl
  induction h with
  | nil => exact ⟨w, rfl, hw ▸ .refl (hw ▸ hv), hfree, fun p hp => by rwa [← hw] at hp⟩
  | @saved cs log tid env f buf pos _ file henv readable copies arrives ih =>
      obtain ⟨w₁, hrun₁, hm, hfree₁, hshown⟩ := ih
      have hin : w₁.caches.dcache f.path ≠ none := hshown f.path file.dcache_ne_none
      have hk := hm.knows hv hext file hin
      have hb := hv.two_le_of_fileBlock file.fileBlock
      have hle : (inodesCount w₁.cache).toNat ≤ 64 := by
        rw [show inodesCount w₁.cache = _ from hm.inodesCount_eq]
        exact hv.store.count_le
      obtain ⟨e, he, hsame⟩ := hk.inode
      have hrun : (Call.write f.path buf pos).run tid env w₁ = _ :=
        hk.run_write hle hfree₁ henv readable hb copies arrives he
      refine ⟨_, runSerially_snoc hrun₁ hrun, ?_, hfree₁, fun p hp => ?_⟩
      · rw [World.wroteTo_caches hsame]
        have hcopy := hm.copy file.fileBlock hb pos (writeBytes buf pos)
        have hfile := hcopy.has_file hext file hin
        exact (hcopy.resize_file hfile _).save file.lt ((f.sized_same _).trans file.same) file.kind
      · have hsized : ((w₁.caches.poke f.block pos (writeBytes buf pos)).setFileSize f.path
            (writeEnd buf pos)).dcache p ≠ none := Caches.setFileSize_ne_none (hshown p hp)
        exact hsized
  | @lost cs log tid env f buf pos _ file fails ih =>
      obtain ⟨w₁, hrun₁, hm, hfree₁, hshown⟩ := ih
      have hin : w₁.caches.dcache f.path ≠ none := hshown f.path file.dcache_ne_none
      have hk := hm.knows hv hext file hin
      by_cases hc : Copies env f buf pos
      · have harr : ¬ Arrives env buf pos := fun harr => fails ⟨hc, harr⟩
        obtain ⟨reply, hrun⟩ : ∃ reply, (Call.write f.path buf pos).run tid env w₁ =
            .done reply _ := hk.run_fault hc harr
        refine ⟨_, runSerially_snoc hrun₁ hrun, ?_, hfree₁, hshown⟩
        exact hm.copy file.fileBlock (hv.two_le_of_fileBlock file.fileBlock) pos _
      · obtain ⟨reply, hrun⟩ : ∃ reply, (Call.write f.path buf pos).run tid env w₁ =
            .done reply w₁ := hk.run_refused hc
        exact ⟨w₁, runSerially_snoc hrun₁ hrun, hm, hfree₁, hshown⟩

/-- What the same log makes of the same caches. -/
theorem Caches.Mirrors.sameMetadata (h : w₁.caches.Mirrors v v log) (h' : w₂.caches.Mirrors v v log)
    (hv : v.Sound) : w₁.SameMetadata w₂ := by
  have hsuper : w₁.cache 0 = w₂.cache 0 := h.super.trans h'.super.symm
  have hcount : inodesCount w₁.cache = inodesCount v.cache := h.inodesCount_eq
  refine ⟨?_, ?_, h.store.trans h'.store.symm, fun i hi hkind => ?_⟩
  · unfold Simplefs.inodesCount
    rw [hsuper]
  · unfold Simplefs.freeBlocks
    rw [hsuper]
  · -- the log has no entry of a directory
    have hold : entryAt w₁.cache i = entryAt v.cache i := by
      have hstore : w₁.cache 1 = _ := h.store
      unfold entryAt at hkind ⊢
      rw [hstore] at hkind ⊢
      rcases inodeAt_overlay (v.cache 1) log i with hold | ⟨x, hx, -, hnew⟩
      · exact hold
      · rw [hnew, (h.logged x hx).2.2] at hkind
        cases hkind
    rw [hcount] at hi
    rw [hold] at hkind ⊢
    have hge := hv.store.block_ge i hi
    have hnot := hv.not_fileBlock hi hkind
    exact ((h.block _ hge).resolve_right hnot).trans ((h'.block _ hge).resolve_right hnot).symm

end Serial

/-- The entry of a write is yet to be stored. -/
def WriteStage.isOpen : WriteStage → Bool
  | .saved => false
  | _ => true

/-- The write holds `simplefs_inodes_mgmt_lock` and has not stored its entry. -/
def WriteStage.Locks : WriteStage → Prop
  | .locked | .sized | .fetched _ => True
  | _ => False

namespace Tasks

/-- Every call is a `create`, a `mkdir` or a `write` that is not interrupted. The
VFS makes it with a directory or a file that is in memory, and creates a name
that has no dentry and that no other task is about to create. -/
def Promised (s : Tasks) : Label → Prop
  | .call _ (.write file _ _) env =>
      (∀ site, env.interrupted site = false) ∧ s.world.Has file .file
  | .call _ c env => (∀ site, env.interrupted site = false) ∧ ∃ dir name mode,
      c.makes = some (dir, name, mode) ∧ s.world.Has dir .dir ∧ ValidName name ∧
      s.world.dcache (name :: dir) = none ∧
      ∀ tid f, s.flight tid = some f → f.call.target ≠ some (name :: dir)
  | _ => True

/-- A call that makes an object of a new name in a directory that is in memory. -/
structure CreateAt (m v : Caches) (c : Call) (dir : Path) (name : Name) (mode : UInt16) : Prop where
  makes : c.makes = some (dir, name, mode)
  valid : ValidName name
  parent : m.Has dir .dir
  fresh : v.dcache (name :: dir) = none

/-- A write to a file of `v` at one of its stages. -/
structure WriteAt (m v : Caches) (owner : Mutex → Option Nat) (tid : Nat) (f : FileRef)
    (buf : List UInt8) (pos : Nat) (env : Env) (rest : Code Reply) (k : WriteStage) : Prop where
  file : v.FileAt f
  shown : m.dcache f.path ≠ none
  code : Writes env f buf pos (fun _ k => k.Final env f buf pos) rest k
  copies : k ≠ .start → Copies env f buf pos
  arrives : k ≠ .start → (Arrives env buf pos ↔ k ≠ .faulted)
  owns : k.Locks → owner .inodesMgmtLock = some tid
  sized : k = .sized → m.simplefsInode f.path = some (f.sized (writeEnd buf pos))
  fetched : ∀ e, k = .fetched e → e = f.sized (writeEnd buf pos)

/-- Where a call is, beside the caches `v` in which the creates so far have ended
and the caches `u` of the create that is under way. The Boolean says whether the
call is yet to take effect. -/
inductive At (m v u : Caches) (owner : Mutex → Option Nat) (tid : Nat) : Flight → Bool → Prop
  /-- a create that waits for `simplefs_directory_children_update_lock` -/
  | waiting {c : Call} {env : Env} {rest : Code Reply} {dir : Path} {name : Name} {mode : UInt16}
      (creator : CreateAt m v c dir name mode) (start : rest = c.code) :
      At m v u owner tid ⟨c, env, rest⟩ true
  /-- a create that holds this mutex -/
  | creating {c : Call} {env : Env} {rest : Code Reply} {dir : Path} {name : Name} {mode : UInt16}
      (creator : CreateAt m v c dir name mode)
      (owns : owner .directoryChildrenUpdateLock = some tid)
      (steps : Prog.StepsTo (solo env) c.code v rest u) : At m v u owner tid ⟨c, env, rest⟩ true
  /-- a create that is to add its dentry -/
  | adding {c : Call} {env : Env} {rest : Code Reply} {p : Path} {x : VfsInode}
      {g : Unit → Code Reply} {reply : Reply} (target : c.target = some p)
      (last : rest = .call (.dAdd p x) g) (end_ : g () = .ret reply) (missing : m.dcache p = none)
      (made : u.dcache p = some x) : At m v u owner tid ⟨c, env, rest⟩ false
  /-- a create that is to return -/
  | created {c : Call} {env : Env} {rest : Code Reply} {reply : Reply} (end_ : rest = .ret reply) :
      At m v u owner tid ⟨c, env, rest⟩ false
  | writing {f : FileRef} {buf : List UInt8} {pos : Nat} {env : Env} {rest : Code Reply}
      {k : WriteStage} (writer : WriteAt m v owner tid f buf pos env rest k) :
      At m v u owner tid ⟨.write f.path buf pos, env, rest⟩ k.isOpen

/-- A step of another task keeps what the task `a`, which may be about to add the
dentry `target`, relies on. -/
structure Spares (m v u : Caches) (owner : Mutex → Option Nat) (m' v' u' : Caches)
    (owner' : Mutex → Option Nat) (a : Nat) (target : Option Path) : Prop where
  later : v'.Later v
  dentry : ∀ p x, m.dcache p = some x → ∃ y, m'.dcache p = some y ∧ y.iFop = x.iFop
  fresh : ∀ p, target = some p → v.dcache p = none → v'.dcache p = none
  pending : ∀ p x, target = some p → m.dcache p = none → u.dcache p = some x →
    m'.dcache p = none ∧ u'.dcache p = some x
  creating : owner .directoryChildrenUpdateLock = some a →
    owner' .directoryChildrenUpdateLock = some a ∧ v' = v ∧ u' = u
  mgmt : owner .inodesMgmtLock = some a → owner' .inodesMgmtLock = some a ∧
    ∀ f : FileRef, v.FileAt f → m.dcache f.path ≠ none →
      m'.simplefsInode f.path = m.simplefsInode f.path

section Flights

variable {m v u m' v' u' : Caches} {owner owner' : Mutex → Option Nat} {a : Nat} {fl : Flight}
  {b : Bool} {dst : Option Path}

theorem Spares.has (h : Spares m v u owner m' v' u' owner' a dst) {p : Path} {fop : FileOps}
    (hp : m.Has p fop) : m'.Has p fop := by
  obtain ⟨x, hx, hfop⟩ := hp
  obtain ⟨y, hy, hyx⟩ := h.dentry p x hx
  exact ⟨y, hy, hyx.trans hfop⟩

theorem CreateAt.target {c : Call} {dir : Path} {name : Name} {mode : UInt16}
    (h : CreateAt m v c dir name mode) : c.target = some (name :: dir) := by
  unfold Call.target
  rw [h.makes]
  rfl

theorem At.spare (h : At m v u owner a fl b)
    (hs : Spares m v u owner m' v' u' owner' a fl.call.target) : At m' v' u' owner' a fl b := by
  cases h with
  | waiting creator start =>
      have hfresh := hs.fresh _ creator.target creator.fresh
      exact .waiting ⟨creator.makes, creator.valid, hs.has creator.parent, hfresh⟩ start
  | creating creator owns steps =>
      obtain ⟨hown, rfl, rfl⟩ := hs.creating owns
      exact .creating { creator with parent := hs.has creator.parent } hown steps
  | adding target last end_ missing made =>
      obtain ⟨hmissing, hmade⟩ := hs.pending _ _ target missing made
      exact .adding target last end_ hmissing hmade
  | created end_ => exact .created end_
  | writing writer =>
      refine .writing { writer with
        file := writer.file.later hs.later
        shown := ?_
        owns := fun hk => (hs.mgmt (writer.owns hk)).1
        sized := fun hk => ?_ }
      · obtain ⟨x, hx⟩ := Option.ne_none_iff_exists'.mp writer.shown
        obtain ⟨y, hy, -⟩ := hs.dentry _ x hx
        rw [hy]
        exact Option.some_ne_none y
      · rw [(hs.mgmt (writer.owns (by rw [hk]; trivial))).2 _ writer.file writer.shown]
        exact writer.sized hk

end Flights

/-- The state `x` beside a serial run from `w`. The creates that have taken effect
leave the caches `v`, and the one under way has come to `u`. -/
structure Beside (w x : World) (v u : Caches) (creates writes : List (Nat × Call × Env))
    (log : EntryLog) : Prop where
  sound : v.Sound
  serial : ∃ w₁, runSerially w creates = some w₁ ∧ w₁.caches = v ∧ ∀ m, w₁.owner m = none
  logs : Logs v writes log
  extends_ : u.Extends v
  fresh : ∀ p, v.dcache p = none → u.dcache p = none
  mirrors : x.caches.Mirrors v u log

section Caches

variable {w x x' : World} {v v' u u' : Caches} {creates writes : List (Nat × Call × Env)}
  {log : EntryLog} {c : Call} {env : Env} {dir p : Path} {name : Name} {mode : UInt16} {tid : Nat}
  {reply : Reply}

theorem Beside.congr (h : Beside w x v u creates writes log) (hx : x'.caches = x.caches) :
    Beside w x' v u creates writes log :=
  { h with mirrors := hx ▸ h.mirrors }

/-- What is in memory was there when the last create ended. -/
theorem Beside.has (h : Beside w x v u creates writes log) {fop : FileOps}
    (hp : x.caches.Has p fop) : v.Has p fop := by
  obtain ⟨y, hy, hfop⟩ := h.mirrors.has hp
  cases hz : v.dcache p with
  | none =>
      rw [h.fresh p hz] at hy
      cases hy
  | some z =>
      obtain ⟨y', hy', hyz⟩ := h.extends_.dcache p z hz
      obtain rfl := Option.some.inj (hy.symm.trans hy')
      exact ⟨z, hz, hyz.iFop.symm.trans hfop⟩

theorem Beside.iPrivate (h : Beside w x v u creates writes log) {y : VfsInode}
    (hy : u.dcache p = some y) : ∃ q, y.iPrivate = some q := by
  cases hz : v.dcache p with
  | none =>
      rw [h.fresh p hz] at hy
      cases hy
  | some z =>
      obtain ⟨y', hy', hyz⟩ := h.extends_.dcache p z hz
      obtain rfl := Option.some.inj (hy.symm.trans hy')
      obtain ⟨q, -, hq, -⟩ := hyz.iPrivate
      exact ⟨q, hq⟩

theorem code_of_makes (h : c.makes = some (dir, name, mode)) :
    c.code = simplefsCreateFsObject dir name mode >>= fun r => pure (.ret r) := by
  cases c with
  | create | mkdir =>
      cases h
      rfl
  | _ => cases h

theorem run_of_makes (h : c.makes = some (dir, name, mode)) :
    c.run tid env x = c.code.run (exec tid env) x := by
  cases c with
  | create | mkdir => rfl
  | _ => cases h

/-- A create has taken effect. -/
theorem Beside.commit (h : Beside w x v u creates writes log) (tid : Nat)
    (creator : CreateAt x.caches v c dir name mode) (henv : ∀ site, env.interrupted site = false)
    (hrun : c.code.run (solo env) v = .done reply v') (hcache : v'.cache = u.cache)
    (hdcache : ∀ p z, u.dcache p = some z → v'.dcache p = some z) (hx : x'.caches = x.caches) :
    v'.Later v ∧ Beside w x' v' v' (creates ++ [(tid, c, env)]) writes log := by
  obtain ⟨y, hy, -⟩ := h.has creator.parent
  obtain ⟨hsound, hlater⟩ : v'.Sound ∧ v'.Later v := by
    have hcode := hrun
    rw [code_of_makes creator.makes, Prog.run_bind] at hcode
    obtain ⟨r, v₁, hobject, hret⟩ := Outcome.bind_eq_done.mp hcode
    cases hret
    exact h.sound.create hy creator.valid creator.fresh henv hobject
  obtain ⟨w₁, hserial, rfl, hfree⟩ := h.serial
  have howned : w₁.OwnedBy tid (.working []) := by
    refine ⟨.nil, fun m => ?_, fun m t ht => ?_⟩
    · simp [hfree m, LockState.held]
    · rw [hfree m] at ht
      cases ht
  obtain ⟨w₂, hrun₂, rfl, k, hk, hown⟩ :=
    run_of_solo (orderly_code c) (fun site _ => henv site) howned hrun
  refine ⟨hlater, hsound, ⟨w₂, ?_, rfl, fun m => ?_⟩, h.logs.later hlater, hsound.extends_refl,
    fun _ hp => hp, ?_⟩
  · exact runSerially_snoc hserial ((run_of_makes creator.makes).trans hrun₂)
  · cases hm : w₂.owner m with
    | none => rfl
    | some t =>
        obtain rfl := hown.only m t hm
        have hmem := (hown.own m).mp hm
        rw [hk] at hmem
        cases hmem
  · rw [hx]
    exact h.mirrors.commit hlater hcache hdcache

end Caches

/-- The inodes of the caches `u` are in memory, or a task is about to add them. -/
def Shown (x : World) (u : Caches) (flight : Nat → Option Flight) : Prop :=
  ∀ p z, u.dcache p = some z → x.dcache p ≠ none ∨
    ∃ tid c env y g, flight tid = some ⟨c, env, .call (.dAdd p y) g⟩ ∧ c.target = some p

/-- The tasks beside a serial run from `w`. -/
structure Tracks (w : World) (s : Tasks) (v u : Caches) (isOpen : Nat → Bool)
    (creates writes : List (Nat × Call × Env)) (log : EntryLog) : Prop where
  beside : Beside w s.world v u creates writes log
  resting : u = v ∨ ∃ a f, s.flight a = some f ∧ f.call.target ≠ none ∧
    s.world.owner .directoryChildrenUpdateLock = some a
  shown : Shown s.world u s.flight
  flight : ∀ tid c env rest, s.flight tid = some ⟨c, env, rest⟩ → (tid, c, env) ∈ s.made ∧
    (∀ site, env.interrupted site = false) ∧
    At s.world.caches v u s.world.owner tid ⟨c, env, rest⟩ (isOpen tid)
  distinct : ∀ a b f g p, s.flight a = some f → s.flight b = some g →
    f.call.target = some p → g.call.target = some p → a = b
  settles : Settles s.made (creates ++ writes) (s.IsOpen fun tid => isOpen tid = true)

section Steps

variable {w x : World} {s t : Tasks} {v v' u u' : Caches} {isOpen : Nat → Bool} {b : Bool}
  {creates writes creates' writes' : List (Nat × Call × Env)} {log log' : EntryLog} {c : Call}
  {env : Env} {rest rest' : Code Reply} {tid a : Nat} {held : Nat → LockState} {o : Op}
  {k : o.Res → Code Reply} {r : o.Res} {f' : Option Flight}

theorem Shown.keep {flight : Nat → Option Flight} (h : Shown x u flight)
    (hf : ∀ c env p y g, flight tid = some ⟨c, env, .call (.dAdd p y) g⟩ → c.target ≠ some p)
    {x' : World}
    (hx : ∀ p, x.dcache p ≠ none → x'.dcache p ≠ none)
    (hu : ∀ p z, u'.dcache p = some z → u.dcache p ≠ none) :
    Shown x' u' (Function.update flight tid f') := by
  intro p z hz
  obtain ⟨z', hz'⟩ := Option.ne_none_iff_exists'.mp (hu p z hz)
  rcases h p z' hz' with hin | ⟨a, c, env, y, g, ha, hc⟩
  · exact .inl (hx p hin)
  · refine .inr ⟨a, c, env, y, g, ?_, hc⟩
    rw [Function.update_of_ne]
    · exact ha
    · rintro rfl
      exact hf _ _ _ _ _ ha hc

/-- One task goes on, and the others are spared. -/
theorem Tracks.next (h : s.Tracks w v u isOpen creates writes log)
    (hf : s.flight tid = some ⟨c, env, rest⟩) (hbeside : Beside w x v' u' creates' writes' log')
    (hresting : u' = v' ∨ ∃ a f, Function.update s.flight tid (some ⟨c, env, rest'⟩) a = some f ∧
      f.call.target ≠ none ∧ x.owner .directoryChildrenUpdateLock = some a)
    (hshown : Shown x u' (Function.update s.flight tid (some ⟨c, env, rest'⟩)))
    (hat : At x.caches v' u' x.owner tid ⟨c, env, rest'⟩ b)
    (hspare : ∀ a f, a ≠ tid → s.flight a = some f → Spares s.world.caches v u s.world.owner
      x.caches v' u' x.owner a f.call.target)
    (hsettles : Settles s.made (creates' ++ writes') (IsOpen ⟨x, Function.update s.flight tid
      (some ⟨c, env, rest'⟩), s.made⟩ fun a => Function.update isOpen tid b a = true)) :
    Tracks w ⟨x, Function.update s.flight tid (some ⟨c, env, rest'⟩), s.made⟩ v' u'
      (Function.update isOpen tid b) creates' writes' log' := by
  refine ⟨hbeside, hresting, hshown, ?_, ?_, hsettles⟩
  · intro a c' env' rest₁ ha
    dsimp only at ha ⊢
    by_cases hat' : a = tid
    · subst hat'
      rw [Function.update_self] at ha ⊢
      cases ha
      obtain ⟨hmem, henv, -⟩ := h.flight a _ _ _ hf
      exact ⟨hmem, henv, hat⟩
    · rw [Function.update_of_ne hat'] at ha ⊢
      obtain ⟨hmem, henv, hold⟩ := h.flight a _ _ _ ha
      exact ⟨hmem, henv, hold.spare (hspare a _ hat' ha)⟩
  · -- the calls are the old ones
    have hcall : ∀ a f, Function.update s.flight tid (some ⟨c, env, rest'⟩) a = some f →
        ∃ g, s.flight a = some g ∧ g.call = f.call := by
      intro a f ha
      by_cases hat' : a = tid
      · subst hat'
        rw [Function.update_self] at ha
        cases ha
        exact ⟨_, hf, rfl⟩
      · rw [Function.update_of_ne hat'] at ha
        exact ⟨f, ha, rfl⟩
    intro a b' f g p ha hb hfp hgp
    obtain ⟨f₀, hf₀, hfc⟩ := hcall a f ha
    obtain ⟨g₀, hg₀, hgc⟩ := hcall b' g hb
    exact h.distinct a b' f₀ g₀ p hf₀ hg₀ (hfc ▸ hfp) (hgc ▸ hgp)

/-- A task that holds the lock for the directories still holds it. -/
theorem Tracks.resting_act (h : s.Tracks w v u isOpen creates writes log) (hheld : s.Held held)
    (hf : s.flight tid = some ⟨c, env, .call o k⟩) (hx : exec tid env o s.world = .done r x)
    (ho : c.target = none ∨ o ≠ .mutexUnlock .directoryChildrenUpdateLock) :
    u = v ∨ ∃ a f, Function.update s.flight tid (some ⟨c, env, rest'⟩) a = some f ∧
      f.call.target ≠ none ∧ x.owner .directoryChildrenUpdateLock = some a := by
  refine h.resting.imp_right ?_
  rintro ⟨a, f, ha, hc, hown⟩
  by_cases hat : a = tid
  · subst hat
    obtain rfl := Option.some.inj (hf.symm.trans ha)
    refine ⟨a, _, Function.update_self _ _ _, hc, ?_⟩
    exact exec_owner_keep hx (ho.resolve_left hc) hown
  · refine ⟨a, f, ?_, hc, hheld.owner_other hf hx hat hown⟩
    rw [Function.update_of_ne hat]
    exact ha

/-- A step that leaves the inodes in memory alone. -/
theorem Tracks.spares_quiet (h : s.Tracks w v u isOpen creates writes log) (hheld : s.Held held)
    (hf : s.flight tid = some ⟨c, env, .call o k⟩) (hx : exec tid env o s.world = .done r x)
    (hdcache : x.dcache = s.world.dcache) (ha : a ≠ tid) (target : Option Path) :
    Spares s.world.caches v u s.world.owner x.caches v u x.owner a target := by
  have hsame : x.caches.dcache = s.world.caches.dcache := hdcache
  refine ⟨h.beside.sound.later_refl, fun _ y hy => ⟨y, ?_, rfl⟩, fun _ _ hp => hp,
    fun _ _ _ hm hu => ⟨?_, hu⟩, fun hown => ?_, fun hown => ?_⟩
  · rw [hsame]
    exact hy
  · rw [hsame]
    exact hm
  · exact ⟨hheld.owner_other hf hx ha hown, rfl, rfl⟩
  · refine ⟨hheld.owner_other hf hx ha hown, fun _ _ _ => ?_⟩
    unfold Caches.simplefsInode
    rw [hsame]

theorem code_eq_lock {dir : Path} {name : Name} {mode : UInt16}
    (makes : c.makes = some (dir, name, mode)) :
    ∃ g, c.code = .call (.mutexLockInterruptible .createChildren) g := by
  rw [code_of_makes makes, createFsObject_eq]
  exact ⟨_, rfl⟩

/-- The call is as open as it was. -/
theorem update_isOpen (hb : b = isOpen tid) (a : Nat) :
    Function.update isOpen tid b a = true ↔ isOpen a = true := by
  subst hb
  rw [Function.update_eq_self]

/-- A create takes the lock for the directories. -/
theorem Tracks.lock (h : s.Tracks w v u isOpen creates writes log) (hheld : s.Held held)
    {dir : Path} {name : Name} {mode : UInt16} (hf : s.flight tid = some ⟨c, env, .call o k⟩)
    (hx : exec tid env o s.world = .done r x) (creator : CreateAt s.world.caches v c dir name mode)
    (start : .call o k = c.code)
    (hopen : isOpen tid = true) :
    Tracks w ⟨x, Function.update s.flight tid (some ⟨c, env, k r⟩), s.made⟩ v u
      (Function.update isOpen tid true) creates writes log := by
  obtain ⟨-, henv, -⟩ := h.flight tid _ _ _ hf
  obtain ⟨g, hg⟩ := code_eq_lock creator.makes
  have hsame := start.trans hg
  cases hsame
  obtain ⟨rfl, ⟨hfalse, -⟩ | ⟨htrue, hfree, rfl⟩⟩ := exec_lock hx
  · rw [henv] at hfalse
    cases hfalse
  · have huv : u = v := by
      refine h.resting.resolve_right ?_
      rintro ⟨a, f, -, -, hown⟩
      rw [show s.world.owner .directoryChildrenUpdateLock = none from hfree] at hown
      cases hown
    refine h.next hf (h.beside.congr rfl) (.inl huv) (h.shown.keep ?_ (fun _ hp => hp) ?_) ?_ ?_ ?_
    · intro c' env' p y g' heq
      rw [hf] at heq
      cases heq
    · intro p z hz hnone
      rw [hz] at hnone
      cases hnone
    · have howns : (s.world.setOwner .directoryChildrenUpdateLock (some tid)).owner
          .directoryChildrenUpdateLock = some tid := by
        rw [World.setOwner_owner, Function.update_self]
      refine .creating creator howns ?_
      rw [← start, huv]
      exact .step (.refl _ _) (solo_lock .createChildren)
    · exact fun a f ha _ => h.spares_quiet hheld hf hx rfl ha _
    · exact settles_keep h.settles hf (update_isOpen hopen.symm)

/-- The actions of a create that is under way. -/
theorem createOp_of_steps {dir : Path} {name : Name} {mode : UInt16} {q : SimplefsInode} {j : Nat}
    (makes : c.makes = some (dir, name, mode)) (hv : v.Sound) (hd : v.DirAt dir q j)
    (steps : Prog.StepsTo (solo env) c.code v (.call o k) u) :
    CreateOp v dir name q u o ∧ Amid v dir q u := by
  have hq : 2 ≤ q.dataBlockNumber.toNat := by
    rw [hd.same.dataBlockNumber]
    exact hv.store.block_ge j hd.lt
  have hstart : Amid v dir q v := ⟨hv.extends_refl, q, hd.inode, .refl q⟩
  have hcode : Creates env v dir name q (fun _ _ => True) c.code v := by
    rw [code_of_makes makes]
    exact (creates_simplefsCreateFsObject hstart hq name mode).bind fun _ _ _ => creates_pure trivial
  exact (steps.along hcode.along).1

/-- What the task holds when it works under the lock for the directories. -/
theorem held_of_owns (hheld : s.Held held)
    (hown : s.world.owner .directoryChildrenUpdateLock = some tid) :
    ∃ m ms, held tid = .working (m :: ms) := by
  have hmem := (hheld.owner _ tid).mp hown
  cases hs : held tid with
  | working ms =>
      rw [hs] at hmem
      cases ms with
      | nil => cases hmem
      | cons m ms => exact ⟨m, ms, rfl⟩
  | released | added =>
      rw [hs] at hmem
      cases hmem

theorem not_dAdd_of_owns (hheld : s.Held held) (hf : s.flight tid = some ⟨c, env, .call o k⟩)
    (hown : s.world.owner .directoryChildrenUpdateLock = some tid) (p : Path) (y : VfsInode) :
    o ≠ .dAdd p y := by
  rintro rfl
  obtain ⟨k', hn, -⟩ := hheld.follows tid _ hf () trivial
  obtain ⟨m, ms, hs⟩ := held_of_owns hheld hown
  rw [hs] at hn
  cases hn

/-- A create goes on under the lock for the directories. -/
theorem Tracks.create (h : s.Tracks w v u isOpen creates writes log) (hheld : s.Held held)
    {dir : Path} {name : Name} {mode : UInt16} (hf : s.flight tid = some ⟨c, env, .call o k⟩)
    (hx : exec tid env o s.world = .done r x) (creator : CreateAt s.world.caches v c dir name mode)
    (owns : s.world.owner .directoryChildrenUpdateLock = some tid)
    (steps : Prog.StepsTo (solo env) c.code v (.call o k) u) (hopen : isOpen tid = true)
    (ho : o ≠ .mutexUnlock .directoryChildrenUpdateLock) :
    ∃ u', Tracks w ⟨x, Function.update s.flight tid (some ⟨c, env, k r⟩), s.made⟩ v u'
      (Function.update isOpen tid true) creates writes log := by
  have hv := h.beside.sound
  obtain ⟨q, j, hd⟩ := hv.dirAt (h.beside.has creator.parent)
  obtain ⟨hop, hamid⟩ := createOp_of_steps creator.makes hv hd steps
  have hadd := not_dAdd_of_owns hheld hf owns
  have hq : 2 ≤ q.dataBlockNumber.toNat := by
    rw [hd.same.dataBlockNumber]
    exact hv.store.block_ge j hd.lt
  obtain ⟨u', hu', hm⟩ := h.beside.mirrors.create hv hamid hd creator.parent hop hadd (solo_of_exec hx)
  obtain ⟨hother, hkind⟩ := hop.dcache hadd (solo_of_exec hx)
  obtain ⟨hother', hkind'⟩ := hop.dcache hadd hu'
  have hdentry : ∀ p y, s.world.caches.dcache p = some y →
      ∃ z, x.caches.dcache p = some z ∧ z.iFop = y.iFop := by
    intro p y hy
    have hmap := hkind p
    rw [hy] at hmap
    obtain ⟨z, hz, hzy⟩ := Option.map_eq_some_iff.mp hmap
    exact ⟨z, hz, hzy⟩
  have hnone : ∀ p, u.dcache p = none → u'.dcache p = none := by
    intro p hp
    have hmap := hkind' p
    rw [hp] at hmap
    exact Option.map_eq_none_iff.mp hmap
  refine ⟨u', h.next hf ?_ (.inr ?_) (h.shown.keep ?_ ?_ ?_) ?_ ?_ ?_⟩
  · exact ⟨hv, h.beside.serial, h.beside.logs, (hamid.step hq hop hadd hu').extends_,
      fun p hp => hnone p (h.beside.fresh p hp), hm⟩
  · refine ⟨tid, _, Function.update_self _ _ _, ?_, exec_owner_keep hx ho owns⟩
    rw [creator.target]
    exact Option.some_ne_none _
  · intro c' env' p y g heq
    rw [hf] at heq
    cases heq
    exact absurd rfl (hadd _ _)
  · intro p hp
    obtain ⟨y, hy⟩ := Option.ne_none_iff_exists'.mp hp
    obtain ⟨z, hz, -⟩ := hdentry p y hy
    rw [show x.dcache p = some z from hz]
    exact Option.some_ne_none z
  · intro p z hz hp
    rw [hnone p hp] at hz
    cases hz
  · refine .creating { creator with parent := ?_ } (exec_owner_keep hx ho owns) (steps.step hu')
    obtain ⟨y, hy, hfop⟩ := creator.parent
    obtain ⟨z, hz, hzy⟩ := hdentry dir y hy
    exact ⟨z, hz, hzy.trans hfop⟩
  · intro a f ha hfa
    -- the parent is in memory, and is not a file
    have hparent : s.world.caches.dcache dir ≠ none := by
      obtain ⟨y, hy, -⟩ := creator.parent
      rw [hy]
      exact Option.some_ne_none y
    refine ⟨hv.later_refl, hdentry, fun _ _ hp => hp, ?_, ?_, ?_⟩
    · intro p z _ hp hz
      have hpd : p ≠ dir := by
        rintro rfl
        exact hparent hp
      exact ⟨(hother p hpd).trans hp, (hother' p hpd).trans hz⟩
    · intro hown
      rw [owns] at hown
      exact absurd (Option.some.inj hown).symm ha
    · refine fun hown => ⟨hheld.owner_other hf hx ha hown, fun file hfile _ => ?_⟩
      have hne : file.path ≠ dir := by
        intro heq
        obtain ⟨y, -, hy, hyfop, -⟩ := hfile.dentry
        obtain ⟨z, hz, hzfop⟩ := h.beside.has creator.parent
        rw [heq, hz] at hy
        obtain rfl := Option.some.inj hy
        rw [hzfop] at hyfop
        cases hyfop
      unfold Caches.simplefsInode
      rw [hother _ hne]
  · exact settles_keep h.settles hf (update_isOpen hopen.symm)

/-- A create that takes effect with the caches `v'`. -/
theorem Tracks.commit_of_run (h : s.Tracks w v u isOpen creates writes log) (hheld : s.Held held)
    {dir : Path} {name : Name} {mode : UInt16} {g : Unit → Code Reply} {reply : Reply}
    (hf : s.flight tid = some ⟨c, env, .call (.mutexUnlock .directoryChildrenUpdateLock) g⟩)
    (hx : exec tid env (.mutexUnlock .directoryChildrenUpdateLock) s.world = .done () x)
    (creator : CreateAt s.world.caches v c dir name mode)
    (owns : s.world.owner .directoryChildrenUpdateLock = some tid) (hopen : isOpen tid = true)
    (hrun : c.code.run (solo env) v = .done reply v') (hcache : v'.cache = u.cache)
    (hdcache : ∀ p, p ≠ name :: dir → v'.dcache p = u.dcache p)
    (hlast : v'.dcache (name :: dir) ≠ none → ∃ y g', g () = .call (.dAdd (name :: dir) y) g')
    (hat : At s.world.caches v' v' x.owner tid ⟨c, env, g ()⟩ false) :
    Tracks w ⟨x, Function.update s.flight tid (some ⟨c, env, g ()⟩), s.made⟩ v' v'
      (Function.update isOpen tid false) (creates ++ [(tid, c, env)]) writes log := by
  obtain ⟨-, henv, -⟩ := h.flight tid _ _ _ hf
  have htarget := creator.target
  have hnone := h.beside.fresh _ creator.fresh
  have hcaches : x.caches = s.world.caches := by
    cases hx
    rfl
  have hkeep : ∀ p z, u.dcache p = some z → v'.dcache p = some z := by
    intro p z hz
    rw [hdcache]
    · exact hz
    · rintro rfl
      rw [hnone] at hz
      cases hz
  obtain ⟨hlater, hbeside⟩ := h.beside.commit tid creator henv hrun hcache hkeep
    hcaches
  -- no other task has the same target
  have hother : ∀ a f p, a ≠ tid → s.flight a = some f → f.call.target = some p →
      p ≠ name :: dir := by
    rintro a f p ha hfa hp rfl
    exact ha (h.distinct a tid f _ _ hfa hf hp htarget)
  refine h.next hf hbeside (.inl rfl) ?_ (hcaches ▸ hat) ?_ ?_
  · intro p z hz
    by_cases hp : p = name :: dir
    · subst hp
      obtain ⟨y, g', hg'⟩ := hlast (by rw [hz]; exact Option.some_ne_none z)
      refine .inr ⟨tid, c, env, y, g', ?_, htarget⟩
      rw [Function.update_self, hg']
    · rw [hdcache p hp] at hz
      rcases h.shown p z hz with hin | ⟨a, c', env', y, g', ha, hc'⟩
      · have hdentries : x.dcache = s.world.dcache := congrArg Caches.dcache hcaches
        exact .inl (hdentries ▸ hin)
      · refine .inr ⟨a, c', env', y, g', ?_, hc'⟩
        rw [Function.update_of_ne]
        · exact ha
        · rintro rfl
          rw [hf] at ha
          cases ha
  · intro a f ha hfa
    rw [hcaches]
    refine ⟨hlater, fun _ y hy => ⟨y, hy, rfl⟩, ?_, ?_, ?_, ?_⟩
    · intro p hp hvp
      rw [hdcache p (hother a f p ha hfa hp)]
      exact h.beside.fresh p hvp
    · intro p z hp hm hz
      exact ⟨hm, (hdcache p (hother a f p ha hfa hp)).trans hz⟩
    · intro hown
      rw [owns] at hown
      exact absurd (Option.some.inj hown).symm ha
    · exact fun hown => ⟨hheld.owner_other hf hx ha hown, fun _ _ _ => rfl⟩
  · refine (settles_settle h.settles hf hopen ?_ ?_).reorder ?_
    · rw [Function.update_self]
      decide
    · intro a ha
      rw [Function.update_of_ne ha]
    · rw [List.append_assoc, List.append_assoc]
      exact List.Perm.append_left _ List.perm_append_comm

/-- A create gives the lock for the directories back. -/
theorem Tracks.commit (h : s.Tracks w v u isOpen creates writes log) (hheld : s.Held held)
    {dir : Path} {name : Name} {mode : UInt16} {g : Unit → Code Reply}
    (hf : s.flight tid = some ⟨c, env, .call (.mutexUnlock .directoryChildrenUpdateLock) g⟩)
    (hx : exec tid env (.mutexUnlock .directoryChildrenUpdateLock) s.world = .done () x)
    (creator : CreateAt s.world.caches v c dir name mode)
    (owns : s.world.owner .directoryChildrenUpdateLock = some tid)
    (steps : Prog.StepsTo (solo env) c.code v
      (.call (.mutexUnlock .directoryChildrenUpdateLock) g) u) (hopen : isOpen tid = true) :
    ∃ v', Tracks w ⟨x, Function.update s.flight tid (some ⟨c, env, g ()⟩), s.made⟩ v' v'
      (Function.update isOpen tid false) (creates ++ [(tid, c, env)]) writes log := by
  have hnone := h.beside.fresh _ creator.fresh
  have hsteps : Prog.StepsTo (solo env) c.code v (g ()) u := steps.step rfl
  have hreleased : Orderly Finished (g ()) .released := by
    obtain ⟨k', hn, hrest⟩ := hheld.follows tid _ hf () trivial
    obtain ⟨m, ms, hs⟩ := held_of_owns hheld owns
    have hsorted := hheld.sorted tid
    rw [hs] at hn hsorted
    obtain ⟨rfl, ⟨⟩⟩ := Option.ite_none_right_eq_some.mp hn
    -- nothing is taken before this lock
    cases ms with
    | nil => exact hrest
    | cons n ms =>
        have hrank := (List.pairwise_cons.mp hsorted).1 n List.mem_cons_self
        exact absurd hrank (Nat.not_lt_zero _)
  rcases hreleased.released_cases with ⟨reply, hret⟩ | ⟨p, y, g', reply, hadd, hend⟩
  · have hrun : c.code.run (solo env) v = .done reply u := by
      rw [hsteps.run_eq, hret]
      rfl
    exact ⟨u, h.commit_of_run hheld hf hx creator owns hopen hrun rfl
      (fun _ _ => rfl) (fun hp => absurd hnone hp) (.created hret)⟩
  · obtain ⟨q, j, hd⟩ := h.beside.sound.dirAt (h.beside.has creator.parent)
    rw [hadd] at hsteps
    obtain ⟨hop, -⟩ := createOp_of_steps creator.makes h.beside.sound hd hsteps
    obtain rfl : p = name :: dir := by
      cases hop with
      | blind ho => exact ho.elim
      | dAdd => rfl
    have hrun : c.code.run (solo env) v = .done reply (u.dAdd (name :: dir) y) := by
      rw [hsteps.run_eq]
      change (g' ()).run (solo env) (u.dAdd (name :: dir) y) = _
      rw [hend]
      rfl
    refine ⟨_, h.commit_of_run hheld hf hx creator owns hopen hrun rfl
      (fun p hp => u.dAdd_dcache_of_ne hp) (fun _ => ⟨y, g', hadd⟩) ?_⟩
    refine .adding (creator.target) hadd hend ?_ ?_
    · cases hm : s.world.caches.dcache (name :: dir) with
      | none => rfl
      | some z =>
          obtain ⟨z', hz', -⟩ := h.beside.mirrors.dcache _ z hm
          rw [hnone] at hz'
          cases hz'
    · rw [Caches.dAdd_dcache, Function.update_self]

/-- A create that has taken effect adds its dentry. -/
theorem Tracks.add (h : s.Tracks w v u isOpen creates writes log) (hheld : s.Held held) {p : Path}
    {y : VfsInode} {g : Unit → Code Reply} {reply : Reply}
    (hf : s.flight tid = some ⟨c, env, .call (.dAdd p y) g⟩)
    (hx : exec tid env (.dAdd p y) s.world = .done () x) (target : c.target = some p)
    (end_ : g () = .ret reply) (missing : s.world.caches.dcache p = none)
    (made : u.dcache p = some y) (hopen : isOpen tid = false) :
    Tracks w ⟨x, Function.update s.flight tid (some ⟨c, env, g ()⟩), s.made⟩ v u
      (Function.update isOpen tid false) creates writes log := by
  have hcaches : x.caches = s.world.caches.dAdd p y := by
    cases hx
    rfl
  have hother : ∀ p', p' ≠ p → x.caches.dcache p' = s.world.caches.dcache p' := by
    intro p' hp'
    rw [hcaches]
    exact s.world.caches.dAdd_dcache_of_ne hp'
  have hself : x.caches.dcache p = some y := by
    rw [hcaches, Caches.dAdd_dcache, Function.update_self]
  obtain ⟨q, hq⟩ := h.beside.iPrivate made
  refine h.next hf ?_ (h.resting_act hheld hf hx (.inr (by rintro ⟨⟩))) ?_ (.created end_) ?_
    (settles_keep h.settles hf (update_isOpen hopen.symm))
  · refine { h.beside with mirrors := ?_ }
    rw [hcaches]
    exact h.beside.mirrors.dAdd made hq
  · intro p' z hz
    by_cases hp : p' = p
    · subst hp
      rw [show x.dcache p' = some y from hself]
      exact .inl (Option.some_ne_none y)
    · rcases h.shown p' z hz with hin | ⟨a, c', env', y', g', ha, hc'⟩
      · rw [← show x.dcache p' = s.world.dcache p' from hother p' hp] at hin
        exact .inl hin
      · refine .inr ⟨a, c', env', y', g', ?_, hc'⟩
        rw [Function.update_of_ne]
        · exact ha
        · rintro rfl
          rw [hf] at ha
          cases ha
          exact hp rfl
  · intro a f ha hfa
    refine ⟨h.beside.sound.later_refl, ?_, fun _ _ hp => hp, ?_, ?_, ?_⟩
    · intro p' z hz
      refine ⟨z, ?_, rfl⟩
      rw [hother]
      · exact hz
      · rintro rfl
        rw [missing] at hz
        cases hz
    · intro p' z hp' hm hz
      refine ⟨?_, hz⟩
      rw [hother]
      · exact hm
      · rintro rfl
        exact ha (h.distinct a tid f _ _ hfa hf hp' target)
    · exact fun hown => ⟨hheld.owner_other hf hx ha hown, rfl, rfl⟩
    · refine fun hown => ⟨hheld.owner_other hf hx ha hown, fun file _ hin => ?_⟩
      unfold Caches.simplefsInode
      rw [hother]
      rintro rfl
      exact hin missing

/-- A write sets the size of its file, with `simplefs_inodes_mgmt_lock` held. -/
theorem Tracks.spares_resize (h : s.Tracks w v u isOpen creates writes log) (hheld : s.Held held)
    {file : Path} {size : UInt64} (hf : s.flight tid = some ⟨c, env, .call o k⟩)
    (hx : exec tid env o s.world = .done r x)
    (hcaches : x.caches = s.world.caches.setFileSize file size)
    (hin : s.world.caches.dcache file ≠ none)
    (hown : s.world.owner .inodesMgmtLock = some tid) (ha : a ≠ tid) (target : Option Path) :
    Spares s.world.caches v u s.world.owner x.caches v u x.owner a target := by
  rw [hcaches]
  refine ⟨h.beside.sound.later_refl, fun p y hy => ?_, fun _ _ hp => hp, fun p z _ hp hz => ?_,
    fun hchildren => ⟨hheld.owner_other hf hx ha hchildren, rfl, rfl⟩, fun hmgmt => ?_⟩
  · by_cases hp : p = file
    · subst hp
      rw [Caches.setFileSize_dcache, Function.update_self, hy]
      exact ⟨_, rfl, rfl⟩
    · exact ⟨y, (s.world.caches.setFileSize_dcache_of_ne hp).trans hy, rfl⟩
  · refine ⟨?_, hz⟩
    rw [s.world.caches.setFileSize_dcache_of_ne]
    · exact hp
    · rintro rfl
      exact hin hp
  · rw [hown] at hmgmt
    exact absurd (Option.some.inj hmgmt).symm ha

/-- A write keeps `simplefs_inodes_mgmt_lock` from its acquisition to its store. -/
theorem owner_of_writeNext {f : FileRef} {buf : List UInt8} {pos : Nat} {st st' : WriteStage}
    {x' : World} (hn : writeNext env f buf pos st o r = some st') (hans : fileAnswers env f o r)
    (hx : exec tid env o x = .done r x') (hown : st.Locks → x.owner .inodesMgmtLock = some tid)
    (hlocks : st'.Locks) : x'.owner .inodesMgmtLock = some tid := by
  cases st with
  | start =>
      cases o with
      | simplefsInode | sbBread =>
          cases hn
          exact hlocks.elim
      | copyFromUser =>
          obtain ⟨-, hk⟩ := Option.ite_none_right_eq_some.mp hn
          cases hk
          split_ifs at hlocks
          · exact hlocks.elim
          · exact hlocks.elim
      | _ => cases hn
  | copied =>
      cases o with
      | markBufferDirty | syncDirtyBuffer =>
          cases hn
          exact hlocks.elim
      | mutexLockInterruptible site =>
          obtain ⟨rfl, -⟩ := Option.ite_none_right_eq_some.mp hn
          obtain rfl : r = true := hans
          obtain ⟨-, ⟨⟨⟩, -⟩ | ⟨-, -, rfl⟩⟩ := exec_lock hx
          change Function.update x.owner .inodesMgmtLock (some tid) .inodesMgmtLock = some tid
          rw [Function.update_self]
      | _ => cases hn
  | faulted => cases o <;> cases hn
  | locked | sized | fetched e =>
      refine exec_owner_keep hx ?_ (hown trivial)
      rintro rfl
      cases hn
  | saved =>
      cases o with
      | markBufferDirty | syncDirtyBuffer | mutexUnlock =>
          cases hn
          exact hlocks.elim
      | _ => cases hn

/-- A write goes on to the stage `st'`. -/
theorem Tracks.write_to (h : s.Tracks w v u isOpen creates writes log) (hheld : s.Held held)
    {f : FileRef} {buf : List UInt8} {pos : Nat} {st : WriteStage}
    (hf : s.flight tid = some ⟨.write f.path buf pos, env, .call o k⟩)
    (hx : exec tid env o s.world = .done r x) (hbeside : Beside w x v u creates writes' log')
    (hin : ∀ p, s.world.dcache p ≠ none → x.dcache p ≠ none)
    (hspare : ∀ a g, a ≠ tid → s.flight a = some g → Spares s.world.caches v u s.world.owner
      x.caches v u x.owner a g.call.target)
    (hwriter : WriteAt x.caches v x.owner tid f buf pos env (k r) st)
    (hsettles : Settles s.made (creates ++ writes') (IsOpen ⟨x, Function.update s.flight tid
      (some ⟨.write f.path buf pos, env, k r⟩), s.made⟩
        fun a => Function.update isOpen tid st.isOpen a = true)) :
    Tracks w ⟨x, Function.update s.flight tid (some ⟨.write f.path buf pos, env, k r⟩), s.made⟩ v u
      (Function.update isOpen tid st.isOpen) creates writes' log' := by
  refine h.next hf hbeside (h.resting_act hheld hf hx (.inl rfl)) (h.shown.keep ?_ hin ?_)
    (.writing hwriter) hspare hsettles
  · intro c' env' p y g heq
    rw [hf] at heq
    cases heq
    rintro ⟨⟩
  · intro p z hz hnone
    rw [hz] at hnone
    cases hnone

/-- The actions of a write that leave the inodes in memory and the store alone. -/
theorem Tracks.write_quiet (h : s.Tracks w v u isOpen creates writes log) (hheld : s.Held held)
    {f : FileRef} {buf : List UInt8} {pos : Nat} {st st' : WriteStage}
    (hf : s.flight tid = some ⟨.write f.path buf pos, env, .call o k⟩)
    (hx : exec tid env o s.world = .done r x)
    (hwriter : WriteAt s.world.caches v s.world.owner tid f buf pos env (.call o k) st)
    (hopen : isOpen tid = st.isOpen) (hdcache : x.dcache = s.world.dcache)
    (hmirrors : x.caches.Mirrors v u log) (hsame : st'.isOpen = st.isOpen)
    (hcode : Writes env f buf pos (fun _ k => k.Final env f buf pos) (k r) st')
    (hcopies : st' ≠ .start → Copies env f buf pos)
    (harrives : st' ≠ .start → (Arrives env buf pos ↔ st' ≠ .faulted))
    (howns : st'.Locks → x.owner .inodesMgmtLock = some tid) (hsized : st' = .sized → st = .sized)
    (hfetched : ∀ e, st' = .fetched e → e = f.sized (writeEnd buf pos)) :
    Tracks w ⟨x, Function.update s.flight tid (some ⟨.write f.path buf pos, env, k r⟩), s.made⟩ v u
      (Function.update isOpen tid st'.isOpen) creates writes log := by
  refine h.write_to hheld hf hx { h.beside with mirrors := hmirrors } (fun p hp => ?_)
    (fun a g ha _ => h.spares_quiet hheld hf hx hdcache ha _)
    ⟨hwriter.file, ?_, hcode, hcopies, harrives, howns, fun hk => ?_, hfetched⟩
    (settles_keep h.settles hf (update_isOpen (hsame.trans hopen.symm)))
  · rw [hdcache]
    exact hp
  · change x.dcache f.path ≠ none
    rw [hdcache]
    exact hwriter.shown
  · change (x.dcache f.path).bind _ = _
    rw [hdcache]
    exact hwriter.sized (hsized hk)

/-- A write sets the size in memory. -/
theorem Tracks.write_resize (h : s.Tracks w v u isOpen creates writes log) (hheld : s.Held held)
    {f : FileRef} {buf : List UInt8} {pos : Nat}
    (hf : s.flight tid = some ⟨.write f.path buf pos, env, .call o k⟩)
    (hx : exec tid env o s.world = .done r x)
    (hwriter : WriteAt s.world.caches v s.world.owner tid f buf pos env (.call o k) .locked)
    (hopen : isOpen tid = true)
    (hcaches : x.caches = s.world.caches.setFileSize f.path (writeEnd buf pos))
    (hcode : Writes env f buf pos (fun _ k => k.Final env f buf pos) (k r) .sized)
    (howns : x.owner .inodesMgmtLock = some tid) :
    Tracks w ⟨x, Function.update s.flight tid (some ⟨.write f.path buf pos, env, k r⟩), s.made⟩ v u
      (Function.update isOpen tid true) creates writes log := by
  have hm := h.beside.mirrors
  have file := hwriter.file
  have hin : ∀ p, s.world.dcache p ≠ none → x.dcache p ≠ none := by
    intro p hp
    change x.caches.dcache p ≠ none
    rw [hcaches]
    exact Caches.setFileSize_ne_none hp
  have harr := (hwriter.arrives (by rintro ⟨⟩)).mpr (by rintro ⟨⟩)
  refine h.write_to hheld hf hx { h.beside with mirrors := ?_ } hin
    (fun a g ha _ => h.spares_resize hheld hf hx hcaches hwriter.shown (hwriter.owns trivial) ha _)
    ⟨file, hin _ hwriter.shown, hcode, fun _ => hwriter.copies ?_, fun _ => iff_of_true harr ?_,
      fun _ => howns, fun _ => ?_, ?_⟩ (settles_keep h.settles hf (update_isOpen hopen.symm))
  · rw [hcaches]
    exact hm.resize_file (hm.has_file h.beside.extends_ file hwriter.shown) _
  · rintro ⟨⟩
  · rintro ⟨⟩
  · obtain ⟨e, he, hsame⟩ :=
      (hm.knows h.beside.sound h.beside.extends_ file hwriter.shown).inode
    obtain ⟨y, hy, hye⟩ := Caches.simplefsInode_eq_some.mp he
    rw [hcaches, ← FileRef.sized_of_same hsame]
    exact Caches.simplefsInode_eq_some.mpr ⟨_, Caches.setFileSize_dcache_self hy hye, rfl⟩
  · rintro e ⟨⟩

/-- A write stores its entry, and has taken effect. -/
theorem Tracks.write_save (h : s.Tracks w v u isOpen creates writes log) (hheld : s.Held held)
    {f : FileRef} {buf : List UInt8} {pos : Nat} {e : SimplefsInode}
    (hf : s.flight tid = some ⟨.write f.path buf pos, env, .call o k⟩)
    (hx : exec tid env o s.world = .done r x)
    (hwriter : WriteAt s.world.caches v s.world.owner tid f buf pos env (.call o k) (.fetched e))
    (hopen : isOpen tid = true)
    (hcaches : x.caches = s.world.caches.poke 1 (32 * f.index) e.encode)
    (hread : env.breadFails 1 = false)
    (hcode : Writes env f buf pos (fun _ k => k.Final env f buf pos) (k r) .saved) :
    Tracks w ⟨x, Function.update s.flight tid (some ⟨.write f.path buf pos, env, k r⟩), s.made⟩ v u
      (Function.update isOpen tid false) creates (writes ++ [(tid, .write f.path buf pos, env)])
      (log ++ [(f.index, e)]) := by
  obtain ⟨-, henv, -⟩ := h.flight tid _ _ _ hf
  have file := hwriter.file
  obtain rfl : e = f.sized (writeEnd buf pos) := hwriter.fetched e rfl
  have hc := hwriter.copies (by rintro ⟨⟩)
  have harr := (hwriter.arrives (by rintro ⟨⟩)).mpr (by rintro ⟨⟩)
  have hdcache : x.dcache = s.world.dcache := congrArg Caches.dcache hcaches
  refine h.write_to hheld hf hx
    { h.beside with
      logs := h.beside.logs.saved file henv hread hc harr
      mirrors := ?_ } (fun p hp => ?_)
    (fun a g ha _ => h.spares_quiet hheld hf hx hdcache ha _)
    ⟨file, ?_, hcode, fun _ => hc, fun _ => iff_of_true harr ?_, ?_, ?_, ?_⟩ ?_
  · rw [hcaches]
    exact h.beside.mirrors.save file.lt ((f.sized_same _).trans file.same) file.kind
  · rw [hdcache]
    exact hp
  · change x.dcache f.path ≠ none
    rw [hdcache]
    exact hwriter.shown
  · rintro ⟨⟩
  · rintro ⟨⟩
  · rintro ⟨⟩
  · rintro e ⟨⟩
  · rw [← List.append_assoc]
    refine settles_settle h.settles hf hopen ?_ fun a ha => ?_
    · rw [Function.update_self]
      decide
    · rw [Function.update_of_ne ha]

/-- A write goes on. -/
theorem Tracks.write (h : s.Tracks w v u isOpen creates writes log) (hheld : s.Held held)
    {f : FileRef} {buf : List UInt8} {pos : Nat} {st : WriteStage}
    (hf : s.flight tid = some ⟨.write f.path buf pos, env, .call o k⟩)
    (hx : exec tid env o s.world = .done r x)
    (hwriter : WriteAt s.world.caches v s.world.owner tid f buf pos env (.call o k) st)
    (hopen : isOpen tid = st.isOpen) :
    ∃ b writes' log', Tracks w ⟨x, Function.update s.flight tid
      (some ⟨.write f.path buf pos, env, k r⟩), s.made⟩ v u (Function.update isOpen tid b)
      creates writes' log' := by
  obtain ⟨-, henv, -⟩ := h.flight tid _ _ _ hf
  have hv := h.beside.sound
  have hm := h.beside.mirrors
  have file := hwriter.file
  have hknows := hm.knows hv h.beside.extends_ file hwriter.shown
  have hsolo := solo_of_exec hx
  have hans := fileAnswers_of_solo hknows henv hsolo
  obtain ⟨st', hn, hrest⟩ := hwriter.code r hans
  have howns := owner_of_writeNext hn hans hx hwriter.owns
  have hb := hv.two_le_of_fileBlock file.fileBlock
  have heff := writeEffect_of_solo hn hsolo
  generalize hmx : x.caches = m' at heff
  generalize hst : st = st₀ at heff
  -- the actions that do nothing to the caches
  have hquiet : m' = s.world.caches → st'.isOpen = st.isOpen →
      (st' ≠ .start → Copies env f buf pos) →
      (st' ≠ .start → (Arrives env buf pos ↔ st' ≠ .faulted)) → (st' = .sized → st = .sized) →
      (∀ e, st' = .fetched e → e = f.sized (writeEnd buf pos)) →
      ∃ b writes' log', Tracks w ⟨x, Function.update s.flight tid
        (some ⟨.write f.path buf pos, env, k r⟩), s.made⟩ v u (Function.update isOpen tid b)
        creates writes' log' := by
    rintro rfl hsame hc ha hs hfe
    exact ⟨_, _, _, h.write_quiet hheld hf hx hwriter hopen (congrArg Caches.dcache hmx)
      (hmx ▸ hm) hsame hrest hc ha howns hs hfe⟩
  -- and leave the write at its stage
  have hstay : m' = s.world.caches → st = st' → ∃ b writes' log', Tracks w ⟨x, Function.update
      s.flight tid (some ⟨.write f.path buf pos, env, k r⟩), s.made⟩ v u
      (Function.update isOpen tid b) creates writes' log' := by
    rintro hsame rfl
    exact hquiet hsame rfl hwriter.copies hwriter.arrives id hwriter.fetched
  cases heff with
  | open_ => exact hstay rfl hst
  | flush => exact hstay rfl hst
  | wait => exact hstay rfl hst
  | search => exact hstay rfl hst
  | finish => exact hstay rfl hst
  | lock =>
      subst hst
      have hc := hwriter.copies (by rintro ⟨⟩)
      have harr := (hwriter.arrives (by rintro ⟨⟩)).mpr (by rintro ⟨⟩)
      refine hquiet rfl rfl (fun _ => hc) (fun _ => iff_of_true harr ?_) ?_ ?_
      · rintro ⟨⟩
      · rintro ⟨⟩
      · rintro e ⟨⟩
  | fetch hq =>
      subst hst
      have hc := hwriter.copies (by rintro ⟨⟩)
      have harr := (hwriter.arrives (by rintro ⟨⟩)).mpr (by rintro ⟨⟩)
      refine hquiet rfl rfl (fun _ => hc) (fun _ => iff_of_true harr ?_) ?_ ?_
      · rintro ⟨⟩
      · rintro ⟨⟩
      · rintro e ⟨⟩
        exact Option.some.inj (hq.symm.trans (hwriter.sized rfl))
  | copy hc harr =>
      refine ⟨_, _, _, h.write_quiet hheld hf hx hwriter hopen (congrArg Caches.dcache hmx) ?_
        (by rw [hst]; rfl) hrest (fun _ => hc) (fun _ => iff_of_true harr (by rintro ⟨⟩)) howns
        (by rintro ⟨⟩) (by rintro e ⟨⟩)⟩
      rw [hmx]
      exact hm.copy file.fileBlock hb pos _
  | fault hc hshort =>
      refine ⟨_, _, _, h.write_quiet hheld hf hx hwriter hopen (congrArg Caches.dcache hmx) ?_
        (by rw [hst]; rfl) hrest (fun _ => hc)
        (fun _ => iff_of_false hshort fun hne => hne rfl) howns (by rintro ⟨⟩)
        (by rintro e ⟨⟩)⟩
      rw [hmx]
      exact hm.copy file.fileBlock hb pos _
  | resize =>
      subst hst
      exact ⟨_, _, _, h.write_resize hheld hf hx hwriter hopen hmx hrest (howns trivial)⟩
  | save hread =>
      subst hst
      exact ⟨_, _, _, h.write_save hheld hf hx hwriter hopen hmx hread hrest⟩

/-- A call begins. -/
theorem Tracks.call (h : s.Tracks w v u isOpen creates writes log) (hidle : s.flight tid = none)
    (henv : ∀ site, env.interrupted site = false)
    (hat : At s.world.caches v u s.world.owner tid ⟨c, env, c.code⟩ true)
    (hnew : ∀ p, c.target = some p → ∀ a f, s.flight a = some f → f.call.target ≠ some p) :
    Tracks w ⟨s.world, Function.update s.flight tid (some ⟨c, env, c.code⟩),
      (tid, c, env) :: s.made⟩ v u (Function.update isOpen tid true) creates writes log := by
  have hother : ∀ {a f}, s.flight a = some f → a ≠ tid := by
    rintro a f ha rfl
    rw [hidle] at ha
    cases ha
  refine ⟨h.beside, h.resting.imp_right ?_, h.shown.keep ?_ (fun _ hp => hp) ?_, ?_, ?_, ?_⟩
  · rintro ⟨a, f, ha, hc, hown⟩
    refine ⟨a, f, ?_, hc, hown⟩
    dsimp only
    rw [Function.update_of_ne (hother ha)]
    exact ha
  · intro c' env' p y g heq
    exact absurd rfl (hother heq)
  · intro p z hz hnone
    rw [hz] at hnone
    cases hnone
  · intro a c' env' rest ha
    dsimp only at ha ⊢
    by_cases heq : a = tid
    · subst heq
      rw [Function.update_self] at ha ⊢
      cases ha
      exact ⟨List.mem_cons_self, henv, hat⟩
    · rw [Function.update_of_ne heq] at ha ⊢
      obtain ⟨hmem, henv', hold⟩ := h.flight a _ _ _ ha
      exact ⟨List.mem_cons_of_mem _ hmem, henv', hold⟩
  · intro a b' f g p ha hb hfp hgp
    dsimp only at ha hb
    by_cases hat' : a = tid
    · by_cases hbt : b' = tid
      · rw [hat', hbt]
      · subst hat'
        rw [Function.update_self] at ha
        rw [Function.update_of_ne hbt] at hb
        cases ha
        exact absurd hgp (hnew p hfp b' g hb)
    · rw [Function.update_of_ne hat'] at ha
      by_cases hbt : b' = tid
      · subst hbt
        rw [Function.update_self] at hb
        cases hb
        exact absurd hfp (hnew p hgp a f ha)
      · rw [Function.update_of_ne hbt] at hb
        exact h.distinct a b' f g p ha hb hfp hgp
  · refine settles_call h.settles hidle (Function.update_self _ _ _) fun a ha => ?_
    rw [Function.update_of_ne ha]

/-- The VFS makes a call. -/
theorem Tracks.promised (h : s.Tracks w v u isOpen creates writes log) (hidle : s.flight tid = none)
    (hl : s.Promised (.call tid c env)) :
    Tracks w ⟨s.world, Function.update s.flight tid (some ⟨c, env, c.code⟩),
      (tid, c, env) :: s.made⟩ v u (Function.update isOpen tid true) creates writes log := by
  -- a name without a dentry is new, or a task is about to add it
  have hcreate : ∀ {dir name mode}, c.makes = some (dir, name, mode) → s.world.Has dir .dir →
      ValidName name → s.world.dcache (name :: dir) = none →
      (∀ a f, s.flight a = some f → f.call.target ≠ some (name :: dir)) →
      CreateAt s.world.caches v c dir name mode := by
    intro dir name mode makes parent valid hnone hnew
    refine ⟨makes, valid, parent, ?_⟩
    cases hz : v.dcache (name :: dir) with
    | none => rfl
    | some z =>
        obtain ⟨y, hy, -⟩ := h.beside.extends_.dcache _ z hz
        rcases h.shown _ y hy with hin | ⟨a, c', env', y', g, ha, hc'⟩
        · exact absurd hnone hin
        · exact absurd hc' (hnew a _ ha)
  cases c with
  | write file buf pos =>
      obtain ⟨henv, hfile⟩ := hl
      obtain ⟨f, rfl, hf⟩ := h.beside.sound.fileAt (h.beside.has hfile)
      refine h.call hidle henv (.writing (k := .start) ⟨hf, ?_, ?_, ?_, ?_, ?_, ?_, ?_⟩) ?_
      · obtain ⟨y, hy, -⟩ := hfile
        rw [show s.world.caches.dcache f.path = some y from hy]
        exact Option.some_ne_none y
      · exact writes_simplefsWrite.bind fun _ _ hfinal => hfinal
      · exact fun hne => absurd rfl hne
      · exact fun hne => absurd rfl hne
      · exact fun hlocks => hlocks.elim
      · rintro ⟨⟩
      · rintro e ⟨⟩
      · rintro p ⟨⟩
  | create | mkdir =>
      obtain ⟨henv, dir, name, mode, makes, parent, valid, hnone, hnew⟩ := hl
      have hat := hcreate makes parent valid hnone hnew
      refine h.call hidle henv (.waiting hat rfl) fun p hp a f ha => ?_
      rw [hat.target] at hp
      exact Option.some.inj hp ▸ hnew a f ha
  | _ =>
      obtain ⟨-, dir, name, mode, ⟨⟩, -⟩ := hl

/-- A call that has taken effect returns. -/
theorem Tracks.gone (h : s.Tracks w v u isOpen creates writes log) (hheld : s.Held held)
    {reply : Reply} (hf : s.flight tid = some ⟨c, env, .ret reply⟩) (hlogs : Logs v writes' log)
    (hsettles : Settles s.made (creates ++ writes') (IsOpen ⟨s.world,
      Function.update s.flight tid none, s.made⟩ fun a => isOpen a = true)) :
    Tracks w ⟨s.world, Function.update s.flight tid none, s.made⟩ v u isOpen creates writes' log := by
  have hflight : ∀ {a f}, Function.update s.flight tid none a = some f → s.flight a = some f := by
    intro a f ha
    by_cases hat : a = tid
    · subst hat
      rw [Function.update_self] at ha
      cases ha
    · rwa [Function.update_of_ne hat] at ha
  refine ⟨{ h.beside with logs := hlogs }, h.resting.imp_right ?_, h.shown.keep ?_
    (fun _ hp => hp) ?_, ?_, ?_, hsettles⟩
  · rintro ⟨a, f, ha, hc, hown⟩
    refine ⟨a, f, ?_, hc, hown⟩
    dsimp only
    rw [Function.update_of_ne]
    · exact ha
    · rintro rfl
      exact hheld.disciplined.ret a (returns_iff.mpr ⟨c, env, reply, hf⟩) _ hown
  · intro c' env' p y g heq
    rw [hf] at heq
    cases heq
  · intro p z hz hnone
    rw [hz] at hnone
    cases hnone
  · exact fun a c' env' rest ha => h.flight a c' env' rest (hflight ha)
  · exact fun a b' f g p ha hb => h.distinct a b' f g p (hflight ha) (hflight hb)

theorem Tracks.ret (h : s.Tracks w v u isOpen creates writes log) (hheld : s.Held held)
    {reply : Reply} (hf : s.flight tid = some ⟨c, env, .ret reply⟩) :
    ∃ writes', Tracks w ⟨s.world, Function.update s.flight tid none, s.made⟩ v u isOpen creates
      writes' log := by
  obtain ⟨-, -, hat⟩ := h.flight tid _ _ _ hf
  generalize hopen : isOpen tid = b at hat
  -- a call that has taken effect
  have hdone : b = false → ∃ writes', Tracks w ⟨s.world, Function.update s.flight tid none, s.made⟩
      v u isOpen creates writes' log := by
    rintro rfl
    refine ⟨writes, h.gone hheld hf h.beside.logs (settles_ret h.settles ?_)⟩
    rw [hopen]
    decide
  cases hat with
  | waiting creator start =>
      obtain ⟨g, hg⟩ := code_eq_lock creator.makes
      have hret := start.trans hg
      cases hret
  | creating _ owns _ =>
      exact absurd owns (hheld.disciplined.ret tid (returns_iff.mpr ⟨c, env, reply, hf⟩) _)
  | adding _ last _ _ _ => cases last
  | created _ => exact hdone rfl
  | @writing f buf pos _ _ k writer =>
      have hfinal : k.Final env f buf pos := writer.code
      -- a write that has stored nothing takes effect now
      have hlost : ¬ (Copies env f buf pos ∧ Arrives env buf pos) → k.isOpen = true →
          ∃ writes', Tracks w ⟨s.world, Function.update s.flight tid none, s.made⟩ v u isOpen
            creates writes' log := by
        intro hfails hk
        refine ⟨writes ++ [(tid, .write f.path buf pos, env)],
          h.gone hheld hf (h.beside.logs.lost writer.file hfails) ?_⟩
        rw [← List.append_assoc]
        exact settles_settle_ret h.settles hf (hopen.trans hk)
      cases k with
      | start => exact hlost (fun hboth => hfinal hboth.1) rfl
      | faulted =>
          refine hlost (fun hboth => ?_) rfl
          exact (writer.arrives (by rintro ⟨⟩)).mp hboth.2 rfl
      | saved => exact hdone rfl
      | copied | locked | sized | fetched => exact hfinal.elim

/-- A call performs its next action. -/
theorem Tracks.act (h : s.Tracks w v u isOpen creates writes log) (hheld : s.Held held)
    (hf : s.flight tid = some ⟨c, env, .call o k⟩) (hx : exec tid env o s.world = .done r x) :
    ∃ v u isOpen creates writes log, Tracks w ⟨x, Function.update s.flight tid
      (some ⟨c, env, k r⟩), s.made⟩ v u isOpen creates writes log := by
  obtain ⟨-, -, hat⟩ := h.flight tid _ _ _ hf
  generalize hopen : isOpen tid = b at hat
  cases hat with
  | waiting creator start => exact ⟨_, _, _, _, _, _, h.lock hheld hf hx creator start hopen⟩
  | creating creator owns steps =>
      by_cases ho : o = .mutexUnlock .directoryChildrenUpdateLock
      · subst ho
        obtain ⟨v', h'⟩ := h.commit hheld hf hx creator owns steps hopen
        exact ⟨_, _, _, _, _, _, h'⟩
      · obtain ⟨u', h'⟩ := h.create hheld hf hx creator owns steps hopen ho
        exact ⟨_, _, _, _, _, _, h'⟩
  | adding target last end_ missing made =>
      cases last
      exact ⟨_, _, _, _, _, _, h.add hheld hf hx target end_ missing made hopen⟩
  | created end_ => cases end_
  | writing writer =>
      obtain ⟨b, writes', log', h'⟩ := h.write hheld hf hx writer hopen
      exact ⟨_, _, _, _, _, _, h'⟩

theorem Tracks.moves {l : Label} (h : s.Tracks w v u isOpen creates writes log)
    (hheld : s.Held held) (hm : s.Moves l t) (hl : s.Promised l) :
    ∃ v u isOpen creates writes log, t.Tracks w v u isOpen creates writes log := by
  cases hm with
  | call hidle _ => exact ⟨_, _, _, _, _, _, h.promised hidle hl⟩
  | act hf hx => exact h.act hheld hf hx
  | ret hf =>
      obtain ⟨writes', h'⟩ := h.ret hheld hf
      exact ⟨_, _, _, _, _, _, h'⟩

/-- No acquisition is interrupted. -/
theorem Tracks.handled (h : s.Tracks w v u isOpen creates writes log) (l : Label) :
    s.Handled l := by
  cases l with
  | call | ret => trivial
  | act tid =>
      intro site hsite
      unfold interruptedAt at hsite
      split at hsite
      · rename_i c env site' k hf
        obtain ⟨-, henv, -⟩ := h.flight tid _ _ _ hf
        rw [henv site', if_neg (by decide)] at hsite
        cases hsite
      · cases hsite

theorem tracks_idle (hw : w.caches.Sound) (hfree : ∀ m, w.owner m = none) :
    (idle w).Tracks w w.caches w.caches (fun _ => false) [] [] [] := by
  refine ⟨⟨hw, ⟨w, rfl, rfl, hfree⟩, .nil, hw.extends_refl, fun _ hp => hp, .refl hw⟩, .inl rfl,
    fun p z hz => .inl ?_, ?_, ?_, Settles.nil ?_⟩
  · rw [show (idle w).world.dcache p = some z from hz]
    exact Option.some_ne_none z
  · intro tid c env rest hf
    cases hf
  · intro a b f g p ha
    cases ha
  · rintro a x ⟨-, rest, hf⟩
    cases hf

theorem tracks_of_reaches (hw : w.caches.Sound) (hfree : ∀ m, w.owner m = none)
    (h : LinuxDevelopment.Reaches Tasks.step Promised (idle w) t) : (∃ held, t.Held held) ∧
      ∃ v u isOpen creates writes log, t.Tracks w v u isOpen creates writes log := by
  refine h.invariant (P := fun t => (∃ held, t.Held held) ∧
    ∃ v u isOpen creates writes log, t.Tracks w v u isOpen creates writes log) ?_ ?_
  · exact ⟨held_of_reaches hfree .refl, _, _, _, _, _, _, tracks_idle hw hfree⟩
  · rintro s t l - ⟨⟨held, hheld⟩, v, u, isOpen, creates, writes, log, hs⟩ hl hst
    have hm := moves_of_step hst
    exact ⟨hheld.moves hm (hs.handled l), hs.moves hheld hm hl⟩

/-- The serial run: the creates, and then the writes. -/
theorem Tracks.sameMetadata (h : t.Tracks w v u isOpen creates writes log)
    (hdone : ∀ x ∈ t.made, t.flight x.1 = none) :
    ∃ order w', order.Perm t.made ∧ runSerially w order = some w' ∧ t.world.SameMetadata w' := by
  have hidle : ∀ a, t.flight a = none := by
    intro a
    cases ha : t.flight a with
    | none => rfl
    | some f =>
        have hnone := hdone _ (h.flight a f.call f.env f.rest ha).1
        rw [ha] at hnone
        cases hnone
  have hresting : u = v := by
    refine h.resting.resolve_right ?_
    rintro ⟨a, f, ha, -⟩
    rw [hidle a] at ha
    cases ha
  have hperm : t.made.Perm (creates ++ writes) := by
    refine h.settles.perm ?_
    rintro a x ⟨-, rest, ha⟩
    rw [hidle a] at ha
    cases ha
  obtain ⟨w₁, hcreates, hcaches, hfree⟩ := h.beside.serial
  obtain ⟨w', hwrites, hm, -⟩ := h.beside.logs.runSerially h.beside.sound hcaches hfree
  refine ⟨creates ++ writes, w', hperm.symm, ?_, ?_⟩
  · rw [runSerially_append, hcreates]
    exact hwrites
  · have hmirrors := h.beside.mirrors
    rw [hresting] at hmirrors
    exact hmirrors.sameMetadata hm h.beside.sound

end Steps

/-- Creates and writes of any number of tasks never wait for each other in a
circle, and when all have returned, the metadata are those of the same calls made
one after the other, in some order. -/
theorem sameMetadata_of_reaches {w : World} {t : Tasks} (hw : w.caches.Sound)
    (hfree : ∀ m, w.owner m = none) (h : LinuxDevelopment.Reaches Tasks.step Promised (idle w) t) :
    (∀ tid, ¬ Relation.TransGen t.Waits tid tid) ∧
      ((∀ x ∈ t.made, t.flight x.1 = none) → ∃ order w', order.Perm t.made ∧
        runSerially w order = some w' ∧ t.world.SameMetadata w') := by
  obtain ⟨⟨held, hheld⟩, v, u, isOpen, creates, writes, log, htracks⟩ :=
    tracks_of_reaches hw hfree h
  exact ⟨hheld.not_waits_cycle, htracks.sameMetadata⟩

/-- Three tasks have begun to create a file, to make a directory and to write. -/
def threeTasks : Tasks where
  world := emptyFile
  flight := Function.update (Function.update (Function.update (fun _ => none)
    0 (some ⟨.create [] [98] 0o100644, .quiet, (Call.create [] [98] 0o100644).code⟩))
    1 (some ⟨.mkdir [] [99] 0o755, .quiet, (Call.mkdir [] [99] 0o755).code⟩))
    2 (some ⟨.write [[97]] [100, 101] 0, .quiet, (Call.write [[97]] [100, 101] 0).code⟩)
  made := [(2, .write [[97]] [100, 101] 0, .quiet), (1, .mkdir [] [99] 0o755, .quiet),
    (0, .create [] [98] 0o100644, .quiet)]

theorem reaches_threeTasks :
    LinuxDevelopment.Reaches Tasks.step Promised (idle emptyFile) threeTasks := by
  have hroot : emptyFile.Has [] .dir := by decide +kernel
  have hcalm : ∀ site, Env.quiet.interrupted site = false := fun _ => rfl
  refine ((LinuxDevelopment.Reaches.refl.next
    (l := .call 0 (.create [] [98] 0o100644) .quiet) ?_ rfl).next
    (l := .call 1 (.mkdir [] [99] 0o755) .quiet) ?_ rfl).next
    (l := .call 2 (.write [[97]] [100, 101] 0) .quiet) ?_ rfl
  · refine ⟨hcalm, [], [98], _, rfl, hroot, by decide, by decide +kernel, ?_⟩
    intro tid f hf
    cases hf
  · refine ⟨hcalm, [], [99], _, rfl, hroot, by decide, by decide +kernel, ?_⟩
    intro tid f hf
    change Function.update (fun _ => none) 0 _ tid = some f at hf
    by_cases htid : tid = 0
    · rw [htid, Function.update_self] at hf
      cases hf
      decide
    · rw [Function.update_of_ne htid] at hf
      cases hf
  · exact ⟨hcalm, by decide +kernel⟩

/-- The write has copied before the others begin, and is done while the directory
is being made. The file gets its dentry last. -/
def threeTasksEnd : List Label :=
  acts 5 2 ++ acts 44 0 ++ acts 4 1 ++ acts 14 2 ++ acts 41 1 ++ acts 1 0 ++
    [.ret 0, .ret 1, .ret 2]

theorem sameMetadata_threeTasks : ∃ t,
    LinuxDevelopment.Reaches Tasks.step Promised (idle emptyFile) t ∧
    (∀ x ∈ t.made, t.flight x.1 = none) ∧ ∃ order w', order.Perm t.made ∧
      runSerially emptyFile order = some w' ∧ t.world.SameMetadata w' := by
  have hx : (replay Tasks.step threeTasksEnd threeTasks).any (fun t => decide
      (∀ x ∈ t.made, t.flight x.1 = none)) = true := by decide +kernel
  obtain ⟨t, ht, hdone⟩ := exists_of_replay_any hx
  have hreach : LinuxDevelopment.Reaches Tasks.step Promised (idle emptyFile) t := by
    refine reaches_threeTasks.trans (.of_replay ?_ ht)
    intro l hl s
    simp only [threeTasksEnd, acts, List.mem_append, List.mem_cons, List.mem_replicate,
      List.not_mem_nil, or_false] at hl
    rcases hl with (((((⟨-, rfl⟩ | ⟨-, rfl⟩) | ⟨-, rfl⟩) | ⟨-, rfl⟩) | ⟨-, rfl⟩) | ⟨-, rfl⟩) |
      rfl | rfl | rfl
    all_goals trivial
  obtain ⟨es, hrun, hcalm⟩ := run_emptyFile
  obtain ⟨v, hs, -⟩ := hrun.settled_of_mkfs hcalm
  exact ⟨t, hreach, hdone, (sameMetadata_of_reaches hs.sound hs.unowned hreach).2 hdone⟩

end Tasks

end LinuxDevelopment.Simplefs
