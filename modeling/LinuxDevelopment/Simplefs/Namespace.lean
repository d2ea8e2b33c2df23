import LinuxDevelopment.Simplefs.Tree

/-!
# simplefs: the name space refines a tree of objects

In a calm run the tree on the device is the specification of the mounted file
system: a successful `create` or `mkdir` inserts one empty object into it, a
lookup through the in-memory inodes answers what a walk over the blocks finds,
and a remount answers the same.
-/

namespace LinuxDevelopment.Simplefs

open Volume

/-- The inode the VFS gets for a store entry. -/
def SimplefsInode.vfs (e : SimplefsInode) : VfsInode := ⟨e.inodeNo, fopOf e.mode, some e⟩

section Device

variable {w w' : World} {v : Volume} {dir p : Path} {i j : Nat} {e : SimplefsInode} {name : Name}

/-- The blocks on the device hold the volume of a settled state. -/
theorem World.Settled.written (h : w.Settled v) : (v.onDevice w.media).Written w.media where
  wf := h.onDevice_wf
  shows := h.onDevice_shows
  saved := by
    intro i hi
    rw [h.entryAt_media]
    exact h.saved i hi

theorem World.Settled.walk_of_leads (h : w.Settled v) (hl : v.Leads p i) :
    walk w.media p = some (v.entry i) :=
  h.written.walk_of_leads (h.onDevice_leads.mpr hl)

theorem World.Settled.walk_eq_none (h : w.Settled v) (hne : ∀ i, ¬ v.Leads p i) :
    walk w.media p = none := by
  cases hw : walk w.media p with
  | none => rfl
  | some e =>
      obtain ⟨i, hl, -⟩ := h.written.leads_of_walk hw
      exact absurd (h.onDevice_leads.mp hl) (hne i)

theorem World.Settled.onDevice_creatable (h : w.Settled v) (c : v.alloc.Creatable i e name) :
    (v.onDevice w.media).alloc.Creatable i e name where
  add := ⟨c.add.room, c.add.ino, c.add.placed, c.add.taken, c.add.unused, c.add.kind, c.add.empty⟩
  valid := c.valid
  lt := c.lt
  dir := c.dir
  room := c.room
  new := by
    intro k hk
    have hname : (v.onDevice w.media).alloc.childName i k = v.childName i k :=
      (h.onDevice_child hk).2
    rw [hname]
    exact c.new k hk

/-- A successful call inserts one empty object into the tree on the device. -/
theorem World.Settled.tree_created (h : w.Settled v) (c : v.alloc.Creatable i e name)
    (hl : v.Leads dir i) (hp : w.dcache dir = some (v.inode i)) :
    tree (w.created dir i (v.entry i) e name).media =
      (tree w.media).insert dir name (.empty e.inodeNo e.mode) := by
  have hnew := (h.created c hl hp).written.represents
  have hdir : (v.onDevice w.media).alloc.Leads dir i := (h.onDevice_leads.mpr hl).alloc
  have hins := h.written.represents.alloc.created h.onDevice_wf.alloc (h.onDevice_creatable c) hdir
  refine hnew.unique (hins.congr rfl (fun _ _ => rfl) ?_)
  intro j hj
  have hge : 2 ≤ ((v.alloc.created i e name).entry j).dataBlockNumber.toNat :=
    (c.wf h.wf.alloc).block_ge j hj
  have hblock : w.cache (v.entry i).dataBlockNumber.toNat =
      w.media (v.entry i).dataBlockNumber.toNat := by
    rw [h.media_of_dir hl.lt c.dir, h.data_eq hl.lt]
  change (w.created dir i (v.entry i) e name).media
    ((v.alloc.created i e name).entry j).dataBlockNumber.toNat = _
  rw [World.created_media_of_ge (h.wf.block_ge i hl.lt) hge, hblock]
  unfold data
  rw [created_block (v := (v.onDevice w.media).alloc) hl.lt]
  rfl

end Device

section Lookup

variable {w : World} {v : Volume} {dir p : Path} {i : Nat} {name : Name} {env : Env}

/-- What the resolution of the path `p` has found, and that it has changed nothing
but dentries. -/
structure Resolved (w : World) (v : Volume) (p : Path) (r : Option VfsInode) (w' : World) :
    Prop where
  settled : w'.Settled v
  cache : w'.cache = w.cache
  media : w'.media = w.media
  found : (∃ i, v.Leads p i ∧ r = some (v.inode i) ∧ w'.dcache p = some (v.inode i)) ∨
    ((∀ i, ¬ v.Leads p i) ∧ r = none)

/-- One name, from its dentry or by a call of `simplefs_lookup`. -/
theorem World.Settled.lookupOne (h : w.Settled v) (tid : Nat) (hc : env.Calm)
    (halloc : env.newInodeFails = false) (hn : ValidName name) (hl : v.Leads dir i)
    (hd : sIsdir (v.entry i).mode = true) (hp : w.dcache dir = some (v.inode i)) :
    ∃ r w', w.lookupOne tid env dir name = .done r w' ∧ Resolved w v (name :: dir) r w' := by
  unfold World.lookupOne
  cases hx : w.dcache (name :: dir) with
  | some x =>
      obtain ⟨j, hlj, rfl⟩ := h.cached _ _ hx
      exact ⟨_, w, rfl, h, rfl, rfl, .inl ⟨j, hlj, rfl, hx⟩⟩
  | none =>
      have hq : w.simplefsInode dir = some (v.entry i) := by
        unfold World.simplefsInode
        rw [hp]
        rfl
      rcases @run_lookup tid _ _ _ _ _ _ h.toModels hc.breadOk hn hl hd hq hx with
        ⟨hnew, hrun⟩ | ⟨j, hlj, hrun⟩
      · refine ⟨none, w, ?_, h, rfl, rfl, .inr ⟨hl.not_child_of_new h.wf hnew, rfl⟩⟩
        simp only [hrun, Outcome.bind_done, hx]
      · have hself : (w.dAdd (name :: dir) (v.inode j)).dcache (name :: dir) =
            some (v.inode j) := Function.update_self _ _ _
        refine ⟨some (v.inode j), w.dAdd (name :: dir) (v.inode j), ?_, h.dAdd hlj, rfl, rfl,
          .inl ⟨j, hlj, rfl, hself⟩⟩
        simp only [hrun, halloc, Bool.false_eq_true, if_false, Outcome.bind_done, hself]

/-- A path of valid names is resolved to the entry it leads to. -/
theorem World.Settled.pathLookup (h : w.Settled v) (tid : Nat) (hc : env.Calm)
    (halloc : env.newInodeFails = false) (hm : w.dcache [] ≠ none)
    (hp : ∀ name ∈ p, ValidName name) :
    ∃ r w', w.pathLookup tid env p = .done r w' ∧ Resolved w v p r w' := by
  induction p with
  | nil =>
      obtain ⟨x, hx⟩ := Option.ne_none_iff_exists'.mp hm
      obtain ⟨i, hl, rfl⟩ := h.cached _ _ hx
      exact ⟨w.dcache [], w, rfl, h, rfl, rfl, .inl ⟨i, hl, hx, hx⟩⟩
  | cons name dir ih =>
      obtain ⟨r, w₁, hrun, hres⟩ := ih fun n hn => hp n (List.mem_cons_of_mem _ hn)
      unfold World.pathLookup
      rw [hrun, Outcome.bind_done]
      rcases hres.found with ⟨i, hl, rfl, hdc⟩ | ⟨hne, rfl⟩
      · cases hd : sIsdir (v.entry i).mode with
        | true =>
            have hfop : (some (v.inode i)).bind VfsInode.iFop = some .dir := fopOf_eq_dir.mpr hd
            obtain ⟨r, w₂, hone, hres₂⟩ := hres.settled.lookupOne tid hc halloc
              (hp name List.mem_cons_self) hl hd hdc
            rw [if_pos hfop, hone]
            exact ⟨r, w₂, rfl, hres₂.settled, hres₂.cache.trans hres.cache,
              hres₂.media.trans hres.media, hres₂.found⟩
        | false =>
            have hfop : (some (v.inode i)).bind VfsInode.iFop ≠ some .dir := by
              intro heq
              have hdir := fopOf_eq_dir.mp heq
              rw [hd] at hdir
              cases hdir
            rw [if_neg hfop]
            exact ⟨none, w₁, rfl, hres.settled, hres.cache, hres.media,
              .inr ⟨hl.not_child_of_not_dir h.wf hd, rfl⟩⟩
      · exact ⟨none, w₁, rfl, hres.settled, hres.cache, hres.media,
          .inr ⟨fun j hj => hj.parent.elim hne, rfl⟩⟩

/-- The resolution of a path answers what the walk over the device finds. -/
theorem Resolved.eq_walk {r : Option VfsInode} {w' : World} (hr : Resolved w v p r w')
    (h : w.Settled v) : r = (walk w.media p).map SimplefsInode.vfs := by
  rcases hr.found with ⟨i, hl, rfl, -⟩ | ⟨hne, rfl⟩
  · rw [h.walk_of_leads hl]
    rfl
  · rw [h.walk_eq_none hne]
    rfl

end Lookup

/-- The calls that only look. -/
def Call.observes : Call → Bool
  | .lookup .. | .iterate .. | .read .. => true
  | _ => false

theorem Call.makes_of_observes {c : Call} (h : c.observes = true) : c.makes = none := by
  cases c with
  | lookup | iterate | read => rfl
  | mount | unmount | create | mkdir | write => cases h

/-- In the state `w` the file system behaves as the tree on the device. The clauses
for lookups and the mount are about a kernel whose `new_inode` does not fail. -/
structure RefinesTree (w : World) : Prop where
  /-- a successful call adds one empty object with the requested mode under a new number -/
  create : ∀ {tid : Nat} {env : Env} {c : Call} {dir name mode w'}, env.Calm →
    c.makes = some (dir, name, mode) → c.Allowed w → c.run tid env w = .done (.ret 0) w' →
    (∃ d children, tree w.media dir = some d ∧ d.body = .dir children) ∧
      tree w.media (name :: dir) = none ∧
      ∃ ino, (∀ p x, tree w.media p = some x → x.ino ≠ ino) ∧
        tree w'.media = (tree w.media).insert dir name (.empty ino mode.toUInt32)
  observe : ∀ {tid : Nat} {env : Env} {c : Call} {r w'}, env.Calm → c.observes = true →
    c.Allowed w → c.run tid env w = .done r w' → tree w'.media = tree w.media
  /-- a name in a directory that is in memory -/
  lookup : ∀ {dir name}, w.Has dir .dir → ValidName name → ∀ tid {env}, Env.Calm env →
    env.newInodeFails = false → ∃ w', w.lookupOne tid env dir name =
      .done ((walk w.media (name :: dir)).map SimplefsInode.vfs) w' ∧ tree w'.media = tree w.media
  /-- a path from the root -/
  path : w.dcache [] ≠ none → ∀ {p : Path}, (∀ name ∈ p, ValidName name) →
    ∀ tid {env}, Env.Calm env → env.newInodeFails = false → ∃ w', w.pathLookup tid env p =
      .done ((walk w.media p).map SimplefsInode.vfs) w' ∧ tree w'.media = tree w.media
  remount : w.dcache [] ≠ none → ∀ tid {env}, Env.Calm env → env.newInodeFails = false →
    ∃ w', Call.mount.run tid env w.unmount = .done (.ret 0) w' ∧ tree w'.media = tree w.media ∧
      ∀ p, (∀ name ∈ p, ValidName name) →
        (w'.pathLookup tid env p).value? = (w.pathLookup tid env p).value?

section Refines

variable {w w' : World} {v : Volume} {tid : Nat} {env : Env} {c : Call} {r : Reply}
  {dir : Path} {name : Name} {mode : UInt16}

theorem World.Settled.refines_create (h : w.Settled v) (hc : env.Calm)
    (hm : c.makes = some (dir, name, mode)) (ha : c.Allowed w)
    (hrun : c.run tid env w = .done (.ret 0) w') :
    (∃ d children, tree w.media dir = some d ∧ d.body = .dir children) ∧
      tree w.media (name :: dir) = none ∧
      ∃ ino, (∀ p x, tree w.media p = some x → x.ino ≠ ino) ∧
        tree w'.media = (tree w.media).insert dir name (.empty ino mode.toUInt32) := by
  have hrep := h.written.represents
  obtain ⟨v', hstep⟩ := h.step hc ha hrun
  generalize hreply : Reply.ret 0 = reply at hstep
  cases hstep with
  | mount | unmount | miss | hit | iterate | read | tooBig | fault | wrote => cases hm
  | refused _ neg =>
      cases hreply
      exact absurd neg (by decide)
  | @created _ dir' name' mode' i makes leads cached cond =>
      cases hm.symm.trans makes
      have hdir := h.onDevice_leads.mpr leads
      refine ⟨⟨_, _, hrep.present dir i hdir, if_pos cond.dir⟩, ?_, _, ?_,
        h.tree_created cond leads cached⟩
      · apply hrep.absent
        intro j hj
        exact leads.not_child_of_new h.wf cond.new j (h.onDevice_leads.mp hj)
      · intro p x hx
        by_cases hp : ∃ j, (v.onDevice w.media).Leads p j
        · obtain ⟨j, hj⟩ := hp
          rw [hrep.present p j hj, Option.some.injEq] at hx
          rw [← hx]
          exact cond.add.ino_ne (v := v.alloc) h.wf.alloc.toStoreWf (h.onDevice_leads.mp hj).lt
        · rw [hrep.absent p fun j hj => hp ⟨j, hj⟩] at hx
          cases hx

theorem World.Settled.refines_observe (h : w.Settled v) (hc : env.Calm)
    (ho : c.observes = true) (ha : c.Allowed w) (hrun : c.run tid env w = .done r w') :
    tree w'.media = tree w.media := by
  obtain ⟨v', hstep⟩ := h.step hc ha hrun
  cases hstep with
  | miss | hit | iterate | read => rfl
  | mount | unmount | tooBig | fault | wrote => cases ho
  | refused makes _ => simp [Call.makes_of_observes ho] at makes
  | created makes _ _ _ => simp [Call.makes_of_observes ho] at makes

theorem World.Settled.refines_path (h : w.Settled v) (hm : w.dcache [] ≠ none) {p : Path}
    (hp : ∀ name ∈ p, ValidName name) (tid : Nat) (hc : env.Calm)
    (halloc : env.newInodeFails = false) :
    ∃ w', w.pathLookup tid env p = .done ((walk w.media p).map SimplefsInode.vfs) w' ∧
      tree w'.media = tree w.media := by
  obtain ⟨r, w', hrun, hres⟩ := h.pathLookup tid hc halloc hm hp
  rw [← hres.eq_walk h]
  exact ⟨w', hrun, congrArg tree hres.media⟩

/-- What was on the device is mounted again. -/
theorem World.Settled.remount (h : w.Settled v) (tid : Nat) (hc : env.Calm)
    (halloc : env.newInodeFails = false) :
    ∃ w', Call.mount.run tid env w.unmount = .done (.ret 0) w' ∧
      w'.Settled (v.onDevice w.media) ∧ w'.media = w.media ∧ w'.dcache [] ≠ none := by
  have hu := h.unmount
  obtain ⟨i, hl, hmount⟩ := @run_mount tid _ _ _ hu.toModels hc.breadOk hu.magic hu.blockSize rfl
  refine ⟨w.unmount.dAdd [] ((v.onDevice w.media).inode i), ?_, hu.dAdd hl, ?_, by simp⟩
  · simp only [Call.run, Call.code, Prog.run_bind, hmount, halloc]
    rfl
  · funext b
    simp [World.unmount, h.clean b]

/-- After a remount the device is the same and every path is resolved from it. -/
theorem World.Settled.refines_remount (h : w.Settled v) (hm : w.dcache [] ≠ none) (tid : Nat)
    (hc : env.Calm) (halloc : env.newInodeFails = false) :
    ∃ w', Call.mount.run tid env w.unmount = .done (.ret 0) w' ∧ tree w'.media = tree w.media ∧
      ∀ p, (∀ name ∈ p, ValidName name) →
        (w'.pathLookup tid env p).value? = (w.pathLookup tid env p).value? := by
  obtain ⟨w', hmount, h', hmedia, hroot⟩ := h.remount tid hc halloc
  refine ⟨w', hmount, congrArg tree hmedia, ?_⟩
  intro p hp
  obtain ⟨w₁, hw₁, -⟩ := h'.refines_path hroot hp tid hc halloc
  obtain ⟨w₂, hw₂, -⟩ := h.refines_path hm hp tid hc halloc
  rw [hw₁, hw₂, hmedia]
  rfl

end Refines

/-- In every state of every calm run the mounted file system refines the tree on
the device. -/
theorem refinesTree_of_calmRun {dev : Image} {es : List Event} {w : World}
    (hrun : Run (World.ofImage (mkfs dev)) es w) (hc : CalmRun es) : RefinesTree w := by
  obtain ⟨v, h, -⟩ := hrun.settled_of_mkfs hc
  constructor
  case create => exact fun hcalm hm ha hr => h.refines_create hcalm hm ha hr
  case observe => exact fun hcalm ho ha hr => h.refines_observe hcalm ho ha hr
  case lookup =>
    intro dir name hd hn tid env hcalm halloc
    obtain ⟨i, hl, hdc, -, hfop⟩ := h.toModels.simplefsInode hd
    obtain ⟨r, w', hone, hres⟩ := h.lookupOne tid hcalm halloc hn hl (fopOf_eq_dir.mp hfop) hdc
    rw [← hres.eq_walk h]
    exact ⟨w', hone, congrArg tree hres.media⟩
  case path => exact fun hm _ hp tid _ hcalm halloc => h.refines_path hm hp tid hcalm halloc
  case remount => exact fun hm tid _ hcalm halloc => h.refines_remount hm tid hcalm halloc

/-- After the calls of `sampleCalls` and a mount, the path `a/b` is resolved. -/
theorem refinesTree_sampleCalls : ∃ es w, Run (World.ofImage (mkfs fun _ _ => 0xAA)) es w ∧
    CalmRun es ∧ w.dcache [] ≠ none ∧ (walk w.media [[98], [97]]).map (·.inodeNo) = some 11 ∧
    RefinesTree w := by
  have hx : (runCalls (World.ofImage (mkfs fun _ _ => 0xAA))
      (quietly (sampleCalls ++ [.mount]))).map (fun x => ((x.2.dcache []).isSome,
        (walk x.2.media [[98], [97]]).map (·.inodeNo))) = some (true, some 11) := by decide +kernel
  obtain ⟨⟨es, w⟩, hcalls, heq⟩ := Option.map_eq_some_iff.mp hx
  obtain ⟨hmounted, hwalk⟩ := Prod.mk.inj heq
  have hrun := run_of_runCalls hcalls
  have hcalm : CalmRun es := env_of_runCalls hcalls (env_quietly Env.calm_quiet _)
  exact ⟨es, w, hrun, hcalm, Option.isSome_iff_ne_none.mp hmounted, hwalk,
    refinesTree_of_calmRun hrun hcalm⟩

end LinuxDevelopment.Simplefs
