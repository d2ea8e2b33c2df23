import LinuxDevelopment.Simplefs.AnyRun

/-!
# simplefs: calls of `create` and `mkdir` that fail

A call that fails before it takes a block out of the free map changes nothing.
One that fails later, at the lock for the parent or while the parent is saved,
has taken the block already, and nothing gives it back: the comment in the
source lists what is still to be undone.
-/

namespace LinuxDevelopment.Simplefs

/-- The list of a directory that is reached through lookups from the root. -/
def World.listPath (w : World) (tid : Nat) (env : Env) (p : Path) (pos : Nat) :
    Outcome World Trap Reply :=
  (w.pathLookup tid env p).bind fun _ w' => (Call.iterate p pos).run tid env w'

/-- The state when the file system has been unmounted and mounted again. -/
def World.remounted (w : World) (tid : Nat) (env : Env) : World :=
  (Call.mount.run tid env w.unmount).state

/-- What can be seen of the metadata is the same in both states. -/
structure World.SameView (w w' : World) : Prop where
  count : inodesCount w'.cache = inodesCount w.cache
  free : freeBlocks w'.cache = freeBlocks w.cache
  entries : ∀ i < (inodesCount w.cache).toNat, entryAt w'.cache i = entryAt w.cache i
  lookup : ∀ tid env dir name, (w'.lookupOne tid env dir name).value? =
    (w.lookupOne tid env dir name).value?
  iterate : ∀ tid env dir pos, ((Call.iterate dir pos).run tid env w').value? =
    ((Call.iterate dir pos).run tid env w).value?
  remountedLookup : ∀ tid env p, ((w'.remounted tid env).pathLookup tid env p).value? =
    ((w.remounted tid env).pathLookup tid env p).value?
  remountedIterate : ∀ tid env p pos, ((w'.remounted tid env).listPath tid env p pos).value? =
    ((w.remounted tid env).listPath tid env p pos).value?

theorem World.SameView.refl (w : World) : w.SameView w :=
  ⟨rfl, rfl, fun _ _ => rfl, fun _ _ _ _ => rfl, fun _ _ _ _ => rfl, fun _ _ _ => rfl,
    fun _ _ _ _ => rfl⟩

section Create

variable {tid : Nat} {env : Env} {w w' : World} {dir : Path} {q : SimplefsInode} {name : Name}
  {mode : UInt16} {r : Int}

/-- The free map once a block has been taken. -/
theorem freeBlocks_recorded (hq : 2 ≤ q.dataBlockNumber.toNat) :
    freeBlocks (w.recorded tid env q mode name).cache = freeAfter (freeBlocks w.cache) := by
  unfold World.recorded afterAdd
  rw [World.addRecord_cache, freeBlocks_update hq]
  split_ifs
  · rw [World.allocBlock_cache, freeBlocks_setFree]
    rfl
  · rw [World.setOwner_cache, World.allocBlock_cache, freeBlocks_setFree]
    rfl
  · rw [World.addInode_cache, freeBlocks_setCount, freeBlocks_setEntry, World.allocBlock_cache,
      freeBlocks_setFree]
    rfl

theorem World.Sane.create_sameView_iff (h : w.Sane) (hd : w.Has dir .dir) (hn : ValidName name)
    (hrun : (simplefsCreateFsObject dir name mode).run (exec tid env) w = .done r w')
    (hr : r < 0) : w.SameView w' ↔ ¬ w.Allocates env mode := by
  obtain ⟨q, hq, hq2⟩ := h.simplefsInode hd
  have hlate : w.Allocates env mode →
      freeBlocks w'.cache = freeBlocks (w.recorded tid env q mode name).cache →
      (w.SameView w' ↔ ¬ w.Allocates env mode) := by
    intro alloc hfree
    refine iff_of_false ?_ (not_not.mpr alloc)
    intro hsame
    apply freeAfter_ne alloc.freeblock
    calc
      freeAfter (freeBlocks w.cache) = freeBlocks w'.cache := by
        rw [hfree, freeBlocks_recorded hq2]
      _ = freeBlocks w.cache := hsame.free
  cases create_cases hn hq hq2 hrun with
  | refused _ early => exact iff_of_true (.refl w) early
  | released site =>
      rw [World.setOwner_eq_self h.sbLock]
      refine iff_of_true (.refl w) ?_
      intro alloc
      rw [alloc.sbGetAFreeblock] at site
      cases site
  | uncounted alloc => exact hlate alloc rfl
  | unsaved _ alloc => exact hlate alloc rfl
  | created => exact absurd hr (Int.lt_irrefl 0)

/-- In every state a run can reach, a failing call leaves everything as it was
exactly if it failed before it took a block out of the free map. -/
theorem sameView_iff_of_run {dev : Image} {es : List Event} {c : Call}
    (h : Run (World.ofImage (mkfs dev)) es w) (hm : c.makes = some (dir, name, mode))
    (ha : c.Allowed w) (hrun : c.run tid env w = .done (.ret r) w') (hr : r < 0) :
    w.SameView w' ↔ ¬ w.Allocates env mode := by
  have hcreate : ∀ {d n m}, w.Has d .dir → ValidName n →
      (simplefsCreateFsObject d n m >>= fun x => pure (Reply.ret x) : Code Reply).run
        (exec tid env) w = .done (.ret r) w' → (w.SameView w' ↔ ¬ w.Allocates env m) := by
    intro d n m hd hn hx
    obtain ⟨x, u, hc, hret⟩ := (Prog.run_bind_eq_done _).mp hx
    cases hret
    exact h.sane.create_sameView_iff hd hn hc hr
  cases c with
  | create =>
      cases hm
      exact hcreate ha.1 ha.2.1 hrun
  | mkdir =>
      cases hm
      exact hcreate ha.1 ha.2.1 hrun
  | _ => cases hm

end Create

/-- A call that is interrupted at the lock for the parent fails with `-EINTR`,
and keeps a block and an entry of the store. -/
theorem not_sameView_interrupted :
    (Call.create [] [97] 33188).Allowed mountedSample ∧
      (Call.create [] [97] 33188).run 0 (.interrupting [.createMgmt]) mountedSample =
        .done (.ret (-4))
          (mountedSample.after (.create [] [97] 33188) (.interrupting [.createMgmt])) ∧
      ¬ mountedSample.SameView
        (mountedSample.after (.create [] [97] 33188) (.interrupting [.createMgmt])) := by
  refine ⟨by decide +kernel, run_after (by decide +kernel), ?_⟩
  intro h
  exact absurd h.free (by decide +kernel)

/-- A call without a regular mode fails in time. -/
theorem sameView_wrong_mode :
    mountedSample.SameView (mountedSample.after (.create [] [97] 0) .quiet) := by
  have hrun : (Call.create [] [97] 0).run 0 .quiet mountedSample =
      .done (.ret (-22)) (mountedSample.after (.create [] [97] 0) .quiet) :=
    run_after (by decide +kernel)
  refine (sameView_iff_of_run run_mountedSample rfl (by decide +kernel) hrun (by decide)).mpr ?_
  intro alloc
  exact absurd alloc.kind (by decide)

end LinuxDevelopment.Simplefs
