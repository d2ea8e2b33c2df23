import LinuxDevelopment.Simplefs.Execution

/-!
# simplefs: reading the buffers, and reads that fail

The loops of the module over a block only load from it. A block that cannot be
read ends in `BUG_ON`, except in `simplefs_read` and `simplefs_write`; a call
that returns has therefore met no such block, and went the same way as it
would with every block readable.
-/

namespace LinuxDevelopment.Simplefs

/-- The actions that look at the state and cannot fail. -/
def Op.loads : Op → Prop
  | .load .. | .trap _ | .simplefsInode _ | .newInode | .copyToUser .. => True
  | _ => False

/-- The function only loads from buffers that were read. -/
def Loads {α : Type} (p : Code α) : Prop := p.Only Op.loads

section Loads

theorem loads_load64 (b off : Nat) : Loads (load64 b off) :=
  .bind (.perform trivial) fun _ => trivial

theorem loads_newInodeUnchecked : Loads newInodeUnchecked :=
  .bind (.perform trivial) fun _ => .ite (.perform trivial) trivial

theorem loads_inodeSearchLoop (ino : UInt64) (left i : Nat) :
    Loads (inodeSearchLoop ino left i) := by
  induction left generalizing i with
  | zero => exact .bind (loads_load64 _ _) fun _ => trivial
  | succ left ih =>
      apply Prog.Only.bind (loads_load64 _ _)
      intro r
      exact .ite trivial (ih (i + 1))

theorem loads_simplefsInodeSearch (q : SimplefsInode) : Loads (simplefsInodeSearch q) :=
  .bind (loads_load64 _ _) fun _ => loads_inodeSearchLoop _ _ _

theorem loads_getInodeLoop (ino : UInt64) (left i : Nat) : Loads (getInodeLoop ino left i) := by
  induction left generalizing i with
  | zero => trivial
  | succ left ih =>
      apply Prog.Only.bind (loads_load64 _ _)
      intro r
      refine .ite ?_ (ih (i + 1))
      apply Prog.Only.bind
      · exact .bind (.perform trivial) fun _ => trivial
      · exact fun _ => trivial

theorem loads_strcmpLoop (block off : Nat) (name : List UInt8) :
    Loads (strcmpLoop block off name) := by
  induction name generalizing off with
  | nil => trivial
  | cons c name ih =>
      have hload : Loads (load block off 1) := .perform trivial
      apply Prog.Only.bind hload
      intro x
      exact .ite trivial (ih (off + 1))

theorem loads_lookupLoop (block : Nat) (name : Name) (left i : Nat) :
    Loads (lookupLoop block name left i) := by
  induction left generalizing i with
  | zero => trivial
  | succ left ih =>
      apply Prog.Only.bind (loads_strcmpLoop _ _ _)
      intro r
      exact .ite (.bind (loads_load64 _ _) fun _ => trivial) (ih (i + 1))

theorem loads_iterateLoop (block left i : Nat) : Loads (iterateLoop block left i) := by
  induction left generalizing i with
  | zero => trivial
  | succ left ih =>
      apply Prog.Only.bind (.perform trivial)
      intro filename
      apply Prog.Only.bind (loads_load64 _ _)
      intro inodeNo
      exact .bind (ih (i + 1)) fun _ => trivial

end Loads

/-- The actions that leave the state alone. -/
def Op.reads (o : Op) : Prop := o.loads ∨ ∃ b, o = .sbBread b

/-- The function changes nothing. -/
def Reads {α : Type} (p : Code α) : Prop := p.Only Op.reads

section Reads

variable {α : Type} {p : Code α} {tid : Nat} {env : Env} {w w' : World}

theorem Loads.reads (h : Loads p) : Reads p := h.mono fun _ ho => .inl ho

theorem exec_of_reads {o : Op} {r : o.Res} (ho : o.reads) (h : exec tid env o w = .done r w') :
    w' = w := by
  rcases ho with ho | ⟨b, rfl⟩
  · cases o with
    | load b off len =>
        simp only [exec] at h
        split_ifs at h
        cases h
        rfl
    | copyToUser b off len =>
        simp only [exec] at h
        split_ifs at h <;> cases h <;> rfl
    | simplefsInode p =>
        simp only [exec] at h
        cases hq : w.simplefsInode p with
        | none => rw [hq] at h; cases h
        | some q => rw [hq] at h; cases h; rfl
    | trap t => cases h
    | newInode => cases h; rfl
    | _ => exact ho.elim
  · cases h
    rfl

theorem Reads.run_eq (hp : Reads p) {a : α} (h : p.run (exec tid env) w = .done a w') : w' = w :=
  Prog.Only.run_eq hp (fun _ _ _ _ ho hr => exec_of_reads ho hr) h

theorem reads_sbBread (b : Nat) : Reads (sbBread b) := .perform (.inr ⟨b, rfl⟩)

theorem reads_simplefsInode (inode : Path) : Reads (simplefsInode inode) := .perform (.inl trivial)

theorem reads_sbBreadBugOn (b : Nat) : Reads (sbBreadBugOn b) := by
  apply Prog.Only.bind (reads_sbBread b)
  intro r
  exact .ite (.perform (.inl trivial)) trivial

theorem reads_simplefsGetInode (ino : UInt64) : Reads (simplefsGetInode ino) := by
  apply Prog.Only.bind (reads_sbBreadBugOn _)
  intro _
  exact .bind (loads_load64 _ _).reads fun _ => (loads_getInodeLoop _ _ _).reads

theorem reads_simplefsIterate (dir : Path) (pos : Nat) : Reads (simplefsIterate dir pos) := by
  refine .ite trivial ?_
  apply Prog.Only.bind (reads_simplefsInode _)
  intro q
  refine .ite trivial ?_
  apply Prog.Only.bind (reads_sbBreadBugOn _)
  intro _
  exact .bind (loads_iterateLoop _ _ _).reads fun _ => trivial

theorem reads_simplefsRead (file : Path) (len pos : Nat) : Reads (simplefsRead file len pos) := by
  apply Prog.Only.bind (reads_simplefsInode _)
  intro q
  refine .ite trivial ?_
  apply Prog.Only.bind (reads_sbBread _)
  intro ok
  refine .ite trivial ?_
  apply Prog.Only.bind (.perform (.inl trivial))
  intro bytes
  cases bytes with
  | none => trivial
  | some bytes => trivial

theorem reads_iterate (dir : Path) (pos : Nat) : Reads (Call.iterate dir pos).code :=
  .bind (reads_simplefsIterate dir pos) fun _ => trivial

theorem reads_read (file : Path) (len pos : Nat) : Reads (Call.read file len pos).code :=
  .bind (reads_simplefsRead file len pos) fun _ => trivial

end Reads

/-- What a call that ends has done: it ran the function of the module behind it. -/
inductive Call.Ran (tid : Nat) (env : Env) (w : World) : Call → World → Prop
  | mount {r : Int} {w' : World} (run : simplefsFillSuper.run (exec tid env) w = .done r w') :
      Ran tid env w .mount w'
  | unmount : Ran tid env w .unmount w.unmount
  | lookup {dir : Path} {name : Name} {w' : World}
      (run : (simplefsLookup dir name).run (exec tid env) w = .done () w') :
      Ran tid env w (.lookup dir name) w'
  | create {dir : Path} {name : Name} {mode : UInt16} {r : Int} {w' : World}
      (run : (simplefsCreate dir name mode).run (exec tid env) w = .done r w') :
      Ran tid env w (.create dir name mode) w'
  | mkdir {dir : Path} {name : Name} {mode : UInt16} {r : Int} {w' : World}
      (run : (simplefsMkdir dir name mode).run (exec tid env) w = .done r w') :
      Ran tid env w (.mkdir dir name mode) w'
  | iterate {dir : Path} {pos : Nat} : Ran tid env w (.iterate dir pos) w
  | read {file : Path} {len pos : Nat} : Ran tid env w (.read file len pos) w
  | write {file : Path} {buf : List UInt8} {pos pos' : Nat} {r : Int} {w' : World}
      (run : (simplefsWrite file buf pos).run (exec tid env) w = .done (r, pos') w') :
      Ran tid env w (.write file buf pos) w'

theorem Call.ran_of_run {tid : Nat} {env : Env} {w w' : World} {c : Call} {reply : Reply}
    (hrun : c.run tid env w = .done reply w') : c.Ran tid env w w' := by
  cases c with
  | unmount =>
      cases hrun
      exact .unmount
  | mount =>
      obtain ⟨r, u, hcode, hret⟩ := (Prog.run_bind_eq_done _).mp hrun
      cases hret
      exact .mount hcode
  | lookup dir name =>
      obtain ⟨_, u, hbody, hret⟩ := Outcome.bind_eq_done.mp hrun
      cases hret
      obtain ⟨_, v, hcode, hret⟩ := (Prog.run_bind_eq_done _).mp hbody
      cases hret
      exact .lookup hcode
  | create dir name mode =>
      obtain ⟨r, u, hcode, hret⟩ := (Prog.run_bind_eq_done _).mp hrun
      cases hret
      exact .create hcode
  | mkdir dir name mode =>
      obtain ⟨r, u, hcode, hret⟩ := (Prog.run_bind_eq_done _).mp hrun
      cases hret
      exact .mkdir hcode
  | iterate dir pos =>
      obtain rfl := (reads_iterate dir pos).run_eq hrun
      exact .iterate
  | read file len pos =>
      obtain rfl := (reads_read file len pos).run_eq hrun
      exact .read
  | write file buf pos =>
      obtain ⟨⟨r, pos'⟩, u, hcode, hret⟩ := (Prog.run_bind_eq_done _).mp hrun
      cases hret
      exact .write hcode

/-- A block could not be read. -/
def Op.unread : (o : Op) → o.Res → Prop
  | .sbBread _, r => r = false
  | _, _ => False

/-- The function stops at a block that cannot be read. -/
def BugsOnNull {α : Type} (p : Code α) : Prop := p.Guards Op.unread fun o => o = .trap .bug

section BugsOnNull

variable {α : Type} {p : Code α}

theorem Loads.bugsOnNull (h : Loads p) : BugsOnNull p := by
  refine Prog.Only.guards h ?_
  intro o r ho
  cases o with
  | sbBread => exact ho.elim
  | _ => exact id

theorem bugsOnNull_act {o : Op} (h : ∀ r, ¬ o.unread r) : BugsOnNull (act o) :=
  fun r => ⟨fun hr => absurd hr (h r), fun _ => trivial⟩

theorem bugsOnNull_sbBreadBugOn (b : Nat) : BugsOnNull (sbBreadBugOn b) := by
  intro r
  cases r with
  | false => exact ⟨fun _ => rfl, fun hr => absurd rfl hr⟩
  | true => exact ⟨fun hr => absurd hr Bool.noConfusion, fun _ => trivial⟩

theorem bugsOnNull_simplefsSbSync : BugsOnNull simplefsSbSync := by
  apply Prog.Guards.bind (bugsOnNull_sbBreadBugOn _)
  intro _
  exact .bind (bugsOnNull_act fun _ => id) fun _ => bugsOnNull_act fun _ => id

theorem bugsOnNull_simplefsInodeAdd (e : SimplefsInode) : BugsOnNull (simplefsInodeAdd e) := by
  apply Prog.Guards.bind (bugsOnNull_act fun _ => id)
  intro taken
  refine .ite trivial ?_
  apply Prog.Guards.bind (bugsOnNull_sbBreadBugOn _)
  intro _
  apply Prog.Guards.bind (bugsOnNull_act fun _ => id)
  intro taken
  refine .ite trivial ?_
  apply Prog.Guards.bind (loads_load64 _ _).bugsOnNull
  intro inodesCount
  apply Prog.Guards.bind (bugsOnNull_act fun _ => id)
  intro _
  apply Prog.Guards.bind (bugsOnNull_act fun _ => id)
  intro _
  apply Prog.Guards.bind (bugsOnNull_act fun _ => id)
  intro _
  apply Prog.Guards.bind bugsOnNull_simplefsSbSync
  intro _
  exact .bind (bugsOnNull_act fun _ => id) fun _ => bugsOnNull_act fun _ => id

theorem bugsOnNull_simplefsSbGetAFreeblock : BugsOnNull simplefsSbGetAFreeblock := by
  apply Prog.Guards.bind (bugsOnNull_act fun _ => id)
  intro taken
  refine .ite (.bind (bugsOnNull_act fun _ => id) fun _ => trivial) ?_
  apply Prog.Guards.bind (loads_load64 _ _).bugsOnNull
  intro freeBlocks
  refine .ite (.bind (bugsOnNull_act fun _ => id) fun _ => trivial) ?_
  apply Prog.Guards.bind (bugsOnNull_act fun _ => id)
  intro _
  apply Prog.Guards.bind bugsOnNull_simplefsSbSync
  intro _
  exact .bind (bugsOnNull_act fun _ => id) fun _ => trivial

theorem bugsOnNull_simplefsSbGetObjectsCount : BugsOnNull simplefsSbGetObjectsCount := by
  apply Prog.Guards.bind (bugsOnNull_act fun _ => id)
  intro taken
  refine .ite trivial ?_
  apply Prog.Guards.bind (loads_load64 _ _).bugsOnNull
  intro inodesCount
  exact .bind (bugsOnNull_act fun _ => id) fun _ => trivial

theorem bugsOnNull_simplefsInodeSave (inode : Path) : BugsOnNull (simplefsInodeSave inode) := by
  apply Prog.Guards.bind (bugsOnNull_sbBreadBugOn _)
  intro _
  apply Prog.Guards.bind (bugsOnNull_act fun _ => id)
  intro taken
  refine .ite trivial ?_
  apply Prog.Guards.bind (bugsOnNull_act fun _ => id)
  intro sfsInode
  apply Prog.Guards.bind (loads_simplefsInodeSearch _).bugsOnNull
  intro found
  cases found with
  | none => exact .bind (bugsOnNull_act fun _ => id) fun _ => trivial
  | some i =>
      apply Prog.Guards.bind (bugsOnNull_act fun _ => id)
      intro _
      apply Prog.Guards.bind (bugsOnNull_act fun _ => id)
      intro _
      apply Prog.Guards.bind (bugsOnNull_act fun _ => id)
      intro _
      exact .bind (bugsOnNull_act fun _ => id) fun _ => trivial

theorem bugsOnNull_createCommit (dir : Path) (name : Name) (e : SimplefsInode) :
    BugsOnNull (createCommit dir name e) := by
  apply Prog.Guards.bind (bugsOnNull_act fun _ => id)
  intro taken
  refine .ite (.bind (bugsOnNull_act fun _ => id) fun _ => trivial) ?_
  apply Prog.Guards.bind (bugsOnNull_act fun _ => id)
  intro parentDirInode
  apply Prog.Guards.bind (bugsOnNull_act fun _ => id)
  intro _
  apply Prog.Guards.bind (bugsOnNull_simplefsInodeSave _)
  intro ret
  refine .ite ?_ ?_
  · apply Prog.Guards.bind (bugsOnNull_act fun _ => id)
    intro _
    exact .bind (bugsOnNull_act fun _ => id) fun _ => trivial
  · apply Prog.Guards.bind (bugsOnNull_act fun _ => id)
    intro _
    apply Prog.Guards.bind (bugsOnNull_act fun _ => id)
    intro _
    exact .bind (bugsOnNull_act fun _ => id) fun _ => trivial

theorem bugsOnNull_createTail (dir : Path) (name : Name) (e : SimplefsInode) :
    BugsOnNull (createTail dir name e) := by
  apply Prog.Guards.bind (bugsOnNull_simplefsInodeAdd _)
  intro _
  apply Prog.Guards.bind (bugsOnNull_act fun _ => id)
  intro parentDirInode
  apply Prog.Guards.bind (bugsOnNull_sbBreadBugOn _)
  intro _
  apply Prog.Guards.bind (bugsOnNull_act fun _ => id)
  intro _
  apply Prog.Guards.bind (bugsOnNull_act fun _ => id)
  intro _
  apply Prog.Guards.bind (bugsOnNull_act fun _ => id)
  intro _
  exact .bind (bugsOnNull_act fun _ => id) fun _ => bugsOnNull_createCommit _ _ _

theorem bugsOnNull_simplefsCreateFsObject (dir : Path) (name : Name) (mode : UInt16) :
    BugsOnNull (simplefsCreateFsObject dir name mode) := by
  have hback : ∀ r : Int, BugsOnNull (mutexUnlock .directoryChildrenUpdateLock >>= fun _ =>
      (pure r : Code Int)) := fun r => .bind (bugsOnNull_act fun _ => id) fun _ => trivial
  rw [createFsObject_eq]
  apply Prog.Guards.bind (bugsOnNull_act fun _ => id)
  intro taken
  refine .ite trivial ?_
  apply Prog.Guards.bind bugsOnNull_simplefsSbGetObjectsCount
  intro count
  refine .ite (hback _) (.ite (hback _) (.ite (hback _) ?_))
  apply Prog.Guards.bind (bugsOnNull_act fun _ => id)
  intro inode
  refine .ite (hback _) ?_
  apply Prog.Guards.bind bugsOnNull_simplefsSbGetAFreeblock
  intro block
  exact .ite (hback _) (bugsOnNull_createTail _ _ _)

theorem bugsOnNull_writeCommit (filp : Path) (len pos : Nat) :
    BugsOnNull (writeCommit filp len pos) := by
  apply Prog.Guards.bind (bugsOnNull_act fun _ => id)
  intro taken
  refine .ite trivial ?_
  apply Prog.Guards.bind (bugsOnNull_act fun _ => id)
  intro _
  apply Prog.Guards.bind (bugsOnNull_simplefsInodeSave _)
  intro retval
  exact .bind (bugsOnNull_act fun _ => id) fun _ => trivial

theorem bugsOnNull_simplefsGetInode (ino : UInt64) : BugsOnNull (simplefsGetInode ino) := by
  apply Prog.Guards.bind (bugsOnNull_sbBreadBugOn _)
  intro _
  exact .bind (loads_load64 _ _).bugsOnNull fun _ => (loads_getInodeLoop _ _ _).bugsOnNull

theorem bugsOnNull_simplefsLookup (dir : Path) (name : Name) :
    BugsOnNull (simplefsLookup dir name) := by
  apply Prog.Guards.bind (bugsOnNull_act fun _ => id)
  intro parent
  apply Prog.Guards.bind (bugsOnNull_sbBreadBugOn _)
  intro _
  apply Prog.Guards.bind (loads_lookupLoop _ _ _ _).bugsOnNull
  intro found
  cases found with
  | none => trivial
  | some inodeNo =>
      apply Prog.Guards.bind (bugsOnNull_simplefsGetInode _)
      intro sfsInode
      apply Prog.Guards.bind loads_newInodeUnchecked.bugsOnNull
      intro _
      cases sfsInode with
      | none => exact bugsOnNull_act fun _ => id
      | some q => exact bugsOnNull_act fun _ => id

theorem bugsOnNull_simplefsFillSuper : BugsOnNull simplefsFillSuper := by
  apply Prog.Guards.bind (bugsOnNull_sbBreadBugOn _)
  intro _
  apply Prog.Guards.bind (loads_load64 _ _).bugsOnNull
  intro magic
  refine .ite trivial ?_
  apply Prog.Guards.bind (loads_load64 _ _).bugsOnNull
  intro blockSize
  refine .ite trivial ?_
  apply Prog.Guards.bind loads_newInodeUnchecked.bugsOnNull
  intro _
  apply Prog.Guards.bind (bugsOnNull_simplefsGetInode _)
  intro root
  exact .bind (bugsOnNull_act fun _ => id) fun _ => trivial

end BugsOnNull

theorem readable_of_run {tid : Nat} {env : Env} {w w' : World} {b : Nat} {u : Unit}
    (h : (sbBreadBugOn b).run (exec tid env) w = .done u w') : env.breadFails b = false := by
  cases hb : env.breadFails b with
  | false => rfl
  | true =>
      obtain ⟨read, w₁, hread, hend⟩ := (Prog.run_bind_eq_done _).mp h
      cases hread
      rw [hb] at hend
      cases hend

/-- The same kernel with every block readable. -/
def Env.readable (env : Env) : Env := { env with breadFails := fun _ => false }

theorem Env.breadOk_readable (env : Env) : env.readable.BreadOk := fun _ => rfl

/-- A function that stops at unreadable blocks has met none when it returns. -/
theorem BugsOnNull.run_readable {α : Type} {p : Code α} {tid : Nat} {env : Env} {w w' : World}
    {a : α} (hp : BugsOnNull p) (hrun : p.run (exec tid env) w = .done a w') :
    p.run (exec tid env.readable) w = .done a w' := by
  refine Prog.Guards.run_eq hp ?_ ?_ hrun
  · rintro o s r t rfl hr
    cases hr
  · intro o s r t hok hr
    cases o with
    | sbBread b =>
        cases hr
        cases hb : env.breadFails b with
        | true => exact absurd (congrArg not hb) hok
        | false => rfl
    | _ => exact hr

end LinuxDevelopment.Simplefs
