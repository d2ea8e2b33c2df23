import LinuxDevelopment.Simplefs.Mkfs

/-!
# simplefs: calls of the VFS and their runs

A run is a sequence of calls of the file system, each with the answers of the
kernel it met. `Allowed` is what the VFS promises about a call: the inode is in
memory and of the right kind, a name has 1 to 255 bytes and no NUL, `lookup` is
called for names without a dentry, and `create` and `mkdir` for names that a
lookup did not find.
-/

namespace LinuxDevelopment.Simplefs

/-- No lock is interrupted, every block can be read. -/
structure Env.Calm (env : Env) : Prop where
  interrupted : ∀ site, env.interrupted site = false
  breadFails : ∀ b, env.breadFails b = false

/-- The environment in which nothing goes wrong. -/
def Env.quiet : Env where
  interrupted := fun _ => false
  breadFails := fun _ => false
  newInodeFails := false
  copyFault := none

/-- A kernel that interrupts the calls of `mutex_lock_interruptible` at the given places. -/
def Env.interrupting (sites : List LockSite) : Env :=
  { Env.quiet with interrupted := fun site => decide (site ∈ sites) }

theorem Env.calm_quiet : Env.quiet.Calm := ⟨fun _ => rfl, fun _ => rfl⟩

/-- A device that nobody has mounted yet. -/
def World.ofImage (img : Image) : World where
  cache := img
  media := img
  dirty := fun _ => false
  dcache := fun _ => none
  owner := fun _ => none

/-- `kill_block_super`: write the dirty buffers back and forget everything
that is in memory. -/
def World.unmount (w : World) : World where
  cache := fun b => if w.dirty b then w.cache b else w.media b
  media := fun b => if w.dirty b then w.cache b else w.media b
  dirty := fun _ => false
  dcache := fun _ => none
  owner := w.owner

/-- The calls the VFS makes. -/
inductive Call where
  | mount
  | unmount
  | lookup (dir : Path) (name : Name)
  | create (dir : Path) (name : Name) (mode : UInt16)
  | mkdir (dir : Path) (name : Name) (mode : UInt16)
  | iterate (dir : Path) (pos : Nat)
  | read (file : Path) (len pos : Nat)
  | write (file : Path) (buf : List UInt8) (pos : Nat)
  deriving DecidableEq

/-- What a call answers to its caller. -/
inductive Reply where
  | unit
  | ret (r : Int)
  | found (inode : Option VfsInode)
  | listing (r : Int) (emits : List DirEmit) (pos : Nat)
  | data (r : Int) (bytes : List UInt8) (pos : Nat)
  | wrote (r : Int) (pos : Nat)
  deriving DecidableEq

/-- The code behind a call. An unmount runs no code of the module. -/
def Call.code : Call → Code Reply
  | .mount => do return .ret (← simplefsFillSuper)
  | .unmount => return .unit
  | .lookup dir name => do
      simplefsLookup dir name
      return .unit
  | .create dir name mode => do return .ret (← simplefsCreate dir name mode)
  | .mkdir dir name mode => do return .ret (← simplefsMkdir dir name mode)
  | .iterate dir pos => do
      let (r, emits, pos) ← simplefsIterate dir pos
      return .listing r emits pos
  | .read file len pos => do
      let (r, bytes, pos) ← simplefsRead file len pos
      return .data r bytes pos
  | .write file buf pos => do
      let (r, pos) ← simplefsWrite file buf pos
      return .wrote r pos

/-- Perform a call to its end. A lookup answers with the inode the dentry then has. -/
def Call.run (c : Call) (tid : Nat) (env : Env) (w : World) : Outcome World Trap Reply :=
  match c with
  | .unmount => .done .unit w.unmount
  | .lookup dir name =>
      (c.code.run (exec tid env) w).bind fun _ w' => .done (.found (w'.dcache (name :: dir))) w'
  | _ => c.code.run (exec tid env) w

/-- The state when a call has ended. -/
def World.after (w : World) (c : Call) (env : Env) : World := (c.run 0 env w).state

theorem run_after {w : World} {c : Call} {env : Env} {reply : Reply}
    (h : (c.run 0 env w).value? = some reply) : c.run 0 env w = .done reply (w.after c env) :=
  Outcome.eq_done_of_value? h

/-- A name as the VFS passes it on. -/
structure ValidName (name : Name) : Prop where
  pos : 0 < name.length
  le : name.length ≤ 255
  nulFree : ∀ c ∈ name, c ≠ 0

/-- A name and its terminator fit in front of the inode number of a record. -/
theorem length_cString_le {name : Name} (hn : ValidName name) : (cString name).length ≤ 256 := by
  have := hn.le
  rw [cString_of_nulFree hn.nulFree, List.length_append, List.length_singleton]
  omega

/-- The dentry `p` has an inode with the operations `fop`. -/
def World.Has (w : World) (p : Path) (fop : FileOps) : Prop :=
  ∃ v, w.dcache p = some v ∧ v.iFop = some fop

/-- The name has no dentry and a lookup of it finds nothing. -/
def World.Absent (w : World) (dir : Path) (name : Name) : Prop :=
  w.dcache (name :: dir) = none ∧
    ∃ w', (simplefsLookup dir name).run (exec 0 .quiet) w = .done () w' ∧
      w'.dcache (name :: dir) = none

/-- Look a name up: its dentry, or what the file system finds when it has none. -/
def World.lookupOne (w : World) (tid : Nat) (env : Env) (dir : Path) (name : Name) :
    Outcome World Trap (Option VfsInode) :=
  match w.dcache (name :: dir) with
  | some x => .done (some x) w
  | none => ((simplefsLookup dir name).run (exec tid env) w).bind fun _ w' =>
      .done (w'.dcache (name :: dir)) w'

/-- Resolve a path from the root of a mounted file system, one name after the other. -/
def World.pathLookup (w : World) (tid : Nat) (env : Env) : Path → Outcome World Trap (Option VfsInode)
  | [] => .done (w.dcache []) w
  | name :: dir => (w.pathLookup tid env dir).bind fun x w' =>
      if x.bind VfsInode.iFop = some .dir then w'.lookupOne tid env dir name else .done none w'

/-- What the VFS promises about a call. -/
def Call.Allowed (w : World) : Call → Prop
  | .mount => w.dcache [] = none
  | .unmount => w.dcache [] ≠ none
  | .lookup dir name => w.Has dir .dir ∧ ValidName name ∧ w.dcache (name :: dir) = none
  | .create dir name _ => w.Has dir .dir ∧ ValidName name ∧ w.Absent dir name
  | .mkdir dir name _ => w.Has dir .dir ∧ ValidName name ∧ w.Absent dir name
  | .iterate dir _ => w.Has dir .dir
  | .read file _ _ => w.Has file .file
  | .write file _ _ => w.Has file .file

/-- A finished call: the task, the call, what the kernel answered, the reply. -/
structure Event where
  tid : Nat
  call : Call
  env : Env
  reply : Reply

/-- The calls of a list have been made one after the other, each one allowed
and each one ended. -/
inductive Run : World → List Event → World → Prop
  | nil (w : World) : Run w [] w
  | snoc {w w' w'' : World} {es : List Event} {e : Event} (init : Run w es w')
      (allowed : e.call.Allowed w') (step : e.call.run e.tid e.env w' = .done e.reply w'') :
      Run w (es ++ [e]) w''

/-- Every call of the run met a calm kernel. -/
def CalmRun (es : List Event) : Prop := ∀ e ∈ es, e.env.Calm

section Decide

variable (w : World) (p : Path) (name : Name)

instance : Decidable (ValidName name) :=
  decidable_of_iff (0 < name.length ∧ name.length ≤ 255 ∧ name.all (· != 0))
    ⟨fun h => ⟨h.1, h.2.1, by simpa using h.2.2⟩, fun h => ⟨h.pos, h.le, by simpa using h.nulFree⟩⟩

instance (fop : FileOps) : Decidable (w.Has p fop) :=
  decidable_of_iff ((w.dcache p).bind VfsInode.iFop = some fop) (by
    unfold World.Has
    cases w.dcache p <;> simp)

/-- The outcome is an end in which the dentry is still negative. -/
def negative (x : Outcome World Trap Unit) : Bool :=
  x.value?.isSome && (x.state.dcache (name :: p)).isNone

instance : Decidable (w.Absent p name) :=
  decidable_of_iff (w.dcache (name :: p) = none ∧
      negative p name ((simplefsLookup p name).run (exec 0 .quiet) w) = true) (by
    unfold World.Absent negative
    cases (simplefsLookup p name).run (exec 0 .quiet) w with
    | done a s => simp
    | stuck e s => simp [Outcome.value?])

instance : (c : Call) → Decidable (c.Allowed w)
  | .mount => inferInstanceAs (Decidable (_ = _))
  | .unmount => inferInstanceAs (Decidable (_ ≠ _))
  | .lookup .. => inferInstanceAs (Decidable (_ ∧ _ ∧ _ = _))
  | .create .. => inferInstanceAs (Decidable (_ ∧ _ ∧ _))
  | .mkdir .. => inferInstanceAs (Decidable (_ ∧ _ ∧ _))
  | .iterate .. => inferInstanceAs (Decidable (World.Has ..))
  | .read .. => inferInstanceAs (Decidable (World.Has ..))
  | .write .. => inferInstanceAs (Decidable (World.Has ..))

end Decide

/-- Perform calls one after the other, as long as each is allowed and ends. -/
def runCalls (w : World) : List (Nat × Call × Env) → Option (List Event × World)
  | [] => some ([], w)
  | (tid, c, env) :: rest =>
      if c.Allowed w then
        match c.run tid env w with
        | .done r w' => (runCalls w' rest).map fun x => (⟨tid, c, env, r⟩ :: x.1, x.2)
        | .stuck _ _ => none
      else none

theorem Run.cons {w w' w'' : World} {es : List Event} {e : Event} (allowed : e.call.Allowed w)
    (step : e.call.run e.tid e.env w = .done e.reply w') (tail : Run w' es w'') :
    Run w (e :: es) w'' := by
  induction tail with
  | nil => exact .snoc (.nil w) allowed step
  | snoc _ hallowed hstep ih => exact .snoc ih hallowed hstep

theorem run_of_runCalls {w w' : World} {cs : List (Nat × Call × Env)} {es : List Event}
    (h : runCalls w cs = some (es, w')) : Run w es w' := by
  induction cs generalizing w es with
  | nil =>
      cases h
      exact .nil _
  | cons c cs ih =>
      obtain ⟨tid, c, env⟩ := c
      simp only [runCalls] at h
      split_ifs at h with hallowed
      cases hrun : c.run tid env w with
      | stuck t u =>
          rw [hrun] at h
          cases h
      | done r u =>
          rw [hrun] at h
          obtain ⟨⟨es', u'⟩, hrest, heq⟩ := Option.map_eq_some_iff.mp h
          cases heq
          exact .cons hallowed hrun (ih hrest)

/-- The kernels the calls of a run met are those they were performed with. -/
theorem env_of_runCalls {w w' : World} {cs : List (Nat × Call × Env)} {es : List Event}
    {P : Env → Prop} (h : runCalls w cs = some (es, w')) (hc : ∀ c ∈ cs, P c.2.2) :
    ∀ e ∈ es, P e.env := by
  induction cs generalizing w es with
  | nil =>
      cases h
      intro e he
      cases he
  | cons c cs ih =>
      obtain ⟨tid, c, env⟩ := c
      simp only [runCalls] at h
      split_ifs at h
      cases hrun : c.run tid env w with
      | stuck t u =>
          rw [hrun] at h
          cases h
      | done r u =>
          rw [hrun] at h
          obtain ⟨⟨es', u'⟩, hrest, heq⟩ := Option.map_eq_some_iff.mp h
          cases heq
          intro e he
          rcases List.mem_cons.mp he with rfl | he
          · exact hc _ List.mem_cons_self
          · exact ih hrest (fun c' hc' => hc c' (List.mem_cons_of_mem _ hc')) e he

/-- Calls of one task that the kernel serves without a failure. -/
def quietly (cs : List Call) : List (Nat × Call × Env) := cs.map fun c => (0, c, .quiet)

theorem env_quietly {P : Env → Prop} (h : P .quiet) (cs : List Call) :
    ∀ c ∈ quietly cs, P c.2.2 := by
  intro c hc
  obtain ⟨x, -, rfl⟩ := List.mem_map.mp hc
  exact h

end LinuxDevelopment.Simplefs
