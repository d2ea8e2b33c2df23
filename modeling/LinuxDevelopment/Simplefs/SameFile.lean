import LinuxDevelopment.Base.History
import LinuxDevelopment.Simplefs.PartialRead
import LinuxDevelopment.Simplefs.WriteSteps

/-!
# simplefs: tasks that write to one file

Each write copies its bytes without a lock and sets the size of the file later
on. The bytes of the file are therefore those of the copies in their order,
while its size is that of the call which set it last, and this need not be the
last one that copied. Which of the two orders a schedule has is read off its
steps, and the outcome is that of a serial order exactly if a write that ends
where the last one to set the size ends was not overwritten.
-/

namespace LinuxDevelopment.Simplefs

/-- The bytes a call copies, and where. -/
def Call.piece : Call → Nat × List UInt8
  | .write _ buf pos => (pos, writeBytes buf pos)
  | _ => (0, [])

/-- The size of the file when a call has ended. -/
def Call.sizeAfter (size : UInt64) : Call → UInt64
  | .write _ buf pos => if WriteRefused buf pos then size else writeEnd buf pos
  | _ => size

/-- The call is a write that `generic_write_checks` lets through. -/
def Call.Resizes : Call → Prop
  | .write _ buf pos => ¬ WriteRefused buf pos
  | _ => False

instance : DecidablePred Call.Resizes
  | .write _ buf pos => inferInstanceAs (Decidable (¬ WriteRefused buf pos))
  | .mount | .unmount | .lookup .. | .create .. | .mkdir .. | .iterate .. | .read .. =>
      isFalse not_false

/-- The offset behind the last byte of a write. -/
def Call.endsAt (c : Call) : Nat := c.piece.1 + c.piece.2.length

/-- The action is the copy of a write. -/
def Op.copies : Op → Bool
  | .copyFromUser .. => true
  | _ => false

/-- The action sets the size of a file. -/
def Op.resizes : Op → Bool
  | .setFileSize .. => true
  | _ => false

/-- The call of a step whose action is of the kind. -/
def Tasks.performs (kind : Op → Bool) (s : Tasks) : Tasks.Label → List Call
  | .act tid =>
      match s.flight tid with
      | some ⟨c, _, .call o _⟩ => if kind o then [c] else []
      | _ => []
  | _ => []

/-- The calls of a schedule in the order of their actions of the kind. -/
def Tasks.orderOf (kind : Op → Bool) : List Tasks.Label → Tasks → List Call
  | [], _ => []
  | l :: ls, s => s.performs kind l ++ (s.step l).elim [] (Tasks.orderOf kind ls)

/-- No later copy has put other bytes in the place of those of the call. -/
def Survives (copied : List Call) (c : Call) : Prop :=
  ∀ i < c.endsAt, Buffer.storedAt c.piece i ≠ none →
    Buffer.lastStored (copied.map Call.piece) i = Buffer.storedAt c.piece i

/-- A write that ends where the last one to set the size ends has kept its bytes. -/
def Consistent (copied sized : List Call) : Prop :=
  ∀ d ∈ sized.getLast?, ∃ c ∈ copied, c.endsAt = d.endsAt ∧ Survives copied c

instance (copied : List Call) (c : Call) : Decidable (Survives copied c) :=
  inferInstanceAs (Decidable (∀ i < _, _ → _))

instance (copied sized : List Call) : Decidable (Consistent copied sized) :=
  inferInstanceAs (Decidable (∀ d ∈ _, _))

/-- A call of the schedule is a write to the file that is neither interrupted nor
fails. -/
def Tasks.Label.Writing (file : Path) : Tasks.Label → Prop
  | .call _ (.write p _ _) env => p = file ∧ env.FaultFree
  | .call .. => False
  | _ => True

/-- The file has the contents and the size that the calls leave when they are
made one after the other, in some order. -/
def Tasks.Serialisable (t : Tasks) (w : World) (file : Path) : Prop :=
  ∃ order es w' q c, order.Perm t.made ∧ runCalls w order = some (es, w') ∧
    w'.FileIs file q c ∧ t.world.FileIs file q c

/-- The size of the file and the bytes of its block. -/
structure Caches.FileIn (m : Caches) (f : FileRef) (size : UInt64) (data : Buffer) : Prop where
  dentry : ∃ x, m.dcache f.path = some x ∧ x.iFop = some .file ∧
    x.iPrivate = some { f.inode with fileSize := size }
  knows : m.Knows f
  count_le : (inodesCount m.cache).toNat ≤ 64
  block_ge : 2 ≤ f.block
  size_le : size.toNat ≤ 4096
  data : m.cache f.block = data

theorem toNat_writeEnd {buf : List UInt8} {pos : Nat} (h : ¬ WriteRefused buf pos) :
    (writeEnd buf pos).toNat = pos + writeLength buf pos ∧ pos + writeLength buf pos ≤ 4096 := by
  have hfit := add_writeLength_le h
  refine ⟨UInt64.toNat_ofNat_of_lt' ?_, hfit⟩
  change _ < 2 ^ 64
  omega

/-- Nothing is copied by a write that is refused. -/
theorem writeBytes_of_refused {buf : List UInt8} {pos : Nat} (h : WriteRefused buf pos) :
    writeBytes buf pos = [] := by
  have hlen : writeLength buf pos = 0 := by
    have := h.1
    unfold writeLength
    omega
  unfold writeBytes
  rw [hlen, List.take_zero]

namespace Caches.FileIn

variable {m : Caches} {f : FileRef} {size : UInt64} {data : Buffer} {buf bytes : List UInt8}
  {pos : Nat} {e : SimplefsInode}

theorem simplefsInode (h : m.FileIn f size data) :
    m.simplefsInode f.path = some { f.inode with fileSize := size } := by
  obtain ⟨x, hx, -, hq⟩ := h.dentry
  exact Caches.simplefsInode_eq_some.mpr ⟨x, hx, hq⟩

theorem copy (h : m.FileIn f size data) (pos : Nat) (bytes : List UInt8) :
    (m.poke f.block pos bytes).FileIn f size (data.splice pos bytes) := by
  refine ⟨h.dentry, h.knows.poke_block h.block_ge pos bytes, ?_, h.block_ge, h.size_le, ?_⟩
  · rw [Caches.poke_cache, inodesCount_update h.block_ge]
    exact h.count_le
  · rw [Caches.poke_cache, Function.update_self, h.data]

theorem resize (h : m.FileIn f size data) {s : UInt64} (hs : s.toNat ≤ 4096) :
    (m.setFileSize f.path s).FileIn f s data := by
  refine ⟨?_, h.knows.setFileSize f.path s, h.count_le, h.block_ge, hs, h.data⟩
  obtain ⟨x, hx, hfop, hq⟩ := h.dentry
  exact ⟨_, m.setFileSize_dcache_self hx hq, hfop, rfl⟩

theorem save (h : m.FileIn f size data) (he : e.inodeNo = f.inode.inodeNo) :
    (m.poke 1 (32 * f.index) e.encode).FileIn f size data := by
  have hne : f.block ≠ 1 := by
    have := h.block_ge
    omega
  refine ⟨h.dentry, h.knows.save he, ?_, h.block_ge, h.size_le, ?_⟩
  · rw [Caches.poke_one_entry, inodesCount_setEntry]
    exact h.count_le
  · rw [Caches.poke_cache, Function.update_of_ne hne, h.data]

end Caches.FileIn

section Serial

variable {w : World} {f : FileRef} {size : UInt64} {data : Buffer} {env : Env}

/-- A write that is alone. -/
theorem Caches.FileIn.run_write (h : w.caches.FileIn f size data)
    (hfree : ∀ m, w.owner m = none) (tid : Nat) (henv : env.FaultFree) (buf : List UInt8)
    (pos : Nat) : ∃ reply w', (Call.write f.path buf pos).run tid env w = .done reply w' ∧
      w'.caches.FileIn f ((Call.write f.path buf pos).sizeAfter size)
        (data.splice pos (writeBytes buf pos)) ∧ ∀ m, w'.owner m = none := by
  have harr : Arrives env buf pos := by
    unfold Arrives
    rw [henv.copyFault]
    exact length_writeBytes buf pos
  by_cases href : WriteRefused buf pos
  · have hc : ¬ Copies env f buf pos := fun hc => hc.1 href
    obtain ⟨reply, hrun⟩ := h.knows.run_refused hc
    refine ⟨reply, w, hrun, ?_, hfree⟩
    rw [writeBytes_of_refused href, Buffer.splice_nil, Call.sizeAfter, if_pos href]
    exact h
  · have hrun : (Call.write f.path buf pos).run tid env w = _ :=
      h.knows.run_write h.count_le hfree henv.interrupted (henv.breadFails 1) h.block_ge
        ⟨href, henv.breadFails _⟩ harr h.simplefsInode
    refine ⟨_, _, hrun, ?_, hfree⟩
    rw [Call.sizeAfter, if_neg href]
    have hsize := toNat_writeEnd href
    exact ((h.copy pos (writeBytes buf pos)).resize (by omega)).save rfl

theorem Caches.FileIn.runCalls (h : w.caches.FileIn f size data) (hfree : ∀ m, w.owner m = none)
    {order : List (Nat × Call × Env)}
    (hcalls : ∀ x ∈ order, ∃ buf pos, x.2.1 = .write f.path buf pos ∧ x.2.2.FaultFree) :
    ∃ es w', Simplefs.runCalls w order = some (es, w') ∧
      w'.caches.FileIn f (order.foldl (fun s x => x.2.1.sizeAfter s) size)
        (data.overlay (order.map fun x => x.2.1.piece)) := by
  induction order generalizing w size data with
  | nil => exact ⟨[], w, rfl, h⟩
  | cons x order ih =>
      obtain ⟨tid, c, env⟩ := x
      obtain ⟨buf, pos, rfl, henv⟩ := hcalls _ List.mem_cons_self
      obtain ⟨reply, w₁, hrun, h₁, hfree₁⟩ := h.run_write hfree tid henv buf pos
      obtain ⟨es, w', hrest, h'⟩ := ih h₁ hfree₁ fun y hy => hcalls y (List.mem_cons_of_mem _ hy)
      have hallowed : (Call.write f.path buf pos).Allowed w := by
        obtain ⟨x, hx, hfop, -⟩ := h.dentry
        exact ⟨x, hx, hfop⟩
      refine ⟨⟨tid, .write f.path buf pos, env, reply⟩ :: es, w', ?_, h'⟩
      rw [Simplefs.runCalls, if_pos hallowed, hrun]
      dsimp only
      rw [hrest]
      rfl

end Serial

/-- A task that writes to the file, at a stage of its write. -/
structure Writer (f : FileRef) (c : Call) (env : Env) (rest : Code Reply) (k : WriteStage) :
    Prop where
  call : ∃ buf pos, c = .write f.path buf pos ∧ (k ≠ .start → ¬ WriteRefused buf pos) ∧
    Writes env f buf pos (fun _ k => k.Final env f buf pos) rest k
  env : env.FaultFree
  fetched : ∀ e, k = .fetched e → e.inodeNo = f.inode.inodeNo

section Protocol

variable {env : Env} {f : FileRef} {buf : List UInt8} {pos : Nat} {k k' : WriteStage} {o : Op}
  {r : o.Res}

/-- The size has not been set yet. -/
def WriteStage.unsized : WriteStage → Bool
  | .start | .copied | .locked => true
  | _ => false

/-- The copy is the step that leaves the first stage. -/
theorem copies_iff (h : writeNext env f buf pos k o r = some k') :
    o.copies = true ↔ k = .start ∧ k' ≠ .start := by
  cases o with
  | copyFromUser b off bytes =>
      refine iff_of_true rfl ?_
      cases k with
      | start =>
          obtain ⟨-, hk⟩ := Option.ite_none_right_eq_some.mp h
          refine ⟨rfl, ?_⟩
          split_ifs at hk <;> cases hk <;> rintro ⟨⟩
      | _ => cases h
  | simplefsInode p | sbBread b =>
      refine iff_of_false Bool.false_ne_true ?_
      rintro ⟨rfl, hne⟩
      cases h
      exact hne rfl
  | _ =>
      refine iff_of_false Bool.false_ne_true ?_
      rintro ⟨rfl, -⟩
      cases h

/-- The size is set in the stage in which the lock has been taken. -/
theorem resizes_iff (h : writeNext env f buf pos k o r = some k') :
    o.resizes = true ↔ k = .locked := by
  cases o with
  | setFileSize p v =>
      refine iff_of_true rfl ?_
      cases k with
      | locked => rfl
      | _ => cases h
  | _ =>
      refine iff_of_false Bool.false_ne_true ?_
      rintro rfl
      cases h

end Protocol

/-- The calls of a list that are not refused. -/
def resizing (order : List (Nat × Call × Env)) : List Call :=
  (order.map fun x => x.2.1).filter fun c => decide c.Resizes

theorem mem_resizing {order : List (Nat × Call × Env)} {c : Call} :
    c ∈ resizing order ↔ c.Resizes ∧ ∃ x ∈ order, x.2.1 = c := by
  simp [resizing, and_comm]

theorem resizing_append (order : List (Nat × Call × Env)) (tid : Nat) (c : Call) (env : Env) :
    resizing (order ++ [(tid, c, env)]) = resizing order ++ if c.Resizes then [c] else [] := by
  unfold resizing
  rw [List.map_append, List.filter_append]
  by_cases h : c.Resizes <;> simp [h]

namespace Tasks

variable {w : World} {f : FileRef} {s t : Tasks} {l : Label} {stage : Nat → WriteStage}
  {copies sizes : List (Nat × Call × Env)}

/-- The calls so far: the bytes of the file are those of the copies in their
order, and its size is that of the last call that has set it. -/
structure Shared (w : World) (f : FileRef) (s : Tasks) (stage : Nat → WriteStage)
    (copies sizes : List (Nat × Call × Env)) : Prop where
  file : s.world.caches.FileIn f
    (sizes.foldl (fun z x => x.2.1.sizeAfter z) f.inode.fileSize)
    ((w.cache f.block).overlay (copies.map fun x => x.2.1.piece))
  made : ∀ x ∈ s.made, ∃ buf pos, x.2.1 = .write f.path buf pos ∧ x.2.2.FaultFree
  flight : ∀ tid c env rest, s.flight tid = some ⟨c, env, rest⟩ →
    (tid, c, env) ∈ s.made ∧ Writer f c env rest (stage tid)
  copied : Settles s.made copies (s.IsOpen fun tid => stage tid = .start)
  sized : Settles s.made sizes (s.IsOpen fun tid => (stage tid).unsized = true)

section Steps

variable {tid : Nat} {c : Call} {env : Env} {rest rest' : Code Reply} {w' : World} {k : WriteStage}

/-- One task goes on with its write. -/
theorem Shared.next (h : s.Shared w f stage copies sizes)
    {copies' sizes' : List (Nat × Call × Env)}
    (hf : s.flight tid = some ⟨c, env, rest⟩) (hw : Writer f c env rest' k)
    (hfile : w'.caches.FileIn f (sizes'.foldl (fun z x => x.2.1.sizeAfter z) f.inode.fileSize)
      ((w.cache f.block).overlay (copies'.map fun x => x.2.1.piece)))
    (hcopied : Settles s.made copies' (IsOpen ⟨w', Function.update s.flight tid
      (some ⟨c, env, rest'⟩), s.made⟩ fun u => Function.update stage tid k u = .start))
    (hsized : Settles s.made sizes' (IsOpen ⟨w', Function.update s.flight tid
      (some ⟨c, env, rest'⟩), s.made⟩ fun u => (Function.update stage tid k u).unsized = true)) :
    Shared w f ⟨w', Function.update s.flight tid (some ⟨c, env, rest'⟩), s.made⟩
      (Function.update stage tid k) copies' sizes' := by
  refine ⟨hfile, h.made, ?_, hcopied, hsized⟩
  intro u c' env' r hu
  dsimp only at hu ⊢
  by_cases hut : u = tid
  · subst hut
    rw [Function.update_self] at hu ⊢
    cases hu
    exact ⟨(h.flight u _ _ _ hf).1, hw⟩
  · rw [Function.update_of_ne hut] at hu ⊢
    exact h.flight u c' env' r hu

/-- A property of the stages that the old and the new one share. -/
theorem update_iff (early : WriteStage → Prop) (hk : early k ↔ early (stage tid)) (u : Nat) :
    early (Function.update stage tid k u) ↔ early (stage u) := by
  by_cases hu : u = tid
  · subst hu
    rwa [Function.update_self]
  · rw [Function.update_of_ne hu]

theorem Shared.call (h : s.Shared w f stage copies sizes) (hidle : s.flight tid = none)
    (hl : Label.Writing f.path (.call tid c env)) :
    Shared w f ⟨s.world, Function.update s.flight tid (some ⟨c, env, c.code⟩),
      (tid, c, env) :: s.made⟩ (Function.update stage tid .start) copies sizes := by
  cases c with
  | write p buf pos =>
      obtain ⟨rfl, henv⟩ := hl
      refine ⟨h.file, ?_, ?_, ?_, ?_⟩
      · intro x hx
        rcases List.mem_cons.mp hx with rfl | hx
        · exact ⟨buf, pos, rfl, henv⟩
        · exact h.made x hx
      · intro u c' env' r hu
        dsimp only at hu ⊢
        by_cases hut : u = tid
        · subst hut
          rw [Function.update_self] at hu ⊢
          cases hu
          refine ⟨List.mem_cons_self, ⟨buf, pos, rfl, fun hne => absurd rfl hne, ?_⟩, henv, ?_⟩
          · exact writes_simplefsWrite.bind fun _ _ hfinal => hfinal
          · intro e he
            cases he
        · rw [Function.update_of_ne hut] at hu ⊢
          obtain ⟨hmem, hwriter⟩ := h.flight u c' env' r hu
          exact ⟨List.mem_cons_of_mem _ hmem, hwriter⟩
      · refine settles_call h.copied hidle (Function.update_self _ _ _) fun u hu => ?_
        rw [Function.update_of_ne hu]
      · refine settles_call h.sized hidle (by rw [Function.update_self]; rfl) fun u hu => ?_
        rw [Function.update_of_ne hu]
  | _ => exact hl.elim

/-- An action that is neither the copy nor the change of the size. -/
theorem Shared.keep (h : s.Shared w f stage copies sizes)
    (hf : s.flight tid = some ⟨c, env, rest⟩) (hw : Writer f c env rest' k)
    (hstart : k = .start ↔ stage tid = .start) (hunsized : k.unsized = (stage tid).unsized)
    (hfile : w'.caches.FileIn f (sizes.foldl (fun z x => x.2.1.sizeAfter z) f.inode.fileSize)
      ((w.cache f.block).overlay (copies.map fun x => x.2.1.piece))) :
    Shared w f ⟨w', Function.update s.flight tid (some ⟨c, env, rest'⟩), s.made⟩
      (Function.update stage tid k) copies sizes := by
  refine h.next hf hw hfile ?_ ?_
  · exact settles_keep h.copied hf (update_iff (· = .start) hstart)
  · exact settles_keep h.sized hf (update_iff (fun k => k.unsized = true) (by rw [hunsized]))

/-- The copy settles the place of a write among the bytes. -/
theorem Shared.copy (h : s.Shared w f stage copies sizes) {buf : List UInt8} {pos : Nat}
    (hf : s.flight tid = some ⟨.write f.path buf pos, env, rest⟩)
    (hw : Writer f (.write f.path buf pos) env rest' .copied) (hk : stage tid = .start)
    (hfile : w'.caches.FileIn f (sizes.foldl (fun z x => x.2.1.sizeAfter z) f.inode.fileSize)
      (((w.cache f.block).overlay (copies.map fun x => x.2.1.piece)).splice pos
        (writeBytes buf pos))) :
    Shared w f ⟨w', Function.update s.flight tid (some ⟨.write f.path buf pos, env, rest'⟩),
      s.made⟩ (Function.update stage tid .copied)
      (copies ++ [(tid, .write f.path buf pos, env)]) sizes := by
  refine h.next hf hw ?_ ?_ ?_
  · rw [List.map_append, Buffer.overlay_append]
    exact hfile
  · refine settles_settle h.copied hf hk (by rw [Function.update_self]; rintro ⟨⟩) ?_
    intro u hu
    rw [Function.update_of_ne hu]
  · exact settles_keep h.sized hf
      (update_iff (fun k => k.unsized = true) (by rw [hk]; exact Iff.rfl))

/-- The change of the size settles the place of a write among the sizes. -/
theorem Shared.resize (h : s.Shared w f stage copies sizes) {buf : List UInt8} {pos : Nat}
    (hf : s.flight tid = some ⟨.write f.path buf pos, env, rest⟩)
    (hw : Writer f (.write f.path buf pos) env rest' .sized) (hk : stage tid = .locked)
    (hfile : w'.caches.FileIn f ((Call.write f.path buf pos).sizeAfter
        (sizes.foldl (fun z x => x.2.1.sizeAfter z) f.inode.fileSize))
      ((w.cache f.block).overlay (copies.map fun x => x.2.1.piece))) :
    Shared w f ⟨w', Function.update s.flight tid (some ⟨.write f.path buf pos, env, rest'⟩),
      s.made⟩ (Function.update stage tid .sized) copies
      (sizes ++ [(tid, .write f.path buf pos, env)]) := by
  refine h.next hf hw ?_ ?_ ?_
  · rw [List.foldl_append]
    exact hfile
  · refine settles_keep h.copied hf (update_iff (· = .start) (iff_of_false (by rintro ⟨⟩) ?_))
    rw [hk]
    rintro ⟨⟩
  · refine settles_settle h.sized hf (by rw [hk]; rfl)
      (by rw [Function.update_self]; rintro ⟨⟩) ?_
    intro u hu
    rw [Function.update_of_ne hu]

/-- One action of a write, and what it adds to the two orders. -/
theorem Shared.act (h : s.Shared w f stage copies sizes) {o : Op} {g : o.Res → Code Reply}
    {r : o.Res} (hf : s.flight tid = some ⟨c, env, .call o g⟩)
    (hx : exec tid env o s.world = .done r w') :
    ∃ k copies' sizes', Shared w f ⟨w', Function.update s.flight tid (some ⟨c, env, g r⟩), s.made⟩
        (Function.update stage tid k) copies' sizes' ∧
      resizing copies' = resizing copies ++ (if o.copies then [c] else []) ∧
      resizing sizes' = resizing sizes ++ (if o.resizes then [c] else []) := by
  obtain ⟨-, ⟨buf, pos, rfl, hnot, hcode⟩, henv, hfetched⟩ := h.flight tid _ _ _ hf
  have hfile := h.file
  have hsolo := solo_of_exec hx
  obtain ⟨k, hn, hrest⟩ := hcode r (fileAnswers_of_solo hfile.knows henv.interrupted hsolo)
  have heff := writeEffect_of_solo hn hsolo
  have hcopies := copies_iff hn
  have hresizes := resizes_iff hn
  generalize hm : w'.caches = m' at heff
  have hwriter : (k ≠ .start → ¬ WriteRefused buf pos) →
      (∀ e, k = .fetched e → e.inodeNo = f.inode.inodeNo) →
      Writer f (.write f.path buf pos) env (g r) k :=
    fun hne he => ⟨⟨buf, pos, rfl, hne, hrest⟩, henv, he⟩
  -- the actions that are neither a copy nor a change of the size
  have hplain : (k = .start ↔ stage tid = .start) → k.unsized = (stage tid).unsized →
      stage tid ≠ .locked → w'.caches.FileIn f
        (sizes.foldl (fun z x => x.2.1.sizeAfter z) f.inode.fileSize)
        ((w.cache f.block).overlay (copies.map fun x => x.2.1.piece)) →
      (∀ e, k = .fetched e → e.inodeNo = f.inode.inodeNo) →
      ∃ copies' sizes', Shared w f ⟨w', Function.update s.flight tid
          (some ⟨.write f.path buf pos, env, g r⟩), s.made⟩ (Function.update stage tid k)
          copies' sizes' ∧
        resizing copies' = resizing copies ++ (if o.copies then [.write f.path buf pos] else []) ∧
        resizing sizes' = resizing sizes ++
          (if o.resizes then [.write f.path buf pos] else []) := by
    intro hstart hunsized hlocked hfile' he
    have hnc : ¬ o.copies = true := fun ho => (hcopies.mp ho).2 (hstart.mpr (hcopies.mp ho).1)
    have hnr : ¬ o.resizes = true := fun ho => hlocked (hresizes.mp ho)
    rw [if_neg hnc, if_neg hnr, List.append_nil, List.append_nil]
    have hw := hwriter (fun hne => hnot fun heq => hne (hstart.mpr heq)) he
    exact ⟨copies, sizes, h.keep hf hw hstart hunsized hfile', rfl, rfl⟩
  refine ⟨k, ?_⟩
  generalize hk : stage tid = k₀ at heff hcopies hresizes hplain
  cases heff with
  | open_ => exact hplain Iff.rfl rfl (by rintro ⟨⟩) (hm ▸ hfile) (by rintro e ⟨⟩)
  | flush | wait | finish =>
      exact hplain Iff.rfl rfl (by rintro ⟨⟩) (hm ▸ hfile) (by rintro e ⟨⟩)
  | lock =>
      exact hplain (iff_of_false (by rintro ⟨⟩) (by rintro ⟨⟩)) rfl (by rintro ⟨⟩) (hm ▸ hfile)
        (by rintro e ⟨⟩)
  | search => exact hplain Iff.rfl rfl (by rintro ⟨⟩) (hm ▸ hfile) (hk ▸ hfetched)
  | fetch hq =>
      refine hplain (iff_of_false (by rintro ⟨⟩) (by rintro ⟨⟩)) rfl (by rintro ⟨⟩) (hm ▸ hfile) ?_
      rintro e ⟨⟩
      rw [hfile.simplefsInode] at hq
      exact (congrArg SimplefsInode.inodeNo (Option.some.inj hq)).symm
  | save _ =>
      refine hplain (iff_of_false (by rintro ⟨⟩) (by rintro ⟨⟩)) rfl (by rintro ⟨⟩) ?_
        (by rintro e ⟨⟩)
      rw [hm]
      exact hfile.save (hfetched _ hk)
  | copy hc _ =>
      have ho : o.copies = true := hcopies.mpr ⟨rfl, by rintro ⟨⟩⟩
      have hno : ¬ o.resizes = true := fun ho => by cases hresizes.mp ho
      have hw := hwriter (fun _ => hc.1) (by rintro e ⟨⟩)
      refine ⟨_, _, h.copy hf hw hk ?_, ?_, ?_⟩
      · rw [hm]
        exact hfile.copy pos (writeBytes buf pos)
      · rw [resizing_append, if_pos ho, if_pos (c := (Call.write f.path buf pos).Resizes) hc.1]
      · rw [if_neg hno, List.append_nil]
  | fault _ hshort =>
      refine absurd ?_ hshort
      unfold Arrives
      rw [henv.copyFault]
      exact length_writeBytes buf pos
  | resize =>
      have href : ¬ WriteRefused buf pos := hnot (by rw [hk]; rintro ⟨⟩)
      have hend := toNat_writeEnd href
      have ho : o.resizes = true := hresizes.mpr rfl
      have hno : ¬ o.copies = true := fun ho => by cases (hcopies.mp ho).1
      have hw := hwriter (fun _ => href) (by rintro e ⟨⟩)
      refine ⟨_, _, h.resize hf hw hk ?_, ?_, ?_⟩
      · rw [hm, Call.sizeAfter, if_neg href]
        exact hfile.resize (by omega)
      · rw [if_neg hno, List.append_nil]
      · rw [resizing_append, if_pos ho, if_pos (c := (Call.write f.path buf pos).Resizes) href]

/-- A write that is refused takes effect when it returns. -/
theorem Shared.ret (h : s.Shared w f stage copies sizes) {reply : Reply}
    (hf : s.flight tid = some ⟨c, env, .ret reply⟩) :
    ∃ copies' sizes', Shared w f ⟨s.world, Function.update s.flight tid none, s.made⟩ stage
        copies' sizes' ∧
      resizing copies' = resizing copies ∧ resizing sizes' = resizing sizes := by
  obtain ⟨-, ⟨buf, pos, rfl, -, hfinal⟩, henv, -⟩ := h.flight tid _ _ _ hf
  have hflight : ∀ u c' env' r, Function.update s.flight tid none u = some ⟨c', env', r⟩ →
      (u, c', env') ∈ s.made ∧ Writer f c' env' r (stage u) := by
    intro u c' env' r hu
    by_cases hut : u = tid
    · subst hut
      rw [Function.update_self] at hu
      cases hu
    · rw [Function.update_of_ne hut] at hu
      exact h.flight u c' env' r hu
  by_cases hk : stage tid = .start
  · have hc : ¬ Copies env f buf pos := by
      rw [hk] at hfinal
      exact hfinal
    have href : WriteRefused buf pos := by
      by_contra href
      exact hc ⟨href, henv.breadFails _⟩
    have hadd : ∀ order, resizing (order ++ [(tid, .write f.path buf pos, env)]) =
        resizing order := by
      intro order
      rw [resizing_append, if_neg (c := (Call.write f.path buf pos).Resizes) (not_not.mpr href),
        List.append_nil]
    refine ⟨copies ++ [(tid, .write f.path buf pos, env)],
      sizes ++ [(tid, .write f.path buf pos, env)], ⟨?_, h.made, hflight,
        settles_settle_ret h.copied hf hk, settles_settle_ret h.sized hf (by rw [hk]; rfl)⟩,
      hadd copies, hadd sizes⟩
    rw [List.map_append, Buffer.overlay_append, List.foldl_append]
    change s.world.caches.FileIn f (Call.sizeAfter _ (.write f.path buf pos))
      (Buffer.splice _ pos (writeBytes buf pos))
    rw [writeBytes_of_refused href, Buffer.splice_nil, Call.sizeAfter, if_pos href]
    exact h.file
  · have hlate : ¬ (stage tid).unsized = true := by
      cases hs : stage tid with
      | start => exact absurd hs hk
      | copied | locked =>
          rw [hs] at hfinal
          exact hfinal.elim
      | _ => exact Bool.false_ne_true
    exact ⟨copies, sizes, ⟨h.file, h.made, hflight, settles_ret h.copied hk,
      settles_ret h.sized hlate⟩, rfl, rfl⟩

theorem Shared.moves (h : s.Shared w f stage copies sizes) (hm : s.Moves l t)
    (hl : l.Writing f.path) : ∃ stage' copies' sizes', t.Shared w f stage' copies' sizes' ∧
      resizing copies' = resizing copies ++ s.performs Op.copies l ∧
      resizing sizes' = resizing sizes ++ s.performs Op.resizes l := by
  cases hm with
  | call hidle _ =>
      exact ⟨_, copies, sizes, h.call hidle hl, (List.append_nil _).symm, (List.append_nil _).symm⟩
  | act hf hx =>
      obtain ⟨k, copies', sizes', h', hcopies, hsizes⟩ := h.act hf hx
      refine ⟨_, copies', sizes', h', ?_, ?_⟩
      · rw [hcopies, performs, hf]
      · rw [hsizes, performs, hf]
  | ret hf =>
      obtain ⟨copies', sizes', h', hcopies, hsizes⟩ := h.ret hf
      exact ⟨stage, copies', sizes', h', hcopies.trans (List.append_nil _).symm,
        hsizes.trans (List.append_nil _).symm⟩

end Steps

theorem orderOf_snoc {kind : Op → Bool} {ls : List Label} (h : replay step ls s = some t)
    (l : Label) : orderOf kind (ls ++ [l]) s = orderOf kind ls s ++ t.performs kind l := by
  induction ls generalizing s with
  | nil =>
      obtain rfl := Option.some.inj h
      cases hl : s.step l <;> simp [orderOf, hl]
  | cons k ls ih =>
      obtain ⟨u, hu, ht⟩ := Option.bind_eq_some_iff.mp h
      rw [List.cons_append, orderOf, orderOf, hu, Option.elim_some, Option.elim_some, ih ht,
        List.append_assoc]

end Tasks

section Outcome

variable {w : World} {f : FileRef} {size : UInt64} {data : Buffer} {file : Path} {v : Volume}

theorem Caches.FileIn.fileIs (h : w.caches.FileIn f size data) :
    w.FileIs f.path { f.inode with fileSize := size } (data.bytesAt 0 size.toNat) where
  inode := h.simplefsInode
  size := (Buffer.length_bytesAt ..).symm
  le := by
    rw [Buffer.length_bytesAt]
    exact h.size_le
  data := by
    rw [Buffer.length_bytesAt]
    exact congrArg (Buffer.bytesAt · 0 size.toNat) h.data

/-- A file has one size and one contents. -/
theorem Caches.FileIn.eq_of_fileIs (h : w.caches.FileIn f size data) {q : SimplefsInode}
    {c : List UInt8} (hc : w.FileIs f.path q c) :
    q = { f.inode with fileSize := size } ∧ c = data.bytesAt 0 size.toNat := by
  obtain rfl : q = _ := Option.some.inj (hc.inode.symm.trans h.simplefsInode)
  refine ⟨rfl, ?_⟩
  have hdata := hc.data
  rw [← hc.size] at hdata
  exact hdata.symm.trans (congrArg (Buffer.bytesAt · 0 size.toNat) h.data)

theorem World.Settled.fileIn (h : w.Settled v) (hp : w.Has file .file) :
    ∃ f : FileRef, f.path = file ∧ w.caches.FileIn f f.inode.fileSize (w.cache f.block) := by
  obtain ⟨i, hl, hx, hq, hfop⟩ := h.toModels.simplefsInode hp
  have hcount := h.shows.count
  have hi := hl.lt
  refine ⟨⟨file, i, v.entry i⟩, rfl, ⟨v.inode i, hx, hfop, rfl⟩, ⟨⟨_, hq, .refl _⟩, ?_, ?_⟩, ?_, ?_,
    ?_, rfl⟩
  · change i < (inodesCount w.cache).toNat
    omega
  · intro j hj
    change j ≤ i at hj
    change (entryAt w.cache j).inodeNo = (v.entry i).inodeNo ↔ j = i
    rw [h.saved j (by omega)]
    refine ⟨h.wf.ino_inj j (by omega) i hi, ?_⟩
    rintro rfl
    rfl
  · change (inodesCount w.cache).toNat ≤ 64
    rw [← hcount]
    exact h.wf.count_le
  · exact h.wf.block_ge i hi
  · exact h.wf.size_le i hi (fopOf_eq_file.mp hfop).2

end Outcome

section Orders

variable {f : FileRef} {size : UInt64} {data : Buffer}
  {order copies sizes : List (Nat × Call × Env)} {c : Call}

theorem Call.Resizes.endsAt_le (h : c.Resizes) : c.endsAt ≤ 4096 := by
  cases c with
  | write p buf pos =>
      change pos + (writeBytes buf pos).length ≤ 4096
      rw [length_writeBytes]
      exact (toNat_writeEnd h).2
  | _ => exact h.elim

theorem perm_resizing (h : copies.Perm sizes) : (resizing copies).Perm (resizing sizes) :=
  (h.map _).filter _

/-- The size is that of the last write to set it. -/
theorem foldl_sizeAfter
    (hcalls : ∀ x ∈ order, ∃ buf pos, x.2.1 = .write f.path buf pos ∧ x.2.2.FaultFree) :
    order.foldl (fun s x => x.2.1.sizeAfter s) size =
      (resizing order).getLast?.elim size fun d => UInt64.ofNat d.endsAt := by
  induction order using List.reverseRecOn with
  | nil => rfl
  | append_singleton order y ih =>
      obtain ⟨tid, c, env⟩ := y
      obtain ⟨buf, pos, rfl, -⟩ := hcalls (tid, c, env) (by simp)
      rw [List.foldl_append, resizing_append]
      change Call.sizeAfter _ (.write f.path buf pos) = _
      rw [Call.sizeAfter]
      by_cases href : WriteRefused buf pos
      · rw [if_pos href, if_neg (c := (Call.write f.path buf pos).Resizes) (not_not.mpr href),
          List.append_nil]
        exact ih fun x hx => hcalls x (List.mem_append_left _ hx)
      · rw [if_neg href, if_pos (c := (Call.write f.path buf pos).Resizes) href,
          List.getLast?_concat, Option.elim_some]
        unfold writeEnd
        rw [← length_writeBytes]
        rfl

/-- A refused write stores no byte. -/
theorem lastStored_resizing
    (hcalls : ∀ x ∈ order, ∃ buf pos, x.2.1 = .write f.path buf pos ∧ x.2.2.FaultFree) (i : Nat) :
    Buffer.lastStored ((resizing order).map Call.piece) i =
      Buffer.lastStored (order.map fun x => x.2.1.piece) i := by
  induction order using List.reverseRecOn with
  | nil => rfl
  | append_singleton order y ih =>
      obtain ⟨tid, c, env⟩ := y
      obtain ⟨buf, pos, rfl, -⟩ := hcalls (tid, c, env) (by simp)
      specialize ih fun x hx => hcalls x (List.mem_append_left _ hx)
      rw [resizing_append, List.map_append, List.map_append, List.map_singleton,
        Buffer.lastStored_snoc, ← ih]
      by_cases href : WriteRefused buf pos
      · have hnone : Buffer.storedAt (Call.write f.path buf pos).piece i = none := by
          rw [Buffer.storedAt_eq_none, Call.piece, writeBytes_of_refused href]
          exact Nat.lt_or_ge i pos
        rw [if_neg (c := (Call.write f.path buf pos).Resizes) (not_not.mpr href), List.map_nil,
          List.append_nil, hnone, Option.none_or]
      · rw [if_pos (c := (Call.write f.path buf pos).Resizes) href, List.map_singleton,
          Buffer.lastStored_snoc]

theorem survives_iff {copied : List Call} : Survives copied c ↔
    ∀ i v, Buffer.storedAt c.piece i = some v →
      Buffer.lastStored (copied.map Call.piece) i = some v := by
  constructor
  · intro h i v hv
    have hne : Buffer.storedAt c.piece i ≠ none := by
      rw [hv]
      exact Option.some_ne_none v
    have hlt : i < c.endsAt := by
      by_contra hge
      exact hne (Buffer.storedAt_eq_none.mpr (.inr (Nat.not_lt.mp hge)))
    rw [h i hlt hne, hv]
  · intro h i _ hne
    obtain ⟨v, hv⟩ := Option.ne_none_iff_exists'.mp hne
    rw [h i v hv, hv]

/-- The last copy is not overwritten. -/
theorem survives_getLast {copied : List Call} (h : copied.getLast? = some c) :
    Survives copied c := by
  obtain ⟨ys, rfl⟩ := List.getLast?_eq_some_iff.mp h
  refine survives_iff.mpr fun i v hv => ?_
  rw [List.map_append, List.map_singleton, Buffer.lastStored_snoc, hv, Option.some_or]

/-- A write whose bytes are all there is made the last one. -/
theorem exists_order_of_consistent
    (hcalls : ∀ x ∈ copies, ∃ buf pos, x.2.1 = .write f.path buf pos ∧ x.2.2.FaultFree)
    (hperm : copies.Perm sizes) (h : Consistent (resizing copies) (resizing sizes)) :
    ∃ order : List (Nat × Call × Env), order.Perm copies ∧
      order.foldl (fun s x => x.2.1.sizeAfter s) size =
        sizes.foldl (fun s x => x.2.1.sizeAfter s) size ∧
      data.overlay (order.map fun x => x.2.1.piece) =
        data.overlay (copies.map fun x => x.2.1.piece) := by
  have hsizes : ∀ x ∈ sizes, ∃ buf pos, x.2.1 = .write f.path buf pos ∧ x.2.2.FaultFree :=
    fun x hx => hcalls x (hperm.mem_iff.mpr hx)
  cases hlast : (resizing sizes).getLast? with
  | none =>
      -- no write has set the size, in either order
      have hnil := List.getLast?_eq_none_iff.mp hlast
      have hnil' : resizing copies = [] := by
        have hres := perm_resizing hperm
        rw [hnil] at hres
        exact hres.eq_nil
      refine ⟨copies, .refl _, ?_, rfl⟩
      rw [foldl_sizeAfter hcalls, foldl_sizeAfter hsizes, hnil, hnil']
  | some d =>
      obtain ⟨c, hc, hend, hsurvives⟩ := h d hlast
      obtain ⟨hres, ⟨tid, c, env⟩, hx, rfl⟩ := mem_resizing.mp hc
      obtain ⟨l, k, rfl⟩ := List.append_of_mem hx
      have horder : (l ++ k ++ [(tid, c, env)]).Perm (l ++ (tid, c, env) :: k) := by
        rw [List.append_assoc]
        exact List.Perm.append_left l (List.perm_append_singleton _ _)
      refine ⟨l ++ k ++ [(tid, c, env)], horder, ?_, ?_⟩
      · rw [foldl_sizeAfter fun x hx => hcalls x (horder.mem_iff.mp hx), foldl_sizeAfter hsizes,
          resizing_append, if_pos hres, List.getLast?_concat, hlast, Option.elim_some,
          Option.elim_some, hend]
      · rw [List.map_append, List.map_append, List.map_append, List.map_cons, List.map_cons,
          List.map_nil]
        refine Buffer.overlay_move_last fun i v hv => ?_
        have hkept := survives_iff.mp hsurvives i v hv
        rwa [lastStored_resizing hcalls, List.map_append, List.map_cons] at hkept

/-- The last write of a serial order that is not refused has kept its bytes. -/
theorem consistent_of_order
    (hcalls : ∀ x ∈ copies, ∃ buf pos, x.2.1 = .write f.path buf pos ∧ x.2.2.FaultFree)
    (hperm : copies.Perm sizes) (horder : order.Perm copies)
    (hsize : order.foldl (fun s x => x.2.1.sizeAfter s) size =
      sizes.foldl (fun s x => x.2.1.sizeAfter s) size)
    (hdata : ∀ i < (sizes.foldl (fun s x => x.2.1.sizeAfter s) size).toNat,
      data.overlay (order.map fun x => x.2.1.piece) i =
        data.overlay (copies.map fun x => x.2.1.piece) i) :
    Consistent (resizing copies) (resizing sizes) := by
  intro d hd
  have hlast : (resizing sizes).getLast? = some d := hd
  have hsizes : ∀ x ∈ sizes, ∃ buf pos, x.2.1 = .write f.path buf pos ∧ x.2.2.FaultFree :=
    fun x hx => hcalls x (hperm.mem_iff.mpr hx)
  have hcalls' : ∀ x ∈ order, ∃ buf pos, x.2.1 = .write f.path buf pos ∧ x.2.2.FaultFree :=
    fun x hx => hcalls x (horder.mem_iff.mp hx)
  have hmem : d ∈ resizing order :=
    (perm_resizing (horder.trans hperm)).mem_iff.mpr (List.mem_of_getLast? hlast)
  obtain ⟨c, hc⟩ : ∃ c, (resizing order).getLast? = some c := by
    cases hnone : (resizing order).getLast? with
    | none =>
        rw [List.getLast?_eq_none_iff.mp hnone] at hmem
        cases hmem
    | some c => exact ⟨c, rfl⟩
  rw [foldl_sizeAfter hcalls', foldl_sizeAfter hsizes, hc, hlast, Option.elim_some,
    Option.elim_some] at hsize
  rw [foldl_sizeAfter hsizes, hlast, Option.elim_some] at hdata
  have hcle := (mem_resizing.mp (List.mem_of_getLast? hc)).1.endsAt_le
  have hdle := (mem_resizing.mp hmem).1.endsAt_le
  have hnat : ∀ n, n ≤ 4096 → (UInt64.ofNat n).toNat = n :=
    fun n hn => UInt64.toNat_ofNat_of_lt' (by change n < 2 ^ 64; omega)
  have hends : c.endsAt = d.endsAt := by
    have := congrArg UInt64.toNat hsize
    rwa [hnat _ hcle, hnat _ hdle] at this
  rw [hnat _ hdle] at hdata
  have hcopied : c ∈ resizing copies :=
    (perm_resizing horder).mem_iff.mp (List.mem_of_getLast? hc)
  refine ⟨c, hcopied, hends, survives_iff.mpr fun i v hv => ?_⟩
  have hlt : i < d.endsAt := by
    rw [← hends]
    by_contra hge
    rw [Buffer.storedAt_eq_none.mpr (.inr (Nat.not_lt.mp hge))] at hv
    cases hv
  have hserial := survives_iff.mp (survives_getLast hc) i v hv
  rw [lastStored_resizing hcalls'] at hserial
  have hbyte := hdata i hlt
  rw [Buffer.overlay_apply, Buffer.overlay_apply, hserial, ← lastStored_resizing hcalls] at hbyte
  -- some copy has stored this byte, since `c` has
  cases hstored : Buffer.lastStored ((resizing copies).map Call.piece) i with
  | none =>
      have hnone := Buffer.lastStored_eq_none.mp hstored _ (List.mem_map_of_mem hcopied)
      rw [hv] at hnone
      cases hnone
  | some v' =>
      rw [hstored] at hbyte
      exact congrArg some hbyte.symm

end Orders

namespace Tasks

variable {w : World} {f : FileRef} {t : Tasks} {stage : Nat → WriteStage}
  {copies sizes : List (Nat × Call × Env)}

/-- Every call has taken effect when all have returned. -/
theorem Shared.perm (h : t.Shared w f stage copies sizes)
    (hdone : ∀ x ∈ t.made, t.flight x.1 = none) : t.made.Perm copies ∧ t.made.Perm sizes := by
  have hopen : ∀ (early : Nat → Prop) u x, ¬ t.IsOpen early u x := by
    rintro early u ⟨c, env⟩ ⟨-, rest, hu⟩
    have hnone := hdone _ (h.flight u c env rest hu).1
    rw [hu] at hnone
    cases hnone
  exact ⟨h.copied.perm (hopen _), h.sized.perm (hopen _)⟩

theorem Shared.serialisable_iff (h : t.Shared w f stage copies sizes)
    (hstart : w.caches.FileIn f f.inode.fileSize (w.cache f.block))
    (hfree : ∀ m, w.owner m = none) (hdone : ∀ x ∈ t.made, t.flight x.1 = none) :
    t.Serialisable w f.path ↔ Consistent (resizing copies) (resizing sizes) := by
  obtain ⟨hcopied, hsized⟩ := h.perm hdone
  have hcalls : ∀ x ∈ copies, ∃ buf pos, x.2.1 = .write f.path buf pos ∧ x.2.2.FaultFree :=
    fun x hx => h.made x (hcopied.mem_iff.mpr hx)
  constructor
  · rintro ⟨order, es, w', q, c, horder, hrun, hw', ht⟩
    obtain ⟨es', w₂, hrun', hserial⟩ := hstart.runCalls hfree
      fun x hx => h.made x (horder.mem_iff.mp hx)
    obtain rfl : w' = w₂ := (Prod.mk.inj (Option.some.inj (hrun.symm.trans hrun'))).2
    obtain ⟨hq, hc⟩ := hserial.eq_of_fileIs hw'
    obtain ⟨hqt, hct⟩ := h.file.eq_of_fileIs ht
    have hsize := congrArg SimplefsInode.fileSize (hq.symm.trans hqt)
    dsimp only at hsize
    rw [hct, hsize, Buffer.bytesAt_eq_iff] at hc
    simp only [Nat.zero_add] at hc
    exact consistent_of_order hcalls (hcopied.symm.trans hsized) (horder.trans hcopied) hsize
      fun i hi => (hc i hi).symm
  · intro hcons
    obtain ⟨order, horder, hsize, hbytes⟩ := exists_order_of_consistent hcalls
      (hcopied.symm.trans hsized) hcons
    have hmade := horder.trans hcopied.symm
    obtain ⟨es, w', hrun, hw'⟩ := hstart.runCalls hfree
      fun x hx => h.made x (hmade.mem_iff.mp hx)
    rw [hsize, hbytes] at hw'
    exact ⟨order, es, w', _, _, hmade, hrun, hw'.fileIs, h.file.fileIs⟩

theorem shared_idle (hstart : w.caches.FileIn f f.inode.fileSize (w.cache f.block)) :
    (idle w).Shared w f (fun _ => .start) [] [] := by
  have hopen : ∀ (early : Nat → Prop) u x, ¬ (idle w).IsOpen early u x := by
    rintro early u x ⟨-, rest, hf⟩
    cases hf
  refine ⟨hstart, ?_, ?_, Settles.nil (hopen _), Settles.nil (hopen _)⟩
  · intro x hx
    cases hx
  · intro tid c env rest hf
    cases hf

/-- The orders of the copies and of the sizes are those of the schedule. -/
theorem shared_of_replay {ls : List Label}
    (hstart : w.caches.FileIn f f.inode.fileSize (w.cache f.block))
    (h : replay Tasks.step ls (idle w) = some t) (hl : ∀ l ∈ ls, l.Writing f.path) :
    ∃ stage copies sizes, t.Shared w f stage copies sizes ∧
      resizing copies = orderOf Op.copies ls (idle w) ∧
      resizing sizes = orderOf Op.resizes ls (idle w) := by
  refine replay_invariant (P := fun ls t => (∀ l ∈ ls, l.Writing f.path) →
    ∃ stage copies sizes, t.Shared w f stage copies sizes ∧
      resizing copies = orderOf Op.copies ls (idle w) ∧
      resizing sizes = orderOf Op.resizes ls (idle w)) h ?_ ?_ hl
  · exact fun _ => ⟨_, [], [], shared_idle hstart, rfl, rfl⟩
  · intro ls s t l hs ih hstep hl
    obtain ⟨stage, copies, sizes, hshared, hcopies, hsizes⟩ :=
      ih fun k hk => hl k (List.mem_append_left _ hk)
    obtain ⟨stage', copies', sizes', hshared', hcopies', hsizes'⟩ :=
      hshared.moves (moves_of_step hstep) (hl l (by simp))
    refine ⟨stage', copies', sizes', hshared', ?_, ?_⟩
    · rw [hcopies', hcopies, orderOf_snoc hs]
    · rw [hsizes', hsizes, orderOf_snoc hs]

/-- When all calls have returned, the file is as after some serial order of them
exactly if the order of the copies keeps a write that ends at the last size set. -/
theorem serialisable_iff_consistent {dev : Image} {es : List Event} {file : Path} {ls : List Label}
    (hrun : Run (World.ofImage (mkfs dev)) es w) (hcalm : CalmRun es) (hfile : w.Has file .file)
    (h : replay Tasks.step ls (idle w) = some t) (hl : ∀ l ∈ ls, l.Writing file)
    (hdone : ∀ x ∈ t.made, t.flight x.1 = none) :
    t.Serialisable w file ↔
      Consistent (orderOf Op.copies ls (idle w)) (orderOf Op.resizes ls (idle w)) := by
  obtain ⟨v, hs, -⟩ := hrun.settled_of_mkfs hcalm
  obtain ⟨f, rfl, hstart⟩ := hs.fileIn hfile
  obtain ⟨stage, copies, sizes, hshared, hcopies, hsizes⟩ := shared_of_replay hstart h hl
  rw [← hcopies, ← hsizes]
  exact hshared.serialisable_iff hstart hs.unowned hdone

/-- A fresh file system with one more file, which is empty. -/
def emptyFile : World :=
  ((runCalls (World.ofImage (mkfs fun _ _ => 0)) (quietly [.mount, .create [] [97] 0o100644])).map
    Prod.snd).getD mountedSample

theorem run_emptyFile : ∃ es, Run (World.ofImage (mkfs fun _ _ => 0)) es emptyFile ∧
    CalmRun es := by
  unfold emptyFile
  have hx : (runCalls (World.ofImage (mkfs fun _ _ => 0))
      (quietly [.mount, .create [] [97] 0o100644])).isSome = true := by decide +kernel
  obtain ⟨⟨es, w⟩, hcalls⟩ := Option.isSome_iff_exists.mp hx
  rw [hcalls]
  exact ⟨es, run_of_runCalls hcalls, env_of_runCalls hcalls (env_quietly Env.calm_quiet _)⟩

/-- Task 0 writes `aaaa` and task 1 `bb`, both to the start of the file. They copy
in this order, and `first` sets the size before `second`. -/
def twoWriters (first second : Nat) : List Label :=
  [.call 0 (.write [[97]] [97, 97, 97, 97] 0) .quiet, .call 1 (.write [[97]] [98, 98] 0) .quiet] ++
    acts 3 0 ++ acts 3 1 ++ acts 16 first ++ [.ret first] ++ acts 16 second ++ [.ret second]

theorem writing_twoWriters (first second : Nat) :
    ∀ l ∈ twoWriters first second, l.Writing [[97]] := by
  intro l hl
  have hquiet : Env.quiet.FaultFree := ⟨Env.calm_quiet, rfl⟩
  simp only [twoWriters, acts, List.mem_append, List.mem_cons, List.mem_replicate,
    List.not_mem_nil, or_false] at hl
  rcases hl with ((((((rfl | rfl) | ⟨-, rfl⟩) | ⟨-, rfl⟩) | ⟨-, rfl⟩) | rfl) | ⟨-, rfl⟩) | rfl
  · exact ⟨rfl, hquiet⟩
  · exact ⟨rfl, hquiet⟩
  all_goals trivial

/-- Where the sizes are set in the order of the copies, the last write is there. -/
theorem serialisable_twoWriters : ∃ t,
    replay Tasks.step (twoWriters 0 1) (idle emptyFile) = some t ∧
    t.Serialisable emptyFile [[97]] := by
  have hx : (replay Tasks.step (twoWriters 0 1) (idle emptyFile)).any (fun t => decide
      (∀ x ∈ t.made, t.flight x.1 = none)) = true := by
    decide +kernel
  obtain ⟨t, ht, hdone⟩ := exists_of_replay_any hx
  obtain ⟨es, hrun, hcalm⟩ := run_emptyFile
  have hhas : emptyFile.Has [[97]] .file := by decide +kernel
  refine ⟨t, ht, (serialisable_iff_consistent hrun hcalm hhas ht (writing_twoWriters 0 1)
    hdone).mpr ?_⟩
  decide +kernel

/-- Where they are set the other way round, the file ends as `bbaa`. One after the
other the two calls leave `bb` or `aaaa`. -/
theorem not_serialisable_twoWriters : ∃ t,
    replay Tasks.step (twoWriters 1 0) (idle emptyFile) = some t ∧
    (∀ x ∈ t.made, t.flight x.1 = none) ∧
    (∃ q, t.world.FileIs [[97]] q [98, 98, 97, 97]) ∧ ¬ t.Serialisable emptyFile [[97]] := by
  have hx : (replay Tasks.step (twoWriters 1 0) (idle emptyFile)).any (fun t => decide
      ((∀ x ∈ t.made, t.flight x.1 = none) ∧
        ∃ q ∈ t.world.simplefsInode [[97]], q.fileSize = 4 ∧
          (t.world.cache q.dataBlockNumber.toNat).bytesAt 0 4 = [98, 98, 97, 97])) = true := by
    decide +kernel
  obtain ⟨t, ht, hdone, q, hq, hsize, hbytes⟩ := exists_of_replay_any hx
  refine ⟨t, ht, hdone, ⟨q, hq, by rw [hsize]; rfl, by decide, hbytes⟩, fun hser => ?_⟩
  obtain ⟨es, hrun, hcalm⟩ := run_emptyFile
  obtain ⟨v, hs, -⟩ := hrun.settled_of_mkfs hcalm
  have hhas : emptyFile.Has [[97]] .file := by decide +kernel
  obtain ⟨f, hpath, hstart⟩ := hs.fileIn hhas
  have hl := writing_twoWriters 1 0
  rw [← hpath] at hser hl
  obtain ⟨stage, copies, sizes, hshared, hcopies, hsizes⟩ := shared_of_replay hstart ht hl
  have hcons := (hshared.serialisable_iff hstart hs.unowned hdone).mp hser
  rw [hcopies, hsizes] at hcons
  revert hcons
  decide +kernel

end Tasks

end LinuxDevelopment.Simplefs
