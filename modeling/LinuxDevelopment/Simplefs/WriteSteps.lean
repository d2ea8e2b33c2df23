import LinuxDevelopment.Simplefs.CreateSteps
import LinuxDevelopment.Simplefs.WriteFailure

/-!
# simplefs: the actions of a write

`simplefs_write` copies the bytes without a lock. It then sets the size of the
in-memory inode and saves that inode, both under `simplefs_inodes_mgmt_lock`.
`writeNext` states this as a protocol. The answers a write can get depend on the
state of the caches only through what never changes about a file: its inode up
to the size, and the index of its entry in the store.
-/

namespace LinuxDevelopment.Simplefs

/-- What does not change about a file: its dentry, the index of its entry, and its
inode but for the size. -/
structure FileRef where
  path : Path
  index : Nat
  inode : SimplefsInode

/-- The data block of a file. -/
def FileRef.block (f : FileRef) : Nat := f.inode.dataBlockNumber.toNat

/-- What a write can find in a word of the super block or of the store. -/
def FileRef.Word (f : FileRef) (b off : Nat) (x : UInt64) : Prop :=
  (b = 0 → off = 24 → f.index < x.toNat) ∧
    ∀ i ≤ f.index, b = 1 → off = 32 * i + 8 → (x = f.inode.inodeNo ↔ i = f.index)

/-- The caches show the file: its inode is in memory, and a search for its number
ends at its entry. -/
structure Caches.Knows (m : Caches) (f : FileRef) : Prop where
  inode : ∃ e, m.simplefsInode f.path = some e ∧ e.Same f.inode
  index_lt : f.index < (inodesCount m.cache).toNat
  number : ∀ i ≤ f.index, (entryAt m.cache i).inodeNo = f.inode.inodeNo ↔ i = f.index

/-- Where a write is on its way. -/
inductive WriteStage where
  /-- nothing has been changed -/
  | start
  /-- the bytes are in the data block -/
  | copied
  /-- the copy has faulted -/
  | faulted
  /-- `simplefs_inodes_mgmt_lock` is taken -/
  | locked
  /-- the size is set in memory -/
  | sized
  /-- the inode to be saved is read -/
  | fetched (e : SimplefsInode)
  /-- the entry is in the store -/
  | saved

section Protocol

variable (env : Env) (f : FileRef) (buf : List UInt8) (pos : Nat)

instance : Decidable (WriteRefused buf pos) := inferInstanceAs (Decidable (_ ∧ _))

/-- The size a write leaves. -/
def writeEnd : UInt64 := UInt64.ofNat (pos + writeLength buf pos)

/-- The write gets as far as its copy. -/
def Copies : Prop := ¬ WriteRefused buf pos ∧ env.breadFails f.block = false

instance : Decidable (Copies env f buf pos) := inferInstanceAs (Decidable (_ ∧ _))

/-- All bytes of the write can be read from the user. -/
def Arrives : Prop := (copied env.copyFault (writeBytes buf pos)).length = writeLength buf pos

instance : Decidable (Arrives env buf pos) := inferInstanceAs (Decidable (_ = _))

/-- The protocol of a write. -/
def writeNext : WriteStage → (o : Op) → o.Res → Option WriteStage
  | .start, .simplefsInode _, _ => some .start
  | .start, .sbBread _, _ => some .start
  | .start, .copyFromUser b off bytes, _ =>
      if Copies env f buf pos ∧ b = f.block ∧ off = pos ∧ bytes = writeBytes buf pos then
        some (if Arrives env buf pos then .copied else .faulted)
      else none
  | .copied, .markBufferDirty _, _ => some .copied
  | .copied, .syncDirtyBuffer _, _ => some .copied
  | .copied, .mutexLockInterruptible site, _ => if site = .write then some .locked else none
  | .locked, .setFileSize p s, _ => if p = f.path ∧ s = writeEnd buf pos then some .sized else none
  | .sized, .sbBread _, _ => some .sized
  | .sized, .mutexLockInterruptible site, _ => if site = .inodeSave then some .sized else none
  | .sized, .simplefsInode p, e => if p = f.path then some (.fetched e) else none
  | .fetched e, .load .., _ => some (.fetched e)
  | .fetched e, .store b off bytes, _ =>
      if env.breadFails 1 = false ∧ b = 1 ∧ off = 32 * f.index ∧ bytes = e.encode then some .saved
      else none
  | .saved, .markBufferDirty _, _ => some .saved
  | .saved, .syncDirtyBuffer _, _ => some .saved
  | .saved, .mutexUnlock _, _ => some .saved
  | _, _, _ => none

/-- The answers a write can get when no lock is interrupted. -/
def fileAnswers : (o : Op) → o.Res → Prop
  | .mutexLockInterruptible _, taken => taken = true
  | .sbBread b, ok => ok = !env.breadFails b
  | .trap _, _ => False
  | .copyFromUser _ _ bytes, ok => ok = ((copied env.copyFault bytes).length == bytes.length)
  | .simplefsInode p, e => p = f.path → e.Same f.inode
  | .load b off len, bytes => len = 8 → f.Word b off (UInt64.ofNat (ofLE bytes))
  | _, _ => True

/-- The stages in which a write returns. -/
def WriteStage.Final : WriteStage → Prop
  | .start => ¬ Copies env f buf pos
  | .faulted | .saved => True
  | _ => False

end Protocol

section Functions

variable {env : Env} {f : FileRef} {buf : List UInt8} {pos : Nat} {α : Type}

/-- The code of a write follows the protocol. -/
abbrev Writes (env : Env) (f : FileRef) (buf : List UInt8) (pos : Nat) (Q : α → WriteStage → Prop)
    (p : Code α) (k : WriteStage) : Prop :=
  p.Follows (fileAnswers env f) (writeNext env f buf pos) Q k

theorem writes_load64 {e : SimplefsInode} {Q : α → WriteStage → Prop} {b off : Nat}
    {g : UInt64 → Code α} (h : ∀ x, f.Word b off x → Writes env f buf pos Q (g x) (.fetched e)) :
    Writes env f buf pos Q (load64 b off >>= g) (.fetched e) :=
  fun _ hbytes => ⟨_, rfl, h _ (hbytes rfl)⟩

/-- The entry of the file is the first one with its number. -/
theorem writes_inodeSearchLoop {e : SimplefsInode} {left i : Nat} (hi : i ≤ f.index)
    (hleft : f.index ≤ i + left) :
    Writes env f buf pos (fun found k => found = some f.index ∧ k = .fetched e)
      (inodeSearchLoop f.inode.inodeNo left i) (.fetched e) := by
  induction left generalizing i with
  | zero =>
      refine writes_load64 fun x hx => ?_
      have hlast : i = f.index := by omega
      exact ⟨by rw [if_pos ((hx.2 i hi rfl rfl).mpr hlast), hlast], rfl⟩
  | succ left ih =>
      refine writes_load64 fun x hx => ?_
      by_cases hlast : i = f.index
      · rw [if_pos ((hx.2 i hi rfl rfl).mpr hlast)]
        exact ⟨by rw [hlast], rfl⟩
      · rw [if_neg fun hno => hlast ((hx.2 i hi rfl rfl).mp hno)]
        exact ih (by omega) (by omega)

theorem writes_simplefsInodeSearch {e : SimplefsInode} (he : e.Same f.inode) :
    Writes env f buf pos (fun found k => found = some f.index ∧ k = .fetched e)
      (simplefsInodeSearch e) (.fetched e) := by
  refine writes_load64 fun count hcount => ?_
  have hlt := hcount.1 rfl rfl
  rw [he.inodeNo]
  exact writes_inodeSearchLoop (Nat.zero_le _) (by omega)

theorem breadFails_of_answer {b : Nat} {ok : Bool} (h : fileAnswers env f (.sbBread b) ok) :
    env.breadFails b = !ok := by
  rw [show ok = !env.breadFails b from h, Bool.not_not]

theorem writes_sbBreadBugOn {b : Nat} :
    Writes env f buf pos (fun _ k => k = .sized ∧ env.breadFails b = false) (sbBreadBugOn b)
      .sized := by
  intro ok hok
  refine ⟨_, rfl, ?_⟩
  cases ok with
  | false => exact fun _ (h : False) => h.elim
  | true => exact ⟨rfl, breadFails_of_answer hok⟩

theorem writes_simplefsInodeSave :
    Writes env f buf pos (fun _ k => k = .saved) (simplefsInodeSave f.path) .sized := by
  apply writes_sbBreadBugOn.bind
  rintro _ _ ⟨rfl, hb⟩
  intro taken htaken
  obtain rfl : taken = true := htaken
  refine ⟨_, rfl, ?_⟩
  intro e he
  refine ⟨_, if_pos rfl, ?_⟩
  apply (writes_simplefsInodeSearch (he rfl)).bind
  rintro _ _ ⟨rfl, rfl⟩
  intro _ _
  refine ⟨_, if_pos ⟨hb, rfl, rfl, rfl⟩, ?_⟩
  exact fun _ _ => ⟨_, rfl, fun _ _ => ⟨_, rfl, fun _ _ => ⟨_, rfl, rfl⟩⟩⟩

theorem writes_writeCommit {len : Nat} (hlen : len = writeLength buf pos) :
    Writes env f buf pos (fun _ k => k.Final env f buf pos) (writeCommit f.path len (pos + len))
      .copied := by
  subst hlen
  intro taken htaken
  obtain rfl : taken = true := htaken
  refine ⟨.locked, rfl, ?_⟩
  intro _ _
  refine ⟨_, if_pos ⟨rfl, rfl⟩, ?_⟩
  apply writes_simplefsInodeSave.bind
  rintro retval _ rfl
  exact fun _ _ => ⟨_, rfl, trivial⟩

theorem writes_copyFromUser {Q : α → WriteStage → Prop} {g : Bool → Code α}
    (hc : Copies env f buf pos)
    (harr : Arrives env buf pos → Writes env f buf pos Q (g true) .copied)
    (hfault : ¬ Arrives env buf pos → Writes env f buf pos Q (g false) .faulted) :
    Writes env f buf pos Q (copyFromUser f.block pos (writeBytes buf pos) >>= g) .start := by
  intro moved hmoved
  refine ⟨_, if_pos ⟨hc, rfl, rfl, rfl⟩, ?_⟩
  have hall : moved = decide (Arrives env buf pos) := by
    refine hmoved.trans ?_
    rw [length_writeBytes]
    rfl
  by_cases h : Arrives env buf pos
  · rw [if_pos h, hall, decide_eq_true h]
    exact harr h
  · rw [if_neg h, hall, decide_eq_false h]
    exact hfault h

theorem writes_simplefsWrite :
    Writes env f buf pos (fun _ k => k.Final env f buf pos) (simplefsWrite f.path buf pos)
      .start := by
  unfold simplefsWrite
  by_cases href : WriteRefused buf pos
  · rw [genericWriteChecks_error href]
    exact fun hc => hc.1 href
  · rw [genericWriteChecks_ok href]
    intro e he
    refine ⟨_, rfl, ?_⟩
    obtain ⟨mode, ino, block, size⟩ := e
    obtain rfl : block = f.inode.dataBlockNumber := (he rfl).dataBlockNumber
    intro ok hok
    refine ⟨_, rfl, ?_⟩
    cases ok with
    | false =>
        have hb : env.breadFails f.block = true := breadFails_of_answer hok
        exact fun hc => absurd (hb.symm.trans hc.2) (by decide)
    | true =>
        have hb : env.breadFails f.block = false := breadFails_of_answer hok
        refine writes_copyFromUser ⟨href, hb⟩ (fun harr => ?_) fun hfault => ?_
        · refine fun _ _ => ⟨_, rfl, fun _ _ => ⟨_, rfl, ?_⟩⟩
          exact writes_writeCommit rfl
        · trivial

end Functions

section Effects

variable {env : Env} {f : FileRef} {buf : List UInt8} {pos : Nat} {m m' : Caches} {o : Op}
  {r : o.Res} {k k' : WriteStage}

/-- What the actions of a write do to the caches. -/
inductive WriteEffect (env : Env) (f : FileRef) (buf : List UInt8) (pos : Nat) (m : Caches) :
    WriteStage → WriteStage → Caches → Prop
  | open_ : WriteEffect env f buf pos m .start .start m
  | copy (copies : Copies env f buf pos) (arrives : Arrives env buf pos) :
      WriteEffect env f buf pos m .start .copied (m.poke f.block pos (writeBytes buf pos))
  | fault (copies : Copies env f buf pos) (short : ¬ Arrives env buf pos) :
      WriteEffect env f buf pos m .start .faulted
        (m.poke f.block pos (zeroFilled env.copyFault (writeBytes buf pos)))
  | flush : WriteEffect env f buf pos m .copied .copied m
  | lock : WriteEffect env f buf pos m .copied .locked m
  | resize : WriteEffect env f buf pos m .locked .sized (m.setFileSize f.path (writeEnd buf pos))
  | wait : WriteEffect env f buf pos m .sized .sized m
  | fetch {e : SimplefsInode} (inode : m.simplefsInode f.path = some e) :
      WriteEffect env f buf pos m .sized (.fetched e) m
  | search {e : SimplefsInode} : WriteEffect env f buf pos m (.fetched e) (.fetched e) m
  | save {e : SimplefsInode} (readable : env.breadFails 1 = false) :
      WriteEffect env f buf pos m (.fetched e) .saved (m.poke 1 (32 * f.index) e.encode)
  | finish : WriteEffect env f buf pos m .saved .saved m

theorem simplefsInode_of_solo {p : Path} {e : SimplefsInode}
    (hx : solo env (.simplefsInode p) m = .done e m') : m.simplefsInode p = some e ∧ m' = m := by
  rw [solo_simplefsInode] at hx
  cases hq : m.simplefsInode p with
  | none => rw [hq] at hx; cases hx
  | some q => rw [hq] at hx; cases hx; exact ⟨rfl, rfl⟩

theorem writeEffect_of_solo (hn : writeNext env f buf pos k o r = some k')
    (hx : solo env o m = .done r m') : WriteEffect env f buf pos m k k' m' := by
  cases k with
  | start =>
      cases o with
      | simplefsInode p =>
          cases hn
          obtain ⟨-, rfl⟩ := simplefsInode_of_solo hx
          exact .open_
      | sbBread b =>
          cases hn
          cases hx
          exact .open_
      | copyFromUser b off bytes =>
          obtain ⟨⟨hc, rfl, rfl, rfl⟩, hk⟩ := Option.ite_none_right_eq_some.mp hn
          rw [solo_copyFromUser] at hx
          split_ifs at hx with hroom
          cases hx
          by_cases harr : Arrives env buf off
          · rw [if_pos harr] at hk
            cases hk
            rw [zeroFilled_eq_of_length (harr.trans (length_writeBytes _ _).symm)]
            exact .copy hc harr
          · rw [if_neg harr] at hk
            cases hk
            exact .fault hc harr
      | _ => cases hn
  | copied =>
      cases o with
      | markBufferDirty b | syncDirtyBuffer b =>
          cases hn
          cases hx
          exact .flush
      | mutexLockInterruptible site =>
          obtain ⟨rfl, hk⟩ := Option.ite_none_right_eq_some.mp hn
          cases hk
          rw [solo_lock] at hx
          cases hx
          exact .lock
      | _ => cases hn
  | faulted => cases o <;> cases hn
  | locked =>
      cases o with
      | setFileSize p s =>
          obtain ⟨⟨rfl, rfl⟩, hk⟩ := Option.ite_none_right_eq_some.mp hn
          cases hk
          cases hx
          exact .resize
      | _ => cases hn
  | sized =>
      cases o with
      | sbBread b =>
          cases hn
          cases hx
          exact .wait
      | mutexLockInterruptible site =>
          obtain ⟨rfl, hk⟩ := Option.ite_none_right_eq_some.mp hn
          cases hk
          rw [solo_lock] at hx
          cases hx
          exact .wait
      | simplefsInode p =>
          obtain ⟨rfl, hk⟩ := Option.ite_none_right_eq_some.mp hn
          cases hk
          obtain ⟨hq, rfl⟩ := simplefsInode_of_solo hx
          exact .fetch hq
      | _ => cases hn
  | fetched e =>
      cases o with
      | load b off len =>
          cases hn
          rw [solo_load] at hx
          split_ifs at hx
          cases hx
          exact .search
      | store b off bytes =>
          obtain ⟨⟨hb, rfl, rfl, rfl⟩, hk⟩ := Option.ite_none_right_eq_some.mp hn
          cases hk
          rw [solo_store] at hx
          split_ifs at hx
          cases hx
          exact .save hb
      | _ => cases hn
  | saved =>
      cases o with
      | markBufferDirty b | syncDirtyBuffer b | mutexUnlock n =>
          cases hn
          cases hx
          exact .finish
      | _ => cases hn

/-- A write that knows its file gets the answers the protocol expects. -/
theorem fileAnswers_of_solo (hf : m.Knows f) (henv : ∀ site, env.interrupted site = false)
    (hx : solo env o m = .done r m') : fileAnswers env f o r := by
  cases o with
  | mutexLockInterruptible site =>
      rw [solo_lock, henv site] at hx
      cases hx
      rfl
  | sbBread b =>
      cases hx
      rfl
  | trap t => cases hx
  | copyFromUser b off bytes =>
      rw [solo_copyFromUser] at hx
      split_ifs at hx
      cases hx
      rfl
  | simplefsInode p =>
      rintro rfl
      obtain ⟨e, he, hsame⟩ := hf.inode
      obtain ⟨hq, -⟩ := simplefsInode_of_solo hx
      obtain rfl := Option.some.inj (he.symm.trans hq)
      exact hsame
  | load b off len =>
      rintro rfl
      rw [solo_load] at hx
      split_ifs at hx
      cases hx
      refine ⟨?_, fun i hi => ?_⟩
      · rintro rfl rfl
        exact hf.index_lt
      · rintro rfl rfl
        rw [← hf.number i hi, entryAt, inodeNo_inodeAt]
        rfl
  | _ => trivial

end Effects

namespace Caches.Knows

variable {f : FileRef} {m : Caches} {e : SimplefsInode}

/-- A data block says nothing about where a file is. -/
theorem poke_block (h : m.Knows f) {b : Nat} (hb : 2 ≤ b) (off : Nat) (bytes : List UInt8) :
    (m.poke b off bytes).Knows f := by
  refine ⟨h.inode, ?_, fun i hi => ?_⟩
  · rw [Caches.poke_cache, inodesCount_update hb]
    exact h.index_lt
  · rw [Caches.poke_cache, entryAt_update hb]
    exact h.number i hi

theorem setFileSize (h : m.Knows f) (p : Path) (s : UInt64) : (m.setFileSize p s).Knows f := by
  refine ⟨?_, h.index_lt, h.number⟩
  obtain ⟨e, he, hsame⟩ := h.inode
  obtain ⟨x, hx, hxe⟩ := Caches.simplefsInode_eq_some.mp he
  obtain ⟨y, hy, hyx⟩ := m.setFileSize_alike (p := p) (s := s) hx hxe
  obtain ⟨e₁, e₂, h₁, h₂, heq⟩ := hyx.iPrivate
  obtain rfl : e = e₂ := Option.some.inj (hxe.symm.trans h₂)
  exact ⟨e₁, Caches.simplefsInode_eq_some.mpr ⟨y, hy, h₁⟩, heq.trans hsame⟩

/-- The entry of the file is replaced by one with its number. -/
theorem save (h : m.Knows f) (he : e.inodeNo = f.inode.inodeNo) :
    (m.poke 1 (32 * f.index) e.encode).Knows f := by
  refine ⟨h.inode, ?_, fun i hi => ?_⟩
  · rw [Caches.poke_one_entry, inodesCount_setEntry]
    exact h.index_lt
  · rw [Caches.poke_one_entry]
    by_cases hif : i = f.index
    · subst hif
      rw [entryAt_setEntry_self]
      exact iff_of_true he rfl
    · rw [entryAt_setEntry_of_ne hif]
      exact h.number i hi

theorem searchEntry_eq (h : m.Knows f) :
    searchEntry m.cache f.inode.inodeNo = some f.index := by
  have hlt := h.index_lt
  unfold searchEntry
  rw [List.find?_range'_eq_some]
  refine ⟨by simpa using (h.number _ (Nat.le_refl _)).mpr rfl, by simp; omega, fun j _ hj => ?_⟩
  have hne : (entryAt m.cache j).inodeNo ≠ f.inode.inodeNo := fun hno =>
    absurd ((h.number j (Nat.le_of_lt hj)).mp hno) (Nat.ne_of_lt hj)
  simpa using hne

end Caches.Knows

section Serial

variable {tid : Nat} {env : Env} {f : FileRef} {buf : List UInt8} {pos : Nat} {w : World}
  {e : SimplefsInode}

/-- The state in which a write leaves a file with the inode `e`. -/
def World.wroteTo (w : World) (f : FileRef) (e : SimplefsInode) (buf : List UInt8) (pos : Nat) :
    World :=
  ((w.copiedIn e buf pos).setFileSize f.path (writeEnd buf pos)).saveInode f.index
    { e with fileSize := writeEnd buf pos }

theorem Call.run_write_of_run {p : Path} {r : Int} {pos' : Nat} {w' : World}
    (h : (simplefsWrite p buf pos).run (exec tid env) w = .done (r, pos') w') :
    (Call.write p buf pos).run tid env w = .done (.wrote r pos') w' := by
  change ((simplefsWrite p buf pos) >>= _).run (exec tid env) w = _
  rw [Prog.run_bind, h]
  rfl

namespace Caches.Knows

variable (h : w.caches.Knows f)
include h

theorem run_simplefsWrite (he : w.simplefsInode f.path = some e) :
    (simplefsWrite f.path buf pos).run (exec tid env) w =
      if WriteRefused buf pos then .done (-27, pos) w
      else if env.breadFails f.block then .done (0, pos) w
      else if ¬ Arrives env buf pos then
        .done (-14, pos) (w.store f.block pos (zeroFilled env.copyFault (writeBytes buf pos)))
      else (writeCommit f.path (writeLength buf pos) (pos + writeLength buf pos)).run (exec tid env)
        (w.copiedIn e buf pos) := by
  obtain ⟨e', he', hsame⟩ := h.inode
  obtain rfl : e = e' := Option.some.inj (he.symm.trans he')
  have hb : f.block = e.dataBlockNumber.toNat := by rw [hsame.dataBlockNumber]; rfl
  rw [hb]
  exact Simplefs.run_simplefsWrite he

theorem run_refused (hc : ¬ Copies env f buf pos) :
    ∃ reply, (Call.write f.path buf pos).run tid env w = .done reply w := by
  obtain ⟨e, he, -⟩ := h.inode
  have hrun : (simplefsWrite f.path buf pos).run (exec tid env) w = _ := h.run_simplefsWrite he
  by_cases href : WriteRefused buf pos
  · rw [if_pos href] at hrun
    exact ⟨_, Call.run_write_of_run hrun⟩
  · have hfails : env.breadFails f.block = true := by
      rw [← Bool.not_eq_false]
      exact fun hb => hc ⟨href, hb⟩
    rw [if_neg href, if_pos hfails] at hrun
    exact ⟨_, Call.run_write_of_run hrun⟩

/-- A write whose copy faults. -/
theorem run_fault (hc : Copies env f buf pos) (hfault : ¬ Arrives env buf pos) :
    ∃ reply, (Call.write f.path buf pos).run tid env w =
      .done reply (w.store f.block pos (zeroFilled env.copyFault (writeBytes buf pos))) := by
  obtain ⟨e, he, -⟩ := h.inode
  have hrun : (simplefsWrite f.path buf pos).run (exec tid env) w = _ := h.run_simplefsWrite he
  rw [if_neg hc.1, hc.2, if_neg Bool.false_ne_true, if_pos hfault] at hrun
  exact ⟨_, Call.run_write_of_run hrun⟩

/-- A write that is alone and meets no failure. -/
theorem run_write (hcount : (inodesCount w.cache).toNat ≤ 64) (hfree : ∀ m, w.owner m = none)
    (henv : ∀ site, env.interrupted site = false) (hstore : env.breadFails 1 = false)
    (hblock : 2 ≤ f.block) (hc : Copies env f buf pos) (harr : Arrives env buf pos)
    (he : w.simplefsInode f.path = some e) :
    (Call.write f.path buf pos).run tid env w =
      .done (.wrote (writeLength buf pos) (pos + writeLength buf pos)) (w.wroteTo f e buf pos) := by
  obtain ⟨e', he', hsame⟩ := h.inode
  obtain rfl : e = e' := Option.some.inj (he.symm.trans he')
  have hb : e.dataBlockNumber.toNat = f.block := by rw [hsame.dataBlockNumber]; rfl
  have hcount' : (inodesCount (w.copiedIn e buf pos).cache).toNat < 127 := by
    unfold World.copiedIn
    rw [inodesCount_writeData (by omega)]
    omega
  have hknows : (w.copiedIn e buf pos).caches.Knows f :=
    h.poke_block (b := e.dataBlockNumber.toNat) (by omega) pos (writeBytes buf pos)
  have hsearch : searchEntry (w.copiedIn e buf pos).cache e.inodeNo = some f.index := by
    rw [hsame.inodeNo]
    exact hknows.searchEntry_eq
  have hcommit : (writeCommit f.path (writeLength buf pos) (pos + writeLength buf pos)).run
      (exec tid env) (w.copiedIn e buf pos) = _ := run_writeCommit hstore he hcount'
  have hfree' : ∀ m, (w.copiedIn e buf pos).owner m = none := hfree
  simp only [henv, hfree', hsearch, Bool.false_eq_true, if_false, if_true] at hcommit
  have hrun : (simplefsWrite f.path buf pos).run (exec tid env) w = _ := h.run_simplefsWrite he
  rw [if_neg hc.1, hc.2, if_neg Bool.false_ne_true, if_neg (not_not.mpr harr), hcommit] at hrun
  exact Call.run_write_of_run hrun

end Caches.Knows

end Serial

end LinuxDevelopment.Simplefs
