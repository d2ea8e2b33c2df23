import LinuxDevelopment.Simplefs.Namespace

/-!
# simplefs: files are byte strings

In a run without faults each regular file is a byte string of at most 4096
bytes. A write replaces the bytes from its position on and cuts off what was
behind them; nothing else in the tree changes, and a read gives the bytes back,
also after a remount.
-/

namespace LinuxDevelopment.Simplefs

open Volume

/-- No lock is interrupted, and no read of a block and no user copy fails. -/
structure Env.FaultFree (env : Env) : Prop extends env.Calm where
  copyFault : env.copyFault = none

/-- Every call of the run met a kernel without faults. -/
def FaultFreeRun (es : List Event) : Prop := ∀ e ∈ es, e.env.FaultFree

namespace Volume

variable {v : Volume} {i j k pos : Nat} {bytes : List UInt8} {p : Path} {t : FileTree}

section Wrote

variable (h : v.Wf) (hj : j < v.count) (hr : sIsreg (v.entry j).mode = true)

include h hj hr

theorem wrote_leads_iff : (v.wrote j pos bytes).Leads p i ↔ v.Leads p i := by
  have hino : ∀ a, ((v.wrote j pos bytes).entry a).inodeNo = (v.entry a).inodeNo :=
    fun a => (setSize_same a).inodeNo
  constructor
  · intro hl
    refine hl.mono (Nat.le_refl _) (fun a _ => (hino a).symm)
      (fun _ _ hk => (wrote_live_iff hr).mp hk) ?_
    intro a k hk
    obtain ⟨hino, hname⟩ := wrote_child h.toStoreWf hj hr ((wrote_live_iff hr).mp hk)
    exact ⟨hino.symm, hname.symm⟩
  · intro hl
    exact hl.mono (Nat.le_refl _) (fun a _ => hino a) (fun _ _ hk => (wrote_live_iff hr).mpr hk)
      (fun _ _ hk => wrote_child h.toStoreWf hj hr hk)

end Wrote

theorem wrote_object_of_ne (h : v.Wf) (hj : j < v.count) (hi : i < v.count) (hij : i ≠ j) :
    (v.wrote j pos bytes).object i = v.object i := by
  have he : (v.wrote j pos bytes).entry i = v.entry i := setSize_entry_of_ne hij
  have hdata : (v.wrote j pos bytes).data i = v.data i := by
    rw [wrote_data, stored_data_of_ne h.toStoreWf hi hj hij]
  unfold object childIno childName
  rw [he, hdata]

/-- A file holds the bytes below its size. -/
theorem object_file (hr : sIsreg (v.entry j).mode = true) :
    (v.object j).body = .file ((v.data j).bytesAt 0 (v.entry j).fileSize.toNat) := by
  unfold object
  cases hd : sIsdir (v.entry j).mode with
  | false => rfl
  | true =>
      rw [not_sIsreg_of_sIsdir hd] at hr
      cases hr

/-- The bytes in front of the position stay, the rest is replaced. -/
theorem wrote_object_self (hr : sIsreg (v.entry j).mode = true)
    (hfit : pos + bytes.length ≤ 4096) :
    (v.wrote j pos bytes).object j =
      { v.object j with body := .file ((v.data j).bytesAt 0 pos ++ bytes) } := by
  have hs := setSize_same (v := v.stored j pos bytes) (i := j)
    (s := UInt64.ofNat (pos + bytes.length)) j
  have hsize : ((v.wrote j pos bytes).entry j).fileSize.toNat = pos + bytes.length := by
    unfold wrote
    rw [setSize_entry_self, UInt64.toNat_ofNat_of_lt']
    change _ < 2 ^ 64
    omega
  have hreg : sIsreg ((v.wrote j pos bytes).entry j).mode = true := by
    unfold wrote
    rw [hs.mode]
    exact hr
  have hbody : ((v.wrote j pos bytes).object j).body =
      .file ((v.data j).bytesAt 0 pos ++ bytes) := by
    rw [object_file hreg, hsize, wrote_data, stored_data_self]
    have happ := Buffer.bytesAt_splice_append (v.data j) 0 pos bytes
    rw [Nat.zero_add] at happ
    rw [happ]
  rw [← hbody]
  unfold object
  rw [show ((v.wrote j pos bytes).entry j).mode = (v.entry j).mode from hs.mode,
    show ((v.wrote j pos bytes).entry j).inodeNo = (v.entry j).inodeNo from hs.inodeNo]

/-- A write replaces the contents of one file, and nothing else changes. -/
theorem Represents.wrote (ht : v.Represents t) (h : v.Wf) (hl : v.Leads p j)
    (hr : sIsreg (v.entry j).mode = true) (hfit : pos + bytes.length ≤ 4096) :
    (v.wrote j pos bytes).Represents (t.write p ((v.data j).bytesAt 0 pos ++ bytes)) := by
  constructor
  · intro q i hq
    have hq' := (wrote_leads_iff h hl.lt hr).mp hq
    unfold FileTree.write
    by_cases hqp : q = p
    · subst hqp
      obtain rfl := hq'.functional h hl
      rw [Function.update_self, ht.present q i hq', wrote_object_self hr hfit]
      rfl
    · have hij : i ≠ j := by
        rintro rfl
        exact hqp (hq'.injective h hl)
      rw [Function.update_of_ne hqp, wrote_object_of_ne h hl.lt hq'.lt hij]
      exact ht.present q i hq'
  · intro q hne
    have hqp : q ≠ p := by
      rintro rfl
      exact hne j ((wrote_leads_iff h hl.lt hr).mpr hl)
    unfold FileTree.write
    rw [Function.update_of_ne hqp]
    exact ht.absent q fun i hq => hne i ((wrote_leads_iff h hl.lt hr).mpr hq)

end Volume

/-- The device is up to date. -/
def World.Synced (w : World) : Prop := w.media = w.cache

section Steps

variable {w w' : World} {v v' : Volume} {env : Env} {c : Call} {reply : Reply} {p : Path}
  {i j pos : Nat} {buf : List UInt8} {tid : Nat}

theorem World.Synced.of_blocks (h : w.Synced)
    (hb : ∀ b, w'.media b = w'.cache b ∨ w'.media b = w.media b ∧ w'.cache b = w.cache b) :
    w'.Synced := by
  funext b
  rcases hb b with heq | ⟨hm, hc⟩
  · exact heq
  · rw [hm, hc]
    exact congrFun h b

theorem World.wrote_media {q : SimplefsInode} (b : Nat) :
    (w.wrote p j q buf pos).media b = (w.wrote p j q buf pos).cache b ∨
      (w.wrote p j q buf pos).media b = w.media b ∧
        (w.wrote p j q buf pos).cache b = w.cache b := by
  by_cases h₁ : b = 1
  · left
    simp [World.wrote, World.saveInode, h₁]
  · by_cases hbq : b = q.dataBlockNumber.toNat
    · left
      subst hbq
      simp [World.wrote, World.copiedIn, World.writeData, World.saveInode, h₁]
    · right
      simp [World.wrote, World.copiedIn, World.writeData, World.saveInode, h₁, hbq]

/-- Only a faulting copy leaves the device behind. -/
theorem CalmStep.synced (hstep : CalmStep env w v c reply w' v') (h : w.Settled v)
    (hf : env.FaultFree) (hs : w.Synced) : w'.Synced := by
  cases hstep with
  | mount | miss | hit | refused | iterate | read | tooBig => exact hs
  | unmount => rfl
  | created _ leads _ _ => exact hs.of_blocks (World.created_media (h.wf.block_ge _ leads.lt))
  | fault _ _ short => simp [hf.copyFault, copied] at short
  | wrote => exact hs.of_blocks World.wrote_media

theorem Run.settled_synced {es : List Event} (hrun : Run w es w') (hf : FaultFreeRun es)
    (h : w.Settled v) (hs : w.Synced) : ∃ v', w'.Settled v' ∧ w'.Synced := by
  induction hrun with
  | nil => exact ⟨v, h, hs⟩
  | @snoc w' w'' es e init allowed step ih =>
      have he : e.env.FaultFree := hf e (List.mem_append_right _ List.mem_cons_self)
      obtain ⟨v₁, h₁, hs₁⟩ := ih fun x hx => hf x (List.mem_append_left _ hx)
      obtain ⟨v₂, hstep⟩ := h₁.step he.toCalm allowed step
      exact ⟨v₂, hstep.settled h₁, hstep.synced h₁ he hs₁⟩

theorem World.Settled.represents (h : w.Settled v) (hs : w.Synced) :
    v.Represents (tree w.media) := by
  have hw : v.Written w.cache := ⟨h.wf, h.shows, h.saved⟩
  rw [hs]
  exact hw.represents

/-- A write that is not refused is carried out. -/
theorem World.Settled.run_write (h : w.Settled v) (hf : env.FaultFree) (hl : v.Leads p j)
    (hq : w.simplefsInode p = some (v.entry j)) (hr : sIsreg (v.entry j).mode = true)
    (hpos : ¬ (4096 ≤ pos ∧ (buf.length ≠ 0 ∨ 4096 < pos))) :
    (simplefsWrite p buf pos).run (exec tid env) w =
      .done (writeLength buf pos, pos + writeLength buf pos) (w.wrote p j (v.entry j) buf pos) := by
  have hm := h.toModels.storeData hl.lt hr pos (writeBytes buf pos)
  have hcount := hm.shows.count
  have hle := hm.wf.count_le
  have hc : (inodesCount (w.copiedIn (v.entry j) buf pos).cache).toNat < 127 := by
    change (inodesCount (w.store _ pos (writeBytes buf pos)).cache).toNat < 127
    omega
  have hsearch : searchEntry (w.copiedIn (v.entry j) buf pos).cache (v.entry j).inodeNo =
      some j := by
    have hs := searchEntry_eq hm.wf hm.shows (j := j) hl.lt
    exact hs
  have hmoved : ¬ (copied env.copyFault (buf.take (writeLength buf pos))).length ≠
      writeLength buf pos := by
    rw [hf.copyFault, not_not]
    exact length_writeBytes buf pos
  have hq' : (w.copiedIn (v.entry j) buf pos).simplefsInode p = some (v.entry j) := hq
  have hcommit : (writeCommit p (writeLength buf pos) (pos + writeLength buf pos)).run
      (exec tid env) (w.copiedIn (v.entry j) buf pos) = _ := run_writeCommit (hf.breadOk 1) hq' hc
  have hfree : ∀ m, (w.copiedIn (v.entry j) buf pos).owner m = none := h.unowned
  simp only [hf.interrupted, Bool.false_eq_true, if_false, hfree, if_true, hsearch] at hcommit
  rw [run_simplefsWrite hq, if_neg hpos, hf.breadFails, if_neg Bool.false_ne_true, if_neg hmoved]
  exact hcommit

end Steps

/-- A read from the start with a large enough buffer gives these bytes, now and
after a remount (the mount and the lookups of which need `new_inode`). -/
def World.ReadsBack (w : World) (p : Path) (bytes : List UInt8) : Prop :=
  ∀ tid env len, Env.FaultFree env → bytes.length ≤ len →
    (Call.read p len 0).run tid env w = .done (.data bytes.length bytes bytes.length) w ∧
      (env.newInodeFails = false →
        ∃ w₁ x w₂, Call.mount.run tid env w.unmount = .done (.ret 0) w₁ ∧
          w₁.pathLookup tid env p = .done (some x) w₂ ∧
          (Call.read p len 0).run tid env w₂ = .done (.data bytes.length bytes bytes.length) w₂)

/-- Write chunks one after the other, each where the last one ended. -/
def World.writeChunks (w : World) (tid : Nat) (env : Env) (p : Path) (pos : Nat) :
    List (List UInt8) → Outcome World Trap Nat
  | [] => .done pos w
  | c :: chunks => ((simplefsWrite p c pos).run (exec tid env) w).bind fun x w' =>
      w'.writeChunks tid env p x.2 chunks

/-- In the state `w` each file is a byte string of at most 4096 bytes. -/
structure RefinesContents (w : World) : Prop where
  bounded : ∀ {p x bytes}, tree w.media p = some x → x.body = .file bytes → bytes.length ≤ 4096
  read : ∀ {p x bytes}, w.Has p .file → tree w.media p = some x → x.body = .file bytes →
    w.ReadsBack p bytes
  write : ∀ {p x old}, w.Has p .file → tree w.media p = some x → x.body = .file old →
    ∀ tid {env} buf {pos}, Env.FaultFree env → pos ≤ old.length → pos < 4096 →
      let data := buf.take (4096 - pos)
      ∃ w', (Call.write p buf pos).run tid env w = .done (.wrote data.length (pos + data.length)) w' ∧
        tree w'.media = (tree w.media).write p (old.take pos ++ data) ∧
        w'.ReadsBack p (old.take pos ++ data)
  chunks : ∀ {p}, w.Has p .file → ∀ tid {env} chunks, Env.FaultFree env → chunks ≠ [] →
    let data := chunks.flatten.take 4096
    ∃ w', w.writeChunks tid env p 0 chunks = .done data.length w' ∧
      tree w'.media = (tree w.media).write p data ∧ w'.ReadsBack p data

section Files

variable {w : World} {v : Volume} {env : Env} {p : Path} {j : Nat} {bytes : List UInt8} {x : Object}

/-- The contents of a file of the tree are those of an entry. -/
theorem World.Settled.file_of_tree (h : w.Settled v) (hs : w.Synced)
    (hx : tree w.media p = some x) (hb : x.body = .file bytes) :
    ∃ j, v.Leads p j ∧ sIsreg (v.entry j).mode = true ∧
      bytes = (v.data j).bytesAt 0 (v.entry j).fileSize.toNat := by
  have hrep := h.represents hs
  by_cases hl : ∃ j, v.Leads p j
  · obtain ⟨j, hl⟩ := hl
    rw [hrep.present p j hl, Option.some.injEq] at hx
    subst hx
    rcases h.wf.kind j hl.lt with hd | hr
    · unfold object at hb
      rw [if_pos hd] at hb
      cases hb
    · rw [object_file hr] at hb
      exact ⟨j, hl, hr, (Body.file.inj hb).symm⟩
  · rw [hrep.absent p fun j hj => hl ⟨j, hj⟩] at hx
    cases hx

theorem World.Settled.reads (h : w.Settled v) (tid : Nat) (hf : env.FaultFree) (hl : v.Leads p j)
    (hp : w.dcache p = some (v.inode j)) (hr : sIsreg (v.entry j).mode = true) {len : Nat}
    (hlen : (v.entry j).fileSize.toNat ≤ len) :
    (Call.read p len 0).run tid env w = .done (.data (v.entry j).fileSize.toNat
      ((v.data j).bytesAt 0 (v.entry j).fileSize.toNat) (v.entry j).fileSize.toNat) w := by
  have hq : w.simplefsInode p = some (v.entry j) := by
    unfold World.simplefsInode
    rw [hp]
    rfl
  rw [h.run_read hf.toCalm hl hq hr]
  unfold Volume.readReply
  simp only [Nat.min_eq_left hlen, hf.copyFault, copied, Buffer.length_bytesAt, Nat.lt_irrefl,
    if_false, Nat.zero_add]
  by_cases hz : (v.entry j).fileSize.toNat = 0
  · rw [if_pos (Nat.le_of_eq hz), hz]
    rfl
  · rw [if_neg (by omega)]

end Files

/-- Only what fits behind `a` matters for the first `n` elements. -/
theorem take_append_take {α : Type} (a b c : List α) (n : Nat) :
    (a ++ b.take (n - a.length) ++ c).take n = (a ++ (b ++ c)).take n := by
  have hsub : n - a.length - min (n - a.length) b.length = n - a.length - b.length := by omega
  rw [List.append_assoc, List.take_append, List.take_append, List.take_append, List.take_append,
    List.take_take, Nat.min_self, List.length_take, hsub]

/-- The file `p` is in memory as the entry `j` and holds the bytes. -/
structure World.Holds (w : World) (v : Volume) (p : Path) (j : Nat) (bytes : List UInt8) :
    Prop where
  settled : w.Settled v
  synced : w.Synced
  leads : v.Leads p j
  cached : w.dcache p = some (v.inode j)
  isreg : sIsreg (v.entry j).mode = true
  contents : (v.data j).bytesAt 0 (v.entry j).fileSize.toNat = bytes

namespace World.Holds

variable {w : World} {v : Volume} {env : Env} {p : Path} {j pos tid : Nat}
  {buf bytes : List UInt8}

theorem of_has (h : w.Settled v) (hs : w.Synced) (hp : w.Has p .file) :
    ∃ j bytes, w.Holds v p j bytes := by
  obtain ⟨j, hl, hdc, -, hfop⟩ := h.toModels.simplefsInode hp
  exact ⟨j, _, h, hs, hl, hdc, (fopOf_eq_file.mp hfop).2, rfl⟩

theorem length_eq (h : w.Holds v p j bytes) : bytes.length = (v.entry j).fileSize.toNat := by
  rw [← h.contents, Buffer.length_bytesAt]

theorem length_le (h : w.Holds v p j bytes) : bytes.length ≤ 4096 := by
  rw [h.length_eq]
  exact h.settled.wf.size_le j h.leads.lt h.isreg

theorem tree_eq (h : w.Holds v p j bytes) : tree w.media p = some (v.object j) :=
  (h.settled.represents h.synced).present p j h.leads

theorem body_eq (h : w.Holds v p j bytes) : (v.object j).body = .file bytes := by
  rw [object_file h.isreg, h.contents]

theorem of_tree (h : w.Settled v) (hs : w.Synced) (hp : w.Has p .file) {x : Object}
    (hx : tree w.media p = some x) (hb : x.body = .file bytes) : ∃ j, w.Holds v p j bytes := by
  obtain ⟨j, bytes', hj⟩ := of_has h hs hp
  rw [hj.tree_eq, Option.some.injEq] at hx
  rw [← hx, hj.body_eq] at hb
  obtain rfl := Body.file.inj hb
  exact ⟨j, hj⟩

theorem simplefsInode (h : w.Holds v p j bytes) : w.simplefsInode p = some (v.entry j) := by
  unfold World.simplefsInode
  rw [h.cached]
  rfl

theorem readsBack (h : w.Holds v p j bytes) : w.ReadsBack p bytes := by
  intro tid env len hf hlen
  rw [h.length_eq] at hlen ⊢
  have hdata : (v.onDevice w.media).data j = v.data j := by
    rw [h.settled.data_eq h.leads.lt, ← h.synced]
    rfl
  constructor
  · rw [h.settled.reads tid hf h.leads h.cached h.isreg hlen, h.contents]
  · intro halloc
    obtain ⟨w₁, hmount, h₁, -, hroot⟩ := h.settled.remount tid hf.toCalm halloc
    obtain ⟨r, w₂, hlook, hres⟩ := h₁.pathLookup tid hf.toCalm halloc hroot
      (h.leads.valid h.settled.wf)
    have hl := h.settled.onDevice_leads.mpr h.leads
    rcases hres.found with ⟨i, hi, rfl, hdc⟩ | ⟨hne, -⟩
    · obtain rfl := hi.functional h₁.wf hl
      refine ⟨w₁, _, w₂, hmount, hlook, ?_⟩
      have hread := hres.settled.reads tid hf hi hdc h.isreg hlen
      rw [hdata] at hread
      rw [← h.contents]
      exact hread
    · exact absurd hl (hne j)

/-- The state after a write that is carried out. -/
theorem wrote (h : w.Holds v p j bytes) (hfit : pos + writeLength buf pos ≤ 4096) :
    (w.wrote p j (v.entry j) buf pos).Holds (v.wrote j pos (writeBytes buf pos)) p j
      ((v.data j).bytesAt 0 pos ++ writeBytes buf pos) := by
  have hreg : sIsreg ((v.wrote j pos (writeBytes buf pos)).entry j).mode = true := by
    rw [Volume.wrote, (setSize_same j).mode]
    exact h.isreg
  constructor
  case settled => exact h.settled.wrote h.leads h.cached h.isreg hfit
  case synced => exact h.synced.of_blocks World.wrote_media
  case leads => exact (wrote_leads_iff h.settled.wf h.leads.lt h.isreg).mpr h.leads
  case cached =>
    unfold Volume.inode Volume.wrote
    rw [setSize_entry_self, length_writeBytes]
    change Function.update w.dcache p ((w.dcache p).map _) p = _
    rw [Function.update_self, h.cached]
    rfl
  case isreg => exact hreg
  case contents =>
    have hobj : (v.wrote j pos (writeBytes buf pos)).object j = _ :=
      wrote_object_self h.isreg (by rw [length_writeBytes]; exact hfit)
    have hbody := congrArg Object.body hobj
    rw [object_file hreg] at hbody
    exact Body.file.inj hbody

/-- A write at a position inside the file, carried out or refused at the end of
the largest file. -/
theorem write (h : w.Holds v p j bytes) (tid : Nat) (hf : env.FaultFree) (buf : List UInt8)
    (hpos : pos ≤ bytes.length) :
    ∃ r w' v', (simplefsWrite p buf pos).run (exec tid env) w =
        .done (r, pos + (buf.take (4096 - pos)).length) w' ∧
      (pos < 4096 → r = (buf.take (4096 - pos)).length) ∧
      w'.Holds v' p j (bytes.take pos ++ buf.take (4096 - pos)) ∧
      tree w'.media = (tree w.media).write p (bytes.take pos ++ buf.take (4096 - pos)) := by
  have hle := h.length_le
  have hlen : (buf.take (4096 - pos)).length = writeLength buf pos := by
    rw [List.length_take, writeLength, Nat.min_comm]
  have hbytes : writeBytes buf pos = buf.take (4096 - pos) := by
    unfold writeBytes writeLength
    rw [Nat.min_comm, ← List.take_eq_take_min]
  have hold : (v.data j).bytesAt 0 pos = bytes.take pos := by
    rw [← h.contents, Buffer.take_bytesAt]
    rw [← h.length_eq]
    exact hpos
  by_cases hbig : 4096 ≤ pos ∧ (buf.length ≠ 0 ∨ 4096 < pos)
  · obtain rfl : pos = 4096 := by omega
    have hsame : bytes.take 4096 ++ buf.take (4096 - 4096) = bytes := by
      rw [List.take_of_length_le hle, Nat.sub_self, List.take_zero, List.append_nil]
    rw [hsame, FileTree.write_self h.tree_eq h.body_eq]
    refine ⟨-27, w, v, ?_, fun hlt => absurd hlt (Nat.lt_irrefl _), h, rfl⟩
    rw [run_simplefsWrite h.simplefsInode, if_pos hbig]
    rfl
  · have hfit := add_writeLength_le hbig
    have hfit' : pos + (writeBytes buf pos).length ≤ 4096 := by
      rw [length_writeBytes]
      exact hfit
    have hnew := h.wrote hfit
    have hrep := (h.settled.represents h.synced).wrote h.settled.wf h.leads h.isreg hfit'
    rw [hlen, ← hold, ← hbytes]
    exact ⟨_, _, _, h.settled.run_write hf h.leads h.simplefsInode h.isreg hbig, fun _ => rfl,
      hnew, (hnew.settled.represents hnew.synced).unique hrep⟩

/-- Chunks that continue the file append to it. -/
theorem writeChunks (h : w.Holds v p j bytes) (tid : Nat) (hf : env.FaultFree)
    (chunks : List (List UInt8)) :
    ∃ w' v', w.writeChunks tid env p bytes.length chunks =
        .done ((bytes ++ chunks.flatten).take 4096).length w' ∧
      w'.Holds v' p j ((bytes ++ chunks.flatten).take 4096) ∧
      tree w'.media = (tree w.media).write p ((bytes ++ chunks.flatten).take 4096) := by
  induction chunks generalizing w v bytes with
  | nil =>
      have hall : (bytes ++ [].flatten).take 4096 = bytes := by
        rw [List.flatten_nil, List.append_nil, List.take_of_length_le h.length_le]
      rw [hall, FileTree.write_self h.tree_eq h.body_eq]
      exact ⟨w, v, rfl, h, rfl⟩
  | cons c chunks ih =>
      obtain ⟨r, w₁, v₁, hrun, -, h₁, htree⟩ := h.write tid hf c (Nat.le_refl _)
      rw [List.take_length] at h₁ htree
      have hlen : (bytes ++ c.take (4096 - bytes.length)).length =
          bytes.length + (c.take (4096 - bytes.length)).length := List.length_append
      have hall : (bytes ++ c.take (4096 - bytes.length) ++ chunks.flatten).take 4096 =
          (bytes ++ (c :: chunks).flatten).take 4096 := take_append_take ..
      obtain ⟨w₂, v₂, hrest, h₂, htree₂⟩ := ih h₁
      rw [hall] at hrest h₂ htree₂
      rw [htree, FileTree.write_write] at htree₂
      refine ⟨w₂, v₂, ?_, h₂, htree₂⟩
      unfold World.writeChunks
      rw [hrun, Outcome.bind_done, ← hlen]
      exact hrest

end World.Holds

/-- In every state of every run without faults the files are byte strings. -/
theorem refinesContents_of_faultFreeRun {dev : Image} {es : List Event} {w : World}
    (hrun : Run (World.ofImage (mkfs dev)) es w) (hf : FaultFreeRun es) : RefinesContents w := by
  obtain ⟨v, h, hs⟩ := hrun.settled_synced hf (mkfs_settled dev) rfl
  constructor
  case bounded =>
    intro p x bytes hx hb
    obtain ⟨j, hl, hr, rfl⟩ := h.file_of_tree hs hx hb
    rw [Buffer.length_bytesAt]
    exact h.wf.size_le j hl.lt hr
  case read =>
    intro p x bytes hp hx hb
    obtain ⟨j, hj⟩ := World.Holds.of_tree h hs hp hx hb
    exact hj.readsBack
  case write =>
    intro p x old hp hx hb tid env buf pos hfree hpos hlt
    obtain ⟨j, hj⟩ := World.Holds.of_tree h hs hp hx hb
    obtain ⟨r, w', v', hw, hr, hj', htree⟩ := hj.write tid hfree buf hpos
    refine ⟨w', ?_, htree, hj'.readsBack⟩
    simp only [Call.run, Call.code, Prog.run_bind, hw, hr hlt]
    rfl
  case chunks =>
    intro p hp tid env chunks hfree hne
    obtain ⟨j, old, hj⟩ := World.Holds.of_has h hs hp
    obtain ⟨c, rest, rfl⟩ := List.exists_cons_of_ne_nil hne
    obtain ⟨r, w₁, v₁, hw, -, hj₁, htree₁⟩ := hj.write tid hfree c (Nat.zero_le _)
    obtain ⟨w₂, v₂, hrest, hj₂, htree₂⟩ := hj₁.writeChunks tid hfree rest
    have hall : (old.take 0 ++ c.take (4096 - 0) ++ rest.flatten).take 4096 =
        (c :: rest).flatten.take 4096 := take_append_take [] c rest.flatten 4096
    rw [hall] at hrest hj₂ htree₂
    rw [htree₁, FileTree.write_write] at htree₂
    refine ⟨w₂, ?_, htree₂, hj₂.readsBack⟩
    unfold World.writeChunks
    rw [hw, Outcome.bind_done, ← hrest, List.length_append]
    rfl

/-- After the first four of the `sampleCalls` the file `a/b` holds `hi`. -/
theorem refinesContents_sampleCalls : ∃ es w, Run (World.ofImage (mkfs fun _ _ => 0xAA)) es w ∧
    FaultFreeRun es ∧ w.Has [[98], [97]] .file ∧
    (tree w.media [[98], [97]]).map Object.body = some (.file [104, 105]) ∧
    RefinesContents w := by
  have hx : (runCalls (World.ofImage (mkfs fun _ _ => 0xAA)) (quietly (sampleCalls.take 4))).map
      (fun x => (decide (x.2.Has [[98], [97]] .file), (tree x.2.media [[98], [97]]).map Object.body)) =
        some (true, some (.file [104, 105])) := by decide +kernel
  obtain ⟨⟨es, w⟩, hcalls, heq⟩ := Option.map_eq_some_iff.mp hx
  obtain ⟨hhas, hbody⟩ := Prod.mk.inj heq
  have hrun := run_of_runCalls hcalls
  have hfree : FaultFreeRun es :=
    env_of_runCalls hcalls (env_quietly ⟨Env.calm_quiet, rfl⟩ _)
  exact ⟨es, w, hrun, hfree, of_decide_eq_true hhas, hbody,
    refinesContents_of_faultFreeRun hrun hfree⟩

end LinuxDevelopment.Simplefs
