import LinuxDevelopment.Simplefs.BlockKinds
import LinuxDevelopment.Simplefs.StoreInvariant

/-!
# simplefs: calls of `write` that fail

`simplefs_write` changes the data block, the position, the size in memory and the
size on the device one after the other, and it can fail between any two of them
without taking anything back. A failure leaves no trace only where there was
nothing to leave: the call was refused, the bytes moved before the fault and the
zeros behind them show nothing new, or there were no bytes to write.
-/

namespace LinuxDevelopment.Simplefs

/-- Reads of the file answer the same in both states, now and after a remount. -/
structure World.SameReads (w w' : World) (p : Path) : Prop where
  mounted : ∀ tid env len pos, ((Call.read p len pos).run tid env w').value? =
    ((Call.read p len pos).run tid env w).value?
  remounted : ∀ tid env tid' env' len pos,
    ((w'.reopened tid env p).bind fun _ v => (Call.read p len pos).run tid' env' v).value? =
      ((w.reopened tid env p).bind fun _ v => (Call.read p len pos).run tid' env' v).value?

theorem World.SameReads.refl (w : World) (p : Path) : w.SameReads w p :=
  ⟨fun _ _ _ _ => rfl, fun _ _ _ _ _ _ => rfl⟩

/-- `generic_write_checks` refuses the call with `-EFBIG`. -/
def WriteRefused (buf : List UInt8) (pos : Nat) : Prop :=
  4096 ≤ pos ∧ (buf.length ≠ 0 ∨ 4096 < pos)

/-- The device has the inode `e` for the path: an unmount, a mount and lookups can
bring it into memory. -/
def World.Stores (w : World) (p : Path) (e : SimplefsInode) : Prop :=
  ∃ tid env x v, w.reopened tid env p = .done x v ∧ v.simplefsInode p = some e

/-- No data block waits to be written back. -/
def World.DataClean (w : World) : Prop := ∀ b, 2 ≤ b → w.dirty b = false

section DataClean

variable {tid : Nat} {env : Env} {w w' : World} {q : SimplefsInode} {mode : UInt16} {name : Name}
  {p dir : Path} {r : Int} {buf : List UInt8} {pos pos' : Nat}

theorem World.DataClean.of_dirty (h : w.DataClean)
    (hd : ∀ b, 2 ≤ b → w'.dirty b = w.dirty b ∨ w'.dirty b = false) : w'.DataClean := by
  intro b hb
  rcases hd b hb with heq | hfalse
  · rw [heq]
    exact h b hb
  · exact hfalse

theorem World.DataClean.flush (h : w.DataClean) (b : Nat) : (w.flush b).DataClean := by
  refine h.of_dirty fun c _ => ?_
  rw [World.flush_dirty, Function.update_apply]
  split_ifs
  · exact .inr rfl
  · exact .inl rfl

theorem World.DataClean.saveInode (h : w.DataClean) (i : Nat) (q : SimplefsInode) :
    (w.saveInode i q).DataClean :=
  World.DataClean.flush (w := w.store 1 (32 * i) q.encode) h 1

theorem World.DataClean.addInode (h : w.DataClean) (e : SimplefsInode) :
    (w.addInode e).DataClean := by
  refine World.DataClean.flush ?_ 0
  intro b hb
  change Function.update w.dirty 1 true b = false
  rw [Function.update_of_ne (by omega)]
  exact h b hb

theorem World.DataClean.recorded (h : w.DataClean) : (w.recorded tid env q mode name).DataClean := by
  have halloc : w.allocBlock.DataClean := World.DataClean.flush (w := w.store _ _ _) h 0
  refine World.DataClean.flush ?_ _
  change (afterAdd tid env w.allocBlock (newEntry w.cache mode)).DataClean
  unfold afterAdd
  split_ifs
  · exact halloc
  · exact halloc
  · exact halloc.addInode _

theorem World.DataClean.create (h : w.DataClean) (hs : w.Sane) (hd : w.Has dir .dir)
    (hn : ValidName name)
    (hrun : (simplefsCreateFsObject dir name mode).run (exec tid env) w = .done r w') :
    w'.DataClean := by
  obtain ⟨q, hq, hq2⟩ := hs.simplefsInode hd
  cases create_cases hn hq hq2 hrun with
  | refused => exact h
  | released => exact h
  | uncounted => exact h.recorded
  | unsaved => exact h.recorded
  | created =>
      have hr : ((w.recorded tid env q mode name).setFileSize dir (q.fileSize + 1)).DataClean :=
        h.recorded
      exact hr.saveInode _ _

theorem World.DataClean.write (h : w.DataClean) (hs : w.Sane) (hf : w.Has p .file)
    (hrun : (simplefsWrite p buf pos).run (exec tid env) w = .done (r, pos') w') :
    w'.DataClean := by
  obtain ⟨q, hq, hq2⟩ := hs.simplefsInode hf
  have hc := hs.count_le
  have hcopied : (w.copiedIn q buf pos).DataClean := World.DataClean.flush (w := w.store _ _ _) h _
  cases write_cases hq hq2 (by omega) hrun with
  | tooBig => exact h
  | unread => exact h
  | fault => exact h
  | unsized => exact hcopied
  | unsaved => exact hcopied
  | written =>
      have hsized : ((w.copiedIn q buf pos).setFileSize p
          (UInt64.ofNat (pos + writeLength buf pos))).DataClean := hcopied
      exact hsized.saveInode _ _

theorem World.DataClean.step (h : w.DataClean) (hs : w.Sane) {c : Call} {reply : Reply}
    (ha : c.Allowed w) (hrun : c.run tid env w = .done reply w') : w'.DataClean := by
  cases Call.ran_of_run hrun with
  | mount run =>
      rcases mount_cases hs.count_le run with rfl | rfl
      · exact h
      · exact h
  | unmount => exact fun _ _ => rfl
  | lookup run =>
      rcases lookup_cases hs.count_le run with rfl | ⟨ino, j, hf, rfl⟩
      · exact h
      · exact h
  | create run => exact h.create hs ha.1 ha.2.1 run
  | mkdir run => exact h.create hs ha.1 ha.2.1 run
  | iterate => exact h
  | read => exact h
  | write run => exact h.write hs ha run

end DataClean

section Reads

variable {tid : Nat} {env : Env} {w w' : World} {p : Path} {q : SimplefsInode} {len pos : Nat}

end Reads

section Write

variable {tid : Nat} {env : Env} {w w' : World} {p : Path} {q : SimplefsInode} {buf : List UInt8}
  {pos pos' : Nat} {r : Int}

end Write

end LinuxDevelopment.Simplefs
