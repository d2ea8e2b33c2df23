import LinuxDevelopment.Simplefs.TwoDevices
import LinuxDevelopment.Simplefs.Format

/-!
# simplefs: what old device contents can be seen

Two well-formed images that agree on what is stored may hold different bytes
everywhere else, left behind by earlier uses of the device. A caller can tell
them apart in two ways. A write that starts behind the end of a file makes the
bytes in between part of the file without clearing them. And a record of a
directory is filled in by `strcpy`, which leaves the bytes behind the terminator
as they were, while `simplefs_iterate` hands out the whole field.

In runs whose writes start inside the files every call is answered in the same
way on both images, up to those bytes behind the terminators.
-/

namespace LinuxDevelopment.Simplefs

open Volume

/-- Two images agree on everything that is stored: on the super block, on the
counted entries, and on the contents and records that these count. -/
structure AgreeLive (img₁ img₂ : Image) : Prop where
  super : Agree img₁ img₂ 0 0 4096
  store : Agree img₁ img₂ 1 0 (32 * (inodesCount img₁).toNat)
  files : ∀ i < (inodesCount img₁).toNat, sIsreg (entryAt img₁ i).mode = true →
    Agree img₁ img₂ (entryAt img₁ i).dataBlockNumber.toNat 0 (entryAt img₁ i).fileSize.toNat
  records : ∀ i < (inodesCount img₁).toNat, sIsdir (entryAt img₁ i).mode = true →
    Agree img₁ img₂ (entryAt img₁ i).dataBlockNumber.toNat 0
      (264 * (entryAt img₁ i).dirChildrenCount)

/-- The positions of the counted records of an image. -/
def RecordOf (img : Image) (b i : Nat) : Prop :=
  ∃ j < (inodesCount img).toNat, sIsdir (entryAt img j).mode = true ∧
    (entryAt img j).dataBlockNumber.toNat = b ∧ i < 264 * (entryAt img j).dirChildrenCount

theorem Agree.record_eq {c₁ c₂ : Image} {b k : Nat} (h : Agree c₁ c₂ b (264 * k) 264) :
    recordIno (c₁ b) k = recordIno (c₂ b) k ∧ recordName (c₁ b) k = recordName (c₂ b) k := by
  have hino : Agree c₁ c₂ b (264 * k + 256) 8 := h.sub (by omega) (by omega)
  have hname : Agree c₁ c₂ b (264 * k) 256 := h.sub (Nat.le_refl _) (by omega)
  refine ⟨hino.get64_eq, ?_⟩
  unfold recordName
  rw [← Buffer.takeWhile_bytesAt, ← Buffer.takeWhile_bytesAt, hname.bytesAt_eq]

/-- Two file systems that are not mounted yet. -/
theorem AgreeLive.paired {img₁ img₂ : Image} (h : AgreeLive img₁ img₂)
    (hwf : (Volume.ofImage img₁).Wf) :
    Paired (Known (RecordOf img₁) fun _ => False) (World.ofImage img₁) (World.ofImage img₂) := by
  refine ⟨rfl, rfl, ?_⟩
  constructor
  case super => exact h.super
  case wf => exact hwf.toStoreWf
  case store => exact h.store
  case entries =>
    intro i hi
    constructor
    case file => exact fun hf => h.files i hi (fopOf_eq_file.mp hf).2
    case fits => exact fun hd => hwf.children_le i hi (fopOf_eq_dir.mp hd)
    case records =>
      intro hd k hk
      have hrec := h.records i hi (fopOf_eq_dir.mp hd)
      have hlt : k < (entryAt img₁ i).dirChildrenCount := hk
      exact (hrec.sub (Nat.zero_le _) (by omega)).record_eq
  case memory =>
    intro p x q hx
    exact nomatch hx
  case pending => exact fun _ hE => hE.elim
  case kept =>
    rintro b i ⟨j, hj, hd, rfl, hi⟩
    exact h.records j hj hd i (Nat.zero_le _) (by omega)

/-- The reply with the names of a listing cut at their terminators. -/
def Reply.cut : Reply → Reply
  | .listing r emits pos => .listing r ((emits.map DirEmit.entry).map fun e => ⟨e.1, e.2⟩) pos
  | r => r

/-- No unmount, and no write behind the end of the file. -/
def Call.Inside (w : World) : Call → Prop
  | .unmount => False
  | .write file _ pos => ∀ q, w.simplefsInode file = some q → pos ≤ q.fileSize.toNat
  | _ => True

instance (w : World) : DecidablePred (Call.Inside w)
  | .unmount => inferInstanceAs (Decidable False)
  | .write file _ pos =>
      inferInstanceAs (Decidable (∀ q ∈ w.simplefsInode file, pos ≤ q.fileSize.toNat))
  | .mount | .lookup _ _ | .create _ _ _ | .mkdir _ _ _ | .iterate _ _ | .read _ _ _ =>
      inferInstanceAs (Decidable True)

/-- The call lists no record with bytes that were not stored. -/
def Call.ListsFilled (K : Nat → Nat → Prop) (w : World) : Call → Prop
  | .iterate dir _ => w.ListsFilled K dir
  | _ => True

/-- The replies of one call on two devices, and the states it leaves behind. -/
structure Answered (K : Nat → Nat → Prop) (c : Call) (w : World) (r₁ r₂ : Reply)
    (u v : World) : Prop where
  cut : r₂.cut = r₁.cut
  same : c.ListsFilled K w → r₂ = r₁
  paired : Paired (Known K fun _ => False) u v

section Calls

variable {K : Nat → Nat → Prop} {w₁ w₂ : World} {tid : Nat} {env : Env} {c : Call}

/-- A call whose code returns the same reply on both sides. -/
theorem answered_of_both {I : Assertion} (h : Both tid env I c.code fun _ =>
    Known K fun _ => False) (hI : Paired I w₁ w₂) :
    Outcome.Related (Answered K c w₁) (c.code.run (exec tid env) w₁)
      (c.code.run (exec tid env) w₂) := by
  refine Outcome.Related.mono (h w₁ w₂ hI) ?_
  rintro r _ u v ⟨rfl, hpaired⟩
  exact ⟨rfl, fun _ => rfl, hpaired⟩

theorem Paired.and {I : Assertion} {φ : Dentries → Prop} (h : Paired I w₁ w₂)
    (hφ : φ w₁.dcache) : Paired (fun c₁ c₂ d => φ d ∧ I c₁ c₂ d) w₁ w₂ :=
  ⟨h.dcache, h.owner, hφ, h.images⟩

/-- A call that starts no write behind the end of a file is answered alike. -/
theorem Call.answered (hI : Paired (Known K fun _ => False) w₁ w₂) (henv : env.Uninterrupted)
    (ha : c.Allowed w₁) (hin : c.Inside w₁) :
    Outcome.Related (Answered K c w₁) (c.run tid env w₁) (c.run tid env w₂) := by
  cases c with
  | mount =>
      refine answered_of_both ?_ hI
      exact both_simplefsFillSuper.bind fun _ => both_pure fun _ _ _ hknown => hknown
  | unmount => exact hin.elim
  | lookup dir name =>
      obtain ⟨hd, hn, -⟩ := ha
      have hcode : Both tid env (fun c₁ c₂ d => Opens d dir .dir ∧
          Known K (fun _ => False) c₁ c₂ d) (Call.lookup dir name).code
          fun _ => Known K fun _ => False :=
        (both_simplefsLookup hn).bind fun _ => both_pure fun _ _ _ hknown => hknown
      refine Outcome.Related.bind (hcode w₁ w₂ (hI.and (φ := fun d => Opens d dir .dir) hd)) ?_
      rintro _ _ u v ⟨-, hpaired⟩
      refine .done ⟨?_, fun _ => ?_, hpaired⟩
      · rw [hpaired.dcache]
      · rw [hpaired.dcache]
  | create dir name mode =>
      obtain ⟨hd, hn, -⟩ := ha
      refine answered_of_both ?_ (hI.and (φ := fun d => Opens d dir .dir) hd)
      exact (both_simplefsCreateFsObject henv hn).bind fun _ =>
        both_pure fun _ _ _ hknown => hknown
  | mkdir dir name mode =>
      obtain ⟨hd, hn, -⟩ := ha
      refine answered_of_both ?_ (hI.and (φ := fun d => Opens d dir .dir) hd)
      exact (both_simplefsCreateFsObject henv hn).bind fun _ =>
        both_pure fun _ _ _ hknown => hknown
  | iterate dir pos =>
      have hlist := @related_simplefsIterate tid env K (fun _ => False) dir pos w₁ w₂
        (hI.and (φ := fun d => Opens d dir .dir) ha)
      refine hlist.bind ?_
      rintro x y u v ⟨hlists, hpaired⟩
      refine Prog.related_pure ⟨?_, fun hfilled => ?_, hpaired⟩
      · simp only [Reply.cut, hlists.ret, hlists.entries, hlists.pos]
      · rw [hlists.bytes hfilled]
  | read file len pos =>
      refine answered_of_both ?_ (hI.and (φ := fun d => Opens d file .file) ha)
      exact both_simplefsRead.bind fun _ => both_pure fun _ _ _ hknown => hknown
  | write file buf pos =>
      refine answered_of_both ?_ (hI.and (φ := fun d => (∀ q, inMemory d file = some q →
        pos ≤ q.fileSize.toNat) ∧ Opens d file .file) ⟨hin, ha⟩)
      exact (both_simplefsWrite henv).bind fun _ => both_pure fun _ _ _ hknown => hknown

/-- What the VFS looks at before a call is the same on both sides. -/
theorem Call.Allowed.of_paired (hI : Paired (Known K fun _ => False) w₁ w₂) (ha : c.Allowed w₁) :
    c.Allowed w₂ := by
  have hhas : ∀ {p : Path} {fop : FileOps}, w₁.Has p fop → w₂.Has p fop := by
    intro p fop h
    unfold World.Has at h ⊢
    rwa [← hI.dcache]
  have habsent : ∀ {dir : Path} {name : Name}, w₁.Has dir .dir → ValidName name →
      w₁.Absent dir name → w₂.Absent dir name := by
    rintro dir name hd hn ⟨hnone, w', hrun, hnone'⟩
    have hlookup := (@both_simplefsLookup 0 .quiet K (fun _ => False) dir name hn) w₁ w₂
      (hI.and (φ := fun d => Opens d dir .dir) hd)
    unfold Prog.Related at hlookup
    rw [hrun] at hlookup
    obtain ⟨_, v, hrun₂, rfl, hpaired⟩ := hlookup.of_done
    refine ⟨hI.dcache ▸ hnone, v, hrun₂, ?_⟩
    rw [← hpaired.dcache]
    exact hnone'
  cases c with
  | mount | unmount =>
      unfold Call.Allowed at ha ⊢
      rwa [← hI.dcache]
  | lookup dir name => exact ⟨hhas ha.1, ha.2.1, hI.dcache ▸ ha.2.2⟩
  | create dir name mode | mkdir dir name mode =>
      exact ⟨hhas ha.1, ha.2.1, habsent ha.1 ha.2.1 ha.2.2⟩
  | iterate dir pos => exact hhas ha
  | read file len pos => exact hhas ha
  | write file buf pos => exact hhas ha

end Calls

/-- A run all of whose calls meet a condition in the state they start from. -/
inductive RunMeeting (C : World → Event → Prop) (w : World) : List Event → World → Prop
  | nil : RunMeeting C w [] w
  | snoc {w' w'' : World} {es : List Event} {e : Event} (init : RunMeeting C w es w')
      (meets : C w' e) (allowed : e.call.Allowed w')
      (step : e.call.run e.tid e.env w' = .done e.reply w'') : RunMeeting C w (es ++ [e]) w''

/-- No lock is interrupted and no write starts behind the end of the file. -/
def Careful (w : World) (e : Event) : Prop := e.env.Uninterrupted ∧ e.call.Inside w

/-- The event with the names of a listing cut at their terminators. -/
def Event.cut (e : Event) : Event := { e with reply := e.reply.cut }

section Runs

variable {K : Nat → Nat → Prop} {C D : World → Event → Prop} {w₁ w₂ u₁ : World} {es : List Event}

theorem RunMeeting.mono (hCD : ∀ w e, C w e → D w e) (hrun : RunMeeting C w₁ es u₁) :
    RunMeeting D w₁ es u₁ := by
  induction hrun with
  | nil => exact .nil
  | snoc _ meets allowed step ih => exact .snoc ih (hCD _ _ meets) allowed step

/-- A run on the first device is followed on the second one. -/
theorem RunMeeting.followed (hC : ∀ w e, C w e → Careful w e)
    (hI : Paired (Known K fun _ => False) w₁ w₂) (hrun : RunMeeting C w₁ es u₁) :
    ∃ es' u₂, Run w₂ es' u₂ ∧ es'.map Event.cut = es.map Event.cut ∧
      ((∀ w e, C w e → e.call.ListsFilled K w) → es' = es) ∧
      Paired (Known K fun _ => False) u₁ u₂ := by
  induction hrun with
  | nil => exact ⟨[], w₂, .nil w₂, rfl, fun _ => rfl, hI⟩
  | @snoc w' w'' es e init meets allowed step ih =>
      obtain ⟨es', v, hrun, hcut, hsame, hpaired⟩ := ih
      obtain ⟨henv, hin⟩ := hC w' e meets
      have hanswer : Outcome.Related (Answered K e.call w') (e.call.run e.tid e.env w')
          (e.call.run e.tid e.env v) := Call.answered hpaired henv allowed hin
      rw [step] at hanswer
      obtain ⟨reply, v', hstep, hans⟩ := hanswer.of_done
      refine ⟨es' ++ [{ e with reply := reply }], v',
        .snoc hrun (allowed.of_paired hpaired) hstep, ?_, fun hall => ?_, hans.paired⟩
      · rw [List.map_append, List.map_append, hcut, List.map_singleton, List.map_singleton]
        unfold Event.cut
        rw [hans.cut]
      · rw [hsame hall, hans.same (hall w' e meets)]

end Runs

/-- Two well-formed images agree on what is stored. A run on the first one whose
locks are not interrupted and whose writes start inside the files is possible on
the second one, with the same replies up to the bytes behind the terminators of
the names listed; and with the same replies throughout if no call lists a record
with such bytes. -/
theorem replies_of_agreeLive {img₁ img₂ : Image} {es : List Event} {w₁ : World}
    (hwf : (Volume.ofImage img₁).Wf) (hlive : AgreeLive img₁ img₂)
    (hrun : RunMeeting Careful (World.ofImage img₁) es w₁) :
    (∃ es' w₂, Run (World.ofImage img₂) es' w₂ ∧ es'.map Event.cut = es.map Event.cut) ∧
      (RunMeeting (fun w e => Careful w e ∧ e.call.ListsFilled (RecordOf img₁) w)
        (World.ofImage img₁) es w₁ → ∃ w₂, Run (World.ofImage img₂) es w₂) := by
  have hstart := hlive.paired hwf
  constructor
  · obtain ⟨es', w₂, hrun₂, hcut, -⟩ := hrun.followed (fun _ _ h => h) hstart
    exact ⟨es', w₂, hrun₂, hcut⟩
  · intro hfilled
    obtain ⟨es', w₂, hrun₂, -, hsame, -⟩ := hfilled.followed (fun _ _ h => h.1) hstart
    rw [hsame fun _ _ h => h.2] at hrun₂
    exact ⟨w₂, hrun₂⟩

/-- Formatting stores the same on every device. -/
theorem agreeLive_mkfs (dev₁ dev₂ : Image) : AgreeLive (mkfs dev₁) (mkfs dev₂) := by
  have hcount : (inodesCount (mkfs dev₁)).toNat = 2 := count_mkfs dev₁
  constructor
  case super =>
    intro i _ hi
    rw [mkfs_zero (by omega), mkfs_zero (by omega)]
  case store =>
    intro i _ hi
    rw [hcount] at hi
    by_cases hlt : i < 32
    · rw [mkfs_root hlt, mkfs_root hlt]
    · obtain ⟨j, rfl⟩ : ∃ j, i = 32 + j := ⟨i - 32, by omega⟩
      rw [mkfs_welcome (by omega), mkfs_welcome (by omega)]
  case files =>
    intro i hi hr
    rcases mkfs_cases hi with ⟨rfl, he⟩ | ⟨rfl, he⟩
    · rw [ofImage_entry] at he
      rw [he] at hr
      exact absurd hr (by decide)
    · rw [ofImage_entry] at he
      rw [he]
      intro i _ hi
      rw [Nat.zero_add] at hi
      exact (mkfs_three hi).trans (mkfs_three hi).symm
  case records =>
    intro i hi hd
    rcases mkfs_cases hi with ⟨rfl, he⟩ | ⟨rfl, he⟩
    · rw [ofImage_entry] at he
      rw [he]
      intro i _ hi
      have hone : rootInode.dirChildrenCount = 1 := by decide
      have hlt : i < 264 := by
        rw [hone] at hi
        omega
      exact (mkfs_two hlt).trans (mkfs_two hlt).symm
    · rw [ofImage_entry] at he
      rw [he] at hd
      exact absurd hd (by decide)

/-- A device formatted when it was blank, and one formatted after earlier use. -/
def blankImage : Image := mkfs fun _ _ => 0

def usedImage : Image := mkfs fun _ _ => 0xAA

/-- Create a file, write three bytes in two pieces and read them. -/
def inPieces : List Event :=
  [⟨0, .mount, .quiet, .ret 0⟩, ⟨0, .create [] [97] 0o100644, .quiet, .ret 0⟩,
    ⟨0, .write [[97]] [1, 2] 0, .quiet, .wrote 2 2⟩, ⟨0, .write [[97]] [3] 2, .quiet, .wrote 1 3⟩,
    ⟨0, .read [[97]] 8 0, .quiet, .data 3 [1, 2, 3] 3⟩]

/-- One more call without disturbances, computed from the state reached. -/
theorem RunMeeting.snoc_quiet {K : Nat → Nat → Prop} {w w' : World} {es : List Event} {c : Call}
    {r : Reply} (init : RunMeeting (fun w e => Careful w e ∧ e.call.ListsFilled K w) w es w')
    (hlists : c.ListsFilled K w')
    (h : c.Inside w' ∧ c.Allowed w' ∧ (c.run 0 .quiet w').value? = some r) :
    RunMeeting (fun w e => Careful w e ∧ e.call.ListsFilled K w) w
      (es ++ [⟨0, c, .quiet, r⟩]) (w'.after c .quiet) :=
  .snoc init ⟨⟨fun _ => rfl, h.1⟩, hlists⟩ h.2.1 (run_after h.2.2)

theorem runMeeting_inPieces : ∃ w, RunMeeting (fun w e => Careful w e ∧
    e.call.ListsFilled (RecordOf blankImage) w) (World.ofImage blankImage) inPieces w := by
  have hmount := RunMeeting.nil.snoc_quiet (K := RecordOf blankImage)
    (w := World.ofImage blankImage) (c := .mount) (r := .ret 0) trivial (by decide +kernel)
  have hcreate := hmount.snoc_quiet (c := .create [] [97] 0o100644) (r := .ret 0) trivial
    (by decide +kernel)
  have hfirst := hcreate.snoc_quiet (c := .write [[97]] [1, 2] 0) (r := .wrote 2 2) trivial
    (by decide +kernel)
  have hsecond := hfirst.snoc_quiet (c := .write [[97]] [3] 2) (r := .wrote 1 3) trivial
    (by decide +kernel)
  have hread := hsecond.snoc_quiet (c := .read [[97]] 8 0) (r := .data 3 [1, 2, 3] 3) trivial
    (by decide +kernel)
  exact ⟨_, hread⟩

/-- The device that was in use answers the calls of `inPieces` as the blank one does. -/
theorem replies_inPieces : ∃ w, Run (World.ofImage usedImage) inPieces w := by
  obtain ⟨w, hrun⟩ := runMeeting_inPieces
  have hcareful := hrun.mono fun _ _ h => h.1
  exact (replies_of_agreeLive (mkfs_wf _) (agreeLive_mkfs _ _) hcareful).2 hrun

/-- Calls made on an image, without disturbances, and what they return. -/
def Replies (img : Image) (cs : List Call) (rs : List Reply) : Prop :=
  ∃ es w, Run (World.ofImage img) es w ∧ (∀ e ∈ es, e.env = .quiet) ∧
    es.map Event.call = cs ∧ es.map Event.reply = rs

theorem replies_of_runCalls {img : Image} {cs : List Call} {rs : List Reply}
    (h : (runCalls (World.ofImage img) (quietly cs)).any (fun x =>
      decide (x.1.map Event.call = cs ∧ x.1.map Event.reply = rs)) = true) : Replies img cs rs := by
  obtain ⟨⟨es, w⟩, hcalls, hx⟩ := (Option.any_eq_true _ _).mp h
  have hquiet : ∀ e ∈ es, e.env = .quiet :=
    env_of_runCalls (P := (· = .quiet)) hcalls (env_quietly (P := (· = .quiet)) rfl _)
  exact ⟨es, w, run_of_runCalls hcalls, hquiet, of_decide_eq_true hx⟩

/-- One byte is written two bytes behind the end of an empty file. -/
def behindTheEnd : List Call :=
  [.mount, .create [] [97] 0o100644, .write [[97]] [1] 2, .read [[97]] 8 0]

/-- A name of one byte is added to the root directory, and the directory listed. -/
def shortName : List Call := [.mount, .create [] [97] 0o100644, .iterate [] 0]

/-- The listing that ends `shortName`, on a device filled with `old`. -/
def shortNameListing (old : UInt8) : Reply :=
  .listing 0 [⟨vanakkam ++ List.replicate 247 0, 2⟩, ⟨[97, 0] ++ List.replicate 253 old, 10⟩] 528

/-- Two well-formed images agree on what is stored and are told apart. The bytes
between the end of a file and a write behind it are what the device held before.
So are those behind the terminator of a listed name, with no write at all. -/
theorem not_replies_of_agreeLive :
    (Volume.ofImage blankImage).Wf ∧ (Volume.ofImage usedImage).Wf ∧
      AgreeLive blankImage usedImage ∧
      Replies blankImage behindTheEnd [.ret 0, .ret 0, .wrote 1 3, .data 3 [0, 0, 1] 3] ∧
      Replies usedImage behindTheEnd [.ret 0, .ret 0, .wrote 1 3, .data 3 [0xAA, 0xAA, 1] 3] ∧
      Replies blankImage shortName [.ret 0, .ret 0, shortNameListing 0] ∧
      Replies usedImage shortName [.ret 0, .ret 0, shortNameListing 0xAA] := by
  refine ⟨mkfs_wf _, mkfs_wf _, agreeLive_mkfs _ _, ?_, ?_, ?_, ?_⟩
  · exact replies_of_runCalls (by decide +kernel)
  · exact replies_of_runCalls (by decide +kernel)
  · exact replies_of_runCalls (by decide +kernel)
  · exact replies_of_runCalls (by decide +kernel)

end LinuxDevelopment.Simplefs
