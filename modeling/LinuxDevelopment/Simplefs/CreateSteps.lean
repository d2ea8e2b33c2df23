import LinuxDevelopment.Simplefs.Alone

/-!
# simplefs: the actions of a create

`CreateOp` lists what `simplefs_create_fs_object` does to the caches, action by
action: it works on the super block, on the entry of the parent and the entries
behind the counted ones, on the block of the parent and on its inode. Nothing
it does depends on the files or changes them.
-/

namespace LinuxDevelopment.Simplefs

/-- Two in-memory inodes of one object: all but the size word is the same. -/
structure VfsInode.Alike (x y : VfsInode) : Prop where
  iFop : x.iFop = y.iFop
  iPrivate : ∃ p q, x.iPrivate = some p ∧ y.iPrivate = some q ∧ p.Same q

theorem VfsInode.Alike.trans {x y z : VfsInode} (h₁ : x.Alike y) (h₂ : y.Alike z) : x.Alike z := by
  obtain ⟨p, q, hp, hq, hpq⟩ := h₁.iPrivate
  obtain ⟨q', r, hq', hr, hqr⟩ := h₂.iPrivate
  obtain rfl : q = q' := Option.some.inj (hq.symm.trans hq')
  exact ⟨h₁.iFop.trans h₂.iFop, p, r, hp, hr, hpq.trans hqr⟩

/-- `m` has all that `v` has: the counted entries keep their numbers and the
dentries their inodes. -/
structure Caches.Extends (m v : Caches) : Prop where
  count_le : (inodesCount v.cache).toNat ≤ (inodesCount m.cache).toNat
  number : ∀ i < (inodesCount v.cache).toNat,
    (entryAt m.cache i).inodeNo = (entryAt v.cache i).inodeNo
  dcache : ∀ p x, v.dcache p = some x → ∃ y, m.dcache p = some y ∧ y.Alike x

/-- The actions that neither read nor change the caches. -/
def Op.blind : Op → Prop
  | .mutexLockInterruptible _ | .mutexUnlock _ | .sbBread _ | .trap _ | .markBufferDirty _
  | .syncDirtyBuffer _ | .newInode => True
  | _ => False

/-- The actions of a create in the directory `dir` with the inode `q`, where `v`
are the caches it has started with and `m` those it has now. -/
inductive CreateOp (v : Caches) (dir : Path) (name : Name) (q : SimplefsInode) (m : Caches) :
    Op → Prop
  | blind {o : Op} (ho : o.blind) : CreateOp v dir name q m o
  | super (off len : Nat) : CreateOp v dir name q m (.load 0 off len)
  | number (i : Nat) : CreateOp v dir name q m (.load 1 (32 * i + 8) 8)
  | free (f : UInt64) : CreateOp v dir name q m (.store 0 32 (toLE 8 f.toNat))
  | count (c : UInt64) (hc : (inodesCount v.cache).toNat ≤ c.toNat) :
      CreateOp v dir name q m (.store 0 24 (toLE 8 c.toNat))
  | append (i : Nat) (e : SimplefsInode) (hi : (inodesCount v.cache).toNat ≤ i) :
      CreateOp v dir name q m (.store 1 (32 * i) e.encode)
  | save (i : Nat) (e : SimplefsInode) (hi : (entryAt m.cache i).inodeNo = q.inodeNo)
      (he : e.inodeNo = q.inodeNo) : CreateOp v dir name q m (.store 1 (32 * i) e.encode)
  | record (off : Nat) (bytes : List UInt8) :
      CreateOp v dir name q m (.store q.dataBlockNumber.toNat off bytes)
  | inode : CreateOp v dir name q m (.simplefsInode dir)
  | resize (s : UInt64) : CreateOp v dir name q m (.setFileSize dir s)
  | dAdd (x : VfsInode) : CreateOp v dir name q m (.dAdd (name :: dir) x)

variable {env : Env} {v m m' : Caches} {dir : Path} {name : Name} {q : SimplefsInode}

theorem solo_blind {o : Op} {r : o.Res} (ho : o.blind) (h : solo env o m = .done r m') :
    m' = m ∧ ∀ n, solo env o n = .done r n := by
  cases o with
  | mutexLockInterruptible site =>
      rw [solo_lock] at h
      cases h
      exact ⟨rfl, fun n => solo_lock site⟩
  | mutexUnlock | sbBread | markBufferDirty | syncDirtyBuffer | newInode =>
      cases h
      exact ⟨rfl, fun n => rfl⟩
  | trap => cases h
  | _ => exact ho.elim

theorem solo_store_eq {b off : Nat} {bytes : List UInt8} {r : Unit}
    (hx : solo env (.store b off bytes) m = .done r m') : m' = m.poke b off bytes := by
  rw [solo_store] at hx
  split_ifs at hx
  cases hx
  rfl

/-- Where a create is on its way: nothing is lost, and the inode of the parent
is in memory. -/
structure Amid (v : Caches) (dir : Path) (q : SimplefsInode) (m : Caches) : Prop where
  extends_ : m.Extends v
  inode : ∃ p, m.simplefsInode dir = some p ∧ p.Same q

/-- The code performs only actions of a create. -/
abbrev Creates {α : Type} (env : Env) (v : Caches) (dir : Path) (name : Name) (q : SimplefsInode)
    (Q : α → Caches → Prop) (p : Code α) (m : Caches) : Prop :=
  p.Ensures (solo env) (fun o m => CreateOp v dir name q m o ∧ Amid v dir q m) Q m

section Memory

variable {b off : Nat} {bytes : List UInt8}

theorem Caches.poke_zero_entryAt (i : Nat) :
    entryAt (m.poke 0 off bytes).cache i = entryAt m.cache i := by
  unfold entryAt
  rw [Caches.poke_cache, Function.update_of_ne (by decide)]

theorem Caches.poke_zero_free (f : UInt64) :
    (m.poke 0 32 (toLE 8 f.toNat)).cache = setFree m.cache f := rfl

theorem Caches.poke_zero_count (c : UInt64) :
    (m.poke 0 24 (toLE 8 c.toNat)).cache = setCount m.cache c := rfl

theorem Caches.poke_one_entry (i : Nat) (e : SimplefsInode) :
    (m.poke 1 (32 * i) e.encode).cache = setEntry m.cache i e := rfl

end Memory

namespace Amid

variable (h : Amid v dir q m)
include h

theorem setFree (f : UInt64) : Amid v dir q (m.poke 0 32 (toLE 8 f.toNat)) := by
  refine ⟨⟨?_, ?_, h.extends_.dcache⟩, h.inode⟩
  · rw [Caches.poke_zero_free, inodesCount_setFree]
    exact h.extends_.count_le
  · intro i hi
    rw [Caches.poke_zero_entryAt]
    exact h.extends_.number i hi

theorem setCount {c : UInt64} (hc : (inodesCount v.cache).toNat ≤ c.toNat) :
    Amid v dir q (m.poke 0 24 (toLE 8 c.toNat)) := by
  refine ⟨⟨?_, ?_, h.extends_.dcache⟩, h.inode⟩
  · rw [Caches.poke_zero_count, inodesCount_setCount]
    exact hc
  · intro i hi
    rw [Caches.poke_zero_entryAt]
    exact h.extends_.number i hi

/-- An entry behind the counted ones is filled in, or one is replaced by an
entry with its number. -/
theorem setEntry {i : Nat} {e : SimplefsInode}
    (hi : i < (inodesCount v.cache).toNat → (entryAt m.cache i).inodeNo = e.inodeNo) :
    Amid v dir q (m.poke 1 (32 * i) e.encode) := by
  refine ⟨⟨?_, ?_, h.extends_.dcache⟩, h.inode⟩
  · rw [Caches.poke_one_entry, inodesCount_setEntry]
    exact h.extends_.count_le
  · intro j hj
    rw [Caches.poke_one_entry]
    by_cases hji : j = i
    · subst hji
      rw [entryAt_setEntry_self, ← hi hj]
      exact h.extends_.number j hj
    · rw [entryAt_setEntry_of_ne hji]
      exact h.extends_.number j hj

theorem setBlock {b off : Nat} {bytes : List UInt8} (hb : 2 ≤ b) :
    Amid v dir q (m.poke b off bytes) := by
  refine ⟨⟨?_, ?_, h.extends_.dcache⟩, h.inode⟩
  · rw [Caches.poke_cache, inodesCount_update hb]
    exact h.extends_.count_le
  · intro i hi
    rw [Caches.poke_cache, entryAt_update hb]
    exact h.extends_.number i hi

end Amid

theorem Caches.setFileSize_dcache_self {p : Path} {s : UInt64} {x : VfsInode} {e : SimplefsInode}
    (hx : m.dcache p = some x) (he : x.iPrivate = some e) :
    (m.setFileSize p s).dcache p = some { x with iPrivate := some { e with fileSize := s } } := by
  rw [Caches.setFileSize_dcache, Function.update_self, hx]
  simp [he]

theorem Caches.setFileSize_dcache_of_ne {p p' : Path} {s : UInt64} (h : p' ≠ p) :
    (m.setFileSize p s).dcache p' = m.dcache p' :=
  Function.update_of_ne h _ _

theorem Caches.setFileSize_ne_none {p p' : Path} {s : UInt64} (h : m.dcache p' ≠ none) :
    (m.setFileSize p s).dcache p' ≠ none := by
  by_cases hp : p' = p
  · subst hp
    rw [Caches.setFileSize_dcache, Function.update_self]
    simpa using h
  · rw [m.setFileSize_dcache_of_ne hp]
    exact h

theorem Caches.dAdd_dcache_of_ne {p p' : Path} {x : VfsInode} (h : p' ≠ p) :
    (m.dAdd p x).dcache p' = m.dcache p' :=
  Function.update_of_ne h _ _

theorem Caches.simplefsInode_eq_some {p : Path} {e : SimplefsInode} :
    m.simplefsInode p = some e ↔ ∃ x, m.dcache p = some x ∧ x.iPrivate = some e := by
  unfold Caches.simplefsInode
  rw [Option.bind_eq_some_iff]

/-- A new size leaves an object what it is. -/
theorem Caches.setFileSize_alike {p p' : Path} {s : UInt64} {x : VfsInode} {e : SimplefsInode}
    (hx : m.dcache p' = some x) (he : x.iPrivate = some e) :
    ∃ y, (m.setFileSize p s).dcache p' = some y ∧ y.Alike x := by
  by_cases hp : p' = p
  · subst hp
    exact ⟨_, m.setFileSize_dcache_self hx he, rfl, _, e, rfl, he, rfl, rfl, rfl⟩
  · exact ⟨x, (m.setFileSize_dcache_of_ne hp).trans hx, rfl, e, e, he, he, .refl e⟩

theorem Amid.setFileSize (h : Amid v dir q m) (s : UInt64) :
    Amid v dir q (m.setFileSize dir s) := by
  refine ⟨⟨h.extends_.count_le, h.extends_.number, ?_⟩, ?_⟩
  · intro p x hx
    obtain ⟨y, hy, hyx⟩ := h.extends_.dcache p x hx
    obtain ⟨e, e', he, -, -⟩ := hyx.iPrivate
    obtain ⟨z, hz, hzy⟩ := m.setFileSize_alike (p := dir) (s := s) hy he
    exact ⟨z, hz, hzy.trans hyx⟩
  · obtain ⟨p, hp, hpq⟩ := h.inode
    obtain ⟨x, hx, hxp⟩ := Caches.simplefsInode_eq_some.mp hp
    refine ⟨{ p with fileSize := s }, ?_, hpq.mode, hpq.inodeNo, hpq.dataBlockNumber⟩
    exact Caches.simplefsInode_eq_some.mpr ⟨_, m.setFileSize_dcache_self hx hxp, rfl⟩

/-- An action that changes the caches stays within what a create may do. -/
theorem Amid.step (h : Amid v dir q m) (hq : 2 ≤ q.dataBlockNumber.toNat) {o : Op} {r : o.Res}
    (ho : CreateOp v dir name q m o) (hadd : ∀ p x, o ≠ .dAdd p x)
    (hx : solo env o m = .done r m') : Amid v dir q m' := by
  cases ho with
  | blind ho =>
      obtain ⟨rfl, -⟩ := solo_blind ho hx
      exact h
  | super | number | inode =>
      obtain rfl := solo_still (by trivial) hx
      exact h
  | free f =>
      obtain rfl := solo_store_eq hx
      exact h.setFree f
  | count c hc =>
      obtain rfl := solo_store_eq hx
      exact h.setCount hc
  | append i e hi =>
      obtain rfl := solo_store_eq hx
      exact h.setEntry fun hlt => absurd hi (Nat.not_le.mpr hlt)
  | save i e hi he =>
      obtain rfl := solo_store_eq hx
      exact h.setEntry fun _ => hi.trans he.symm
  | record =>
      obtain rfl := solo_store_eq hx
      exact h.setBlock hq
  | resize s =>
      cases hx
      exact h.setFileSize s
  | dAdd x => exact absurd rfl (hadd _ x)

/-- Of the inodes in memory an action changes that of the parent only, and of that
one only the size. -/
theorem CreateOp.dcache {n : Caches} {o : Op} {r : o.Res} (ho : CreateOp v dir name q n o)
    (hadd : ∀ p x, o ≠ .dAdd p x) (hx : solo env o m = .done r m') :
    (∀ p, p ≠ dir → m'.dcache p = m.dcache p) ∧
      ∀ p, (m'.dcache p).map VfsInode.iFop = (m.dcache p).map VfsInode.iFop := by
  have hstore : ∀ {b off : Nat} {bytes : List UInt8}, o = .store b off bytes →
      m'.dcache = m.dcache := by
    rintro b off bytes rfl
    rw [solo_store_eq hx, Caches.poke_dcache]
  have hsame : m'.dcache = m.dcache → (∀ p, p ≠ dir → m'.dcache p = m.dcache p) ∧
      ∀ p, (m'.dcache p).map VfsInode.iFop = (m.dcache p).map VfsInode.iFop := by
    intro heq
    rw [heq]
    exact ⟨fun _ _ => rfl, fun _ => rfl⟩
  cases ho with
  | blind ho =>
      obtain ⟨rfl, -⟩ := solo_blind ho hx
      exact hsame rfl
  | super | number | inode =>
      obtain rfl := solo_still (by trivial) hx
      exact hsame rfl
  | free | count | append | save | record => exact hsame (hstore rfl)
  | resize s =>
      obtain rfl : m' = m.setFileSize dir s := by
        cases hx
        rfl
      refine ⟨fun p hp => m.setFileSize_dcache_of_ne hp, fun p => ?_⟩
      by_cases hp : p = dir
      · subst hp
        rw [Caches.setFileSize_dcache, Function.update_self, Option.map_map]
        rfl
      · rw [m.setFileSize_dcache_of_ne hp]
  | dAdd x => exact absurd rfl (hadd _ x)

section Functions

variable {α : Type} {Q : α → Caches → Prop} {b off : Nat}

theorem creates_pure {a : α} (h : Q a m) : Creates env v dir name q Q (pure a) m :=
  Prog.ensures_pure.mpr h

theorem creates_blind {o : Op} {f : o.Res → Code α} (h : Amid v dir q m) (ho : o.blind)
    (hf : ∀ r, Creates env v dir name q Q (f r) m) :
    Creates env v dir name q Q (act o >>= f) m := by
  refine Prog.ensures_call.mpr ⟨⟨.blind ho, h⟩, fun r t hr => ?_⟩
  obtain ⟨rfl, -⟩ := solo_blind ho hr
  exact hf r

theorem creates_store {bytes : List UInt8} {f : Unit → Code α} (h : Amid v dir q m)
    (ho : CreateOp v dir name q m (.store b off bytes))
    (hf : Creates env v dir name q Q (f ()) (m.poke b off bytes)) :
    Creates env v dir name q Q (store b off bytes >>= f) m := by
  refine Prog.ensures_call.mpr ⟨⟨ho, h⟩, fun r t hr => ?_⟩
  rw [solo_store] at hr
  split_ifs at hr
  cases hr
  exact hf

theorem creates_inode {f : SimplefsInode → Code α} (h : Amid v dir q m)
    (hf : ∀ p, p.Same q → Creates env v dir name q Q (f p) m) :
    Creates env v dir name q Q (simplefsInode dir >>= f) m := by
  refine Prog.ensures_call.mpr ⟨⟨.inode, h⟩, fun r t hr => ?_⟩
  obtain ⟨p, hp, hpq⟩ := h.inode
  rw [solo_simplefsInode, hp] at hr
  cases hr
  exact hf _ hpq

theorem creates_load64 {f : UInt64 → Code α} (h : Amid v dir q m)
    (ho : CreateOp v dir name q m (.load b off 8))
    (hf : Creates env v dir name q Q (f ((m.cache b).get64 off)) m) :
    Creates env v dir name q Q (load64 b off >>= f) m := by
  refine Prog.ensures_call.mpr ⟨⟨ho, h⟩, fun r t hr => ?_⟩
  rw [solo_load] at hr
  split_ifs at hr
  cases hr
  exact hf

theorem creates_sbBreadBugOn (h : Amid v dir q m) :
    Creates env v dir name q (fun _ t => m = t) (sbBreadBugOn b) m := by
  refine creates_blind h (by trivial) fun ok => ?_
  cases ok with
  | true => exact creates_pure rfl
  | false => exact creates_blind h (f := fun _ => pure ()) (by trivial) fun _ => creates_pure rfl

theorem creates_simplefsSbSync (h : Amid v dir q m) :
    Creates env v dir name q (fun _ t => m = t) simplefsSbSync m := by
  refine (creates_sbBreadBugOn h).bind ?_
  rintro _ _ rfl
  refine creates_blind h (by trivial) fun _ => ?_
  exact creates_blind h (f := fun _ => pure ()) (by trivial) fun _ => creates_pure rfl

theorem creates_inodeSearchLoop {no : UInt64} {left i : Nat} (h : Amid v dir q m) :
    Creates env v dir name q (fun found t => m = t ∧ ∀ j, found = some j →
      (entryAt m.cache j).inodeNo = no) (inodeSearchLoop no left i) m := by
  induction left generalizing i with
  | zero =>
      refine creates_load64 h (.number i) (creates_pure ⟨rfl, fun j hj => ?_⟩)
      obtain ⟨hfound, hij⟩ := Option.ite_none_right_eq_some.mp hj
      obtain rfl := Option.some.inj hij
      exact inodeNo_inodeAt.trans hfound
  | succ left ih =>
      refine creates_load64 h (.number i) ?_
      refine Prog.Ensures.ite (fun hfound => ?_) fun _ => ih
      refine creates_pure ⟨rfl, fun j hj => ?_⟩
      obtain rfl := Option.some.inj hj
      exact inodeNo_inodeAt.trans hfound

theorem creates_simplefsInodeSearch (h : Amid v dir q m) (e : SimplefsInode) :
    Creates env v dir name q (fun found t => m = t ∧ ∀ j, found = some j →
      (entryAt m.cache j).inodeNo = e.inodeNo) (simplefsInodeSearch e) m := by
  refine creates_load64 h (.super 24 8) ?_
  exact creates_inodeSearchLoop h

theorem creates_simplefsInodeSave (h : Amid v dir q m) :
    Creates env v dir name q (fun _ t => Amid v dir q t) (simplefsInodeSave dir) m := by
  refine (creates_sbBreadBugOn h).bind ?_
  rintro _ _ rfl
  refine creates_blind h (by trivial) fun taken => ?_
  cases taken with
  | false => exact creates_pure h
  | true =>
      refine creates_inode h fun e heq => ?_
      refine (creates_simplefsInodeSearch h e).bind ?_
      rintro found t ⟨rfl, hfound⟩
      cases found with
      | none => exact creates_blind h (by trivial) fun _ => creates_pure h
      | some i =>
          have hi := hfound i rfl
          have hsaved := h.setEntry fun _ => hi
          refine creates_store h (.save i e (hi.trans heq.inodeNo) heq.inodeNo) ?_
          refine creates_blind hsaved (by trivial) fun _ => ?_
          refine creates_blind hsaved (by trivial) fun _ => ?_
          exact creates_blind hsaved (by trivial) fun _ => creates_pure hsaved

theorem creates_createCommit (h : Amid v dir q m) (e : SimplefsInode) :
    Creates env v dir name q (fun _ _ => True) (createCommit dir name e) m := by
  refine creates_blind h (by trivial) fun taken => ?_
  cases taken with
  | false => exact creates_blind h (by trivial) fun _ => creates_pure trivial
  | true =>
      refine creates_inode h fun p _ => ?_
      refine Prog.ensures_call.mpr ⟨⟨.resize _, h⟩, fun r t hr => ?_⟩
      cases hr
      refine (creates_simplefsInodeSave (h.setFileSize _)).bind fun ret t ht => ?_
      refine Prog.Ensures.ite (fun _ => ?_) fun _ => ?_
      · exact creates_blind ht (by trivial) fun _ => creates_blind ht (by trivial) fun _ => creates_pure trivial
      · refine creates_blind ht (by trivial) fun _ => creates_blind ht (by trivial) fun _ => ?_
        exact Prog.ensures_call.mpr ⟨⟨.dAdd _, ht⟩, fun _ _ _ => creates_pure trivial⟩

theorem creates_simplefsInodeAdd (h : Amid v dir q m) (hc : (inodesCount m.cache).toNat < 64)
    (e : SimplefsInode) :
    Creates env v dir name q (fun _ t => Amid v dir q t) (simplefsInodeAdd e) m := by
  refine creates_blind h (by trivial) fun taken => ?_
  cases taken with
  | false => exact creates_pure h
  | true =>
      refine (creates_sbBreadBugOn h).bind ?_
      rintro _ _ rfl
      refine creates_blind h (by trivial) fun taken => ?_
      cases taken with
      | false => exact creates_pure h
      | true =>
          have hle := h.extends_.count_le
          have h₁ := h.setEntry (e := e) fun hlt => absurd hlt (Nat.not_lt.mpr hle)
          have hle' := Nat.le_succ_of_le hle
          rw [Nat.succ_eq_add_one, ← Volume.toNat_succ rfl (Nat.lt_trans hc (by decide))] at hle'
          have h₂ := h₁.setCount hle'
          refine creates_load64 h (.super 24 8) ?_
          refine creates_store h (.append _ e hle) ?_
          refine creates_store h₁ (.count _ hle') ?_
          refine creates_blind h₂ (by trivial) fun _ => ?_
          refine (creates_simplefsSbSync h₂).bind ?_
          rintro _ _ rfl
          refine creates_blind h₂ (by trivial) fun _ => ?_
          exact creates_blind h₂ (f := fun _ => pure ()) (by trivial) fun _ => creates_pure h₂

theorem creates_createTail (h : Amid v dir q m) (hq : 2 ≤ q.dataBlockNumber.toNat)
    (hc : (inodesCount m.cache).toNat < 64) (e : SimplefsInode) :
    Creates env v dir name q (fun _ _ => True) (createTail dir name e) m := by
  refine (creates_simplefsInodeAdd h hc e).bind fun _ t ht => ?_
  refine creates_inode ht fun p hpq => ?_
  rw [hpq.dataBlockNumber]
  refine (creates_sbBreadBugOn ht).bind ?_
  rintro _ _ rfl
  have h₁ := @Amid.setBlock _ _ _ _ ht _ (264 * p.dirChildrenCount + 256)
    (toLE 8 e.inodeNo.toNat) hq
  have h₂ := @Amid.setBlock _ _ _ _ h₁ _ (264 * p.dirChildrenCount) (cString name) hq
  refine creates_store ht (.record _ _) (creates_store h₁ (.record _ _) ?_)
  refine creates_blind h₂ (by trivial) fun _ => creates_blind h₂ (by trivial) fun _ => ?_
  exact creates_createCommit h₂ e

theorem creates_simplefsSbGetAFreeblock (h : Amid v dir q m) :
    Creates env v dir name q (fun _ t => Amid v dir q t ∧ inodesCount t.cache = inodesCount m.cache)
      simplefsSbGetAFreeblock m := by
  refine creates_blind h (by trivial) fun taken => ?_
  cases taken with
  | false => exact creates_blind h (by trivial) fun _ => creates_pure ⟨h, rfl⟩
  | true =>
      refine creates_load64 h (.super 32 8) (Prog.Ensures.ite (fun _ => ?_) fun _ => ?_)
      · exact creates_blind h (by trivial) fun _ => creates_pure ⟨h, rfl⟩
      · have h₁ := h.setFree (freeBlocks m.cache &&&
          ~~~freeblockMask (freeblockScan (freeBlocks m.cache)))
        refine creates_store h (.free _) ?_
        refine (creates_simplefsSbSync h₁).bind ?_
        rintro _ _ rfl
        exact creates_blind h₁ (by trivial) fun _ => creates_pure ⟨h₁, inodesCount_setFree⟩

theorem creates_simplefsSbGetObjectsCount (h : Amid v dir q m) :
    Creates env v dir name q (fun r t => m = t ∧ (0 ≤ r.1 → r.2 = inodesCount m.cache))
      simplefsSbGetObjectsCount m := by
  refine creates_blind h (by trivial) fun taken => ?_
  cases taken with
  | false => exact creates_pure ⟨rfl, fun hret => absurd hret (by decide)⟩
  | true =>
      refine creates_load64 h (.super 24 8) ?_
      exact creates_blind h (by trivial) fun _ => creates_pure ⟨rfl, fun _ => rfl⟩

/-- Every action of the call is one of a create. -/
theorem creates_simplefsCreateFsObject (h : Amid v dir q v) (hq : 2 ≤ q.dataBlockNumber.toNat)
    (name : Name) (mode : UInt16) : Creates env v dir name q (fun _ _ => True)
      (simplefsCreateFsObject dir name mode) v := by
  have hunlock : ∀ r : Int, Creates env v dir name q (fun _ _ => True)
      (mutexUnlock .directoryChildrenUpdateLock >>= fun _ => pure r) v :=
    fun r => creates_blind h (by trivial) fun _ => creates_pure trivial
  rw [createFsObject_eq]
  refine creates_blind h (by trivial) fun taken => ?_
  cases taken with
  | false => exact creates_pure trivial
  | true =>
      refine (creates_simplefsSbGetObjectsCount h).bind ?_
      rintro ⟨ret, count⟩ _ ⟨rfl, hret⟩
      refine Prog.Ensures.ite (fun _ => hunlock _) fun hneg => ?_
      obtain rfl : count = _ := hret (Int.not_lt.mp hneg)
      refine Prog.Ensures.ite (fun _ => hunlock _) fun hroom => ?_
      refine Prog.Ensures.ite (fun _ => hunlock _) fun _ => ?_
      refine creates_blind h (by trivial) fun ok => ?_
      refine Prog.Ensures.ite (fun _ => hunlock _) fun _ => ?_
      refine (creates_simplefsSbGetAFreeblock h).bind ?_
      rintro ⟨ret, block⟩ t ⟨ht, hcount⟩
      refine Prog.Ensures.ite (fun _ => ?_) fun _ => ?_
      · exact creates_blind ht (by trivial) fun _ => creates_pure trivial
      · refine creates_createTail ht hq ?_ _
        rw [hcount]
        exact Nat.not_le.mp hroom

end Functions

end LinuxDevelopment.Simplefs
