import LinuxDevelopment.Simplefs.StoreInvariant

/-!
# simplefs: the tree in the blocks of an image

A tree of named objects is what a file system is for: `FileTree` and its
operations are stated without blocks, entries and records. `tree` reads such a
tree off the blocks of an image, by walking the records from inode 1.
-/

namespace LinuxDevelopment.Simplefs

/-- What an object holds: names with inode numbers, or bytes. -/
inductive Body where
  | dir (children : List (Name × UInt64))
  | file (contents : List UInt8)
  deriving DecidableEq, Repr

/-- An object of a file system. -/
structure Object where
  ino : UInt64
  mode : UInt32
  body : Body
  deriving DecidableEq, Repr

/-- The objects of a file system, by path. -/
abbrev FileTree := Path → Option Object

/-- A directory with one more child. -/
def Object.link (x : Object) (name : Name) (ino : UInt64) : Object :=
  match x.body with
  | .dir children => { x with body := .dir (children ++ [(name, ino)]) }
  | .file _ => x

/-- A new directory or file. -/
def Object.empty (ino : UInt64) (mode : UInt32) : Object where
  ino := ino
  mode := mode
  body := if sIsdir mode then .dir [] else .file []

namespace FileTree

/-- Add the object `x` under a name to the directory `dir`, and nothing else. -/
def insert (t : FileTree) (dir : Path) (name : Name) (x : Object) : FileTree :=
  Function.update (Function.update t dir ((t dir).map fun d => d.link name x.ino)) (name :: dir)
    (some x)

/-- Replace the contents of the file `p`, and nothing else. -/
def write (t : FileTree) (p : Path) (contents : List UInt8) : FileTree :=
  Function.update t p ((t p).map fun x => { x with body := .file contents })

theorem write_self {t : FileTree} {p : Path} {x : Object} {bytes : List UInt8} (hx : t p = some x)
    (hb : x.body = .file bytes) : t.write p bytes = t := by
  have hsame : (t p).map (fun y => { y with body := Body.file bytes }) = t p := by
    rw [hx, Option.map_some, ← hb]
  unfold write
  rw [hsame]
  exact Function.update_eq_self _ _

/-- Only the last contents count. -/
theorem write_write (t : FileTree) (p : Path) (a b : List UInt8) :
    (t.write p a).write p b = t.write p b := by
  unfold write
  rw [Function.update_idem, Function.update_self, Option.map_map]
  rfl

end FileTree

/-- The first entry below `inodes_count` with a number. -/
def resolveIno (img : Image) (ino : UInt64) : Option SimplefsInode :=
  (findEntry img ino).map (entryAt img)

/-- The first record of a directory with a name. -/
def recordOf (dir : Buffer) (n : Nat) (name : Name) : Option Nat :=
  (List.range' 0 n).find? fun k => recordName dir k = name

/-- Walk the records from inode 1 along a path. -/
def walk (img : Image) : Path → Option SimplefsInode
  | [] => resolveIno img 1
  | name :: dir => (walk img dir).bind fun d =>
      if sIsdir d.mode then
        (recordOf (img d.dataBlockNumber.toNat) d.dirChildrenCount name).bind fun k =>
          resolveIno img (recordIno (img d.dataBlockNumber.toNat) k)
      else none

/-- The object of an entry: its counted records, or the bytes below its size. -/
def objectAt (img : Image) (e : SimplefsInode) : Object where
  ino := e.inodeNo
  mode := e.mode
  body :=
    if sIsdir e.mode then
      .dir ((List.range' 0 e.dirChildrenCount).map fun k =>
        (recordName (img e.dataBlockNumber.toNat) k, recordIno (img e.dataBlockNumber.toNat) k))
    else .file ((img e.dataBlockNumber.toNat).bytesAt 0 e.fileSize.toNat)

/-- The tree in the blocks of an image. -/
def tree (img : Image) : FileTree := fun p => (walk img p).map (objectAt img)

namespace Volume

/-- The image holds exactly the volume. -/
structure Written (v : Volume) (img : Image) : Prop where
  wf : v.Wf
  shows : v.Shows img
  saved : v.Exact img

/-- The object of the entry `i`. -/
def object (v : Volume) (i : Nat) : Object where
  ino := (v.entry i).inodeNo
  mode := (v.entry i).mode
  body :=
    if sIsdir (v.entry i).mode then
      .dir ((List.range' 0 (v.entry i).dirChildrenCount).map fun k =>
        (v.childName i k, v.childIno i k))
    else .file ((v.data i).bytesAt 0 (v.entry i).fileSize.toNat)

variable {v : Volume} {img : Image} {p : Path} {i j k : Nat} {name : Name}

theorem Written.resolveIno_eq (h : v.Written img) (hj : j < v.count) :
    resolveIno img (v.entry j).inodeNo = some (v.entry j) := by
  unfold resolveIno
  rw [findEntry_eq h.wf h.shows hj, Option.map_some, h.saved j hj]

theorem Written.block_eq (h : v.Written img) (hi : i < v.count) :
    img (v.entry i).dataBlockNumber.toNat = v.data i :=
  (h.shows.block _ (h.wf.block_ge i hi)).symm

theorem Written.recordOf_eq_some (h : v.Written img) (hi : i < v.count)
    (hd : sIsdir (v.entry i).mode = true) :
    recordOf (v.data i) (v.entry i).dirChildrenCount name = some k ↔
      v.Live i k ∧ v.childName i k = name := by
  unfold recordOf
  rw [List.find?_range'_eq_some]
  simp only [decide_eq_true_eq, List.mem_range', Bool.not_eq_true', decide_eq_false_iff_not]
  constructor
  · rintro ⟨hname, ⟨m, hm, rfl⟩, -⟩
    exact ⟨⟨hi, hd, by omega⟩, hname⟩
  · rintro ⟨hl, hname⟩
    refine ⟨hname, ⟨k, hl.2.2, by omega⟩, ?_⟩
    intro c _ hc hcn
    have hlc : v.Live i c := ⟨hi, hd, Nat.lt_trans hc hl.2.2⟩
    exact Nat.ne_of_lt hc (h.wf.name_inj i c k hlc hl (hcn.trans hname.symm))

/-- A path that leads to an entry is walked to it. -/
theorem Written.walk_of_leads (h : v.Written img) (hl : v.Leads p i) :
    walk img p = some (v.entry i) := by
  induction hl with
  | root lt ino =>
      unfold walk
      rw [← ino]
      exact h.resolveIno_eq lt
  | @child dir a k j init live lt ino ih =>
      unfold walk
      rw [ih, Option.bind_some, if_pos live.2.1, h.block_eq live.1,
        (h.recordOf_eq_some live.1 live.2.1).mpr ⟨live, rfl⟩, Option.bind_some]
      have hr := h.resolveIno_eq lt
      rw [ino] at hr
      exact hr

/-- Every walk follows a path of the volume. -/
theorem Written.leads_of_walk (h : v.Written img) {e : SimplefsInode} (hw : walk img p = some e) :
    ∃ i, v.Leads p i ∧ v.entry i = e := by
  induction p generalizing e with
  | nil =>
      obtain ⟨i, hi, hno, hd⟩ := h.wf.root
      have hx := h.resolveIno_eq hi
      rw [hno] at hx
      unfold walk at hw
      rw [hx] at hw
      exact ⟨i, .root hi hno, Option.some.inj hw⟩
  | cons name dir ih =>
      unfold walk at hw
      obtain ⟨d, hdir, hd⟩ := Option.bind_eq_some_iff.mp hw
      obtain ⟨i, hl, rfl⟩ := ih hdir
      split_ifs at hd with hisdir
      rw [h.block_eq hl.lt] at hd
      obtain ⟨k, hk, he⟩ := Option.bind_eq_some_iff.mp hd
      obtain ⟨live, rfl⟩ := (h.recordOf_eq_some hl.lt hisdir).mp hk
      obtain ⟨-, j, hj, hno⟩ := h.wf.named i k live
      have hx := h.resolveIno_eq hj
      rw [hno] at hx
      unfold childIno at hx
      rw [hx] at he
      exact ⟨j, .child hl live hj hno, Option.some.inj he⟩

theorem Written.objectAt_eq (h : v.Written img) (hi : i < v.count) :
    objectAt img (v.entry i) = v.object i := by
  unfold objectAt object
  rw [h.block_eq hi]
  rfl

section Paths

variable {dir : Path}

theorem Leads.parent (hl : v.Leads (name :: dir) j) : ∃ i, v.Leads dir i := by
  cases hl with
  | child init live lt ino => exact ⟨_, init⟩

theorem Leads.valid (hl : v.Leads p i) (h : v.Wf) : ∀ name ∈ p, ValidName name := by
  induction hl with
  | root => simp
  | @child dir a k j init live lt ino ih =>
      intro name hname
      rcases List.mem_cons.mp hname with rfl | hmem
      · exact h.name_valid a k live
      · exact ih name hmem

/-- Nothing is below a file. -/
theorem Leads.not_child_of_not_dir (hl : v.Leads dir i) (h : v.Wf)
    (hd : sIsdir (v.entry i).mode = false) (j : Nat) : ¬ v.Leads (name :: dir) j := by
  intro hj
  cases hj with
  | child init live lt ino =>
      obtain rfl := init.functional h hl
      rw [live.2.1] at hd
      cases hd

theorem Leads.not_child_of_new (hl : v.Leads dir i) (h : v.Wf)
    (hnew : ∀ k, v.Live i k → v.childName i k ≠ name) (j : Nat) : ¬ v.Leads (name :: dir) j := by
  intro hj
  cases hj with
  | child init live lt ino =>
      obtain rfl := init.functional h hl
      exact hnew _ live rfl

end Paths

/-- The volume is an implementation of a tree: the paths that lead to an entry
are those of the tree, with the object of that entry. -/
structure Represents (v : Volume) (t : FileTree) : Prop where
  present : ∀ p i, v.Leads p i → t p = some (v.object i)
  absent : ∀ p, (∀ i, ¬ v.Leads p i) → t p = none

theorem Written.represents (h : v.Written img) : v.Represents (tree img) where
  present := by
    intro p i hl
    unfold tree
    rw [h.walk_of_leads hl, Option.map_some, h.objectAt_eq hl.lt]
  absent := by
    intro p hne
    unfold tree
    cases hw : walk img p with
    | none => rfl
    | some e =>
        obtain ⟨i, hl, -⟩ := h.leads_of_walk hw
        exact absurd hl (hne i)

section Represents

variable {v' : Volume} {t t' : FileTree} {e : SimplefsInode} {dir : Path}

theorem Represents.unique (h : v.Represents t) (h' : v.Represents t') : t = t' := by
  funext p
  by_cases hl : ∃ i, v.Leads p i
  · obtain ⟨i, hl⟩ := hl
    rw [h.present p i hl, h'.present p i hl]
  · have hne : ∀ i, ¬ v.Leads p i := fun i hi => hl ⟨i, hi⟩
    rw [h.absent p hne, h'.absent p hne]

/-- The tree of a volume depends on its entries and on their data. -/
theorem Represents.congr (h : v.Represents t) (hcount : v'.count = v.count)
    (hentry : ∀ i < v.count, v'.entry i = v.entry i)
    (hdata : ∀ i < v.count, v'.data i = v.data i) : v'.Represents t := by
  have hlive : ∀ a k, v'.Live a k ↔ v.Live a k := by
    intro a k
    unfold Live
    rw [hcount]
    constructor
    · rintro ⟨ha, hr⟩
      rw [hentry a ha] at hr
      exact ⟨ha, hr⟩
    · rintro ⟨ha, hr⟩
      rw [← hentry a ha] at hr
      exact ⟨ha, hr⟩
  have hchild : ∀ a k, a < v.count →
      v'.childIno a k = v.childIno a k ∧ v'.childName a k = v.childName a k := by
    intro a k ha
    unfold childIno childName
    rw [hdata a ha]
    exact ⟨rfl, rfl⟩
  have hleads : ∀ p i, v'.Leads p i ↔ v.Leads p i := by
    intro p i
    constructor
    · intro hl
      refine hl.mono (Nat.le_of_eq hcount) ?_ (fun a k hk => (hlive a k).mp hk) ?_
      · intro j hj
        rw [hentry j (hcount ▸ hj)]
      · intro a k hk
        have hc := hchild a k ((hlive a k).mp hk).1
        exact ⟨hc.1.symm, hc.2.symm⟩
    · intro hl
      refine hl.mono (Nat.le_of_eq hcount.symm) ?_ (fun a k hk => (hlive a k).mpr hk)
        (fun a k hk => hchild a k hk.1)
      intro j hj
      rw [hentry j hj]
  constructor
  · intro p i hl
    have hl' := (hleads p i).mp hl
    have hobj : v'.object i = v.object i := by
      unfold object childIno childName
      rw [hentry i hl'.lt, hdata i hl'.lt]
    rw [hobj]
    exact h.present p i hl'
  · intro p hne
    exact h.absent p fun i hl => hne i ((hleads p i).mpr hl)

theorem Represents.alloc (h : v.Represents t) : v.alloc.Represents t :=
  h.congr rfl (fun _ _ => rfl) (fun _ _ => rfl)

/-- The paths of a volume with a new object: the old ones and the new name. -/
theorem Creatable.leads_cases (c : v.Creatable i e name) (h : v.Wf) (hdir : v.Leads dir i)
    (hl : (v.created i e name).Leads p j) :
    v.Leads p j ∨ p = name :: dir ∧ j = v.count := by
  induction hl with
  | @root j lt ino =>
      by_cases hj : j < v.count
      · rw [(created_same hj).inodeNo] at ino
        exact .inl (.root hj ino)
      · obtain rfl : j = v.count := Nat.le_antisymm (Nat.lt_succ_iff.mp lt) (Nat.le_of_not_lt hj)
        rw [created_entry_new c.lt] at ino
        exact absurd ino c.add.ino_ne_one
  | @child d a k j init live lt ino ih =>
      rcases (c.live_iff h).mp live with hlive | ⟨rfl, rfl⟩
      · rcases ih with hd | ⟨-, rfl⟩
        · obtain ⟨hino, hname⟩ := c.child h hlive
          rw [hino] at ino
          rw [hname]
          obtain ⟨-, b, hb, hno⟩ := h.named a k hlive
          rw [← hno, ← (created_same hb).inodeNo] at ino
          obtain rfl := (c.wf h).ino_inj _ lt _ (Nat.lt_succ_of_lt hb) ino
          exact .inl (.child hd hlive hb hno)
        · exact absurd hlive.1 (Nat.lt_irrefl _)
      · rcases ih with hd | ⟨-, rfl⟩
        · rw [created_childName_new c.valid, hd.injective h hdir]
          have hnew : ((v.created a e name).entry v.count).inodeNo = e.inodeNo := by
            rw [created_entry_new c.lt]
          rw [created_childIno_new c.valid, ← hnew] at ino
          exact .inr ⟨rfl, (c.wf h).ino_inj _ lt _ (Nat.lt_succ_self _) ino⟩
        · exact absurd c.lt (Nat.lt_irrefl _)

theorem Creatable.object_new (c : v.Creatable i e name) :
    (v.created i e name).object v.count = .empty e.inodeNo e.mode := by
  unfold object Object.empty
  rw [created_entry_new c.lt, SimplefsInode.dirChildrenCount, c.add.empty]
  rfl

theorem Creatable.object_of_ne (c : v.Creatable i e name) (h : v.Wf) (hj : j < v.count)
    (hji : j ≠ i) : (v.created i e name).object j = v.object j := by
  unfold object childIno childName
  rw [created_data_of_ne h.toStoreWf c.lt hj hji, created_entry_of_ne hj hji]

/-- The directory lists its old children and the new one. -/
theorem Creatable.object_self (c : v.Creatable i e name) (h : v.Wf) :
    (v.created i e name).object i = (v.object i).link name e.inodeNo := by
  have hd := c.dir
  have hroom := c.room
  have hcount : ((v.created i e name).entry i).dirChildrenCount =
      (v.entry i).dirChildrenCount + 1 := link_children (c.linkable h)
  have hold : ((List.range' 0 (v.entry i).dirChildrenCount).map fun k =>
      ((v.created i e name).childName i k, (v.created i e name).childIno i k)) =
      (List.range' 0 (v.entry i).dirChildrenCount).map fun k =>
        (v.childName i k, v.childIno i k) := by
    apply List.map_congr_left
    intro k hk
    obtain ⟨hino, hname⟩ := c.child h (k := k) (j := i) ⟨c.lt, hd, by simpa using hk⟩
    rw [hino, hname]
  unfold object Object.link
  rw [hcount, (created_same c.lt).mode, (created_same c.lt).inodeNo, if_pos hd, if_pos hd,
    List.range'_concat, List.map_append, hold]
  simp only [List.map_cons, List.map_nil, Nat.zero_add, Nat.one_mul, created_childName_new c.valid,
    created_childIno_new c.valid]

/-- A new object is inserted into the tree, and nothing else changes. -/
theorem Represents.created (hr : v.Represents t) (h : v.Wf) (c : v.Creatable i e name)
    (hdir : v.Leads dir i) :
    (v.created i e name).Represents (t.insert dir name (.empty e.inodeNo e.mode)) := by
  have hself : t.insert dir name (.empty e.inodeNo e.mode) (name :: dir) =
      some (.empty e.inodeNo e.mode) := Function.update_self _ _ _
  constructor
  · intro p j hlead
    rcases c.leads_cases h hdir hlead with hl | ⟨rfl, rfl⟩
    · have hpn : p ≠ name :: dir := by
        rintro rfl
        exact hdir.not_child_of_new h c.new j hl
      unfold FileTree.insert
      rw [Function.update_of_ne hpn]
      by_cases hpd : p = dir
      · subst hpd
        obtain rfl := hl.functional h hdir
        rw [Function.update_self, hr.present p j hl, Option.map_some, c.object_self h]
        rfl
      · have hji : j ≠ i := by
          rintro rfl
          exact hpd (hl.injective h hdir)
        rw [Function.update_of_ne hpd, c.object_of_ne h hl.lt hji]
        exact hr.present p j hl
    · rw [hself, c.object_new]
  · intro p hne
    have hpn : p ≠ name :: dir := by
      rintro rfl
      exact hne _ (c.leads_new h hdir)
    have hpd : p ≠ dir := by
      rintro rfl
      exact hne _ (hdir.created c h)
    unfold FileTree.insert
    rw [Function.update_of_ne hpn, Function.update_of_ne hpd]
    exact hr.absent p fun j hl => hne j (hl.created c h)

end Represents

end Volume

end LinuxDevelopment.Simplefs
