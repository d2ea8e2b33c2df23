import LinuxDevelopment.Base.TwoRuns
import LinuxDevelopment.Simplefs.Serial

/-!
# simplefs: readers among creates and writes

`simplefs_iterate` and `simplefs_read` take no lock of the module. The VFS lists
a directory under the mutex of its inode, under which it also creates in it; for
files it leaves such an agreement to the callers. As long as no call that changes
an object overlaps one that reads it, a reader goes its way as if it were alone
in the state it returns in, whatever happens to other objects in the meantime.
The creates and the writes go their way as if there were no readers.
-/

namespace LinuxDevelopment.Simplefs

/-- The object a call reads, if it changes nothing. -/
def Call.observed : Call → Option Path
  | .iterate dir _ => some dir
  | .read file _ _ => some file
  | _ => none

/-- The object a call changes, besides the super block and the store. -/
def Call.changed : Call → Option Path
  | .create dir _ _ => some dir
  | .mkdir dir _ _ => some dir
  | .write file _ _ => some file
  | _ => none

/-- The number of the inode a dentry has in memory. -/
def World.numberOf (w : World) (p : Path) : Option UInt64 :=
  (w.simplefsInode p).map SimplefsInode.inodeNo

/-- The dentries have inodes of different objects. -/
def World.Apart (w : World) (p p' : Path) : Prop :=
  ∃ n n', w.numberOf p = some n ∧ w.numberOf p' = some n' ∧ n ≠ n'

/-- The actions that read the inode of `p`, or the block `b`. -/
def Op.Looks (p : Path) (b : Nat) : Op → Prop
  | .simplefsInode p' => p' = p
  | .sbBread _ | .trap _ => True
  | .load b' _ _ => b' = b
  | .copyToUser b' _ _ => b' = b
  | _ => False

/-- The object looks the same in both states. -/
structure World.SameObject (w w' : World) (p : Path) : Prop where
  inode : w'.simplefsInode p = w.simplefsInode p
  block : ∀ q, w.simplefsInode p = some q →
    w'.cache q.dataBlockNumber.toNat = w.cache q.dataBlockNumber.toNat

section Reading

variable {α : Type} {w w' : World} {p : Path} {q : SimplefsInode} {b tid : Nat} {env : Env}
  {c : Call} {o : Op}

theorem related_looks (hp : w'.simplefsInode p = w.simplefsInode p) (hb : w'.cache b = w.cache b)
    (ho : o.Looks p b) : Outcome.Related (fun x y u v => x = y ∧ u = w ∧ v = w')
      (exec tid env o w) (exec tid env o w') := by
  cases o with
  | simplefsInode p' =>
      obtain rfl := ho
      simp only [exec, hp]
      cases w.simplefsInode p' with
      | none => exact .stuck _
      | some q => exact .done ⟨rfl, rfl, rfl⟩
  | sbBread b' => exact .done ⟨rfl, rfl, rfl⟩
  | trap t => exact .stuck t
  | load b' off len =>
      obtain rfl := ho
      simp only [exec, hb]
      split_ifs
      · exact .done ⟨rfl, rfl, rfl⟩
      · exact .stuck _
  | copyToUser b' off len =>
      obtain rfl := ho
      simp only [exec, hb]
      split_ifs
      · exact .done ⟨rfl, rfl, rfl⟩
      · exact .done ⟨rfl, rfl, rfl⟩
      · exact .stuck _
  | _ => exact ho.elim

/-- A reader leaves the state alone. -/
theorem eq_of_looks {r : o.Res} (ho : o.Looks p b) (h : exec tid env o w = .done r w') :
    w' = w := by
  have hrel : Outcome.Related (fun x y u v => x = y ∧ u = w ∧ v = w) (exec tid env o w)
      (exec tid env o w) := related_looks rfl rfl ho
  rw [h] at hrel
  obtain ⟨_, _, -, -, hw, -⟩ := hrel.of_done
  exact hw

/-- The code reads the object `p` with the inode `q` in the state `w`. -/
abbrev Observes (tid : Nat) (env : Env) (p : Path) (q : SimplefsInode) (w : World) (x : Code α) :
    Prop :=
  x.Along (exec tid env) (fun o _ => o.Looks p q.dataBlockNumber.toNat) w

theorem looks_sbBreadBugOn : (sbBreadBugOn b).Only (Op.Looks p b) :=
  .bind (.perform trivial) fun _ => .ite (.perform trivial) trivial

theorem looks_iterateLoop (left i : Nat) : (iterateLoop b left i).Only (Op.Looks p b) := by
  induction left generalizing i with
  | zero => trivial
  | succ left ih =>
      refine .bind (.perform rfl) fun _ => .bind (.perform rfl) fun _ => ?_
      exact .bind (ih (i + 1)) fun _ => trivial

/-- What comes behind the inode has been read. -/
theorem observes_simplefsInode {f : SimplefsInode → Code α} (hq : w.simplefsInode p = some q)
    (hf : (f q).Only (Op.Looks p q.dataBlockNumber.toNat)) :
    Observes tid env p q w (simplefsInode p >>= f) := by
  refine ⟨rfl, fun r t hr => ?_⟩
  simp only [exec, hq] at hr
  obtain ⟨rfl, rfl⟩ := Outcome.done.inj hr
  exact hf.along _

theorem observes_code (hc : c.observed = some p) (hq : w.simplefsInode p = some q) :
    Observes tid env p q w c.code := by
  cases c with
  | iterate dir pos =>
      obtain rfl := Option.some.inj hc
      simp only [Call.code, simplefsIterate]
      by_cases hpos : pos ≠ 0
      · rw [if_pos hpos]
        trivial
      · rw [if_neg hpos, Prog.bind_assoc]
        refine observes_simplefsInode hq ?_
        refine .bind (.ite trivial ?_) fun _ => trivial
        refine .bind looks_sbBreadBugOn fun _ => ?_
        exact .bind (looks_iterateLoop _ _) fun _ => trivial
  | read file len pos =>
      obtain rfl := Option.some.inj hc
      simp only [Call.code, simplefsRead, Prog.bind_assoc]
      refine observes_simplefsInode hq ?_
      refine .bind (.ite trivial ?_) fun _ => trivial
      refine .bind (.perform trivial) fun ok => .ite trivial ?_
      refine .bind (.perform rfl) fun bytes => ?_
      cases bytes <;> trivial
  | _ => cases hc

/-- A reader goes the same way where its object looks the same. -/
theorem observes_congr {x : Code α} (hw : w.SameObject w' p) (hq : w.simplefsInode p = some q)
    (hx : Observes tid env p q w x) : Observes tid env p q w' x ∧
      Prog.Related (exec tid env) (fun x y u v => x = y ∧ u = w ∧ v = w') x x w w' :=
  hx.reads fun _ ho => related_looks hw.inode (hw.block q hq) ho

end Reading

/-- What a step of a create or a write does to the caches, where `p` is the object
it changes. -/
inductive Caches.Touched (m : Caches) (p : Path) : Caches → Prop
  | nothing : Touched m p m
  | metadata {b : Nat} (hb : b < 2) (off : Nat) (bytes : List UInt8) :
      Touched m p (m.poke b off bytes)
  | data {q : SimplefsInode} (hq : m.simplefsInode p = some q) (off : Nat) (bytes : List UInt8) :
      Touched m p (m.poke q.dataBlockNumber.toNat off bytes)
  | size (v : UInt64) : Touched m p (m.setFileSize p v)
  | dentry {p' : Path} (missing : m.dcache p' = none) (x : VfsInode) : Touched m p (m.dAdd p' x)

section Touched

variable {w w' : World} {m m' : Caches} {p p' : Path} {q q' : SimplefsInode} {n : UInt64}

/-- An inode in memory keeps its number. -/
theorem Caches.Touched.number (h : m.Touched p' m')
    (hn : (m.simplefsInode p).map SimplefsInode.inodeNo = some n) :
    (m'.simplefsInode p).map SimplefsInode.inodeNo = some n := by
  obtain ⟨q, hq, rfl⟩ := Option.map_eq_some_iff.mp hn
  obtain ⟨x, hx, hxq⟩ := Caches.simplefsInode_eq_some.mp hq
  cases h with
  | nothing | metadata | data => exact hn
  | size v =>
      by_cases hp : p = p'
      · subst hp
        have hnew : (m.setFileSize p v).simplefsInode p = some { q with fileSize := v } :=
          Caches.simplefsInode_eq_some.mpr ⟨_, m.setFileSize_dcache_self hx hxq, rfl⟩
        rw [hnew]
        rfl
      · unfold Caches.simplefsInode
        rw [m.setFileSize_dcache_of_ne hp, hx, Option.bind_some, hxq]
        rfl
  | @dentry r missing y =>
      have hp : p ≠ r := by
        rintro rfl
        rw [missing] at hx
        cases hx
      unfold Caches.simplefsInode
      rw [m.dAdd_dcache_of_ne hp, hx, Option.bind_some, hxq]
      rfl

/-- A step leaves the objects alone that have another number and another block. -/
theorem Caches.Touched.sameObject (h : w.caches.Touched p' w'.caches)
    (hq : w.simplefsInode p = some q) (hne : p ≠ p') (hb : 2 ≤ q.dataBlockNumber.toNat)
    (hblock : ∀ q', w.simplefsInode p' = some q' →
      q.dataBlockNumber.toNat ≠ q'.dataBlockNumber.toNat) : w.SameObject w' p := by
  have hq' : w.caches.simplefsInode p = some q := hq
  obtain ⟨x, hx, hxq⟩ := Caches.simplefsInode_eq_some.mp hq'
  have hinode : ∀ {m' : Caches}, w'.caches = m' → m'.dcache p = w.caches.dcache p →
      w'.simplefsInode p = w.simplefsInode p := by
    rintro m' rfl hd
    exact congrArg (fun y => Option.bind y VfsInode.iPrivate) hd
  have hcache : ∀ {m' : Caches}, w'.caches = m' →
      m'.cache q.dataBlockNumber.toNat = w.caches.cache q.dataBlockNumber.toNat →
      ∀ q₁, w.simplefsInode p = some q₁ →
        w'.cache q₁.dataBlockNumber.toNat = w.cache q₁.dataBlockNumber.toNat := by
    rintro m' rfl hd q₁ hq₁
    obtain rfl := Option.some.inj (hq.symm.trans hq₁)
    exact hd
  generalize hm : w'.caches = m' at h
  cases h with
  | nothing => exact ⟨hinode hm rfl, hcache hm rfl⟩
  | @metadata b hlt off bytes =>
      refine ⟨hinode hm rfl, hcache hm ?_⟩
      rw [Caches.poke_cache, Function.update_of_ne (by omega)]
  | @data q' hq' off bytes =>
      refine ⟨hinode hm rfl, hcache hm ?_⟩
      rw [Caches.poke_cache, Function.update_of_ne (hblock q' hq')]
  | size v => exact ⟨hinode hm (w.caches.setFileSize_dcache_of_ne hne), hcache hm rfl⟩
  | @dentry r missing y =>
      have hp : p ≠ r := by
        rintro rfl
        rw [missing] at hx
        cases hx
      exact ⟨hinode hm (w.caches.dAdd_dcache_of_ne hp), hcache hm rfl⟩

end Touched

namespace Tasks

section Steps

variable {w x : World} {s t : Tasks} {v u : Caches} {isOpen : Nat → Bool}
  {creates writes : List (Nat × Call × Env)} {log : EntryLog} {c : Call} {env : Env} {tid : Nat}
  {held : Nat → LockState} {o : Op} {k : o.Res → Code Reply} {r : o.Res} {p p' dir : Path}
  {name : Name} {mode : UInt16} {q q' : SimplefsInode}

theorem changed_of_makes (h : c.makes = some (dir, name, mode)) : c.changed = some dir := by
  cases c with
  | create | mkdir =>
      cases h
      rfl
  | _ => cases h

/-- Every inode in memory is that of an entry. -/
theorem Beside.entry (h : Beside w x v u creates writes log) (hq : x.simplefsInode p = some q) :
    ∃ i < (inodesCount v.cache).toNat, q.Same (entryAt v.cache i) := by
  obtain ⟨y, hy, hyq⟩ := Caches.simplefsInode_eq_some.mp
    (show x.caches.simplefsInode p = some q from hq)
  obtain ⟨z, hz, hyz, -⟩ := h.mirrors.dcache p y hy
  cases hv : v.dcache p with
  | none => cases (h.fresh p hv).symm.trans hz
  | some z₀ =>
      obtain ⟨z', hz', hzz⟩ := h.extends_.dcache p z₀ hv
      obtain rfl := Option.some.inj (hz.symm.trans hz')
      obtain ⟨q₁, q₀, hq₁, hq₀, hsame⟩ := (hyz.trans hzz).iPrivate
      obtain rfl := Option.some.inj (hyq.symm.trans hq₁)
      obtain ⟨q₂, i, hq₂, hi, hqi, -⟩ := h.sound.inode p z₀ hv
      obtain rfl := Option.some.inj (hq₀.symm.trans hq₂)
      exact ⟨i, hi, hsame.trans hqi⟩

/-- Different objects have different blocks, which are not those of the metadata. -/
theorem Beside.block_ne (h : Beside w x v u creates writes log) (hq : x.simplefsInode p = some q)
    (hq' : x.simplefsInode p' = some q') (hne : q.inodeNo ≠ q'.inodeNo) :
    q.dataBlockNumber.toNat ≠ q'.dataBlockNumber.toNat := by
  obtain ⟨i, hi, hqi⟩ := h.entry hq
  obtain ⟨j, hj, hqj⟩ := h.entry hq'
  intro hblock
  rw [hqi.dataBlockNumber, hqj.dataBlockNumber] at hblock
  obtain rfl : i = j := h.sound.store.block_inj i hi j hj (UInt64.toNat_inj.mp hblock)
  exact hne (hqi.inodeNo.trans hqj.inodeNo.symm)

theorem Beside.two_le_block (h : Beside w x v u creates writes log)
    (hq : x.simplefsInode p = some q) : 2 ≤ q.dataBlockNumber.toNat := by
  obtain ⟨i, hi, hqi⟩ := h.entry hq
  rw [hqi.dataBlockNumber]
  exact h.sound.store.block_ge i hi

/-- A create under its lock touches its directory. -/
theorem touched_of_createOp {m m' n : Caches} (ho : CreateOp v dir name q n o)
    (hadd : ∀ p x, o ≠ .dAdd p x) (hq : ∃ q', m.simplefsInode dir = some q' ∧ q'.Same q)
    (hx : solo env o m = .done r m') : m.Touched dir m' := by
  cases ho with
  | blind ho =>
      obtain ⟨rfl, -⟩ := solo_blind ho hx
      exact .nothing
  | super | number | inode =>
      obtain rfl := solo_still (by trivial) hx
      exact .nothing
  | free | count =>
      obtain rfl := solo_store_eq hx
      exact .metadata (by decide) _ _
  | append | save =>
      obtain rfl := solo_store_eq hx
      exact .metadata (by decide) _ _
  | record off bytes =>
      obtain rfl := solo_store_eq hx
      obtain ⟨q', hq', hsame⟩ := hq
      rw [← hsame.dataBlockNumber]
      exact .data hq' off bytes
  | resize v =>
      obtain rfl : m' = m.setFileSize dir v := by
        cases hx
        rfl
      exact .size v
  | dAdd x => exact absurd rfl (hadd _ x)

/-- What an action of a create or a write does to the caches. -/
theorem Tracks.touched (h : s.Tracks w v u isOpen creates writes log) (hheld : s.Held held)
    (hf : s.flight tid = some ⟨c, env, .call o k⟩) (hx : exec tid env o s.world = .done r x) :
    ∃ p, c.changed = some p ∧ s.world.caches.Touched p x.caches := by
  obtain ⟨-, henv, hat⟩ := h.flight tid _ _ _ hf
  have hsolo := solo_of_exec hx
  have hv := h.beside.sound
  generalize isOpen tid = b at hat
  cases hat with
  | waiting creator start =>
      refine ⟨_, changed_of_makes creator.makes, ?_⟩
      obtain ⟨g, hg⟩ := code_eq_lock creator.makes
      cases start.trans hg
      obtain ⟨hsame, -⟩ := solo_blind (by trivial) hsolo
      rw [hsame]
      exact .nothing
  | creating creator owns steps =>
      refine ⟨_, changed_of_makes creator.makes, ?_⟩
      obtain ⟨q, j, hd⟩ := hv.dirAt (h.beside.has creator.parent)
      obtain ⟨hop, hamid⟩ := createOp_of_steps creator.makes hv hd steps
      refine touched_of_createOp hop (not_dAdd_of_owns hheld hf owns) ?_ hsolo
      unfold Caches.simplefsInode
      rw [h.beside.mirrors.dcache_dir creator.parent]
      exact hamid.inode
  | adding target last end_ missing made =>
      cases last
      obtain ⟨⟨dir, name, mode⟩, makes, -⟩ := Option.map_eq_some_iff.mp target
      refine ⟨dir, changed_of_makes makes, ?_⟩
      cases hx
      exact .dentry missing _
  | created end_ => cases end_
  | @writing f buf pos env rest st writer =>
      refine ⟨f.path, rfl, ?_⟩
      have hknows := h.beside.mirrors.knows hv h.beside.extends_ writer.file writer.shown
      obtain ⟨st', hn, -⟩ := writer.code r (fileAnswers_of_solo hknows henv hsolo)
      obtain ⟨e, he, hsame⟩ := hknows.inode
      have hblock : f.block = e.dataBlockNumber.toNat := by
        rw [hsame.dataBlockNumber]
        rfl
      have heff := writeEffect_of_solo hn hsolo
      generalize x.caches = m' at heff
      cases heff with
      | copy | fault =>
          rw [hblock]
          exact .data he _ _
      | resize => exact .size _
      | save => exact .metadata (by decide) _ _
      | _ => exact .nothing

end Steps

/-- A reader begins with an object in memory that no call in progress changes, and
a call that changes an object with one that no call in progress reads. -/
def Watched (s : Tasks) : Label → Prop
  | .call tid c env =>
      (∀ p, c.observed = some p → s.world.simplefsInode p ≠ none ∧
        ∀ a f p', s.flight a = some f → f.call.changed = some p' → s.world.Apart p p') ∧
      (c.observed = none → s.Promised (.call tid c env) ∧
        ∀ a f p p', s.flight a = some f → f.call.observed = some p → c.changed = some p' →
          s.world.Apart p p')
  | _ => True

/-- The tasks without the readers. -/
def hidden (s : Tasks) : Tasks where
  world := s.world
  flight := fun tid => (s.flight tid).filter fun f => f.call.observed.isNone
  made := s.made.filter fun x => x.2.1.observed.isNone

/-- The calls that read are where they would be had they begun now. -/
structure Undisturbed (s : Tasks) : Prop where
  reads : ∀ tid c env rest p, s.flight tid = some ⟨c, env, rest⟩ → c.observed = some p →
    (∃ q, s.world.simplefsInode p = some q ∧ Observes tid env p q s.world rest) ∧
      Prog.Related (exec tid env) (fun x y u v => x = y ∧ u = s.world ∧ v = s.world) c.code rest
        s.world s.world
  apart : ∀ a b f g p p', s.flight a = some f → s.flight b = some g →
    f.call.observed = some p → g.call.changed = some p' → s.world.Apart p p'

section Hidden

variable {s t : Tasks} {l : Label} {c : Call} {env : Env} {tid : Nat} {f : Flight} {p : Path}

theorem hidden_flight : s.hidden.flight tid = some f ↔
    s.flight tid = some f ∧ f.call.observed = none := by
  unfold hidden
  rw [Option.filter_eq_some_iff, Option.isNone_iff_eq_none]

theorem hidden_world : s.hidden.world = s.world := rfl

theorem hidden_flight_none (h : s.flight tid = none) : s.hidden.flight tid = none := by
  show (s.flight tid).filter _ = none
  rw [h]
  rfl

theorem hidden_flight_of_observed (h : s.flight tid = some f) (hf : f.call.observed = some p) :
    s.hidden.flight tid = none := by
  show (s.flight tid).filter _ = none
  rw [h, Option.filter_some_neg (by simp [hf])]

/-- One flight changes. -/
theorem hidden_update (x : World) (f' : Option Flight) (made : List (Nat × Call × Env)) :
    (⟨x, Function.update s.flight tid f', made⟩ : Tasks).hidden =
      ⟨x, Function.update s.hidden.flight tid (f'.filter fun f => f.call.observed.isNone),
        made.filter fun x => x.2.1.observed.isNone⟩ := by
  unfold hidden
  congr 1
  funext a
  by_cases ha : a = tid
  · subst ha
    simp
  · simp [ha]

theorem promised_hidden (h : s.Promised (.call tid c env)) :
    s.hidden.Promised (.call tid c env) := by
  have hmakes : ((∀ site, env.interrupted site = false) ∧ ∃ dir name mode,
      c.makes = some (dir, name, mode) ∧ s.world.Has dir .dir ∧ ValidName name ∧
      s.world.dcache (name :: dir) = none ∧
      ∀ tid f, s.flight tid = some f → f.call.target ≠ some (name :: dir)) →
      (∀ site, env.interrupted site = false) ∧ ∃ dir name mode,
        c.makes = some (dir, name, mode) ∧ s.hidden.world.Has dir .dir ∧ ValidName name ∧
        s.hidden.world.dcache (name :: dir) = none ∧
        ∀ tid f, s.hidden.flight tid = some f → f.call.target ≠ some (name :: dir) := by
    rintro ⟨henv, dir, name, mode, hc, hdir, hname, hnew, hother⟩
    exact ⟨henv, dir, name, mode, hc, hdir, hname, hnew,
      fun a f hf => hother a f (hidden_flight.mp hf).1⟩
  cases c with
  | write => exact h
  | _ => exact hmakes h

/-- A step of a reader is none of the others' business, and a step of another
call is one without the readers too. -/
theorem hidden_of_moves (h : s.Undisturbed) (hm : s.Moves l t) (hl : s.Watched l) :
    t.hidden = s.hidden ∨ (s.hidden.step l = some t.hidden ∧ s.hidden.Promised l) := by
  -- nothing changes where a reader is left out
  have hkeep : ∀ {tid}, s.hidden.flight tid = none →
      Function.update s.hidden.flight tid none = s.hidden.flight := by
    intro tid hnone
    rw [← hnone, Function.update_eq_self]
  cases hm with
  | @call tid c env idle code =>
      rw [hidden_update]
      cases hc : c.observed with
      | some p =>
          left
          rw [Option.filter_some_neg (by simp [hc]), List.filter_cons_of_neg (by simp [hc]),
            hkeep (hidden_flight_none idle)]
          rfl
      | none =>
          right
          refine ⟨?_, promised_hidden (hl.2 hc).1⟩
          simp only [step, hidden_flight_none idle]
          rw [if_neg code, Option.filter_some_pos (by simp [hc]),
            List.filter_cons_of_pos (by simp [hc])]
          rfl
  | @act tid c env o k r x flying done =>
      rw [hidden_update]
      cases hc : c.observed with
      | some p =>
          left
          obtain ⟨⟨q, -, hrest⟩, -⟩ := h.reads tid c env _ p flying hc
          obtain rfl := eq_of_looks hrest.1 done
          rw [Option.filter_some_neg (by simp [hc]), hkeep (hidden_flight_of_observed flying hc)]
          rfl
      | none =>
          right
          refine ⟨?_, trivial⟩
          simp only [step, hidden_flight.mpr ⟨flying, hc⟩, hidden_world, done]
          rw [Option.filter_some_pos (by simp [hc])]
          rfl
  | @ret tid c env reply flying =>
      rw [hidden_update]
      cases hc : c.observed with
      | some p =>
          left
          rw [Option.filter_none, hkeep (hidden_flight_of_observed flying hc)]
          rfl
      | none =>
          right
          refine ⟨?_, trivial⟩
          simp only [step, hidden_flight.mpr ⟨flying, hc⟩]
          rfl

end Hidden

section Runs

variable {w x : World} {s t : Tasks} {v u : Caches} {isOpen : Nat → Bool} {l : Label}
  {creates writes : List (Nat × Call × Env)} {log : EntryLog} {c : Call} {env : Env} {tid : Nat}
  {held : Nat → LockState} {o : Op} {k : o.Res → Code Reply} {r : o.Res} {p p' : Path}
  {f' : Option Flight} {made : List (Nat × Call × Env)}

theorem not_observed_of_changed (h : c.changed = some p') : c.observed = none := by
  cases c with
  | iterate | read => cases h
  | _ => rfl

/-- One task goes on in an unchanged state. -/
theorem Undisturbed.update (h : s.Undisturbed)
    (hreads : ∀ c env rest p, f' = some ⟨c, env, rest⟩ → c.observed = some p →
      (∃ q, s.world.simplefsInode p = some q ∧ Observes tid env p q s.world rest) ∧
        Prog.Related (exec tid env) (fun x y u v => x = y ∧ u = s.world ∧ v = s.world) c.code rest
          s.world s.world)
    (hread : ∀ f b g p p', f' = some f → b ≠ tid → s.flight b = some g →
      f.call.observed = some p → g.call.changed = some p' → s.world.Apart p p')
    (hchange : ∀ a f g p p', a ≠ tid → s.flight a = some f → f' = some g →
      f.call.observed = some p → g.call.changed = some p' → s.world.Apart p p') :
    Undisturbed ⟨s.world, Function.update s.flight tid f', made⟩ := by
  constructor
  · intro a c env rest p ha hc
    dsimp only at ha ⊢
    by_cases hat : a = tid
    · subst hat
      rw [Function.update_self] at ha
      exact hreads c env rest p ha hc
    · rw [Function.update_of_ne hat] at ha
      exact h.reads a c env rest p ha hc
  · intro a b f g p p' ha hb hf hg
    dsimp only at ha hb ⊢
    by_cases hat : a = tid
    · subst hat
      rw [Function.update_self] at ha
      by_cases hbt : b = a
      · subst hbt
        rw [Function.update_self, ha] at hb
        obtain rfl := Option.some.inj hb
        rw [not_observed_of_changed hg] at hf
        cases hf
      · rw [Function.update_of_ne hbt] at hb
        exact hread f b g p p' ha hbt hb hf hg
    · rw [Function.update_of_ne hat] at ha
      by_cases hbt : b = tid
      · subst hbt
        rw [Function.update_self] at hb
        exact hchange a f g p p' hat ha hb hf hg
      · rw [Function.update_of_ne hbt] at hb
        exact h.apart a b f g p p' ha hb hf hg

/-- Another call has changed an object. -/
theorem Undisturbed.touched (h : s.Undisturbed)
    (htracks : s.hidden.Tracks w v u isOpen creates writes log)
    (hf : s.flight tid = some ⟨c, env, .call o k⟩) (hc : c.changed = some p')
    (htouched : s.world.caches.Touched p' x.caches) :
    Undisturbed ⟨x, Function.update s.flight tid (some ⟨c, env, k r⟩), s.made⟩ := by
  have hother : ∀ {a g p}, Function.update s.flight tid (some ⟨c, env, k r⟩) a = some g →
      g.call.observed = some p → s.flight a = some g := by
    intro a g p ha hg
    by_cases hat : a = tid
    · subst hat
      rw [Function.update_self] at ha
      obtain rfl := Option.some.inj ha
      rw [not_observed_of_changed hc] at hg
      cases hg
    · rwa [Function.update_of_ne hat] at ha
  have hchanges : ∀ {a g p}, Function.update s.flight tid (some ⟨c, env, k r⟩) a = some g →
      g.call.changed = some p → ∃ g', s.flight a = some g' ∧ g'.call.changed = some p := by
    intro a g p ha hg
    by_cases hat : a = tid
    · subst hat
      rw [Function.update_self] at ha
      obtain rfl := Option.some.inj ha
      exact ⟨_, hf, hg⟩
    · rw [Function.update_of_ne hat] at ha
      exact ⟨g, ha, hg⟩
  constructor
  · intro a c₁ env₁ rest p ha hobs
    have hold := hother ha hobs
    obtain ⟨⟨q, hq, hrest⟩, hrel⟩ := h.reads a c₁ env₁ rest p hold hobs
    obtain ⟨n, n', hn, hn', hne⟩ := h.apart a tid _ _ p p' hold hf hobs hc
    have hqn : q.inodeNo = n := by
      rw [World.numberOf, hq] at hn
      exact Option.some.inj hn
    have hsame : s.world.SameObject x p := by
      refine htouched.sameObject hq ?_ (htracks.beside.two_le_block hq) fun q' hq' => ?_
      · rintro rfl
        exact hne (Option.some.inj (hn.symm.trans hn'))
      · refine htracks.beside.block_ne hq hq' ?_
        rw [World.numberOf, hq'] at hn'
        rw [hqn, Option.some.inj hn']
        exact hne
    obtain ⟨hrest', hrun⟩ := observes_congr hsame hq hrest
    have hall : Observes a env₁ p q s.world c₁.code := observes_code hobs hq
    obtain ⟨-, hcode⟩ := observes_congr hsame hq hall
    exact ⟨⟨q, hsame.inode.trans hq, hrest'⟩, Outcome.Related.transport hrel hcode hrun⟩
  · intro a b f g p p₁ ha hb hobs hg
    have hold := hother ha hobs
    obtain ⟨g', hg', hchanged⟩ := hchanges hb hg
    obtain ⟨n, n', hn, hn', hne⟩ := h.apart a b f g' p p₁ hold hg' hobs hchanged
    exact ⟨n, n', htouched.number hn, htouched.number hn', hne⟩

theorem Undisturbed.moves (h : s.Undisturbed) (hm : s.Moves l t) (hl : s.Watched l)
    (hheld : s.hidden.Held held) (htracks : s.hidden.Tracks w v u isOpen creates writes log) :
    t.Undisturbed := by
  cases hm with
  | @call tid c env idle code =>
      refine h.update ?_ ?_ ?_
      · rintro _ _ _ p ⟨⟩ hc
        obtain ⟨q, hq⟩ := Option.ne_none_iff_exists'.mp (hl.1 p hc).1
        have hall : Observes tid env p q s.world c.code := observes_code hc hq
        exact ⟨⟨q, hq, hall⟩, (observes_congr ⟨rfl, fun _ _ => rfl⟩ hq hall).2⟩
      · rintro _ b g p p' ⟨⟩ - hg hc hchanged
        exact (hl.1 p hc).2 b g p' hg hchanged
      · rintro a f _ p p' - hf ⟨⟩ hobs hchanged
        exact (hl.2 (not_observed_of_changed hchanged)).2 a f p p' hf hobs hchanged
  | @act tid c env o k r x flying done =>
      cases hc : c.observed with
      | some p =>
          obtain ⟨⟨q, hq, hrest⟩, hrel⟩ := h.reads tid c env _ p flying hc
          obtain rfl := eq_of_looks hrest.1 done
          refine h.update ?_ ?_ ?_
          · rintro _ _ _ p' ⟨⟩ hc'
            obtain rfl := Option.some.inj (hc.symm.trans hc')
            refine ⟨⟨q, hq, hrest.2 r _ done⟩, ?_⟩
            unfold Prog.Related at hrel
            rw [Prog.run_call, done] at hrel
            exact hrel
          · rintro _ b g p p' ⟨⟩ - hg hobs hchanged
            exact h.apart tid b _ g p p' flying hg hobs hchanged
          · rintro a f _ p p' - hf ⟨⟩ hobs hchanged
            rw [not_observed_of_changed hchanged] at hc
            cases hc
      | none =>
          obtain ⟨p', hchanged, htouched⟩ :=
            htracks.touched hheld (hidden_flight.mpr ⟨flying, hc⟩) done
          exact h.touched htracks flying hchanged htouched
  | ret flying =>
      refine h.update ?_ ?_ ?_
      · rintro c env rest p ⟨⟩
      · rintro f b g p p' ⟨⟩
      · rintro a f g p p' - - ⟨⟩

theorem undisturbed_of_reaches (hw : w.caches.Sound) (hfree : ∀ m, w.owner m = none)
    (h : LinuxDevelopment.Reaches Tasks.step Watched (idle w) t) :
    t.Undisturbed ∧ LinuxDevelopment.Reaches Tasks.step Promised (idle w) t.hidden := by
  refine h.invariant (P := fun t => t.Undisturbed ∧
    LinuxDevelopment.Reaches Tasks.step Promised (idle w) t.hidden) ?_ ?_
  · refine ⟨⟨?_, ?_⟩, LinuxDevelopment.Reaches.refl⟩
    · intro tid c env rest p hf
      cases hf
    · intro a b f g p p' ha
      cases ha
  · rintro s t l - ⟨hs, hhidden⟩ hl hstep
    have hm := moves_of_step hstep
    obtain ⟨⟨held, hheld⟩, v, u, isOpen, creates, writes, log, htracks⟩ :=
      tracks_of_reaches hw hfree hhidden
    refine ⟨hs.moves hm hl hheld htracks, ?_⟩
    obtain hsame | ⟨hnext, hpromised⟩ := hidden_of_moves hs hm hl
    · rwa [hsame]
    · exact hhidden.next hpromised hnext

end Runs

/-- A listing or a read that no call on its object overlaps ends as it would if it
were performed at once in the present state: with the same reply, or at the same
trap. The other calls run as they would without the readers. -/
theorem atomic_of_watched {w : World} {t : Tasks} (hw : w.caches.Sound)
    (hfree : ∀ m, w.owner m = none) (h : LinuxDevelopment.Reaches Tasks.step Watched (idle w) t) :
    (∀ tid c env rest, t.flight tid = some ⟨c, env, rest⟩ → c.observed ≠ none →
      Prog.Related (exec tid env) (fun x y u v => x = y ∧ u = t.world ∧ v = t.world) c.code rest
        t.world t.world) ∧
      LinuxDevelopment.Reaches Tasks.step Promised (idle w) t.hidden := by
  obtain ⟨hundisturbed, hhidden⟩ := undisturbed_of_reaches hw hfree h
  refine ⟨fun tid c env rest hf hc => ?_, hhidden⟩
  obtain ⟨p, hp⟩ := Option.ne_none_iff_exists'.mp hc
  exact (hundisturbed.reads tid c env rest p hf hp).2

/-- One task has begun to list the root, another one to write to a file in it. -/
def listAndWrite : Tasks where
  world := emptyFile
  flight := Function.update (Function.update (fun _ => none)
    0 (some ⟨.iterate [] 0, .quiet, (Call.iterate [] 0).code⟩))
    1 (some ⟨.write [[97]] [100, 101] 0, .quiet, (Call.write [[97]] [100, 101] 0).code⟩)
  made := [(1, .write [[97]] [100, 101] 0, .quiet), (0, .iterate [] 0, .quiet)]

theorem reaches_listAndWrite :
    LinuxDevelopment.Reaches Tasks.step Watched (idle emptyFile) listAndWrite := by
  have hroot : emptyFile.simplefsInode [] ≠ none := by decide +kernel
  have hfile : emptyFile.Has [[97]] .file := by decide +kernel
  have hapart : emptyFile.Apart [] [[97]] :=
    ⟨1, 10, by decide +kernel, by decide +kernel, by decide⟩
  refine (LinuxDevelopment.Reaches.refl.next (l := .call 0 (.iterate [] 0) .quiet) ?_ rfl).next
    (l := .call 1 (.write [[97]] [100, 101] 0) .quiet) ?_ rfl
  · refine ⟨?_, fun hc => by cases hc⟩
    rintro p ⟨⟩
    refine ⟨hroot, fun a f p' hf => ?_⟩
    cases hf
  · refine ⟨?_, fun _ => ⟨⟨fun _ => rfl, hfile⟩, ?_⟩⟩
    · rintro p ⟨⟩
    · rintro a f p p' hf hp ⟨⟩
      change Function.update (fun _ => none) 0 _ a = some f at hf
      by_cases ha : a = 0
      · rw [ha, Function.update_self] at hf
        cases hf
        cases hp
        exact hapart
      · rw [Function.update_of_ne ha] at hf
        cases hf

/-- The listing reads the inode of the root, the file is written, and the listing
goes on. -/
def listAroundWrite : List Label := acts 1 0 ++ acts 8 1 ++ acts 3 0 ++ acts 6 1 ++ acts 2 0

theorem atomic_listAroundWrite : ∃ t c env reply,
    LinuxDevelopment.Reaches Tasks.step Watched (idle emptyFile) t ∧
    t.flight 0 = some ⟨c, env, .ret reply⟩ ∧ c.observed = some [] ∧
    c.code.run (exec 0 env) t.world = .done reply t.world := by
  obtain ⟨t, ht, hreturns, hobserved⟩ : ∃ t,
      replay Tasks.step listAroundWrite listAndWrite = some t ∧ t.returns 0 = true ∧
        (t.flight 0).bind (fun f => f.call.observed) = some [] :=
    exists_of_replay_any (by decide +kernel)
  have hreach : LinuxDevelopment.Reaches Tasks.step Watched (idle emptyFile) t := by
    refine reaches_listAndWrite.trans (.of_replay ?_ ht)
    intro l hl s
    simp only [listAroundWrite, acts, List.mem_append, List.mem_replicate] at hl
    rcases hl with (((⟨-, rfl⟩ | ⟨-, rfl⟩) | ⟨-, rfl⟩) | ⟨-, rfl⟩) | ⟨-, rfl⟩
    all_goals trivial
  obtain ⟨es, hrun, hcalm⟩ := run_emptyFile
  obtain ⟨v, hs, -⟩ := hrun.settled_of_mkfs hcalm
  unfold returns at hreturns
  split at hreturns
  · rename_i c env reply hf
    rw [hf] at hobserved
    have hne : c.observed ≠ none := by
      rw [show c.observed = some [] from hobserved]
      exact Option.some_ne_none _
    have hrel := (atomic_of_watched hs.sound hs.unowned hreach).1 0 c env _ hf hne
    refine ⟨t, c, env, reply, hreach, hf, hobserved, ?_⟩
    unfold Prog.Related at hrel
    rw [Prog.run_ret] at hrel
    generalize c.code.run (exec 0 env) t.world = out at hrel
    cases hrel with
    | done h =>
        obtain ⟨rfl, rfl, -⟩ := h
        rfl
  · cases hreturns

end Tasks

end LinuxDevelopment.Simplefs
