import LinuxDevelopment.Base.Transition
import Mathlib.Data.Finmap

/-!
# nojoin-helper

The preloaded library wraps `pthread_create` and `pthread_join`. Each wrapper
calls the real function first and then updates `thr_map` in a section of its
own, so calls of different threads can overtake each other between the two. The
system is free to give the id of a joined thread to a new one.

Threads are numbered in the order the real `pthread_create` makes them, since
their ids are not unique over a run.
-/

namespace LinuxDevelopment.Nojoin

/-- `elem_t`: the start routine and its argument. -/
abbrev Elem := Nat × Nat

/-- How far the one join of a thread has come. -/
inductive JoinState where
  | never
  /-- the wrapper is called -/
  | called
  /-- the real `pthread_join` has returned -/
  | returned
  /-- the section under `mtx` is executed -/
  | finished
  deriving DecidableEq, Repr

/-- A thread of the program. Who creates and joins it and whether its creation
has reached `thr_map` is recorded for the reader only. -/
structure Thread where
  tid : Nat
  elem : Elem
  join : JoinState
  creator : Nat
  joiner : Nat
  recorded : Bool
  deriving DecidableEq, Repr

/-- Where a caller stands in a wrapper. -/
inductive Pc where
  | outside
  /-- in `pthread_create`, before the real one -/
  | create (e : Elem)
  /-- before `pthread_mutex_lock` in `pthread_create` -/
  | created (k : Nat)
  /-- in `pthread_join`, before the real one -/
  | join (k : Nat)
  /-- before `pthread_mutex_lock` in `pthread_join` -/
  | joined (k : Nat)
  deriving DecidableEq, Repr

structure Helper where
  thrMap : Finmap fun _ : Nat => Elem
  thread : Nat → Thread
  created : Nat
  pc : Nat → Pc
  assertFailed : Bool

def start : Helper where
  thrMap := ∅
  thread := fun _ => ⟨0, (0, 0), .never, 0, 0, false⟩
  created := 0
  pc := fun _ => .outside
  assertFailed := false

inductive Label where
  | callCreate (c : Nat) (e : Elem)
  /-- the real `pthread_create` returns 0 and this id -/
  | realCreate (c tid : Nat)
  | createFails (c : Nat)
  | insert (c : Nat)
  /-- `pthread_join` is called for the thread with this number -/
  | callJoin (c k : Nat)
  /-- the real `pthread_join` returns 0 -/
  | realJoin (c : Nat)
  | joinFails (c : Nat)
  | erase (c : Nat)

def Label.caller : Label → Nat
  | .callCreate c _ => c
  | .realCreate c _ => c
  | .createFails c => c
  | .insert c => c
  | .callJoin c _ => c
  | .realJoin c => c
  | .joinFails c => c
  | .erase c => c

namespace Helper

variable (m : Helper)

def setPc (c : Nat) (p : Pc) : Helper := { m with pc := Function.update m.pc c p }

def setThread (k : Nat) (th : Thread) : Helper :=
  { m with thread := Function.update m.thread k th }

/-- The thread was created and the real `pthread_join` has not returned for it. -/
def Unjoined (k : Nat) : Prop :=
  k < m.created ∧ ((m.thread k).join = .never ∨ (m.thread k).join = .called)

/-- The id belongs to a thread the system still knows. -/
def InUse (tid : Nat) : Prop := ∃ k < m.created, m.Unjoined k ∧ (m.thread k).tid = tid

instance (k : Nat) : Decidable (m.Unjoined k) := inferInstanceAs (Decidable (_ ∧ _))

instance (tid : Nat) : Decidable (m.InUse tid) := inferInstanceAs (Decidable (∃ k < _, _))

/-- The section of `pthread_create`: `thr_map[*tid] = make_pair(start_routine, arg)`. -/
def insertSection (c k : Nat) : Helper :=
  ({ m with thrMap := m.thrMap.insert (m.thread k).tid (m.thread k).elem }.setThread k
    { m.thread k with recorded := true }).setPc c .outside

/-- The section of `pthread_join`. A failed assertion ends the program. -/
def eraseSection (c k : Nat) : Helper :=
  if (m.thread k).tid ∈ m.thrMap then
    ({ m with thrMap := m.thrMap.erase (m.thread k).tid }.setThread k
      { m.thread k with join := .finished }).setPc c .outside
  else { m with assertFailed := true }

def act : Label → Option Helper
  | .callCreate c e => if m.pc c = .outside then some (m.setPc c (.create e)) else none
  | .realCreate c tid =>
      match m.pc c with
      | .create e =>
          if m.InUse tid then none
          else some (({ m with created := m.created + 1 }.setThread m.created
            ⟨tid, e, .never, c, c, false⟩).setPc c (.created m.created))
      | _ => none
  | .createFails c =>
      match m.pc c with
      | .create _ => some (m.setPc c .outside)
      | _ => none
  | .insert c =>
      match m.pc c with
      | .created k => some (m.insertSection c k)
      | _ => none
  | .callJoin c k =>
      if m.pc c = .outside ∧ k < m.created ∧ (m.thread k).join = .never then
        some ((m.setThread k { m.thread k with join := .called, joiner := c }).setPc c (.join k))
      else none
  | .realJoin c =>
      match m.pc c with
      | .join k =>
          some ((m.setThread k { m.thread k with join := .returned }).setPc c (.joined k))
      | _ => none
  | .joinFails c =>
      match m.pc c with
      | .join k => some ((m.setThread k { m.thread k with join := .never }).setPc c .outside)
      | _ => none
  | .erase c =>
      match m.pc c with
      | .joined k => some (m.eraseSection c k)
      | _ => none

def step (l : Label) : Option Helper := if m.assertFailed then none else m.act l

/-- The entries `print_nojoin` prints; their number is printed first. -/
def printNojoin : Multiset (Σ _ : Nat, Elem) := m.thrMap.entries

/-- No wrapped call is in progress. -/
def Quiet : Prop := ∀ c, m.pc c = .outside

/-- The assertion has not failed, and between the calls `thr_map` has exactly
the unjoined threads. -/
def Faithful : Prop :=
  m.assertFailed = false ∧ (m.Quiet → ∀ tid e,
    (⟨tid, e⟩ ∈ m.printNojoin ↔
      ∃ k, m.Unjoined k ∧ (m.thread k).tid = tid ∧ (m.thread k).elem = e))

end Helper

/-- What a label can do, with the guards. -/
inductive Moves (m : Helper) : Label → Helper → Prop where
  | callCreate {c : Nat} (e : Elem) (hpc : m.pc c = .outside) :
      Moves m (.callCreate c e) (m.setPc c (.create e))
  | realCreate {c tid : Nat} {e : Elem} (hpc : m.pc c = .create e) (hfree : ¬ m.InUse tid) :
      Moves m (.realCreate c tid) (({ m with created := m.created + 1 }.setThread m.created
        ⟨tid, e, .never, c, c, false⟩).setPc c (.created m.created))
  | createFails {c : Nat} {e : Elem} (hpc : m.pc c = .create e) :
      Moves m (.createFails c) (m.setPc c .outside)
  | insert {c k : Nat} (hpc : m.pc c = .created k) : Moves m (.insert c) (m.insertSection c k)
  | callJoin {c k : Nat} (hpc : m.pc c = .outside) (hk : k < m.created)
      (hnever : (m.thread k).join = .never) :
      Moves m (.callJoin c k)
        ((m.setThread k { m.thread k with join := .called, joiner := c }).setPc c (.join k))
  | realJoin {c k : Nat} (hpc : m.pc c = .join k) :
      Moves m (.realJoin c)
        ((m.setThread k { m.thread k with join := .returned }).setPc c (.joined k))
  | joinFails {c k : Nat} (hpc : m.pc c = .join k) :
      Moves m (.joinFails c)
        ((m.setThread k { m.thread k with join := .never }).setPc c .outside)
  | erase {c k : Nat} (hpc : m.pc c = .joined k) (hmem : (m.thread k).tid ∈ m.thrMap) :
      Moves m (.erase c) (({ m with thrMap := m.thrMap.erase (m.thread k).tid }.setThread k
        { m.thread k with join := .finished }).setPc c .outside)
  | assertFails {c k : Nat} (hpc : m.pc c = .joined k) (hmem : (m.thread k).tid ∉ m.thrMap) :
      Moves m (.erase c) { m with assertFailed := true }

theorem moves_of_step {m m' : Helper} {l : Label} (h : m.step l = some m') : Moves m l m' := by
  obtain ⟨-, h⟩ := Option.ite_none_left_eq_some.mp h
  cases l with
  | callCreate c e =>
      obtain ⟨hpc, ⟨⟩⟩ := Option.ite_none_right_eq_some.mp h
      exact .callCreate e hpc
  | realCreate c tid =>
      simp only [Helper.act] at h
      split at h
      · rename_i e hpc
        obtain ⟨hfree, ⟨⟩⟩ := Option.ite_none_left_eq_some.mp h
        exact .realCreate hpc hfree
      · cases h
  | createFails c =>
      simp only [Helper.act] at h
      split at h
      · rename_i e hpc
        obtain rfl := Option.some.inj h
        exact .createFails hpc
      · cases h
  | insert c =>
      simp only [Helper.act] at h
      split at h
      · rename_i k hpc
        obtain rfl := Option.some.inj h
        exact .insert hpc
      · cases h
  | callJoin c k =>
      obtain ⟨⟨hpc, hk, hnever⟩, ⟨⟩⟩ := Option.ite_none_right_eq_some.mp h
      exact .callJoin hpc hk hnever
  | realJoin c =>
      simp only [Helper.act] at h
      split at h
      · rename_i k hpc
        obtain rfl := Option.some.inj h
        exact .realJoin hpc
      · cases h
  | joinFails c =>
      simp only [Helper.act] at h
      split at h
      · rename_i k hpc
        obtain rfl := Option.some.inj h
        exact .joinFails hpc
      · cases h
  | erase c =>
      simp only [Helper.act] at h
      split at h
      · rename_i k hpc
        obtain rfl := Option.some.inj h
        by_cases hmem : (m.thread k).tid ∈ m.thrMap
        · rw [Helper.eraseSection, if_pos hmem]
          exact .erase hpc hmem
        · rw [Helper.eraseSection, if_neg hmem]
          exact .assertFails hpc hmem
      · cases h

theorem Moves.pc_of_ne {m m' : Helper} {l : Label} {d : Nat} (h : Moves m l m')
    (hd : d ≠ l.caller) : m'.pc d = m.pc d := by
  cases h with
  | assertFails => rfl
  | _ => exact Function.update_of_ne hd _ _

/-- Whoever makes no call stays outside. -/
theorem outside_of_replay {ls : List Label} {m : Helper} {d : Nat}
    (h : replay Helper.step ls start = some m) (hd : ∀ l ∈ ls, l.caller ≠ d) :
    m.pc d = .outside := by
  have hrun : Reaches Helper.step (fun _ l => l.caller ≠ d) start m :=
    Reaches.of_replay (fun l hl _ => hd l hl) h
  refine hrun.invariant (P := fun m => m.pc d = .outside) rfl ?_
  intro m m' l _ hm hl hstep
  exact ((moves_of_step hstep).pc_of_ne (Ne.symm hl)).trans hm

/-- The section of a join comes behind the section of the create that made the
thread, and an id is given out again only behind the section of the join. -/
def InOrder (m : Helper) (l : Label) : Prop :=
  (∀ c k, l = .erase c → m.pc c = .joined k → (m.thread k).recorded = true) ∧
    ∀ c tid, l = .realCreate c tid →
      ∀ k < m.created, (m.thread k).join = .returned → (m.thread k).tid ≠ tid

/-- A caller stands behind the real function exactly when the thread it is
about says so. -/
structure Helper.Placed (m : Helper) : Prop where
  created : ∀ c k, m.pc c = .created k ↔
    k < m.created ∧ (m.thread k).creator = c ∧ (m.thread k).recorded = false
  join : ∀ c k, m.pc c = .join k ↔
    k < m.created ∧ (m.thread k).joiner = c ∧ (m.thread k).join = .called
  joined : ∀ c k, m.pc c = .joined k ↔
    k < m.created ∧ (m.thread k).joiner = c ∧ (m.thread k).join = .returned

/-- The callers at a place are the owners of the threads that are due there. -/
def Helper.At (m : Helper) (place : Nat → Pc) (owner : Thread → Nat) (due : Thread → Prop) :
    Prop :=
  ∀ c k, m.pc c = place k ↔ k < m.created ∧ owner (m.thread k) = c ∧ due (m.thread k)

namespace Helper.At

variable {m : Helper} {place : Nat → Pc} {owner : Thread → Nat} {due : Thread → Prop} {c k n : Nat}
  {p : Pc} {th : Thread}

/-- A caller passes by. -/
theorem setPc (h : m.At place owner due) (hold : ∀ j, m.pc c ≠ place j) (hnew : ∀ j, p ≠ place j) :
    (m.setPc c p).At place owner due := by
  intro d j
  refine Iff.trans ?_ (h d j)
  change Function.update m.pc c p d = place j ↔ _
  by_cases hd : d = c
  · rw [hd, Function.update_self]
    exact iff_of_false (hnew j) (hold j)
  · rw [Function.update_of_ne hd]

/-- A thread changes and is as due as before. -/
theorem setThread (h : m.At place owner due) (howner : due th → owner th = owner (m.thread k))
    (hdue : due th ↔ due (m.thread k)) : (m.setThread k th).At place owner due := by
  intro d j
  refine (h d j).trans (and_congr_right fun _ => ?_)
  change _ ↔ owner (Function.update m.thread k th j) = d ∧ due (Function.update m.thread k th j)
  by_cases hj : j = k
  · rw [hj, Function.update_self, ← hdue]
    exact and_congr_left fun hth => by rw [howner hth]
  · rw [Function.update_of_ne hj]

/-- A caller passes by with a thread that is as due as before. -/
theorem pass (h : m.At place owner due) (hold : ∀ j, m.pc c ≠ place j) (hnew : ∀ j, p ≠ place j)
    (howner : due th → owner th = owner (m.thread k)) (hdue : due th ↔ due (m.thread k)) :
    ((m.setThread k th).setPc c p).At place owner due :=
  (h.setThread howner hdue).setPc hold hnew

/-- A new thread is not due. -/
theorem create (h : m.At place owner due) (hn : ∀ j, j ≠ m.created → (j < n ↔ j < m.created))
    (hold : ∀ j, m.pc c ≠ place j) (hnew : ∀ j, p ≠ place j) (hdue : ¬ due th) :
    Helper.At (({ m with created := n }.setThread m.created th).setPc c p) place owner due := by
  refine setPc ?_ hold hnew
  intro d j
  refine (h d j).trans ?_
  change _ ↔ j < n ∧ owner (Function.update m.thread m.created th j) = d ∧
    due (Function.update m.thread m.created th j)
  by_cases hj : j = m.created
  · rw [hj, Function.update_self]
    exact iff_of_false (fun hlt => Nat.lt_irrefl _ hlt.1) fun hth => hdue hth.2.2
  · rw [Function.update_of_ne hj, hn j hj]

/-- A caller comes to the place with a thread that becomes due. -/
theorem arrive (h : m.At place owner due) (hinj : ∀ i j, place i = place j → i = j)
    (hn : ∀ j, j ≠ k → (j < n ↔ j < m.created)) (hk : k < n) (hold : ∀ j, m.pc c ≠ place j)
    (howner : owner th = c) (hdue : due th) (hnot : ¬ (k < m.created ∧ due (m.thread k))) :
    Helper.At (({ m with created := n }.setThread k th).setPc c (place k)) place owner due := by
  intro d j
  change Function.update m.pc c (place k) d = place j ↔ j < n ∧
    owner (Function.update m.thread k th j) = d ∧ due (Function.update m.thread k th j)
  by_cases hj : j = k
  · rw [hj, Function.update_self]
    by_cases hd : d = c
    · rw [hd, Function.update_self]
      exact iff_of_true rfl ⟨hk, howner, hdue⟩
    · rw [Function.update_of_ne hd, h d k]
      exact iff_of_false (fun hth => hnot ⟨hth.1, hth.2.2⟩)
        fun hth => hd (hth.2.1.symm.trans howner)
  · rw [Function.update_of_ne hj, hn j hj, ← h d j]
    by_cases hd : d = c
    · rw [hd, Function.update_self]
      exact iff_of_false (fun heq => hj (hinj k j heq).symm) (hold j)
    · rw [Function.update_of_ne hd]

/-- A caller leaves the place, and its thread is not due any more. -/
theorem leave (h : m.At place owner due) (hinj : ∀ i j, place i = place j → i = j)
    (hat : m.pc c = place k) (hnew : ∀ j, p ≠ place j) (hdue : ¬ due th) :
    ((m.setThread k th).setPc c p).At place owner due := by
  intro d j
  change Function.update m.pc c p d = place j ↔ j < m.created ∧
    owner (Function.update m.thread k th j) = d ∧ due (Function.update m.thread k th j)
  by_cases hj : j = k
  · rw [hj, Function.update_self]
    refine iff_of_false ?_ fun hth => hdue hth.2.2
    by_cases hd : d = c
    · rw [hd, Function.update_self]
      exact hnew k
    · rw [Function.update_of_ne hd]
      exact fun heq => hd (((h d k).mp heq).2.1.symm.trans ((h c k).mp hat).2.1)
  · rw [Function.update_of_ne hj, ← h d j]
    by_cases hd : d = c
    · rw [hd, Function.update_self]
      exact iff_of_false (hnew j) fun heq => hj (hinj k j (hat.symm.trans heq)).symm
    · rw [Function.update_of_ne hd]

end Helper.At

section Order

variable {m m' : Helper} {l : Label}

theorem placed_start : start.Placed := by
  refine ⟨?_, ?_, ?_⟩ <;> simp [start]

theorem Moves.placed (h : Moves m l m') (hm : m.Placed) : m'.Placed := by
  have hcreated : m.At .created Thread.creator fun th => th.recorded = false := hm.created
  have hjoin : m.At .join Thread.joiner fun th => th.join = .called := hm.join
  have hjoined : m.At .joined Thread.joiner fun th => th.join = .returned := hm.joined
  cases h with
  | callCreate e hpc =>
      exact ⟨hcreated.setPc (by simp [hpc]) (by simp), hjoin.setPc (by simp [hpc]) (by simp),
        hjoined.setPc (by simp [hpc]) (by simp)⟩
  | realCreate hpc hfree =>
      have hlt : ∀ j, j ≠ m.created → (j < m.created + 1 ↔ j < m.created) := by
        intro j hj
        omega
      refine ⟨?_, ?_, ?_⟩
      · exact hcreated.arrive (fun _ _ => Pc.created.inj) hlt (Nat.lt_succ_self _)
          (by simp [hpc]) rfl rfl fun hold => absurd hold.1 (Nat.lt_irrefl _)
      · exact hjoin.create hlt (by simp [hpc]) (by simp) (by simp)
      · exact hjoined.create hlt (by simp [hpc]) (by simp) (by simp)
  | createFails hpc =>
      exact ⟨hcreated.setPc (by simp [hpc]) (by simp), hjoin.setPc (by simp [hpc]) (by simp),
        hjoined.setPc (by simp [hpc]) (by simp)⟩
  | insert hpc =>
      refine ⟨?_, ?_, ?_⟩
      · exact hcreated.leave (fun _ _ => Pc.created.inj) hpc (by simp) (by simp)
      · exact hjoin.pass (by simp [hpc]) (by simp) (fun _ => rfl) Iff.rfl
      · exact hjoined.pass (by simp [hpc]) (by simp) (fun _ => rfl) Iff.rfl
  | callJoin hpc hk hnever =>
      refine ⟨?_, ?_, ?_⟩
      · exact hcreated.pass (by simp [hpc]) (by simp) (fun _ => rfl) Iff.rfl
      · exact hjoin.arrive (fun _ _ => Pc.join.inj) (fun _ _ => Iff.rfl) hk (by simp [hpc]) rfl rfl
          (by simp [hnever])
      · exact hjoined.pass (by simp [hpc]) (by simp) (by simp) (by simp [hnever])
  | realJoin hpc =>
      obtain ⟨hk, howner, hcalled⟩ := (hjoin _ _).mp hpc
      refine ⟨?_, ?_, ?_⟩
      · exact hcreated.pass (by simp [hpc]) (by simp) (fun _ => rfl) Iff.rfl
      · exact hjoin.leave (fun _ _ => Pc.join.inj) hpc (by simp) (by simp)
      · exact hjoined.arrive (fun _ _ => Pc.joined.inj) (fun _ _ => Iff.rfl) hk (by simp [hpc])
          howner rfl (by simp [hcalled])
  | joinFails hpc =>
      obtain ⟨-, -, hcalled⟩ := (hjoin _ _).mp hpc
      refine ⟨?_, ?_, ?_⟩
      · exact hcreated.pass (by simp [hpc]) (by simp) (fun _ => rfl) Iff.rfl
      · exact hjoin.leave (fun _ _ => Pc.join.inj) hpc (by simp) (by simp)
      · exact hjoined.pass (by simp [hpc]) (by simp) (by simp) (by simp [hcalled])
  | erase hpc hmem =>
      obtain ⟨-, -, hreturned⟩ := (hjoined _ _).mp hpc
      refine ⟨?_, ?_, ?_⟩
      · exact hcreated.pass (by simp [hpc]) (by simp) (fun _ => rfl) Iff.rfl
      · exact hjoin.pass (by simp [hpc]) (by simp) (by simp) (by simp [hreturned])
      · exact hjoined.leave (fun _ _ => Pc.joined.inj) hpc (by simp) (by simp)
  | assertFails hpc hmem => exact ⟨hm.created, hm.join, hm.joined⟩

/-- The thread has an entry: its creation is recorded and its join is not. -/
def Helper.Listed (m : Helper) (k : Nat) : Prop :=
  k < m.created ∧ (m.thread k).recorded = true ∧ (m.thread k).join ≠ .finished

/-- `thr_map` has the entries of the listed threads, whose ids differ. -/
structure Helper.Tracks (m : Helper) : Prop where
  assert : m.assertFailed = false
  lookup : ∀ tid e, m.thrMap.lookup tid = some e ↔
    ∃ k, m.Listed k ∧ (m.thread k).tid = tid ∧ (m.thread k).elem = e
  distinct : ∀ j k, j < m.created → k < m.created → (m.thread j).join ≠ .finished →
    (m.thread k).join ≠ .finished → (m.thread j).tid = (m.thread k).tid → j = k
  order : ∀ k < m.created, (m.thread k).join = .finished → (m.thread k).recorded = true

/-- Steps that change neither the map nor what the threads mean for it. -/
theorem Helper.Tracks.congr (hm : m.Tracks) (hassert : m'.assertFailed = m.assertFailed)
    (hmap : m'.thrMap = m.thrMap) (hcreated : m'.created = m.created)
    (htid : ∀ k, (m'.thread k).tid = (m.thread k).tid)
    (helem : ∀ k, (m'.thread k).elem = (m.thread k).elem)
    (hrecorded : ∀ k, (m'.thread k).recorded = (m.thread k).recorded)
    (hjoin : ∀ k, (m'.thread k).join = .finished ↔ (m.thread k).join = .finished) :
    m'.Tracks where
  assert := hassert.trans hm.assert
  lookup := by
    intro tid e
    rw [hmap, hm.lookup]
    simp only [Helper.Listed, hcreated, htid, helem, hrecorded, ne_eq, hjoin]
  distinct := by
    intro j k
    simp only [hcreated, htid, ne_eq, hjoin]
    exact hm.distinct j k
  order := by
    intro k
    simp only [hcreated, hrecorded, hjoin]
    exact hm.order k

theorem Helper.Tracks.setPc (hm : m.Tracks) (c : Nat) (p : Pc) : (m.setPc c p).Tracks :=
  ⟨hm.assert, hm.lookup, hm.distinct, hm.order⟩

/-- The map does not depend on how far an unfinished join has come. -/
theorem Helper.Tracks.setJoin (hm : m.Tracks) {k : Nat} {s : JoinState} (j : Nat)
    (hold : (m.thread k).join ≠ .finished) (hnew : s ≠ .finished) :
    (m.setThread k { m.thread k with join := s, joiner := j }).Tracks := by
  have hother : ∀ i, i ≠ k →
      (m.setThread k { m.thread k with join := s, joiner := j }).thread i = m.thread i :=
    fun i hi => Function.update_of_ne hi _ _
  have hself : (m.setThread k { m.thread k with join := s, joiner := j }).thread k =
      { m.thread k with join := s, joiner := j } := Function.update_self _ _ _
  refine hm.congr rfl rfl rfl ?_ ?_ ?_ ?_
  all_goals
    intro i
    by_cases hi : i = k
    · subst hi
      rw [hself]
      try exact iff_of_false hnew hold
    · rw [hother i hi]

/-- A new thread has an id of its own and no entry yet. -/
theorem Helper.Tracks.realCreate (hm : m.Tracks) {c tid : Nat} (e : Elem)
    (hfree : ¬ m.InUse tid)
    (horder : ∀ k < m.created, (m.thread k).join = .returned → (m.thread k).tid ≠ tid) :
    ({ m with created := m.created + 1 }.setThread m.created
      ⟨tid, e, .never, c, c, false⟩).Tracks := by
  have hnew : ∀ k < m.created, (m.thread k).join ≠ .finished → (m.thread k).tid ≠ tid := by
    intro k hk hjoin htid
    cases hstate : (m.thread k).join with
    | never => exact hfree ⟨k, hk, ⟨hk, .inl hstate⟩, htid⟩
    | called => exact hfree ⟨k, hk, ⟨hk, .inr hstate⟩, htid⟩
    | returned => exact horder k hk hstate htid
    | finished => exact hjoin hstate
  refine ⟨hm.assert, ?_, ?_, ?_⟩
  · intro id x
    refine (hm.lookup id x).trans ?_
    simp only [Helper.Listed, Helper.setThread, Function.update_apply]
    constructor
    · rintro ⟨k, ⟨hk, hlisted⟩, htid⟩
      have hne : k ≠ m.created := Nat.ne_of_lt hk
      exact ⟨k, ⟨Nat.lt_succ_of_lt hk, by simpa [hne] using hlisted⟩, by simpa [hne] using htid⟩
    · rintro ⟨k, ⟨hk, hlisted⟩, htid⟩
      by_cases hne : k = m.created
      · simp [hne] at hlisted
      · exact ⟨k, ⟨by omega, by simpa [hne] using hlisted⟩, by simpa [hne] using htid⟩
  · intro j k
    simp only [Helper.setThread, Function.update_apply]
    have hold := hm.distinct j k
    have hj := hnew j
    have hk := hnew k
    grind
  · intro k
    simp only [Helper.setThread, Function.update_apply]
    have hold := hm.order k
    grind

/-- The section of `pthread_create` gives the thread its entry. -/
theorem Helper.Tracks.insertSection (hm : m.Tracks) {c k : Nat} (hk : k < m.created)
    (hrecorded : (m.thread k).recorded = false) : (m.insertSection c k).Tracks := by
  have hjoin : (m.thread k).join ≠ .finished := by
    intro h
    rw [hm.order k hk h] at hrecorded
    cases hrecorded
  refine ⟨hm.assert, ?_, ?_, ?_⟩
  · intro tid e
    simp only [Helper.Listed, Helper.insertSection, Helper.setPc, Helper.setThread,
      Function.update_apply]
    by_cases htid : tid = (m.thread k).tid
    · subst htid
      rw [Finmap.lookup_insert]
      constructor
      · intro he
        exact ⟨k, by simpa using ⟨hk, hjoin⟩, by simp, by simpa using he⟩
      · rintro ⟨j, ⟨hj, -, hjoin'⟩, htid, helem⟩
        have hjk : j = k := by
          have hdistinct := hm.distinct j k hj hk
          grind
        subst hjk
        simpa using helem
    · rw [Finmap.lookup_insert_of_ne _ htid, hm.lookup]
      apply exists_congr
      intro j
      by_cases hjk : j = k
      · subst hjk
        simp [hrecorded, Helper.Listed, Ne.symm htid]
      · simp [hjk, Helper.Listed]
  · intro i j
    simp only [Helper.insertSection, Helper.setPc, Helper.setThread, Function.update_apply]
    have hold := hm.distinct i j
    grind
  · intro j
    simp only [Helper.insertSection, Helper.setPc, Helper.setThread, Function.update_apply]
    have hold := hm.order j
    grind

/-- The section of `pthread_join` finds the entry of the thread and removes it. -/
theorem Helper.Tracks.eraseSection (hm : m.Tracks) {k : Nat} (hk : k < m.created)
    (hrecorded : (m.thread k).recorded = true) (hjoin : (m.thread k).join = .returned) :
    ({ m with thrMap := m.thrMap.erase (m.thread k).tid }.setThread k
      { m.thread k with join := .finished }).Tracks := by
  refine ⟨hm.assert, ?_, ?_, ?_⟩
  · intro tid e
    simp only [Helper.Listed, Helper.setThread, Function.update_apply]
    by_cases htid : tid = (m.thread k).tid
    · subst htid
      rw [Finmap.lookup_erase]
      constructor
      · intro he
        cases he
      · rintro ⟨j, ⟨hj, -, hjoin'⟩, htid, -⟩
        have hdistinct := hm.distinct j k hj hk
        grind
    · rw [Finmap.lookup_erase_ne htid, hm.lookup]
      apply exists_congr
      intro j
      by_cases hjk : j = k
      · subst hjk
        simp [Ne.symm htid]
      · simp [hjk, Helper.Listed]
  · intro i j
    simp only [Helper.setThread, Function.update_apply]
    have hold := hm.distinct i j
    grind
  · intro j
    simp only [Helper.setThread, Function.update_apply]
    have hold := hm.order j
    grind

theorem Helper.Tracks.mem_thrMap (hm : m.Tracks) {k : Nat} (hk : m.Listed k) :
    (m.thread k).tid ∈ m.thrMap := by
  rw [← Finmap.lookup_isSome, (hm.lookup _ _).mpr ⟨k, hk, rfl, rfl⟩]
  rfl

theorem Moves.tracks (h : Moves m l m') (hl : InOrder m l) (hp : m.Placed) (hm : m.Tracks) :
    m'.Tracks := by
  cases h with
  | callCreate | createFails => exact hm.setPc _ _
  | realCreate hpc hfree => exact (hm.realCreate _ hfree (hl.2 _ _ rfl)).setPc _ _
  | insert hpc =>
      obtain ⟨hk, -, hrecorded⟩ := (hp.created _ _).mp hpc
      exact hm.insertSection hk hrecorded
  | callJoin hpc hk hnever =>
      apply Helper.Tracks.setPc
      apply hm.setJoin
      · simp [hnever]
      · simp
  | realJoin hpc | joinFails hpc =>
      obtain ⟨-, -, hcalled⟩ := (hp.join _ _).mp hpc
      apply Helper.Tracks.setPc
      apply hm.setJoin (m.thread _).joiner
      · simp [hcalled]
      · simp
  | erase hpc hmem =>
      obtain ⟨hk, -, hjoin⟩ := (hp.joined _ _).mp hpc
      exact (hm.eraseSection hk (hl.1 _ _ rfl hpc) hjoin).setPc _ _
  | assertFails hpc hmem =>
      obtain ⟨hk, -, hjoin⟩ := (hp.joined _ _).mp hpc
      exact absurd (hm.mem_thrMap ⟨hk, hl.1 _ _ rfl hpc, by simp [hjoin]⟩) hmem

theorem placed_of_reachable (h : Reachable Helper.step start m) : m.Placed :=
  h.invariant placed_start fun hm hstep => (moves_of_step hstep).placed hm

theorem tracks_start : start.Tracks where
  assert := rfl
  lookup := by simp [start, Helper.Listed]
  distinct := by
    intro j k hj
    exact absurd hj (Nat.not_lt_zero j)
  order := by
    intro k hk
    exact absurd hk (Nat.not_lt_zero k)

theorem tracks_of_reaches (h : Reaches Helper.step InOrder start m) : m.Tracks :=
  h.invariant tracks_start fun hrun hm hl hstep =>
    (moves_of_step hstep).tracks hl (placed_of_reachable hrun.reachable) hm

/-- Between the calls every thread is recorded and no join is half done. -/
theorem Helper.Placed.listed_iff (hp : m.Placed) (hq : m.Quiet) (k : Nat) :
    m.Listed k ↔ m.Unjoined k := by
  refine and_congr_right fun hk => ?_
  have hrecorded : (m.thread k).recorded = true := by
    by_contra h
    have hpc := (hp.created _ k).mpr ⟨hk, rfl, Bool.eq_false_of_not_eq_true h⟩
    rw [hq] at hpc
    cases hpc
  have hreturned : (m.thread k).join ≠ .returned := by
    intro h
    have hpc := (hp.joined _ k).mpr ⟨hk, rfl, h⟩
    rw [hq] at hpc
    cases hpc
  cases hjoin : (m.thread k).join with
  | never | called | finished => simp [hrecorded]
  | returned => exact absurd hjoin hreturned

end Order

/-- If the section of each join comes behind that of the create it belongs to,
and ids are given out again behind it, the map has exactly the unjoined threads
between the calls, and the assertion does not fail. -/
theorem faithful_of_reaches {m : Helper} (h : Reaches Helper.step InOrder start m) :
    m.Faithful := by
  have hm := tracks_of_reaches h
  have hp := placed_of_reachable h.reachable
  refine ⟨hm.assert, ?_⟩
  intro hq tid e
  rw [Helper.printNojoin, ← Finmap.lookup_eq_some_iff]
  refine (hm.lookup tid e).trans (exists_congr fun k => ?_)
  rw [hp.listed_iff hq]

/-- A test for `InOrder`. -/
def Helper.inOrder (m : Helper) : Label → Bool
  | .erase c =>
      match m.pc c with
      | .joined k => (m.thread k).recorded
      | _ => true
  | .realCreate _ tid =>
      decide (∀ k < m.created, (m.thread k).join = .returned → (m.thread k).tid ≠ tid)
  | _ => true

theorem inOrder_of_test {m : Helper} {l : Label} (h : m.inOrder l = true) : InOrder m l := by
  refine ⟨?_, ?_⟩
  · rintro c k rfl hpc
    simpa only [Helper.inOrder, hpc] using h
  · rintro c tid rfl
    exact of_decide_eq_true h

/-- Two threads are created one after the other with the same id; the first one
is joined in between. -/
def createTwice : List Label :=
  [.callCreate 0 (1, 2), .realCreate 0 5, .insert 0, .callJoin 1 0, .realJoin 1, .erase 1,
    .callCreate 0 (3, 4), .realCreate 0 5, .insert 0]

theorem faithful_createTwice : ∃ m, Reaches Helper.step InOrder start m ∧ m.created = 2 ∧
    m.printNojoin = {⟨5, (3, 4)⟩} ∧ m.Faithful := by
  obtain ⟨m, hrun, hcreated, hprint⟩ :
      ∃ m, replay (fun m l => if m.inOrder l then m.step l else none) createTwice start = some m ∧
        m.created = 2 ∧ m.printNojoin = {⟨5, (3, 4)⟩} :=
    exists_of_replay_any (by decide +kernel)
  have hm : Reaches Helper.step InOrder start m :=
    Reaches.append_replay _ (fun _ _ _ => inOrder_of_test) .refl hrun
  exact ⟨m, hm, hcreated, hprint, faithful_of_reaches hm⟩

/-- A join that overtakes the section of the create. -/
def joinOvertakes : List Label :=
  [.callCreate 0 (1, 2), .realCreate 0 5, .callJoin 1 0, .realJoin 1, .erase 1]

/-- The id of a joined thread is given out before the section of the join. -/
def idReused : List Label :=
  [.callCreate 0 (1, 2), .realCreate 0 5, .insert 0, .callJoin 1 0, .realJoin 1,
    .callCreate 0 (3, 4), .realCreate 0 5, .insert 0, .erase 1]

/-- The assertion fails in the first run. In the second one the entry of an
unjoined thread is removed. -/
theorem not_faithful_overtaken :
    (∃ m, Reachable Helper.step start m ∧ m.assertFailed = true) ∧
      ∃ m, Reachable Helper.step start m ∧ m.assertFailed = false ∧ ¬ m.Faithful := by
  refine ⟨?_, ?_⟩
  · obtain ⟨m, hrun, hfailed⟩ :
        ∃ m, replay Helper.step joinOvertakes start = some m ∧ m.assertFailed = true :=
      exists_of_replay_any (by decide +kernel)
    exact ⟨m, Reachable.of_replay hrun, hfailed⟩
  · obtain ⟨m, hrun, hassert, hprint, hunjoined, hq⟩ :
        ∃ m, replay Helper.step idReused start = some m ∧ m.assertFailed = false ∧
          m.printNojoin = ∅ ∧ m.Unjoined 1 ∧ m.pc 0 = .outside ∧ m.pc 1 = .outside :=
      exists_of_replay_any (by decide +kernel)
    have hquiet : m.Quiet := by
      intro d
      by_cases hd : d = 0 ∨ d = 1
      · rcases hd with rfl | rfl
        · exact hq.1
        · exact hq.2
      · refine outside_of_replay hrun ?_
        simp only [idReused, List.forall_mem_cons, Label.caller]
        grind
    refine ⟨m, Reachable.of_replay hrun, hassert, ?_⟩
    rintro ⟨-, hmap⟩
    have hmem := (hmap hquiet _ _).mpr ⟨1, hunjoined, rfl, rfl⟩
    rw [hprint] at hmem
    exact Multiset.notMem_zero _ hmem

end LinuxDevelopment.Nojoin
