import Mathlib.Logic.Function.Basic
import Mathlib.Tactic.Common

/-!
# Block devices behind a write-back cache

A disk is a device with a cache of its blocks. The program edits blocks in the
cache, marks them dirty and writes them out; besides, a dirty block may be
written out at any moment on its own. `Delayed` relates a disk to what a
sequence of operations can have made of it, with such writes anywhere between
them. The two rules of this module find out about the device in spite of them:
`Delayed.within` for predicates on single blocks, and `Delayed.status` for
blocks that were written out on purpose.
-/

namespace LinuxDevelopment

/-- A device and the cache in front of it. -/
@[ext] structure Disk (B : Type) where
  cache : Nat → B
  media : Nat → B
  dirty : Nat → Bool

/-- What a program does to a block. -/
inductive DiskOp (B : Type) where
  | edit (b : Nat) (f : B → B)
  | mark (b : Nat)
  | sync (b : Nat)

namespace Disk

variable {B : Type}

def apply (d : Disk B) : DiskOp B → Disk B
  | .edit b f => { d with cache := Function.update d.cache b (f (d.cache b)) }
  | .mark b => { d with dirty := Function.update d.dirty b true }
  | .sync b =>
      { d with
        media := Function.update d.media b (if d.dirty b then d.cache b else d.media b)
        dirty := Function.update d.dirty b false }

/-- Perform operations, with no write but the requested ones. -/
def applyAll (d : Disk B) (es : List (DiskOp B)) : Disk B := es.foldl apply d

theorem applyAll_append (d : Disk B) (es es' : List (DiskOp B)) :
    d.applyAll (es ++ es') = (d.applyAll es).applyAll es' := List.foldl_append ..

/-- What the operations can have made of the disk `d`. -/
inductive Delayed (d : Disk B) : List (DiskOp B) → Disk B → Prop
  | nil : Delayed d [] d
  | op {es : List (DiskOp B)} {d' : Disk B} (init : Delayed d es d') (e : DiskOp B) :
      Delayed d (es ++ [e]) (d'.apply e)
  /-- a dirty block is written out on its own -/
  | writeback {es : List (DiskOp B)} {d' : Disk B} (init : Delayed d es d') (b : Nat) :
      Delayed d es (d'.apply (.sync b))

variable {d d' : Disk B} {es es' : List (DiskOp B)} {b : Nat}

theorem Delayed.ops (h : Delayed d es d') (es' : List (DiskOp B)) :
    Delayed d (es ++ es') (d'.applyAll es') := by
  induction es' generalizing es d' with
  | nil =>
      rw [List.append_nil]
      exact h
  | cons e es' ih =>
      rw [List.append_cons]
      exact ih (h.op e)

/-- The cache does not depend on when blocks are written out. -/
theorem Delayed.cache_eq (h : Delayed d es d') : d'.cache = (d.applyAll es).cache := by
  induction h with
  | nil => rfl
  | @op es d' init e ih =>
      rw [applyAll_append]
      cases e with
      | edit b f =>
          change Function.update d'.cache b _ = Function.update (d.applyAll es).cache b _
          rw [ih]
      | mark b => exact ih
      | sync b => exact ih
  | writeback init b ih => exact ih

/-- A sequence of operations can be cut anywhere. -/
theorem Delayed.split (h : Delayed d (es ++ es') d') :
    ∃ d₁, Delayed d es d₁ ∧ Delayed d₁ es' d' := by
  generalize hall : es ++ es' = all at h
  induction h generalizing es' with
  | nil =>
      obtain ⟨rfl, rfl⟩ := List.append_eq_nil_iff.mp hall
      exact ⟨d, .nil, .nil⟩
  | @op all d' init e ih =>
      rcases List.eq_nil_or_concat es' with rfl | ⟨rest, x, rfl⟩
      · rw [List.append_nil] at hall
        subst hall
        exact ⟨d'.apply e, init.op e, .nil⟩
      · rw [List.concat_eq_append, ← List.append_assoc] at hall
        obtain ⟨hinit, hx⟩ := List.append_inj' hall rfl
        obtain rfl := List.singleton_inj.mp hx
        obtain ⟨d₁, h₁, h₂⟩ := ih hinit
        rw [List.concat_eq_append]
        exact ⟨d₁, h₁, h₂.op x⟩
  | writeback init b ih =>
      obtain ⟨d₁, h₁, h₂⟩ := ih hall
      exact ⟨d₁, h₁, h₂.writeback b⟩

/-- The blocks in the cache have the property `C`, those on the device `M`. -/
def Within (C M : Nat → B → Prop) (d : Disk B) : Prop := ∀ b, C b (d.cache b) ∧ M b (d.media b)

/-- An operation keeps the property of the block it edits. -/
def Keeps (C : Nat → B → Prop) : DiskOp B → Prop
  | .edit b f => ∀ x, C b x → C b (f x)
  | _ => True

variable {C M : Nat → B → Prop}

theorem Within.sync (h : d.Within C M) (hcm : ∀ b x, C b x → M b x) (b : Nat) :
    (d.apply (.sync b)).Within C M := by
  intro c
  refine ⟨(h c).1, ?_⟩
  change M c (Function.update d.media b _ c)
  by_cases hcb : c = b
  · subst hcb
    rw [Function.update_self]
    split_ifs
    · exact hcm c _ (h c).1
    · exact (h c).2
  · rw [Function.update_of_ne hcb]
    exact (h c).2

theorem Within.apply (h : d.Within C M) (hcm : ∀ b x, C b x → M b x) {e : DiskOp B}
    (he : Keeps C e) : (d.apply e).Within C M := by
  cases e with
  | mark b => exact h
  | sync b => exact h.sync hcm b
  | edit b f =>
      intro c
      refine ⟨?_, (h c).2⟩
      change C c (Function.update d.cache b _ c)
      by_cases hcb : c = b
      · subst hcb
        rw [Function.update_self]
        exact he _ (h c).1
      · rw [Function.update_of_ne hcb]
        exact (h c).1

/-- What every edit keeps holds of the device whenever blocks are written out. -/
theorem Delayed.within (h : Delayed d es d') (h₀ : d.Within C M) (hcm : ∀ b x, C b x → M b x)
    (hes : ∀ e ∈ es, Keeps C e) : d'.Within C M := by
  induction h with
  | nil => exact h₀
  | op init e ih =>
      have hinit := ih fun x hx => hes x (List.mem_append_left _ hx)
      exact hinit.apply hcm (hes e (List.mem_append_right _ List.mem_cons_self))
  | writeback init b ih => exact (ih hes).sync hcm b

/-- What is known about a block: nothing, that its last version will reach the
device, or that it is there. -/
inductive Status where
  | stale
  | marked
  | synced
  deriving DecidableEq, Repr

namespace Status

/-- How an operation changes what is known about the block `b`. -/
def next (b : Nat) (s : Status) : DiskOp B → Status
  | .edit c _ => if c = b then .stale else s
  | .mark c => if c = b then .marked else s
  | .sync c => if c = b ∧ s = .marked then .synced else s

def Holds (d : Disk B) (b : Nat) : Status → Prop
  | .stale => True
  | .marked => d.dirty b = true ∨ d.media b = d.cache b
  | .synced => d.dirty b = false ∧ d.media b = d.cache b

variable {s : Status}

theorem Holds.sync (h : s.Holds d b) (c : Nat) : s.Holds (d.apply (.sync c)) b := by
  by_cases hbc : b = c
  · subst hbc
    cases s with
    | stale => trivial
    | marked =>
        right
        change Function.update d.media b _ b = d.cache b
        rw [Function.update_self]
        rcases h with hd | hm
        · rw [if_pos hd]
        · split_ifs
          · rfl
          · exact hm
    | synced =>
        refine ⟨Function.update_self _ _ _, ?_⟩
        change Function.update d.media b _ b = d.cache b
        rw [Function.update_self, h.1]
        exact h.2
  · cases s with
    | stale => trivial
    | marked =>
        change Function.update d.dirty c _ b = true ∨ Function.update d.media c _ b = d.cache b
        rw [Function.update_of_ne hbc, Function.update_of_ne hbc]
        exact h
    | synced =>
        change Function.update d.dirty c _ b = false ∧ Function.update d.media c _ b = d.cache b
        rw [Function.update_of_ne hbc, Function.update_of_ne hbc]
        exact h

theorem Holds.next (h : s.Holds d b) (e : DiskOp B) : (s.next b e).Holds (d.apply e) b := by
  cases e with
  | edit c f =>
      by_cases hcb : c = b
      · rw [Status.next, if_pos hcb]
        trivial
      · have hcache : (d.apply (.edit c f)).cache b = d.cache b :=
          Function.update_of_ne (Ne.symm hcb) _ _
        rw [Status.next, if_neg hcb]
        cases s with
        | stale => trivial
        | marked =>
            change d.dirty b = true ∨ d.media b = _
            rw [hcache]
            exact h
        | synced =>
            change d.dirty b = false ∧ d.media b = _
            rw [hcache]
            exact h
  | mark c =>
      by_cases hcb : c = b
      · subst hcb
        rw [Status.next, if_pos rfl]
        exact .inl (Function.update_self _ _ _)
      · have hdirty : (d.apply (.mark c)).dirty b = d.dirty b :=
          Function.update_of_ne (Ne.symm hcb) _ _
        rw [Status.next, if_neg hcb]
        cases s with
        | stale => trivial
        | marked =>
            change (d.apply (.mark c)).dirty b = true ∨ d.media b = d.cache b
            rw [hdirty]
            exact h
        | synced =>
            change (d.apply (.mark c)).dirty b = false ∧ d.media b = d.cache b
            rw [hdirty]
            exact h
  | sync c =>
      by_cases hcb : c = b ∧ s = .marked
      · obtain ⟨rfl, rfl⟩ := hcb
        rw [Status.next, if_pos ⟨rfl, rfl⟩]
        refine ⟨Function.update_self _ _ _, ?_⟩
        rcases h.sync c with hd | hm
        · rw [show (d.apply (.sync c)).dirty c = false from Function.update_self _ _ _] at hd
          cases hd
        · exact hm
      · rw [Status.next, if_neg hcb]
        exact h.sync c

end Status

/-- What is known about the block `b` behind a sequence of operations. -/
def status (b : Nat) (es : List (DiskOp B)) : Status := es.foldl (Status.next b) .stale

/-- The last version of a block is on the device when it was marked and then
written out, and not edited since. -/
theorem Delayed.status (h : Delayed d es d') (b : Nat) : (Disk.status b es).Holds d' b := by
  induction h with
  | nil => trivial
  | op init e ih =>
      rw [Disk.status, List.foldl_append]
      exact ih.next e
  | writeback init c ih => exact ih.sync c

/-- A block that is never marked stays on the device as it was. -/
theorem Delayed.of_not_marked (h : Delayed d es d') (h₀ : d.dirty b = false)
    (hes : .mark b ∉ es) : d'.dirty b = false ∧ d'.media b = d.media b := by
  have hsync : ∀ (x : Disk B) (c : Nat), x.dirty b = false ∧ x.media b = d.media b →
      (x.apply (.sync c)).dirty b = false ∧ (x.apply (.sync c)).media b = d.media b := by
    intro x c hx
    change Function.update x.dirty c _ b = false ∧ Function.update x.media c _ b = d.media b
    by_cases hbc : b = c
    · subst hbc
      rw [Function.update_self, Function.update_self, hx.1]
      exact ⟨rfl, hx.2⟩
    · rw [Function.update_of_ne hbc, Function.update_of_ne hbc]
      exact hx
  induction h with
  | nil => exact ⟨h₀, rfl⟩
  | @op es d' init e ih =>
      have hinit := ih fun hmem => hes (List.mem_append_left _ hmem)
      cases e with
      | edit c f => exact hinit
      | sync c => exact hsync d' c hinit
      | mark c =>
          have hbc : b ≠ c := by
            rintro rfl
            exact hes (List.mem_append_right _ List.mem_cons_self)
          refine ⟨?_, hinit.2⟩
          change Function.update d'.dirty c true b = false
          rw [Function.update_of_ne hbc]
          exact hinit.1
  | writeback init c ih => exact hsync _ c (ih hes)

/-- When every marked block has been written out, it does not matter which
blocks were written out before. -/
theorem Delayed.eq_applyAll (h : Delayed d es d') (h₀ : ∀ b, d.dirty b = false)
    (hes : ∀ b, .mark b ∉ es ∨ Disk.status b es = .synced) : d' = d.applyAll es := by
  have hpure : Delayed d es (d.applyAll es) := Delayed.nil.ops es
  have hcache := h.cache_eq
  have hblock : ∀ b, d'.dirty b = (d.applyAll es).dirty b ∧
      d'.media b = (d.applyAll es).media b := by
    intro b
    rcases hes b with hm | hs
    · have h₁ := h.of_not_marked (h₀ b) hm
      have h₂ := hpure.of_not_marked (h₀ b) hm
      exact ⟨h₁.1.trans h₂.1.symm, h₁.2.trans h₂.2.symm⟩
    · have h₁ := h.status b
      have h₂ := hpure.status b
      rw [hs] at h₁ h₂
      refine ⟨h₁.1.trans h₂.1.symm, ?_⟩
      rw [h₁.2, h₂.2, hcache]
  apply Disk.ext hcache
  · funext b
    exact (hblock b).2
  · funext b
    exact (hblock b).1

end Disk

end LinuxDevelopment
