import Mathlib.Tactic.Common
import Mathlib.Algebra.Ring.Nat
import Mathlib.Logic.Function.Basic
import Mathlib.Data.List.GetD
import Mathlib.Data.List.Induction
import Mathlib.Data.List.TakeWhile

/-!
# Byte buffers, copies, little-endian words and C strings

A buffer is a total map from offsets to bytes. Its users check the bounds of
an access before they perform it, so no length is carried here. Words are
read and written through lists of bytes, which keeps the store and load laws
independent of the width of the word. A loop that passes data on piece by piece
and does not look at what became of a piece loses what was not taken of it.
-/

namespace LinuxDevelopment

/-- The bytes a pointer can reach, by offset. -/
abbrev Buffer := Nat → UInt8

namespace Buffer

variable {b : Buffer} {l : List UInt8} {off pos n : Nat}

/-- The `n` bytes that start at `off`. -/
def bytesAt (b : Buffer) (off n : Nat) : List UInt8 :=
  (List.range n).map fun i => b (off + i)

/-- Overwrite the bytes from `off` on by the list `l`. -/
def splice (b : Buffer) (off : Nat) (l : List UInt8) : Buffer := fun i =>
  if off ≤ i ∧ i < off + l.length then l.getD (i - off) 0 else b i

@[simp] theorem length_bytesAt : (b.bytesAt off n).length = n := by
  simp [bytesAt]

theorem getElem?_bytesAt (i : Nat) :
    (b.bytesAt off n)[i]? = if i < n then some (b (off + i)) else none := by
  by_cases h : i < n
  · simp [bytesAt, h]
  · simp [bytesAt, h]

theorem bytesAt_congr {c : Buffer} (h : ∀ i, off ≤ i → i < off + n → b i = c i) :
    b.bytesAt off n = c.bytesAt off n := by
  unfold bytesAt
  apply List.map_congr_left
  intro i hi
  have hi' : i < n := by simpa using hi
  exact h _ (by omega) (by omega)

theorem bytesAt_eq_iff {c : Buffer} :
    b.bytesAt off n = c.bytesAt off n ↔ ∀ i < n, b (off + i) = c (off + i) := by
  simp [bytesAt]

theorem bytesAt_add (m : Nat) :
    b.bytesAt off (m + n) = b.bytesAt off m ++ b.bytesAt (off + m) n := by
  apply List.ext_getElem?
  intro i
  rw [List.getElem?_append, length_bytesAt, getElem?_bytesAt, getElem?_bytesAt, getElem?_bytesAt]
  by_cases h : i < m
  · simp [h, Nat.lt_add_right n h]
  · have hs : off + m + (i - m) = off + i := by omega
    have hn : (i - m < n) = (i < m + n) := propext (by omega)
    simp [h, hs, hn]

theorem take_bytesAt {m : Nat} (h : m ≤ n) : (b.bytesAt off n).take m = b.bytesAt off m := by
  obtain ⟨k, rfl⟩ := Nat.exists_eq_add_of_le h
  rw [bytesAt_add]
  exact List.take_left' length_bytesAt

theorem splice_of_outside {i : Nat} (h : i < off ∨ off + l.length ≤ i) :
    b.splice off l i = b i := by
  unfold splice
  rw [if_neg (by omega)]

theorem splice_of_inside {i : Nat} (h₁ : off ≤ i) (h₂ : i < off + l.length) :
    b.splice off l i = l.getD (i - off) 0 := by
  unfold splice
  rw [if_pos ⟨h₁, h₂⟩]

@[simp] theorem splice_nil : b.splice off [] = b := by
  funext i
  exact splice_of_outside (by simp; omega)

/-- A load that does not meet the stored range is not affected by the store. -/
theorem bytesAt_splice_outside (h : pos + n ≤ off ∨ off + l.length ≤ pos) :
    (b.splice off l).bytesAt pos n = b.bytesAt pos n := by
  apply bytesAt_congr
  intro i h₁ h₂
  exact splice_of_outside (by omega)

/-- A load inside the stored range reads back a part of the stored list. -/
theorem bytesAt_splice_inside (h₁ : off ≤ pos) (h₂ : pos + n ≤ off + l.length) :
    (b.splice off l).bytesAt pos n = (l.drop (pos - off)).take n := by
  apply List.ext_getElem?
  intro i
  rw [getElem?_bytesAt, List.getElem?_take]
  by_cases hi : i < n
  · have hlt : pos + i - off < l.length := by omega
    have hix : pos - off + i = pos + i - off := by omega
    rw [if_pos hi, if_pos hi, splice_of_inside (by omega) (by omega), List.getElem?_drop, hix,
      List.getD_eq_getElem?_getD, List.getElem?_eq_getElem hlt, Option.getD_some]
  · rw [if_neg hi, if_neg hi]

@[simp] theorem bytesAt_splice_self (b : Buffer) (off : Nat) (l : List UInt8) :
    (b.splice off l).bytesAt off l.length = l := by
  rw [bytesAt_splice_inside (Nat.le_refl _) (Nat.le_refl _)]
  simp

/-- A store right behind a range appends to it. -/
theorem bytesAt_splice_append (b : Buffer) (off m : Nat) (l : List UInt8) :
    (b.splice (off + m) l).bytesAt off (m + l.length) = b.bytesAt off m ++ l := by
  rw [bytesAt_add, bytesAt_splice_outside (Or.inl (Nat.le_refl _)), bytesAt_splice_self]

/-- A list is stored in two parts. -/
theorem splice_append (b : Buffer) (off : Nat) (l k : List UInt8) :
    b.splice off (l ++ k) = (b.splice off l).splice (off + l.length) k := by
  funext i
  have hlen : (l ++ k).length = l.length + k.length := List.length_append
  by_cases hk : off + l.length ≤ i ∧ i < off + l.length + k.length
  · rw [splice_of_inside hk.1 hk.2, splice_of_inside (by omega) (by omega),
      List.getD_append_right _ _ _ _ (by omega), Nat.sub_sub]
  · have hout : i < off + l.length ∨ off + l.length + k.length ≤ i := by omega
    rw [splice_of_outside hout]
    by_cases hl : off ≤ i ∧ i < off + l.length
    · rw [splice_of_inside hl.1 hl.2, splice_of_inside hl.1 (by omega),
        List.getD_append _ _ _ _ (by omega)]
    · rw [splice_of_outside (by omega), splice_of_outside (by omega)]

/-- Stores to ranges that do not meet commute. -/
theorem splice_comm {k : List UInt8} (h : off + l.length ≤ pos ∨ pos + k.length ≤ off) :
    (b.splice off l).splice pos k = (b.splice pos k).splice off l := by
  funext i
  by_cases hi : off ≤ i ∧ i < off + l.length
  · have ho : i < pos ∨ pos + k.length ≤ i := by omega
    rw [splice_of_outside ho, splice_of_inside hi.1 hi.2, splice_of_inside hi.1 hi.2]
  · have hi' : i < off ∨ off + l.length ≤ i := by omega
    rw [splice_of_outside (b := b.splice pos k) hi']
    unfold splice
    rw [if_neg hi]

/-- Stores, one after the other. -/
def overlay (b : Buffer) (ws : List (Nat × List UInt8)) : Buffer :=
  ws.foldl (fun b w => b.splice w.1 w.2) b

@[simp] theorem overlay_nil : b.overlay [] = b := rfl

@[simp] theorem overlay_cons (w : Nat × List UInt8) (ws : List (Nat × List UInt8)) :
    b.overlay (w :: ws) = (b.splice w.1 w.2).overlay ws := rfl

theorem overlay_append (ws vs : List (Nat × List UInt8)) :
    b.overlay (ws ++ vs) = (b.overlay ws).overlay vs :=
  List.foldl_append

/-- The byte that a store puts at an offset. -/
def storedAt (w : Nat × List UInt8) (i : Nat) : Option UInt8 :=
  if w.1 ≤ i then w.2[i - w.1]? else none

/-- The byte that the last of several stores to an offset has put there. -/
def lastStored (ws : List (Nat × List UInt8)) (i : Nat) : Option UInt8 :=
  ws.reverse.findSome? fun w => storedAt w i

theorem splice_apply (i : Nat) : b.splice off l i = (storedAt (off, l) i).getD (b i) := by
  unfold storedAt
  dsimp only
  by_cases hi : off ≤ i ∧ i < off + l.length
  · rw [splice_of_inside hi.1 hi.2, if_pos hi.1, List.getElem?_eq_getElem (by omega),
      Option.getD_some, List.getD_eq_getElem]
  · rw [splice_of_outside (by omega)]
    split_ifs
    · rw [List.getElem?_eq_none (by omega)]
      rfl
    · rfl

theorem storedAt_eq_none {w : Nat × List UInt8} {i : Nat} :
    storedAt w i = none ↔ i < w.1 ∨ w.1 + w.2.length ≤ i := by
  unfold storedAt
  split_ifs with hi
  · rw [List.getElem?_eq_none_iff]
    omega
  · exact iff_of_true rfl (.inl (by omega))

theorem lastStored_append (ws vs : List (Nat × List UInt8)) (i : Nat) :
    lastStored (ws ++ vs) i = (lastStored vs i).or (lastStored ws i) := by
  unfold lastStored
  rw [List.reverse_append, List.findSome?_append]

theorem lastStored_cons (w : Nat × List UInt8) (vs : List (Nat × List UInt8)) (i : Nat) :
    lastStored (w :: vs) i = (lastStored vs i).or (storedAt w i) := by
  rw [← List.singleton_append, lastStored_append]
  simp [lastStored]

theorem lastStored_snoc (ws : List (Nat × List UInt8)) (w : Nat × List UInt8) (i : Nat) :
    lastStored (ws ++ [w]) i = (storedAt w i).or (lastStored ws i) := by
  rw [lastStored_append]
  simp [lastStored]

theorem lastStored_eq_none {ws : List (Nat × List UInt8)} {i : Nat} :
    lastStored ws i = none ↔ ∀ w ∈ ws, storedAt w i = none := by
  unfold lastStored
  rw [List.findSome?_eq_none_iff]
  simp only [List.mem_reverse]

/-- Each byte is that of the last store to it. -/
theorem overlay_apply (ws : List (Nat × List UInt8)) (i : Nat) :
    b.overlay ws i = (lastStored ws i).getD (b i) := by
  induction ws using List.reverseRecOn with
  | nil => rfl
  | append_singleton ws w ih =>
      rw [overlay_append, overlay_cons, overlay_nil, splice_apply, ih, lastStored_snoc]
      cases storedAt w i <;> rfl

/-- A store whose bytes are still there could have come last. -/
theorem overlay_move_last {ws vs : List (Nat × List UInt8)} {w : Nat × List UInt8}
    (h : ∀ i v, storedAt w i = some v → lastStored (ws ++ w :: vs) i = some v) :
    b.overlay (ws ++ vs ++ [w]) = b.overlay (ws ++ w :: vs) := by
  funext i
  rw [overlay_apply, overlay_apply, lastStored_snoc]
  cases hw : storedAt w i with
  | some v => rw [h i v hw, Option.some_or]
  | none => rw [Option.none_or, lastStored_append, lastStored_append, lastStored_cons, hw,
      Option.or_none]

/-- A store apart from all the others could have come first. -/
theorem splice_overlay {ws : List (Nat × List UInt8)}
    (h : ∀ w ∈ ws, w.1 + w.2.length ≤ off ∨ off + l.length ≤ w.1) :
    (b.overlay ws).splice off l = (b.splice off l).overlay ws := by
  induction ws generalizing b with
  | nil => rfl
  | cons w ws ih =>
      rw [overlay_cons, overlay_cons, ih fun v hv => h v (List.mem_cons_of_mem _ hv),
        splice_comm (h w List.mem_cons_self)]

/-- Copy bytes from `src` on to `dst` on, one after the other, in the order of
the list of their indices. -/
def copyInOrder (b : Buffer) (dst src : Nat) (order : List Nat) : Buffer :=
  order.foldl (fun b i => Function.update b (dst + i) (b (src + i))) b

/-- A copy that loads no byte it has stored before moves the bytes the source
had at the start. -/
theorem copyInOrder_apply {dst src : Nat} {order : List Nat}
    (h : order.Pairwise fun j i => src + i ≠ dst + j) (k : Nat) :
    b.copyInOrder dst src order k =
      if dst ≤ k ∧ k - dst ∈ order then b (src + (k - dst)) else b k := by
  induction order generalizing b with
  | nil => simp [copyInOrder]
  | cons i order ih =>
      obtain ⟨hhead, htail⟩ := List.pairwise_cons.mp h
      change copyInOrder (Function.update b (dst + i) (b (src + i))) dst src order k = _
      rw [ih htail]
      by_cases hk : dst ≤ k ∧ k - dst ∈ order
      · rw [if_pos hk, if_pos ⟨hk.1, List.mem_cons_of_mem i hk.2⟩,
          Function.update_of_ne (hhead _ hk.2)]
      · rw [if_neg hk]
        by_cases hi : k = dst + i
        · have hsub : k - dst = i := by omega
          rw [if_pos ⟨by omega, hsub ▸ List.mem_cons_self⟩, hsub, hi, Function.update_self]
        · rw [Function.update_of_ne hi, if_neg]
          rintro ⟨hle, hmem⟩
          rcases List.mem_cons.mp hmem with heq | hrest
          · exact hi (by omega)
          · exact hk ⟨hle, hrest⟩

theorem copyInOrder_eq_splice {dst src : Nat} {order : List Nat}
    (hall : ∀ i, i ∈ order ↔ i < n) (h : order.Pairwise fun j i => src + i ≠ dst + j) :
    b.copyInOrder dst src order = b.splice dst (b.bytesAt src n) := by
  funext k
  rw [copyInOrder_apply h]
  have hlen : (b.bytesAt src n).length = n := length_bytesAt
  have hin := hall (k - dst)
  by_cases hk : dst ≤ k ∧ k - dst ∈ order
  · have hlt := hin.mp hk.2
    rw [if_pos hk, splice_of_inside hk.1 (by omega), List.getD_eq_getElem?_getD,
      getElem?_bytesAt, if_pos hlt, Option.getD_some]
  · rw [if_neg hk, splice_of_outside]
    rw [hin] at hk
    omega

/-- Towards lower addresses the ascending order is right, whether the ranges
overlap or not. -/
theorem copyInOrder_range {dst src : Nat} (h : dst ≤ src) :
    b.copyInOrder dst src (List.range n) = b.splice dst (b.bytesAt src n) := by
  refine copyInOrder_eq_splice (fun _ => List.mem_range) ?_
  refine List.pairwise_lt_range.imp ?_
  intro j i hlt
  omega

end Buffer

/-- The arguments of a `memcpy` inside one buffer. -/
structure Memcpy where
  dst : Nat
  src : Nat
  n : Nat
  deriving DecidableEq, Repr

namespace Memcpy

variable {c : Memcpy} {b b' : Buffer}

/-- The precondition: the two ranges do not overlap, or nothing is copied. -/
def Defined (c : Memcpy) : Prop := c.n = 0 ∨ c.dst + c.n ≤ c.src ∨ c.src + c.n ≤ c.dst

instance (c : Memcpy) : Decidable c.Defined := inferInstanceAs (Decidable (_ ∨ _ ∨ _))

/-- An implementation may copy the bytes in any order. -/
def Yields (c : Memcpy) (b b' : Buffer) : Prop :=
  ∃ order, order.Perm (List.range c.n) ∧ b' = b.copyInOrder c.dst c.src order

/-- Under its precondition all implementations do the same. -/
theorem Defined.eq_splice (h : c.Defined) (hy : c.Yields b b') :
    b' = b.splice c.dst (b.bytesAt c.src c.n) := by
  obtain ⟨order, hperm, rfl⟩ := hy
  have hall : ∀ i, i ∈ order ↔ i < c.n := by
    intro i
    rw [hperm.mem_iff, List.mem_range]
  refine Buffer.copyInOrder_eq_splice hall (List.pairwise_of_forall_mem_list ?_)
  intro j hj i hi
  rw [hall] at hi hj
  unfold Defined at h
  omega

end Memcpy

section Relay

variable {α : Type} {data piece out : List α} {calls : List (Int × Int)} {n m : Int}

/-- What comes of the data when each call is given the next `n` elements and takes the
first `m` of them, or none if it fails. -/
def relay : List α → List (Int × Int) → List α
  | _, [] => []
  | data, (n, m) :: calls => (data.take n.toNat).take m.toNat ++ relay (data.drop n.toNat) calls

/-- The number of elements the calls were given. -/
def given (calls : List (Int × Int)) : Nat := (calls.map fun x => x.1.toNat).sum

/-- Each call has taken all it was given. -/
def Whole (calls : List (Int × Int)) : Prop := ∀ x ∈ calls, x.1.toNat ≤ x.2.toNat

instance (calls : List (Int × Int)) : Decidable (Whole calls) :=
  inferInstanceAs (Decidable (∀ x ∈ _, _))

/-- All of the data was given to the calls, and `out` is what they have taken. -/
structure Relays (data : List α) (calls : List (Int × Int)) (out : List α) : Prop where
  given_eq : given calls = data.length
  out_eq : out = relay data calls

theorem relay_append (h : given calls = data.length) (hpiece : piece.length = n.toNat) :
    relay (data ++ piece) (calls ++ [(n, m)]) = relay data calls ++ piece.take m.toNat := by
  induction calls generalizing data with
  | nil =>
      obtain rfl := List.length_eq_zero_iff.mp h.symm
      rw [List.nil_append, List.nil_append, relay, relay, relay, List.append_nil, List.nil_append,
        ← hpiece, List.take_length]
  | cons x calls ih =>
      obtain ⟨k, l⟩ := x
      have hlen : k.toNat + given calls = data.length := h
      have hrest : given calls = (data.drop k.toNat).length := by
        rw [List.length_drop]
        omega
      rw [List.cons_append, relay, relay, List.take_append_of_le_length (by omega),
        List.drop_append_of_le_length (by omega), ih hrest, List.append_assoc]

theorem Relays.nil : Relays ([] : List α) [] [] := ⟨rfl, rfl⟩

/-- One more piece is given to a call. -/
theorem Relays.snoc (h : Relays data calls out) (hpiece : piece.length = n.toNat) (m : Int) :
    Relays (data ++ piece) (calls ++ [(n, m)]) (out ++ piece.take m.toNat) where
  given_eq := by
    rw [List.length_append, ← h.given_eq, hpiece]
    simp [given]
  out_eq := by
    rw [relay_append h.given_eq hpiece, h.out_eq]

/-- Where each call takes all it is given, nothing is lost. -/
theorem Relays.eq_of_whole (h : Relays data calls out) (hall : Whole calls) : out = data := by
  obtain ⟨hgiven, rfl⟩ := h
  induction calls generalizing data with
  | nil => exact (List.length_eq_zero_iff.mp hgiven.symm).symm
  | cons x calls ih =>
      obtain ⟨k, l⟩ := x
      have hlen : k.toNat + given calls = data.length := hgiven
      have hle : k.toNat ≤ l.toNat := hall _ List.mem_cons_self
      have hrest : given calls = (data.drop k.toNat).length := by
        rw [List.length_drop]
        omega
      rw [relay, List.take_take, Nat.min_eq_right hle,
        ih (fun x hx => hall x (List.mem_cons_of_mem _ hx)) hrest, List.take_append_drop]

end Relay

/-- The number a list of bytes encodes, least significant byte first. -/
def ofLE : List UInt8 → Nat
  | [] => 0
  | x :: xs => x.toNat + 256 * ofLE xs

/-- The low `n` bytes of a number, least significant byte first. -/
def toLE : Nat → Nat → List UInt8
  | 0, _ => []
  | n + 1, v => UInt8.ofNat v :: toLE n (v / 256)

@[simp] theorem length_toLE (n v : Nat) : (toLE n v).length = n := by
  induction n generalizing v with
  | zero => rfl
  | succ n ih => simp [toLE, ih]

theorem drop_toLE {n m : Nat} (v : Nat) (h : n ≤ m) : (toLE n v).drop m = [] :=
  List.drop_eq_nil_of_le (by simpa using h)

theorem ofLE_toLE (n v : Nat) : ofLE (toLE n v) = v % 256 ^ n := by
  induction n generalizing v with
  | zero => simp [toLE, ofLE, Nat.mod_one]
  | succ n ih =>
      have hmod : v % 256 ^ (n + 1) = v % 256 + 256 * (v / 256 % 256 ^ n) := by
        rw [Nat.pow_succ, Nat.mul_comm, Nat.mod_mul]
      have hbyte : (UInt8.ofNat v).toNat = v % 256 := by simp
      simp only [toLE, ofLE, ih, hbyte, hmod]

theorem ofLE_lt (l : List UInt8) : ofLE l < 256 ^ l.length := by
  induction l with
  | nil => simp [ofLE]
  | cons x xs ih =>
      have hx : x.toNat < 256 := x.toNat_lt
      simp only [ofLE, List.length_cons, Nat.pow_succ]
      omega

/-- Bytes are determined by the number they encode. -/
theorem toLE_ofLE (l : List UInt8) : toLE l.length (ofLE l) = l := by
  induction l with
  | nil => rfl
  | cons x xs ih =>
      have hx : x.toNat < 256 := x.toNat_lt
      have hbyte : UInt8.ofNat (x.toNat + 256 * ofLE xs) = x := by
        apply UInt8.toNat_inj.mp
        rw [UInt8.toNat_ofNat']
        omega
      have hrest : (x.toNat + 256 * ofLE xs) / 256 = ofLE xs := by omega
      simp only [List.length_cons, toLE, ofLE, hbyte, hrest, ih]

namespace Buffer

variable {b : Buffer} {l : List UInt8} {off pos : Nat}

/-- The 32-bit word stored at `off`. -/
def get32 (b : Buffer) (off : Nat) : UInt32 := UInt32.ofNat (ofLE (b.bytesAt off 4))

/-- The 64-bit word stored at `off`. -/
def get64 (b : Buffer) (off : Nat) : UInt64 := UInt64.ofNat (ofLE (b.bytesAt off 8))

/-- Words that are equal have equal bytes. -/
theorem bytesAt_eq_of_get64 {c : Buffer} (h : b.get64 off = c.get64 pos) :
    b.bytesAt off 8 = c.bytesAt pos 8 := by
  have hlt : ∀ (d : Buffer) (n : Nat), ofLE (d.bytesAt n 8) < 2 ^ 64 := by
    intro d n
    have hbytes := ofLE_lt (d.bytesAt n 8)
    rw [length_bytesAt] at hbytes
    omega
  have hno := congrArg UInt64.toNat h
  unfold get64 at hno
  rw [UInt64.toNat_ofNat_of_lt' (hlt b off), UInt64.toNat_ofNat_of_lt' (hlt c pos)] at hno
  rw [← toLE_ofLE (b.bytesAt off 8), ← toLE_ofLE (c.bytesAt pos 8), hno, length_bytesAt,
    length_bytesAt]

end Buffer

theorem ofNat_ofLE_toLE32 (v : UInt32) : UInt32.ofNat (ofLE (toLE 4 v.toNat)) = v := by
  have hv : v.toNat < 256 ^ 4 := v.toNat_lt
  rw [ofLE_toLE, Nat.mod_eq_of_lt hv, UInt32.ofNat_toNat]

theorem ofNat_ofLE_toLE64 (v : UInt64) : UInt64.ofNat (ofLE (toLE 8 v.toNat)) = v := by
  have hv : v.toNat < 256 ^ 8 := v.toNat_lt
  rw [ofLE_toLE, Nat.mod_eq_of_lt hv, UInt64.ofNat_toNat]

namespace Buffer

variable {b : Buffer} {l : List UInt8} {off pos : Nat}

theorem get64_splice_outside (h : pos + 8 ≤ off ∨ off + l.length ≤ pos) :
    (b.splice off l).get64 pos = b.get64 pos := by
  unfold get64
  rw [bytesAt_splice_outside h]

theorem get32_splice_outside (h : pos + 4 ≤ off ∨ off + l.length ≤ pos) :
    (b.splice off l).get32 pos = b.get32 pos := by
  unfold get32
  rw [bytesAt_splice_outside h]

@[simp] theorem get64_splice_self (v : UInt64) :
    (b.splice off (toLE 8 v.toNat)).get64 off = v := by
  have h := bytesAt_splice_self b off (toLE 8 v.toNat)
  rw [length_toLE] at h
  unfold get64
  rw [h, ofNat_ofLE_toLE64]

theorem get32_splice_self (v : UInt32) : (b.splice off (toLE 4 v.toNat)).get32 off = v := by
  have h := bytesAt_splice_self b off (toLE 4 v.toNat)
  rw [length_toLE] at h
  unfold get32
  rw [h, ofNat_ofLE_toLE32]

/-- The words of a list stored one after the other are read back. -/
theorem get32_splice_words (words : List UInt32) {i : Nat} (hi : i < words.length) :
    words[i]? = some ((b.splice off (words.flatMap fun v => toLE 4 v.toNat)).get32 (off + 4 * i)) := by
  induction words generalizing b off i with
  | nil => cases hi
  | cons v words ih =>
      have hlen : (toLE 4 v.toNat).length = 4 := length_toLE 4 _
      rw [List.flatMap_cons, splice_append, hlen]
      cases i with
      | zero =>
          have hzero : off + 4 * 0 = off := rfl
          rw [hzero, get32_splice_outside (.inl (Nat.le_refl _)), get32_splice_self]
          rfl
      | succ i =>
          rw [List.getElem?_cons_succ, @ih (b.splice off (toLE 4 v.toNat)) (off + 4) i
            (Nat.lt_of_succ_lt_succ hi)]
          congr 2
          omega

end Buffer

/-- The bytes a C string function sees in a byte string: everything before
the first NUL, followed by the terminator. -/
def cString (s : List UInt8) : List UInt8 := s.takeWhile (· ≠ 0) ++ [0]

theorem cString_of_nulFree {s : List UInt8} (h : ∀ c ∈ s, c ≠ 0) : cString s = s ++ [0] := by
  unfold cString
  rw [List.takeWhile_eq_self_iff.mpr (by simpa using h)]

namespace Buffer

variable {b : Buffer} {l s : List UInt8} {off pos : Nat}

/-- `strcmp(b + off, s) == 0` for a NUL-free `s`: the bytes of `s` and its
terminator stand at `off`. -/
def HasCString (b : Buffer) (off : Nat) (s : List UInt8) : Prop :=
  b.bytesAt off (s.length + 1) = s ++ [0]

instance (b : Buffer) (off : Nat) (s : List UInt8) : Decidable (b.HasCString off s) :=
  inferInstanceAs (Decidable (_ = _))

/-- The C string that starts at `off`, cut after `fuel` bytes. -/
def cStringAt (b : Buffer) (off : Nat) : Nat → List UInt8
  | 0 => []
  | fuel + 1 => if b off = 0 then [] else b off :: b.cStringAt (off + 1) fuel

theorem hasCString_cons {c : UInt8} :
    b.HasCString off (c :: s) ↔ b off = c ∧ b.HasCString (off + 1) s := by
  unfold HasCString
  have h : b.bytesAt off (s.length + 1 + 1) = b off :: b.bytesAt (off + 1) (s.length + 1) := by
    rw [Nat.add_comm (s.length + 1) 1, bytesAt_add]
    rfl
  rw [List.length_cons, h, List.cons_append, List.cons.injEq]

theorem hasCString_nil : b.HasCString off [] ↔ b off = 0 := by
  simp [HasCString, bytesAt]

theorem cStringAt_eq_of_hasCString {fuel : Nat} (hs : ∀ c ∈ s, c ≠ 0) (hf : s.length < fuel)
    (h : b.HasCString off s) : b.cStringAt off fuel = s := by
  induction s generalizing off fuel with
  | nil =>
      obtain ⟨fuel, rfl⟩ : ∃ m, fuel = m + 1 := ⟨fuel - 1, by simp at hf; omega⟩
      simp [cStringAt, hasCString_nil.mp h]
  | cons c s ih =>
      obtain ⟨fuel, rfl⟩ : ∃ m, fuel = m + 1 := ⟨fuel - 1, by simp at hf; omega⟩
      obtain ⟨hc, ht⟩ := hasCString_cons.mp h
      have hne : c ≠ 0 := hs c (by simp)
      have htail := ih (fun d hd => hs d (by simp [hd])) (by simpa using hf) ht
      simp [cStringAt, hc, hne, htail]

/-- A NUL-free string is the one at an offset exactly when `cStringAt` reads it. -/
theorem hasCString_of_cStringAt {fuel : Nat} (hf : s.length < fuel)
    (h : b.cStringAt off fuel = s) : b.HasCString off s := by
  induction s generalizing off fuel with
  | nil =>
      obtain ⟨fuel, rfl⟩ : ∃ m, fuel = m + 1 := ⟨fuel - 1, by simp at hf; omega⟩
      rw [hasCString_nil]
      by_contra hne
      simp [cStringAt, hne] at h
  | cons c s ih =>
      obtain ⟨fuel, rfl⟩ : ∃ m, fuel = m + 1 := ⟨fuel - 1, by simp at hf; omega⟩
      rw [hasCString_cons]
      by_cases h0 : b off = 0
      · simp [cStringAt, h0] at h
      · simp only [cStringAt, if_neg h0, List.cons.injEq] at h
        exact ⟨h.1, ih (by simpa using hf) h.2⟩

theorem cStringAt_succ (fuel : Nat) : b.cStringAt off (fuel + 1) =
    if b off = 0 then [] else b off :: b.cStringAt (off + 1) fuel := rfl

/-- A smaller bound cuts the string. -/
theorem take_cStringAt {m n : Nat} (h : m ≤ n) : (b.cStringAt off n).take m = b.cStringAt off m := by
  induction m generalizing off n with
  | zero => rfl
  | succ m ih =>
      obtain ⟨n, rfl⟩ : ∃ k, n = k + 1 := ⟨n - 1, by omega⟩
      rw [cStringAt_succ, cStringAt_succ]
      split_ifs
      · rfl
      · rw [List.take_succ_cons, ih (Nat.le_of_succ_le_succ h)]

theorem takeWhile_bytesAt (n : Nat) :
    (b.bytesAt off n).takeWhile (· != 0) = b.cStringAt off n := by
  induction n generalizing off with
  | zero => rfl
  | succ n ih =>
      have hcons : b.bytesAt off (n + 1) = b off :: b.bytesAt (off + 1) n := by
        rw [Nat.add_comm n 1, bytesAt_add]
        rfl
      rw [hcons, List.takeWhile_cons, ih, cStringAt_succ]
      by_cases h0 : b off = 0 <;> simp [h0]

/-- Equal strings have equal bytes, up to their terminators. -/
theorem bytesAt_eq_of_cStringAt {c : Buffer} {m n : Nat}
    (h : b.cStringAt off n = c.cStringAt off n) (hm : m ≤ n)
    (hlen : m ≤ (b.cStringAt off n).length + 1) : b.bytesAt off m = c.bytesAt off m := by
  induction m generalizing off n with
  | zero => rfl
  | succ m ih =>
      obtain ⟨n, rfl⟩ : ∃ k, n = k + 1 := ⟨n - 1, by omega⟩
      have hcons : ∀ x : Buffer, x.bytesAt off (m + 1) = x off :: x.bytesAt (off + 1) m := by
        intro x
        rw [Nat.add_comm m 1, bytesAt_add]
        rfl
      rw [cStringAt_succ] at hlen
      rw [cStringAt_succ, cStringAt_succ] at h
      rw [hcons, hcons]
      by_cases hb : b off = 0
      · rw [if_pos hb] at h hlen
        obtain rfl : m = 0 := by simpa using hlen
        by_cases hc : c off = 0
        · rw [hb, hc]
          rfl
        · rw [if_neg hc] at h
          exact nomatch h
      · rw [if_neg hb] at h hlen
        by_cases hc : c off = 0
        · rw [if_pos hc] at h
          exact nomatch h
        · rw [if_neg hc, List.cons.injEq] at h
          rw [h.1, ih h.2 (by omega) (by simpa using hlen)]

theorem hasCString_splice_self (s : List UInt8) : (b.splice off (s ++ [0])).HasCString off s := by
  have h := bytesAt_splice_self b off (s ++ [0])
  simpa [HasCString] using h

theorem cStringAt_splice_outside {fuel : Nat} (h : pos + fuel ≤ off ∨ off + l.length ≤ pos) :
    (b.splice off l).cStringAt pos fuel = b.cStringAt pos fuel := by
  induction fuel generalizing pos with
  | zero => rfl
  | succ fuel ih =>
      have hp : b.splice off l pos = b pos := splice_of_outside (by omega)
      have ht : (b.splice off l).cStringAt (pos + 1) fuel = b.cStringAt (pos + 1) fuel :=
        ih (by omega)
      simp only [cStringAt, hp, ht]

end Buffer

end LinuxDevelopment
