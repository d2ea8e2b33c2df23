import LinuxDevelopment.Simplefs.Format
import Mathlib.Data.Nat.Find

/-!
# simplefs: which block is handed out

`1 << i` is a 32-bit `int`. Up to 30 it is the bit `i` of the free map. The mask
of 31 is negative and covers the whole upper half of the map, and from 32 on the
masks are those of 0, 1, 2 and so on again. The scan is therefore exact as long
as it ends below 31; the upper half of the map is lost in one call, and behind it
the bits of the three blocks that are never free are handed out.
-/

namespace LinuxDevelopment.Simplefs

/-- The block `i` is marked as free. -/
def freeBit (free : UInt64) (i : Nat) : Bool := free.toBitVec.getLsbD i

section Bits

variable {free m : UInt64} {i k : Nat}

theorem freeBit_of_le (h : 64 ≤ k) : freeBit free k = false :=
  BitVec.getLsbD_of_ge _ _ h

theorem freeBit_and_not (hk : k < 64) :
    freeBit (free &&& ~~~m) k = (freeBit free k && !freeBit m k) := by
  simp [freeBit, hk]

/-- The `int` the mask is converted from. -/
theorem getLsbD_one_shiftLeft {r : Nat} (hr : r < 32) :
    ((1#32) <<< r).getLsbD k = decide (k = r) := by
  rw [BitVec.getLsbD_shiftLeft, BitVec.getLsbD_one]
  by_cases hk : k = r
  · simp [hk, hr]
  · by_cases hlt : k < r
    · simp [hk, hlt]
    · have hne : ¬ k - r = 0 := by omega
      simp [hk, hne]

theorem freeBit_mask :
    freeBit (freeblockMask i) k = decide (k < 64 ∧ (k = i % 32 ∨ i % 32 = 31 ∧ 31 ≤ k)) := by
  have hlt : i % 32 < 32 := Nat.mod_lt _ (by decide)
  have hmsb : ((1#32) <<< (i % 32)).msb = decide (i % 32 = 31) := by
    rw [BitVec.msb_eq_getLsbD_last, getLsbD_one_shiftLeft hlt]
    exact decide_eq_decide.mpr eq_comm
  unfold freeBit freeblockMask
  rw [BitVec.getLsbD_signExtend, hmsb, getLsbD_one_shiftLeft hlt]
  by_cases h32 : k < 32
  · rw [if_pos h32, ← Bool.decide_and]
    exact decide_eq_decide.mpr (by omega)
  · rw [if_neg h32, ← Bool.decide_and]
    exact decide_eq_decide.mpr (by omega)

/-- Two maps meet in a bit. -/
theorem and_ne_zero_iff : free &&& m ≠ 0 ↔ ∃ k, freeBit free k = true ∧ freeBit m k = true := by
  constructor
  · intro h
    by_contra hno
    apply h
    apply UInt64.toBitVec_inj.mp
    apply BitVec.eq_of_getLsbD_eq
    intro k _
    have hk : ¬ (freeBit free k = true ∧ freeBit m k = true) := fun hk => hno ⟨k, hk⟩
    simpa [freeBit] using hk
  · rintro ⟨k, hf, hm⟩ h
    have hbit : freeBit (free &&& m) k = true := by
      unfold freeBit at *
      simp [hf, hm]
    rw [h] at hbit
    simp [freeBit] at hbit

theorem freeBit_ext {free free' : UInt64} (h : ∀ k < 64, freeBit free k = freeBit free' k) :
    free = free' := by
  apply UInt64.toBitVec_inj.mp
  exact BitVec.eq_of_getLsbD_eq fun k hk => h k hk

/-- Below 31 the mask is the bit. -/
theorem and_mask_ne_zero_of_lt (hi : i < 31) :
    free &&& freeblockMask i ≠ 0 ↔ freeBit free i = true := by
  rw [and_ne_zero_iff]
  constructor
  · rintro ⟨k, hf, hm⟩
    rw [freeBit_mask, decide_eq_true_eq] at hm
    obtain rfl : k = i := by omega
    exact hf
  · intro h
    refine ⟨i, h, ?_⟩
    rw [freeBit_mask, decide_eq_true_eq]
    omega

/-- The mask of 31 is the upper half of the map. -/
theorem and_mask_ne_zero_31 :
    free &&& freeblockMask 31 ≠ 0 ↔ ∃ k, 31 ≤ k ∧ freeBit free k = true := by
  rw [and_ne_zero_iff]
  constructor
  · rintro ⟨k, hf, hm⟩
    rw [freeBit_mask, decide_eq_true_eq] at hm
    exact ⟨k, by omega, hf⟩
  · rintro ⟨k, hk, hf⟩
    refine ⟨k, hf, ?_⟩
    have hlt : k < 64 := by
      by_contra hge
      rw [freeBit_of_le (Nat.not_lt.mp hge)] at hf
      cases hf
    rw [freeBit_mask, decide_eq_true_eq]
    omega

end Bits

section Scan

variable {free : UInt64} {i : Nat}

theorem freeblockScan_eq (hi : 3 ≤ i) (hlt : i < 64) (hset : free &&& freeblockMask i ≠ 0)
    (hzero : ∀ j, 3 ≤ j → j < i → free &&& freeblockMask j = 0) : freeblockScan free = i := by
  rcases Nat.lt_trichotomy (freeblockScan free) i with h | h | h
  · exact absurd (hzero _ (freeblockScan_ge free) h) (and_mask_scan (by omega))
  · exact h
  · exact absurd (and_mask_of_lt_scan hi h) hset

theorem freeblockScan_eq_64 (hzero : ∀ j, 3 ≤ j → j < 64 → free &&& freeblockMask j = 0) :
    freeblockScan free = 64 := by
  by_contra hne
  have hlt := Nat.lt_of_le_of_ne (freeblockScan_le free) hne
  exact and_mask_scan hne (hzero _ (freeblockScan_ge free) hlt)

/-- A free block below 31 is found if there is none in front of it. -/
theorem freeblockScan_low (hi : 3 ≤ i) (hlt : i < 31) (hset : freeBit free i = true)
    (hfirst : ∀ j, 3 ≤ j → j < i → freeBit free j = false) : freeblockScan free = i := by
  refine freeblockScan_eq hi (by omega) ((and_mask_ne_zero_of_lt hlt).mpr hset) ?_
  intro j hj hji
  by_contra hne
  have hbit := (and_mask_ne_zero_of_lt (by omega)).mp hne
  rw [hfirst j hj hji] at hbit
  cases hbit

/-- Without one the scan stops at 31, whichever block of the upper half is free. -/
theorem freeblockScan_high (hlow : ∀ j, 3 ≤ j → j < 31 → freeBit free j = false)
    (hhigh : ∃ k, 31 ≤ k ∧ freeBit free k = true) : freeblockScan free = 31 := by
  refine freeblockScan_eq (by omega) (by omega) (and_mask_ne_zero_31.mpr hhigh) ?_
  intro j hj hji
  by_contra hne
  have hbit := (and_mask_ne_zero_of_lt hji).mp hne
  rw [hlow j hj hji] at hbit
  cases hbit

/-- With no free block at all it stops at the end only if the map is empty: the
masks from 32 on are bits of blocks that are never free. -/
theorem freeblockScan_eq_64_iff (hnone : ∀ j, 3 ≤ j → freeBit free j = false) :
    freeblockScan free = 64 ↔ free = 0 := by
  constructor
  · intro hscan
    apply freeBit_ext
    intro k hk
    have hzero : freeBit 0 k = false := by simp [freeBit]
    rw [hzero]
    by_cases h3 : 3 ≤ k
    · exact hnone k h3
    · -- the bit `k` is what the mask of `32 + k` tests
      have hand : free &&& freeblockMask (32 + k) = 0 := and_mask_of_lt_scan (by omega) (by omega)
      by_contra hset
      refine and_ne_zero_iff.mpr ⟨k, eq_true_of_ne_false hset, ?_⟩ hand
      rw [freeBit_mask, decide_eq_true_eq]
      omega
  · rintro rfl
    exact freeblockScan_eq_64 fun j _ _ => UInt64.zero_and

theorem freeBit_freeAfter {k : Nat} (hk : k < 64) : freeBit (freeAfter free) k =
    (freeBit free k && !freeBit (freeblockMask (freeblockScan free)) k) :=
  freeBit_and_not hk

end Scan

/-- What the function is for: the lowest free block from 3 on is handed out and
nothing else changes, or there is none and nothing changes at all. -/
structure ExactFreeblock (w : World) (x : Outcome World Trap (Int × UInt64)) : Prop where
  found : ∀ i, 3 ≤ i → i < 64 → freeBit (freeBlocks w.cache) i = true →
    (∀ j, 3 ≤ j → j < i → freeBit (freeBlocks w.cache) j = false) →
    ∃ free w', x = .done (0, UInt64.ofNat i) w' ∧ w'.cache = setFree w.cache free ∧
      w'.dcache = w.dcache ∧ w'.owner = w.owner ∧
      ∀ k < 64, freeBit free k = (freeBit (freeBlocks w.cache) k && k != i)
  none : (∀ i, 3 ≤ i → i < 64 → freeBit (freeBlocks w.cache) i = false) → x = .done (-enospc, 0) w

/-- The maps on which the 32-bit masks make no difference: a block below 31 is
free, or 31 is the only free block of the upper half, or the map is empty. -/
def PlainMap (free : UInt64) : Prop :=
  (∃ i, 3 ≤ i ∧ i < 31 ∧ freeBit free i = true) ∨
    (∀ k, 31 ≤ k → k < 64 → freeBit free k = decide (k = 31)) ∨ free = 0

section Exact

variable {tid : Nat} {env : Env} {w : World}

/-- The function when it gets its lock. -/
theorem run_freeblock (hint : env.interrupted .sbGetAFreeblock = false)
    (hfree : w.owner .sbLock = none) (hb : env.breadFails 0 = false) :
    simplefsSbGetAFreeblock.run (exec tid env) w =
      if freeblockScan (freeBlocks w.cache) = 64 then .done (-enospc, 0) w
      else .done (0, UInt64.ofNat (freeblockScan (freeBlocks w.cache))) w.allocBlock := by
  rw [run_simplefsSbGetAFreeblock hb, hint, if_neg Bool.false_ne_true, if_pos hfree,
    World.setOwner_eq_self hfree, World.setOwner_eq_self (w := w.allocBlock) hfree]
  rfl

/-- A free block below 31 is handed out and no other one is touched. -/
theorem freeBit_freeAfter_low {free : UInt64} {i k : Nat} (hscan : freeblockScan free = i)
    (hi : i < 31) (hk : k < 64) : freeBit (freeAfter free) k = (freeBit free k && k != i) := by
  have hmask : freeBit (freeblockMask i) k = decide (k = i) := by
    rw [freeBit_mask]
    exact decide_eq_decide.mpr (by omega)
  rw [freeBit_freeAfter hk, hscan, hmask]
  rfl

/-- With 31 the whole upper half of the map is cleared. -/
theorem freeBit_freeAfter_31 {free : UInt64} {k : Nat} (hscan : freeblockScan free = 31)
    (hk : k < 64) : freeBit (freeAfter free) k = (freeBit free k && decide (k < 31)) := by
  have hmask : freeBit (freeblockMask 31) k = decide (¬ k < 31) := by
    rw [freeBit_mask]
    exact decide_eq_decide.mpr (by omega)
  rw [freeBit_freeAfter hk, hscan, hmask, decide_not, Bool.not_not]

/-- What the answer says when it is exact and a block was found. -/
theorem eq_of_found {free : UInt64} {w' : World} {i j : Nat} (hi : i < 64) (hj : j < 64)
    (hx : (.done (0, UInt64.ofNat j) w.allocBlock : Outcome World Trap (Int × UInt64)) =
      .done (0, UInt64.ofNat i) w') (hcache : w'.cache = setFree w.cache free) :
    i = j ∧ free = freeAfter (freeBlocks w.cache) := by
  obtain ⟨hpair, rfl⟩ := Outcome.done.inj hx
  have hno := congrArg UInt64.toNat (Prod.mk.inj hpair).2
  rw [UInt64.toNat_ofNat_of_lt' (Nat.lt_trans hj (by decide)),
    UInt64.toNat_ofNat_of_lt' (Nat.lt_trans hi (by decide))] at hno
  refine ⟨hno.symm, ?_⟩
  have hf := congrArg freeBlocks hcache
  rw [freeBlocks_setFree, World.allocBlock_cache, freeBlocks_setFree] at hf
  exact hf.symm

theorem plainMap_of_exact
    (h : ExactFreeblock w (if freeblockScan (freeBlocks w.cache) = 64 then .done (-enospc, 0) w
      else .done (0, UInt64.ofNat (freeblockScan (freeBlocks w.cache))) w.allocBlock)) :
    PlainMap (freeBlocks w.cache) := by
  by_cases hlow : ∃ i, 3 ≤ i ∧ i < 31 ∧ freeBit (freeBlocks w.cache) i = true
  · exact .inl hlow
  have hlow' : ∀ j, 3 ≤ j → j < 31 → freeBit (freeBlocks w.cache) j = false := fun j h3 h31 =>
    Bool.eq_false_iff.mpr fun hset => hlow ⟨j, h3, h31, hset⟩
  by_cases hhigh : ∃ k, 31 ≤ k ∧ freeBit (freeBlocks w.cache) k = true
  · right
    left
    have hscan := freeblockScan_high hlow' hhigh
    obtain ⟨h31, hset⟩ := Nat.find_spec hhigh
    have h64 : Nat.find hhigh < 64 := by
      by_contra hge
      rw [freeBit_of_le (Nat.not_lt.mp hge)] at hset
      cases hset
    have hfirst : ∀ j, 3 ≤ j → j < Nat.find hhigh → freeBit (freeBlocks w.cache) j = false := by
      intro j h3 hj
      by_cases hj31 : j < 31
      · exact hlow' j h3 hj31
      · exact Bool.eq_false_iff.mpr fun hbit =>
          Nat.find_min hhigh hj ⟨Nat.not_lt.mp hj31, hbit⟩
    obtain ⟨free, w', hx, hcache, -, -, hbits⟩ := h.found _ (by omega) h64 hset hfirst
    rw [hscan, if_neg (by decide)] at hx
    obtain ⟨hfind, rfl⟩ := eq_of_found h64 (by decide) hx hcache
    rw [hfind] at hset hbits
    intro k hk hk64
    have hbit := hbits k hk64
    rw [freeBit_freeAfter_31 hscan hk64, decide_eq_false (by omega : ¬ k < 31),
      Bool.and_false] at hbit
    by_cases hk31 : k = 31
    · subst hk31
      exact hset
    · simpa [hk31] using hbit.symm
  · right
    right
    have hnone : ∀ j, 3 ≤ j → freeBit (freeBlocks w.cache) j = false := by
      intro j h3
      by_cases hj31 : j < 31
      · exact hlow' j h3 hj31
      · exact Bool.eq_false_iff.mpr fun hbit => hhigh ⟨j, Nat.not_lt.mp hj31, hbit⟩
    refine (freeblockScan_eq_64_iff hnone).mp ?_
    by_contra hne
    have hx := h.none fun i h3 _ => hnone i h3
    rw [if_neg hne] at hx
    cases hx

theorem exact_of_plainMap (h : PlainMap (freeBlocks w.cache)) :
    ExactFreeblock w (if freeblockScan (freeBlocks w.cache) = 64 then .done (-enospc, 0) w
      else .done (0, UInt64.ofNat (freeblockScan (freeBlocks w.cache))) w.allocBlock) := by
  constructor
  case found =>
    intro i h3 h64 hset hfirst
    have hplace : freeblockScan (freeBlocks w.cache) = i ∧ ∀ k < 64,
        freeBit (freeAfter (freeBlocks w.cache)) k =
          (freeBit (freeBlocks w.cache) k && k != i) := by
      by_cases hi : i < 31
      · have hscan := freeblockScan_low h3 hi hset hfirst
        exact ⟨hscan, fun k hk => freeBit_freeAfter_low hscan hi hk⟩
      rcases h with ⟨j, hj3, hj31, hj⟩ | honly | hzero
      · rw [hfirst j hj3 (by omega)] at hj
        cases hj
      · have hi31 : i = 31 := by
          rw [honly i (by omega) h64] at hset
          exact of_decide_eq_true hset
        subst hi31
        have hscan := freeblockScan_high (fun j hj _ => hfirst j hj (by omega)) ⟨31, by omega, hset⟩
        refine ⟨hscan, fun k hk => ?_⟩
        rw [freeBit_freeAfter_31 hscan hk]
        by_cases hk31 : k < 31
        · simp [hk31, Nat.ne_of_lt hk31]
        · rw [honly k (by omega) hk]
          by_cases heq : k = 31 <;> simp [heq, hk31]
      · rw [hzero] at hset
        simp [freeBit] at hset
    obtain ⟨hscan, hbits⟩ := hplace
    rw [hscan, if_neg (by omega)]
    exact ⟨freeAfter (freeBlocks w.cache), w.allocBlock, rfl, World.allocBlock_cache, rfl, rfl, hbits⟩
  case none =>
    intro hnone
    have hzero : freeBlocks w.cache = 0 := by
      rcases h with ⟨j, hj3, hj31, hj⟩ | honly | hzero
      · rw [hnone j hj3 (by omega)] at hj
        cases hj
      · have h31 := honly 31 (by omega) (by omega)
        rw [hnone 31 (by omega) (by omega)] at h31
        cases h31
      · exact hzero
    have hscan : freeblockScan (freeBlocks w.cache) = 64 := by
      rw [hzero]
      exact freeblockScan_eq_64 fun j _ _ => UInt64.zero_and
    rw [if_pos hscan]

/-- The results of successive calls. -/
def freeblockCalls (tid : Nat) (env : Env) : Nat → World → List (Int × UInt64)
  | 0, _ => []
  | n + 1, w => (simplefsSbGetAFreeblock.run (exec tid env) w).elim
      (fun r w' => r :: freeblockCalls tid env n w') []

/-- The results of successive calls, by the map alone. -/
def scanResults : Nat → UInt64 → List (Int × UInt64)
  | 0, _ => []
  | n + 1, free =>
      if freeblockScan free = 64 then (-enospc, 0) :: scanResults n free
      else (0, UInt64.ofNat (freeblockScan free)) :: scanResults n (freeAfter free)

theorem scanResults_succ (n : Nat) (free : UInt64) : scanResults (n + 1) free =
    if freeblockScan free = 64 then (-enospc, 0) :: scanResults n free
    else (0, UInt64.ofNat (freeblockScan free)) :: scanResults n (freeAfter free) := rfl

theorem freeblockCalls_eq (hint : env.interrupted .sbGetAFreeblock = false)
    (hb : env.breadFails 0 = false) (hfree : w.owner .sbLock = none) (n : Nat) :
    freeblockCalls tid env n w = scanResults n (freeBlocks w.cache) := by
  induction n generalizing w with
  | zero => rfl
  | succ n ih =>
      unfold freeblockCalls
      rw [run_freeblock hint hfree hb, scanResults_succ]
      split_ifs with hscan
      · rw [Outcome.elim_done, ih hfree]
      · rw [Outcome.elim_done, ih (w := w.allocBlock) hfree, World.allocBlock_cache,
          freeBlocks_setFree]
        rfl

theorem scanResults_of_full {free : UInt64} (h : freeblockScan free = 64) (n : Nat) :
    scanResults n free = List.replicate n (-enospc, 0) := by
  induction n with
  | zero => rfl
  | succ n ih =>
      rw [scanResults_succ, if_pos h, ih]
      rfl

theorem length_scanResults (n : Nat) (free : UInt64) : (scanResults n free).length = n := by
  induction n generalizing free with
  | zero => rfl
  | succ n ih =>
      rw [scanResults_succ]
      split_ifs <;> rw [List.length_cons, ih]

/-- The map after successive calls. -/
def scanMap : Nat → UInt64 → UInt64
  | 0, free => free
  | n + 1, free => scanMap n (if freeblockScan free = 64 then free else freeAfter free)

theorem scanResults_add (m n : Nat) (free : UInt64) :
    scanResults (m + n) free = scanResults m free ++ scanResults n (scanMap m free) := by
  induction m generalizing free with
  | zero => rw [Nat.zero_add]; rfl
  | succ m ih =>
      rw [Nat.succ_add, scanResults_succ, scanResults_succ]
      unfold scanMap
      split_ifs <;> rw [ih, List.cons_append]

/-- The map of a fresh device lasts for the 27 blocks from 4 to 30, for one block
of the upper half, and for the three that are never free. -/
theorem scanResults_mkfs (n : Nat) : scanResults n mkfsFreeBlocks =
    ((List.range' 4 31).map fun i => ((0 : Int), UInt64.ofNat i)).take n ++
      List.replicate (n - 31) (-enospc, 0) := by
  have hall : scanResults 31 mkfsFreeBlocks =
      (List.range' 4 31).map fun i => ((0 : Int), UInt64.ofNat i) := by decide +kernel
  have hfull : freeblockScan (scanMap 31 mkfsFreeBlocks) = 64 := by decide +kernel
  rcases Nat.le_total n 31 with hn | hn
  · obtain ⟨m, hm⟩ := Nat.exists_eq_add_of_le hn
    rw [Nat.sub_eq_zero_of_le hn, List.replicate_zero, List.append_nil, ← hall, hm,
      scanResults_add, List.take_left' (length_scanResults n _)]
  · obtain ⟨m, rfl⟩ := Nat.exists_eq_add_of_le hn
    rw [scanResults_add, hall, scanResults_of_full hfull, Nat.add_sub_cancel_left,
      List.take_of_length_le (by simp)]

/-- The function is exact on the maps on which the 32-bit masks make no
difference, and on no other ones. A fresh device serves 31 calls. -/
theorem exactFreeblock_iff (hint : env.interrupted .sbGetAFreeblock = false)
    (hfree : w.owner .sbLock = none) (hb : env.breadFails 0 = false) :
    (ExactFreeblock w (simplefsSbGetAFreeblock.run (exec tid env) w) ↔
      PlainMap (freeBlocks w.cache)) ∧
    ∀ dev n, freeblockCalls tid env n (World.ofImage (mkfs dev)) =
      ((List.range' 4 31).map fun i => ((0 : Int), UInt64.ofNat i)).take n ++
        List.replicate (n - 31) (-enospc, 0) := by
  constructor
  · rw [run_freeblock hint hfree hb]
    exact ⟨plainMap_of_exact, exact_of_plainMap⟩
  · intro dev n
    have hmap : freeBlocks (World.ofImage (mkfs dev)).cache = mkfsFreeBlocks := freeBlocks_mkfs dev
    rw [freeblockCalls_eq hint hb rfl, hmap]
    exact scanResults_mkfs n

/-- A device on which the block 32 is the only free one. -/
def block32Free : World := World.ofImage (setFree (mkfs fun _ _ => 0) 0x100000000)

/-- The next call on a fresh device is exact, and so are all up to the 27th. -/
theorem exactFreeblock_mkfs :
    PlainMap (freeBlocks (mkfs fun _ _ => 0)) ∧
      ExactFreeblock (World.ofImage (mkfs fun _ _ => 0))
        (simplefsSbGetAFreeblock.run (exec 0 .quiet) (World.ofImage (mkfs fun _ _ => 0))) := by
  have hplain : PlainMap (freeBlocks (mkfs fun _ _ => 0)) := by
    rw [freeBlocks_mkfs]
    exact .inl ⟨4, by decide, by decide, by decide +kernel⟩
  exact ⟨hplain, (exactFreeblock_iff rfl rfl rfl).1.mpr hplain⟩

/-- The free block 32 is answered by 31 and an empty map. A fresh device, which
has 60 blocks to hand out, refuses the 32nd call. -/
theorem not_exactFreeblock_block32Free :
    ((simplefsSbGetAFreeblock.run (exec 0 .quiet) block32Free).value? = some (0, 31) ∧
      freeBlocks (simplefsSbGetAFreeblock.run (exec 0 .quiet) block32Free).state.cache = 0 ∧
      ¬ ExactFreeblock block32Free (simplefsSbGetAFreeblock.run (exec 0 .quiet) block32Free)) ∧
    (freeblockCalls 0 .quiet 60 (World.ofImage (mkfs fun _ _ => 0)))[31]? = some (-28, 0) := by
  have hmap : freeBlocks block32Free.cache = 0x100000000 := freeBlocks_setFree
  have hbit : ∀ j < 64, freeBit 0x100000000 j = decide (j = 32) := by decide
  have hvalue : (simplefsSbGetAFreeblock.run (exec 0 .quiet) block32Free).value? =
      some (0, 31) := by decide +kernel
  refine ⟨⟨hvalue, by decide +kernel, fun h => ?_⟩, ?_⟩
  · obtain ⟨free, w', hx, -⟩ := h.found 32 (by decide) (by decide)
      (by rw [hmap]; exact hbit 32 (by decide))
      (fun j _ hj => by rw [hmap, hbit j (by omega)]; exact decide_eq_false (by omega))
    rw [hx, Outcome.value?_done] at hvalue
    exact absurd (Option.some.inj hvalue) (by decide)
  · have hmkfs : freeBlocks (World.ofImage (mkfs fun _ _ => 0)).cache = mkfsFreeBlocks :=
      freeBlocks_mkfs _
    rw [freeblockCalls_eq rfl rfl rfl, hmkfs, scanResults_mkfs]
    decide +kernel

end Exact

end LinuxDevelopment.Simplefs
