import LinuxDevelopment.Base.Ring
import LinuxDevelopment.Base.Transition

/-!
# semaphore: a ring buffer between a producer and a consumer

The two threads of `semaphore.c` share an array and two counting semaphores. A
step is one statement of one thread; `sem_wait` can be taken only while the
semaphore is positive. The producer advances its index behind `sem_post`, so the
index is one short while the number is announced and posted; the same is true of
the consumer.
-/

namespace LinuxDevelopment.Semaphore

/-- `NUM`. -/
def num : Nat := 5

/-- The statement of the loop of `producer` that comes next. -/
inductive ProducerPc where
  | semWait
  | store
  | print
  | semPost
  | advance
  deriving DecidableEq, Repr

/-- The statement of the loop of `consumer` that comes next. -/
inductive ConsumerPc where
  | semWait
  | print
  | clear
  | semPost
  | advance
  deriving DecidableEq, Repr

structure State where
  queue : Nat → Nat
  blankNumber : Nat
  productNumber : Nat
  producer : ProducerPc
  p : Nat
  consumer : ConsumerPc
  c : Nat
  /-- the numbers put into the queue so far -/
  produced : List Nat
  /-- the numbers of the lines `Produce` -/
  announced : List Nat
  /-- the numbers of the lines `Consume` -/
  consumed : List Nat

/-- The state when `main` has created both threads. -/
def init : State where
  queue := fun _ => 0
  blankNumber := num
  productNumber := 0
  producer := .semWait
  p := 0
  consumer := .semWait
  c := 0
  produced := []
  announced := []
  consumed := []

/-- The thread that takes the next step, and what `rand` returns to it. -/
inductive Label where
  | producer (rand : Nat)
  | consumer
  deriving DecidableEq, Repr

def producerStep (s : State) (rand : Nat) : Option State :=
  match s.producer with
  | .semWait =>
      if 0 < s.blankNumber then
        some { s with blankNumber := s.blankNumber - 1, producer := .store }
      else none
  | .store =>
      some { s with
        queue := Function.update s.queue s.p (rand % 1000 + 1)
        produced := s.produced ++ [rand % 1000 + 1]
        producer := .print }
  | .print => some { s with announced := s.announced ++ [s.queue s.p], producer := .semPost }
  | .semPost => some { s with productNumber := s.productNumber + 1, producer := .advance }
  | .advance => some { s with p := (s.p + 1) % num, producer := .semWait }

def consumerStep (s : State) : Option State :=
  match s.consumer with
  | .semWait =>
      if 0 < s.productNumber then
        some { s with productNumber := s.productNumber - 1, consumer := .print }
      else none
  | .print => some { s with consumed := s.consumed ++ [s.queue s.c], consumer := .clear }
  | .clear => some { s with queue := Function.update s.queue s.c 0, consumer := .semPost }
  | .semPost => some { s with blankNumber := s.blankNumber + 1, consumer := .advance }
  | .advance => some { s with c := (s.c + 1) % num, consumer := .semWait }

def step (s : State) : Label → Option State
  | .producer rand => producerStep s rand
  | .consumer => consumerStep s

/-- The blank the producer has waited for and not filled yet. -/
def ProducerPc.holds : ProducerPc → Nat
  | .store => 1
  | _ => 0

/-- The number in the queue that is not posted yet. -/
def ProducerPc.unposted : ProducerPc → Nat
  | .print | .semPost => 1
  | _ => 0

/-- The number in the queue that is not announced yet. -/
def ProducerPc.unannounced : ProducerPc → Nat
  | .print => 1
  | _ => 0

/-- How far the index is behind the numbers in the queue. -/
def ProducerPc.behind : ProducerPc → Nat
  | .print | .semPost | .advance => 1
  | _ => 0

/-- The product the consumer has waited for and not taken yet. -/
def ConsumerPc.holds : ConsumerPc → Nat
  | .print => 1
  | _ => 0

/-- The number taken that is still in its slot. -/
def ConsumerPc.uncleared : ConsumerPc → Nat
  | .clear => 1
  | _ => 0

/-- The slot whose number is taken and that is not posted yet. -/
def ConsumerPc.unposted : ConsumerPc → Nat
  | .clear | .semPost => 1
  | _ => 0

/-- How far the index is behind the numbers taken. -/
def ConsumerPc.behind : ConsumerPc → Nat
  | .clear | .semPost | .advance => 1
  | _ => 0

/-- The semaphores, the indices and the slots fit the numbers produced and
consumed, up to the statements each thread still has to execute. -/
structure Fits (s : State) : Prop where
  blank : s.blankNumber + s.produced.length + s.producer.holds + s.consumer.unposted =
    num + s.consumed.length
  product : s.productNumber + s.consumed.length + s.consumer.holds + s.producer.unposted =
    s.produced.length
  p_eq : ∃ k, k + s.producer.behind = s.produced.length ∧ s.p = k % num
  c_eq : ∃ k, k + s.consumer.behind = s.consumed.length ∧ s.c = k % num
  slots : ∃ k, k + s.consumer.uncleared = s.consumed.length ∧
    Ring.Holds 0 num s.queue k (s.produced.drop k)
  announced : ∃ k, k + s.producer.unannounced = s.produced.length ∧
    s.announced = s.produced.take k
  consumed : s.consumed <+: s.produced

theorem fits_init : Fits init where
  blank := rfl
  product := rfl
  p_eq := ⟨0, rfl, rfl⟩
  c_eq := ⟨0, rfl, rfl⟩
  slots := ⟨0, rfl, .empty 0 num 0⟩
  announced := ⟨0, rfl, rfl⟩
  consumed := List.prefix_refl []

namespace Fits

variable {s t : State} {rand : Nat}

/-- The number in the slot of a number that has not been taken. -/
theorem slot_eq (h : Fits s) {i : Nat} (hlo : s.consumed.length ≤ i) (hhi : i < s.produced.length) :
    s.produced[i]? = some (s.queue (i % num)) := by
  obtain ⟨d, hd, hslots⟩ := h.slots
  have hlive := hslots.live (i - d) (by rw [List.length_drop]; omega)
  rw [List.getElem?_drop, Nat.add_sub_cancel' (by omega)] at hlive
  exact hlive

/-- The producer stores into a slot whose number has been taken. -/
theorem blank_slot (h : Fits s) (hpc : s.producer = .store) :
    s.produced.length < s.consumed.length + num ∧ s.queue s.p = 0 := by
  have hle := h.consumed.length_le
  have hblank := h.blank
  obtain ⟨k, hk, hp⟩ := h.p_eq
  obtain ⟨d, hd, hslots⟩ := h.slots
  have hposts : s.consumer.uncleared ≤ s.consumer.unposted := by
    cases s.consumer <;> decide
  simp only [hpc, ProducerPc.holds, ProducerPc.behind] at hblank hk
  have hlen : (s.produced.drop d).length = s.produced.length - d := List.length_drop
  have hslot := hslots.slot_blank (by omega)
  rw [hlen, Nat.add_sub_cancel' (by omega)] at hslot
  rw [hp, show k = s.produced.length by omega]
  exact ⟨by omega, hslot⟩

/-- The consumer takes the first number that has not been taken. -/
theorem next_slot (h : Fits s) (hpc : s.consumer = .print) :
    s.produced[s.consumed.length]? = some (s.queue s.c) := by
  have hproduct := h.product
  obtain ⟨k, hk, hc⟩ := h.c_eq
  simp only [hpc, ConsumerPc.holds, ConsumerPc.behind] at hproduct hk
  rw [hc, show k = s.consumed.length by omega]
  exact h.slot_eq (Nat.le_refl _) (by omega)

theorem producer_semWait (h : Fits s) (hpc : s.producer = .semWait) (hpos : 0 < s.blankNumber) :
    Fits { s with blankNumber := s.blankNumber - 1, producer := .store } := by
  have hblank := h.blank
  have hproduct := h.product
  have hp := h.p_eq
  have hannounced := h.announced
  simp only [hpc, ProducerPc.holds, ProducerPc.unposted, ProducerPc.behind,
    ProducerPc.unannounced] at hblank hproduct hp hannounced
  have hnext : s.blankNumber - 1 + s.produced.length + 1 + s.consumer.unposted =
      num + s.consumed.length := by omega
  exact ⟨hnext, hproduct, hp, h.c_eq, h.slots, hannounced, h.consumed⟩

theorem producer_store (h : Fits s) (hpc : s.producer = .store) (n : Nat) :
    Fits { s with queue := Function.update s.queue s.p n, produced := s.produced ++ [n],
                  producer := .print } := by
  have hle := h.consumed.length_le
  have hblank := h.blank
  have hproduct := h.product
  obtain ⟨k, hk, hp⟩ := h.p_eq
  obtain ⟨m, hm, hann⟩ := h.announced
  obtain ⟨d, hd, hslots⟩ := h.slots
  have hposts : s.consumer.uncleared ≤ s.consumer.unposted := by
    cases s.consumer <;> decide
  simp only [hpc, ProducerPc.holds, ProducerPc.unposted, ProducerPc.behind,
    ProducerPc.unannounced] at hblank hproduct hk hm
  have hlength : (s.produced ++ [n]).length = s.produced.length + 1 := List.length_append
  refine ⟨?_, ?_, ⟨k, ?_, hp⟩, h.c_eq, ?_, ⟨m, ?_, ?_⟩, ?_⟩
  · change s.blankNumber + (s.produced ++ [n]).length + 0 + s.consumer.unposted =
      num + s.consumed.length
    omega
  · change s.productNumber + s.consumed.length + s.consumer.holds + 1 = (s.produced ++ [n]).length
    omega
  · change k + 1 = (s.produced ++ [n]).length
    omega
  · have hlen : (s.produced.drop d).length = s.produced.length - d := List.length_drop
    have hpush := hslots.push (by omega) n
    rw [hlen, Nat.add_sub_cancel' (by omega), ← List.drop_append_of_le_length (by omega)] at hpush
    refine ⟨d, hd, ?_⟩
    rw [hp, show k = s.produced.length by omega]
    exact hpush
  · change m + 1 = (s.produced ++ [n]).length
    omega
  · rw [List.take_append_of_le_length (by omega)]
    exact hann
  · exact h.consumed.trans (List.prefix_append _ _)

theorem producer_print (h : Fits s) (hpc : s.producer = .print) :
    Fits { s with announced := s.announced ++ [s.queue s.p], producer := .semPost } := by
  have hblank := h.blank
  have hproduct := h.product
  obtain ⟨k, hk, hp⟩ := h.p_eq
  obtain ⟨m, hm, hann⟩ := h.announced
  simp only [hpc, ProducerPc.holds, ProducerPc.unposted, ProducerPc.behind,
    ProducerPc.unannounced] at hblank hproduct hk hm
  have hslot := h.slot_eq (i := k) (by omega) (by omega)
  refine ⟨hblank, hproduct, ⟨k, hk, hp⟩, h.c_eq, h.slots, ⟨m + 1, hm, ?_⟩, h.consumed⟩
  rw [List.take_add_one, show m = k by omega, hslot, hann, hp, show m = k by omega]
  rfl

theorem producer_semPost (h : Fits s) (hpc : s.producer = .semPost) :
    Fits { s with productNumber := s.productNumber + 1, producer := .advance } := by
  have hblank := h.blank
  have hproduct := h.product
  have hp := h.p_eq
  have hannounced := h.announced
  simp only [hpc, ProducerPc.holds, ProducerPc.unposted, ProducerPc.behind,
    ProducerPc.unannounced] at hblank hproduct hp hannounced
  have hnext : s.productNumber + 1 + s.consumed.length + s.consumer.holds + 0 =
      s.produced.length := by omega
  exact ⟨hblank, hnext, hp, h.c_eq, h.slots, hannounced, h.consumed⟩

theorem producer_advance (h : Fits s) (hpc : s.producer = .advance) :
    Fits { s with p := (s.p + 1) % num, producer := .semWait } := by
  have hblank := h.blank
  have hproduct := h.product
  obtain ⟨k, hk, hp⟩ := h.p_eq
  have hannounced := h.announced
  simp only [hpc, ProducerPc.holds, ProducerPc.unposted, ProducerPc.behind,
    ProducerPc.unannounced] at hblank hproduct hk hannounced
  refine ⟨hblank, hproduct, ⟨k + 1, hk, ?_⟩, h.c_eq, h.slots, hannounced, h.consumed⟩
  rw [hp, Nat.mod_add_mod]

theorem consumer_semWait (h : Fits s) (hpc : s.consumer = .semWait) (hpos : 0 < s.productNumber) :
    Fits { s with productNumber := s.productNumber - 1, consumer := .print } := by
  have hblank := h.blank
  have hproduct := h.product
  have hc := h.c_eq
  have hslots := h.slots
  simp only [hpc, ConsumerPc.holds, ConsumerPc.unposted, ConsumerPc.behind,
    ConsumerPc.uncleared] at hblank hproduct hc hslots
  have hnext : s.productNumber - 1 + s.consumed.length + 1 + s.producer.unposted =
      s.produced.length := by omega
  exact ⟨hblank, hnext, h.p_eq, hc, hslots, h.announced, h.consumed⟩

theorem consumer_print (h : Fits s) (hpc : s.consumer = .print) :
    Fits { s with consumed := s.consumed ++ [s.queue s.c], consumer := .clear } := by
  have hblank := h.blank
  have hproduct := h.product
  have hslot := h.next_slot hpc
  obtain ⟨k, hk, hc⟩ := h.c_eq
  obtain ⟨d, hd, hslots⟩ := h.slots
  simp only [hpc, ConsumerPc.holds, ConsumerPc.unposted, ConsumerPc.behind,
    ConsumerPc.uncleared] at hblank hproduct hk hd
  have hlength : (s.consumed ++ [s.queue s.c]).length = s.consumed.length + 1 :=
    List.length_append
  refine ⟨?_, ?_, h.p_eq, ⟨k, ?_, hc⟩, ⟨d, ?_, hslots⟩, h.announced, ?_⟩
  · change s.blankNumber + s.produced.length + s.producer.holds + 1 =
      num + (s.consumed ++ [s.queue s.c]).length
    omega
  · change s.productNumber + (s.consumed ++ [s.queue s.c]).length + 0 + s.producer.unposted =
      s.produced.length
    omega
  · change k + 1 = (s.consumed ++ [s.queue s.c]).length
    omega
  · change d + 1 = (s.consumed ++ [s.queue s.c]).length
    omega
  · rw [List.prefix_iff_eq_take, hlength, List.take_add_one, hslot,
      ← List.prefix_iff_eq_take.mp h.consumed]
    rfl

theorem consumer_clear (h : Fits s) (hpc : s.consumer = .clear) :
    Fits { s with queue := Function.update s.queue s.c 0, consumer := .semPost } := by
  have hblank := h.blank
  have hproduct := h.product
  have hle := h.consumed.length_le
  obtain ⟨k, hk, hc⟩ := h.c_eq
  obtain ⟨d, hd, hslots⟩ := h.slots
  simp only [hpc, ConsumerPc.holds, ConsumerPc.unposted, ConsumerPc.behind,
    ConsumerPc.uncleared] at hblank hproduct hk hd
  refine ⟨hblank, hproduct, h.p_eq, ⟨k, hk, hc⟩, ⟨d + 1, hd, ?_⟩, h.announced, h.consumed⟩
  rw [List.drop_eq_getElem_cons (by omega)] at hslots
  rw [hc, show k = d by omega]
  exact hslots.pop

theorem consumer_semPost (h : Fits s) (hpc : s.consumer = .semPost) :
    Fits { s with blankNumber := s.blankNumber + 1, consumer := .advance } := by
  have hblank := h.blank
  have hproduct := h.product
  have hc := h.c_eq
  have hslots := h.slots
  simp only [hpc, ConsumerPc.holds, ConsumerPc.unposted, ConsumerPc.behind,
    ConsumerPc.uncleared] at hblank hproduct hc hslots
  have hnext : s.blankNumber + 1 + s.produced.length + s.producer.holds + 0 =
      num + s.consumed.length := by omega
  exact ⟨hnext, hproduct, h.p_eq, hc, hslots, h.announced, h.consumed⟩

theorem consumer_advance (h : Fits s) (hpc : s.consumer = .advance) :
    Fits { s with c := (s.c + 1) % num, consumer := .semWait } := by
  have hblank := h.blank
  have hproduct := h.product
  obtain ⟨k, hk, hc⟩ := h.c_eq
  have hslots := h.slots
  simp only [hpc, ConsumerPc.holds, ConsumerPc.unposted, ConsumerPc.behind,
    ConsumerPc.uncleared] at hblank hproduct hk hslots
  refine ⟨hblank, hproduct, h.p_eq, ⟨k + 1, hk, ?_⟩, hslots, h.announced, h.consumed⟩
  rw [hc, Nat.mod_add_mod]

theorem producerStep (h : Fits s) (ht : producerStep s rand = some t) : Fits t := by
  unfold Semaphore.producerStep at ht
  cases hpc : s.producer with
  | semWait =>
      rw [hpc] at ht
      obtain ⟨hpos, hs⟩ := Option.ite_none_right_eq_some.mp ht
      cases hs
      exact h.producer_semWait hpc hpos
  | store =>
      rw [hpc] at ht
      cases ht
      exact h.producer_store hpc _
  | print =>
      rw [hpc] at ht
      cases ht
      exact h.producer_print hpc
  | semPost =>
      rw [hpc] at ht
      cases ht
      exact h.producer_semPost hpc
  | advance =>
      rw [hpc] at ht
      cases ht
      exact h.producer_advance hpc

theorem consumerStep (h : Fits s) (ht : consumerStep s = some t) : Fits t := by
  unfold Semaphore.consumerStep at ht
  cases hpc : s.consumer with
  | semWait =>
      rw [hpc] at ht
      obtain ⟨hpos, hs⟩ := Option.ite_none_right_eq_some.mp ht
      cases hs
      exact h.consumer_semWait hpc hpos
  | print =>
      rw [hpc] at ht
      cases ht
      exact h.consumer_print hpc
  | clear =>
      rw [hpc] at ht
      cases ht
      exact h.consumer_clear hpc
  | semPost =>
      rw [hpc] at ht
      cases ht
      exact h.consumer_semPost hpc
  | advance =>
      rw [hpc] at ht
      cases ht
      exact h.consumer_advance hpc

theorem step {l : Label} (h : Fits s) (ht : step s l = some t) : Fits t := by
  cases l with
  | producer rand => exact h.producerStep ht
  | consumer => exact h.consumerStep ht

end Fits

section Runs

variable {s : State}

theorem fits_of_reachable (h : Reachable step init s) : Fits s :=
  h.invariant fits_init fun hs ht => hs.step ht

/-- A correct bounded queue, in every state of every run: the numbers come out in
the order in which they went in, there are never more than `num` of them in
between, a store goes to a slot whose number has been taken, and a number is
taken from the slot of the next one. -/
theorem boundedFifo_of_reachable (h : Reachable step init s) :
    (s.consumed <+: s.announced ∧ s.announced <+: s.produced) ∧
      s.produced.length ≤ s.consumed.length + num ∧
      (s.producer = .store → s.produced.length < s.consumed.length + num ∧ s.queue s.p = 0) ∧
      (s.consumer = .print → s.produced[s.consumed.length]? = some (s.queue s.c)) := by
  have hf := fits_of_reachable h
  have hblank := hf.blank
  have hproduct := hf.product
  obtain ⟨k, hk, hann⟩ := hf.announced
  have hposts : s.producer.unannounced ≤ s.producer.unposted := by
    cases s.producer <;> decide
  refine ⟨⟨?_, ?_⟩, by omega, hf.blank_slot, hf.next_slot⟩
  · rw [hann]
    exact List.prefix_take_iff.mpr ⟨hf.consumed, by omega⟩
  · rw [hann]
    exact List.take_prefix _ _

/-- The producer fills the queue, the consumer takes two numbers, and the
producer starts the second round. -/
def sampleRun : List Label :=
  List.replicate 25 (.producer 41) ++ List.replicate 10 .consumer ++
    List.replicate 6 (.producer 42)

/-- The second slot is about to be filled for the second time. -/
theorem boundedFifo_sampleRun : ∃ s, replay step sampleRun init = some s ∧
    s.producer = .store ∧ s.p = 1 ∧ s.produced.length = 6 ∧ s.queue s.p = 0 ∧
    s.consumed <+: s.announced := by
  have hx : (replay step sampleRun init).any (fun s => decide (s.producer = .store ∧ s.p = 1 ∧
      s.produced.length = 6)) = true := by decide +kernel
  obtain ⟨s, hs, hpc, hp, hlen⟩ := exists_of_replay_any hx
  obtain ⟨⟨hbefore, -⟩, -, hstore, -⟩ := boundedFifo_of_reachable (.of_replay hs)
  exact ⟨s, hs, hpc, hp, hlen, (hstore hpc).2, hbefore⟩

end Runs

end LinuxDevelopment.Semaphore
