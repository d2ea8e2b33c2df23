import LinuxDevelopment.Base.Chain
import LinuxDevelopment.Base.Transition

/-!
# cond_var: a linked queue between a producer and a consumer

The two threads of `cond_var.c` share a singly linked list in the heap. A step is
one statement of one thread. `pthread_cond_wait` gives the lock up and sleeps in
one step; it returns after a signal, or without one, and then takes the lock
again. The memory `malloc` returns holds anything, and memory that was freed can
be returned again.

## Implementation notes

An address is a number and `NULL` is 0. `live` are the blocks that `malloc` has
returned and `free` has not got back. The lines the producer prints are left out;
those of the consumer are kept because they are read from the node behind the
unlock.
-/

namespace LinuxDevelopment.CondVar

inductive Thread where
  | producer
  | consumer
  deriving DecidableEq, Repr

/-- The statement of the loop of `consumer` that comes next. -/
inductive ConsumerPc where
  /-- `pthread_mutex_lock(&lock)` -/
  | lock
  /-- `while (head == NULL)` -/
  | test
  /-- `pthread_cond_wait` is called -/
  | wait
  /-- it sleeps -/
  | waiting
  /-- it has been woken and takes the lock -/
  | woken
  /-- `mp = head` -/
  | take
  /-- `head = mp->next` -/
  | pop
  | unlock
  | print
  | free
  deriving DecidableEq, Repr

/-- The statement of the loop of `producer` that comes next. -/
inductive ProducerPc where
  | malloc
  /-- `mp->num = rand() % 1000 + 1` -/
  | setNum
  | lock
  /-- `if (head == NULL)` -/
  | test
  /-- `head = mp` -/
  | setHead
  /-- `it != NULL` -/
  | loop
  /-- `if (it->next == NULL)` -/
  | testNext
  /-- `it->next = mp` -/
  | link
  /-- `it = it->next` -/
  | advance
  /-- `mp->next = NULL` -/
  | clearNext
  | unlock
  | signal
  deriving DecidableEq, Repr

structure State where
  head : Nat
  next : Nat → Nat
  num : Nat → Nat
  live : Nat → Bool
  lock : Option Thread
  consumer : ConsumerPc
  /-- `mp` of the consumer -/
  taken : Nat
  producer : ProducerPc
  /-- `mp` of the producer -/
  made : Nat
  it : Nat
  /-- the numbers of the nodes put on the list -/
  appended : List Nat
  /-- the numbers of the nodes taken off the list -/
  consumed : List Nat
  /-- the numbers of the lines `Consume` -/
  printed : List Nat

/-- The state when `main` has created both threads. -/
def init (next num : Nat → Nat) : State where
  head := 0
  next := next
  num := num
  live := fun _ => false
  lock := none
  consumer := .lock
  taken := 0
  producer := .malloc
  made := 0
  it := 0
  appended := []
  consumed := []
  printed := []

/-- What happens next: a statement of a thread with the answer it gets, or a
return of `pthread_cond_wait` without a signal. -/
inductive Label where
  | consumer
  | spurious
  | malloc (a next num : Nat)
  | producer (rand : Nat)
  deriving DecidableEq, Repr

def consumerStep (s : State) : Option State :=
  match s.consumer with
  | .lock => if s.lock = none then some { s with lock := some .consumer, consumer := .test } else none
  | .test => if s.head = 0 then some { s with consumer := .wait } else some { s with consumer := .take }
  | .wait => some { s with lock := none, consumer := .waiting }
  | .waiting => none
  | .woken =>
      if s.lock = none then some { s with lock := some .consumer, consumer := .test } else none
  | .take => some { s with taken := s.head, consumer := .pop }
  | .pop =>
      some { s with
        head := s.next s.taken
        consumed := s.consumed ++ [s.num s.taken]
        consumer := .unlock }
  | .unlock => some { s with lock := none, consumer := .print }
  | .print => some { s with printed := s.printed ++ [s.num s.taken], consumer := .free }
  | .free => some { s with live := Function.update s.live s.taken false, consumer := .lock }

def producerStep (s : State) (rand : Nat) : Option State :=
  match s.producer with
  | .malloc => none
  | .setNum =>
      some { s with num := Function.update s.num s.made (rand % 1000 + 1), producer := .lock }
  | .lock => if s.lock = none then some { s with lock := some .producer, producer := .test } else none
  | .test =>
      if s.head = 0 then some { s with producer := .setHead }
      else some { s with it := s.head, producer := .loop }
  | .setHead =>
      some { s with
        head := s.made
        appended := s.appended ++ [s.num s.made]
        producer := .clearNext }
  | .loop => if s.it = 0 then some { s with producer := .unlock } else some { s with producer := .testNext }
  | .testNext =>
      if s.next s.it = 0 then some { s with producer := .link } else some { s with producer := .advance }
  | .link =>
      some { s with
        next := Function.update s.next s.it s.made
        appended := s.appended ++ [s.num s.made]
        producer := .clearNext }
  | .advance => some { s with it := s.next s.it, producer := .loop }
  | .clearNext => some { s with next := Function.update s.next s.made 0, producer := .unlock }
  | .unlock => some { s with lock := none, producer := .signal }
  | .signal =>
      some { s with
        consumer := if s.consumer = .waiting then .woken else s.consumer
        producer := .malloc }

def step (s : State) : Label → Option State
  | .consumer => consumerStep s
  | .spurious => if s.consumer = .waiting then some { s with consumer := .woken } else none
  | .malloc a next num =>
      if s.producer = .malloc ∧ a ≠ 0 ∧ s.live a = false then
        some { s with
          next := Function.update s.next a next
          num := Function.update s.num a num
          live := Function.update s.live a true
          made := a
          producer := .setNum }
      else none
  | .producer rand => producerStep s rand

/-- The consumer holds the lock. -/
def ConsumerPc.inside : ConsumerPc → Bool
  | .test | .wait | .take | .pop | .unlock => true
  | _ => false

/-- The consumer has a node of its own. -/
def ConsumerPc.owns : ConsumerPc → Bool
  | .unlock | .print | .free => true
  | _ => false

/-- The number taken off the list is still to be printed. -/
def ConsumerPc.unprinted : ConsumerPc → Bool
  | .unlock | .print => true
  | _ => false

/-- The producer holds the lock. -/
def ProducerPc.inside : ProducerPc → Bool
  | .test | .setHead | .loop | .testNext | .link | .advance | .clearNext | .unlock => true
  | _ => false

/-- The producer has a node that is not on the list yet. -/
def ProducerPc.owns : ProducerPc → Bool
  | .setNum | .lock | .test | .setHead | .loop | .testNext | .link | .advance => true
  | _ => false

/-- The producer looks for the end of the list. -/
def ProducerPc.walks : ProducerPc → Bool
  | .loop | .testNext | .link | .advance => true
  | _ => false

/-- The steps, statement by statement. -/
inductive Moves (s : State) : State → Prop
  | consumerLock (pc : s.consumer = .lock) (free : s.lock = none) :
      Moves s { s with lock := some .consumer, consumer := .test }
  | consumerEmpty (pc : s.consumer = .test) (empty : s.head = 0) :
      Moves s { s with consumer := .wait }
  | consumerFull (pc : s.consumer = .test) (full : s.head ≠ 0) :
      Moves s { s with consumer := .take }
  | consumerWait (pc : s.consumer = .wait) : Moves s { s with lock := none, consumer := .waiting }
  | consumerRelock (pc : s.consumer = .woken) (free : s.lock = none) :
      Moves s { s with lock := some .consumer, consumer := .test }
  | consumerTake (pc : s.consumer = .take) : Moves s { s with taken := s.head, consumer := .pop }
  | consumerPop (pc : s.consumer = .pop) :
      Moves s { s with head := s.next s.taken, consumed := s.consumed ++ [s.num s.taken],
                       consumer := .unlock }
  | consumerUnlock (pc : s.consumer = .unlock) : Moves s { s with lock := none, consumer := .print }
  | consumerPrint (pc : s.consumer = .print) :
      Moves s { s with printed := s.printed ++ [s.num s.taken], consumer := .free }
  | consumerFree (pc : s.consumer = .free) :
      Moves s { s with live := Function.update s.live s.taken false, consumer := .lock }
  | spurious (pc : s.consumer = .waiting) : Moves s { s with consumer := .woken }
  | malloc {a next num : Nat} (pc : s.producer = .malloc) (null : a ≠ 0) (dead : s.live a = false) :
      Moves s { s with next := Function.update s.next a next, num := Function.update s.num a num,
                       live := Function.update s.live a true, made := a, producer := .setNum }
  | setNum {n : Nat} (pc : s.producer = .setNum) :
      Moves s { s with num := Function.update s.num s.made n, producer := .lock }
  | producerLock (pc : s.producer = .lock) (free : s.lock = none) :
      Moves s { s with lock := some .producer, producer := .test }
  | producerEmpty (pc : s.producer = .test) (empty : s.head = 0) :
      Moves s { s with producer := .setHead }
  | producerFull (pc : s.producer = .test) (full : s.head ≠ 0) :
      Moves s { s with it := s.head, producer := .loop }
  | setHead (pc : s.producer = .setHead) :
      Moves s { s with head := s.made, appended := s.appended ++ [s.num s.made],
                       producer := .clearNext }
  | loopEnd (pc : s.producer = .loop) (null : s.it = 0) : Moves s { s with producer := .unlock }
  | loopBody (pc : s.producer = .loop) (node : s.it ≠ 0) : Moves s { s with producer := .testNext }
  | nextNull (pc : s.producer = .testNext) (last : s.next s.it = 0) :
      Moves s { s with producer := .link }
  | nextNode (pc : s.producer = .testNext) (more : s.next s.it ≠ 0) :
      Moves s { s with producer := .advance }
  | link (pc : s.producer = .link) :
      Moves s { s with next := Function.update s.next s.it s.made,
                       appended := s.appended ++ [s.num s.made], producer := .clearNext }
  | advance (pc : s.producer = .advance) : Moves s { s with it := s.next s.it, producer := .loop }
  | clearNext (pc : s.producer = .clearNext) :
      Moves s { s with next := Function.update s.next s.made 0, producer := .unlock }
  | producerUnlock (pc : s.producer = .unlock) : Moves s { s with lock := none, producer := .signal }
  | signal (pc : s.producer = .signal) (asleep : s.consumer = .waiting) :
      Moves s { s with consumer := .woken, producer := .malloc }
  | signalLost (pc : s.producer = .signal) (awake : s.consumer ≠ .waiting) :
      Moves s { s with producer := .malloc }

section Moves

variable {s t : State} {l : Label}

theorem moves_of_consumerStep (ht : consumerStep s = some t) : Moves s t := by
  unfold consumerStep at ht
  cases hpc : s.consumer <;> rw [hpc] at ht <;> dsimp only at ht
  case lock =>
    obtain ⟨hfree, hs⟩ := Option.ite_none_right_eq_some.mp ht
    cases hs
    exact .consumerLock hpc hfree
  case test =>
    split_ifs at ht with hempty
    · cases ht
      exact .consumerEmpty hpc hempty
    · cases ht
      exact .consumerFull hpc hempty
  case wait =>
    cases ht
    exact .consumerWait hpc
  case waiting => cases ht
  case woken =>
    obtain ⟨hfree, hs⟩ := Option.ite_none_right_eq_some.mp ht
    cases hs
    exact .consumerRelock hpc hfree
  case take =>
    cases ht
    exact .consumerTake hpc
  case pop =>
    cases ht
    exact .consumerPop hpc
  case unlock =>
    cases ht
    exact .consumerUnlock hpc
  case print =>
    cases ht
    exact .consumerPrint hpc
  case free =>
    cases ht
    exact .consumerFree hpc

theorem moves_of_producerStep {rand : Nat} (ht : producerStep s rand = some t) : Moves s t := by
  unfold producerStep at ht
  cases hpc : s.producer <;> rw [hpc] at ht <;> dsimp only at ht
  case malloc => cases ht
  case setNum =>
    cases ht
    exact .setNum hpc
  case lock =>
    obtain ⟨hfree, hs⟩ := Option.ite_none_right_eq_some.mp ht
    cases hs
    exact .producerLock hpc hfree
  case test =>
    split_ifs at ht with hempty
    · cases ht
      exact .producerEmpty hpc hempty
    · cases ht
      exact .producerFull hpc hempty
  case setHead =>
    cases ht
    exact .setHead hpc
  case loop =>
    split_ifs at ht with hnull
    · cases ht
      exact .loopEnd hpc hnull
    · cases ht
      exact .loopBody hpc hnull
  case testNext =>
    split_ifs at ht with hlast
    · cases ht
      exact .nextNull hpc hlast
    · cases ht
      exact .nextNode hpc hlast
  case link =>
    cases ht
    exact .link hpc
  case advance =>
    cases ht
    exact .advance hpc
  case clearNext =>
    cases ht
    exact .clearNext hpc
  case unlock =>
    cases ht
    exact .producerUnlock hpc
  case signal =>
    by_cases hasleep : s.consumer = .waiting
    · rw [if_pos hasleep] at ht
      cases ht
      exact .signal hpc hasleep
    · rw [if_neg hasleep] at ht
      cases ht
      exact .signalLost hpc hasleep

theorem moves_of_step (ht : step s l = some t) : Moves s t := by
  cases l with
  | consumer => exact moves_of_consumerStep ht
  | producer rand => exact moves_of_producerStep ht
  | spurious =>
      obtain ⟨hpc, hs⟩ := Option.ite_none_right_eq_some.mp ht
      cases hs
      exact .spurious hpc
  | malloc a next num =>
      obtain ⟨⟨hpc, hnull, hdead⟩, hs⟩ := Option.ite_none_right_eq_some.mp ht
      cases hs
      exact .malloc hpc hnull hdead

/-- The lock is held by the thread that is between its lock and its unlock. -/
structure Locked (s : State) : Prop where
  consumer : s.consumer.inside = true ↔ s.lock = some .consumer
  producer : s.producer.inside = true ↔ s.lock = some .producer

/-- The producer is not at the list while the consumer holds the lock. -/
theorem Locked.producer_outside (hl : Locked s) (hpc : s.consumer.inside = true) :
    s.producer.inside = false := by
  rw [← Bool.not_eq_true, hl.producer, hl.consumer.mp hpc]
  decide

theorem Locked.consumer_outside (hl : Locked s) (hpc : s.producer.inside = true) :
    s.consumer.inside = false := by
  rw [← Bool.not_eq_true, hl.consumer, hl.producer.mp hpc]
  decide

theorem Locked.outside_of_free (hl : Locked s) (hfree : s.lock = none) :
    s.consumer.inside = false ∧ s.producer.inside = false := by
  constructor
  · rw [← Bool.not_eq_true, hl.consumer, hfree]
    decide
  · rw [← Bool.not_eq_true, hl.producer, hfree]
    decide

/-- The three states of the lock. -/
theorem locked_of_free (hlock : t.lock = none) (hc : t.consumer.inside = false)
    (hp : t.producer.inside = false) : Locked t := by
  constructor
  · rw [hc, hlock]
    decide
  · rw [hp, hlock]
    decide

theorem locked_of_consumer (hlock : t.lock = some .consumer) (hc : t.consumer.inside = true)
    (hp : t.producer.inside = false) : Locked t := by
  refine ⟨iff_of_true hc hlock, ?_⟩
  rw [hp, hlock]
  decide

theorem locked_of_producer (hlock : t.lock = some .producer) (hc : t.consumer.inside = false)
    (hp : t.producer.inside = true) : Locked t := by
  refine ⟨?_, iff_of_true hp hlock⟩
  rw [hc, hlock]
  decide

/-- A statement that neither takes the lock nor gives it up. -/
theorem Locked.stays (hl : Locked s) (hlock : t.lock = s.lock)
    (hc : t.consumer.inside = s.consumer.inside) (hp : t.producer.inside = s.producer.inside) :
    Locked t := by
  constructor
  · rw [hc, hlock]
    exact hl.consumer
  · rw [hp, hlock]
    exact hl.producer

theorem Locked.moves (hl : Locked s) (hm : Moves s t) : Locked t := by
  cases hm with
  | consumerLock pc free | consumerRelock pc free =>
      exact locked_of_consumer rfl rfl (hl.outside_of_free free).2
  | producerLock pc free => exact locked_of_producer rfl (hl.outside_of_free free).1 rfl
  | consumerWait pc | consumerUnlock pc =>
      exact locked_of_free rfl rfl (hl.producer_outside (by rw [pc]; rfl))
  | producerUnlock pc => exact locked_of_free rfl (hl.consumer_outside (by rw [pc]; rfl)) rfl
  | signal pc asleep => exact hl.stays rfl (by rw [asleep]; rfl) (by rw [pc]; rfl)
  | consumerEmpty pc | consumerFull pc | consumerTake pc | consumerPop pc | consumerPrint pc
  | consumerFree pc | spurious pc => exact hl.stays rfl (by rw [pc]; rfl) rfl
  | malloc pc | setNum pc | producerEmpty pc | producerFull pc | setHead pc | loopEnd pc
  | loopBody pc | nextNull pc | nextNode pc | link pc | advance pc | clearNext pc
  | signalLost pc => exact hl.stays rfl rfl (by rw [pc]; rfl)

end Moves

section Shape

variable {s t : State} {xs : List Nat} {lock : Option Thread}

/-- The nodes `xs` are the list in the heap, with the numbers that were put on it
and not taken off. Its last node is open until the producer has cleared its
`next`. -/
structure OnList (s : State) (xs : List Nat) : Prop where
  closed : s.producer ≠ .clearNext → Chain s.next s.head xs 0
  opened : s.producer = .clearNext → ∃ ys, xs = ys ++ [s.made] ∧ Chain s.next s.head ys s.made
  nodup : xs.Nodup
  node : ∀ a ∈ xs, a ≠ 0 ∧ s.live a = true
  fifo : s.consumed ++ xs.map s.num = s.appended

/-- What the consumer knows: the node it has taken off is its own, and the lines
it has printed. -/
structure ConsumerAt (s : State) (xs : List Nat) : Prop where
  taken : s.consumer.owns = true → s.live s.taken = true ∧ s.taken ∉ xs
  full : s.consumer = .take ∨ s.consumer = .pop → s.head ≠ 0
  pop : s.consumer = .pop → s.taken = s.head
  printed : s.printed ++ (if s.consumer.unprinted then [s.num s.taken] else []) = s.consumed

/-- What the producer knows: the node it has not put on the list is its own, and
it walks over the nodes of the list. -/
structure ProducerAt (s : State) (xs : List Nat) : Prop where
  made : s.producer.owns = true → s.made ≠ 0 ∧ s.live s.made = true ∧ s.made ∉ xs
  walk : s.producer.walks = true → s.it ∈ xs
  last : s.producer = .link → s.next s.it = 0
  more : s.producer = .advance → s.next s.it ≠ 0
  empty : s.producer = .setHead → s.head = 0

structure Shape (s : State) (xs : List Nat) : Prop where
  list : OnList s xs
  consumer : ConsumerAt s xs
  producer : ProducerAt s xs
  apart : s.producer.owns = true → s.consumer.owns = true → s.made ≠ s.taken

/-- The list does not depend on where the consumer is. -/
theorem OnList.consumer (h : OnList s xs) (pc : ConsumerPc) (taken : Nat) (printed : List Nat) :
    OnList { s with lock := lock, consumer := pc, taken := taken, printed := printed } xs :=
  ⟨h.closed, h.opened, h.nodup, h.node, h.fifo⟩

theorem ProducerAt.consumer (h : ProducerAt s xs) (pc : ConsumerPc) (taken : Nat)
    (printed : List Nat) :
    ProducerAt { s with lock := lock, consumer := pc, taken := taken, printed := printed } xs :=
  ⟨h.made, h.walk, h.last, h.more, h.empty⟩

/-- A list that is closed does not depend on where the producer is. -/
theorem OnList.producer (h : OnList s xs) (hpc : s.producer ≠ .clearNext) {pc : ProducerPc}
    (hpc' : pc ≠ .clearNext) (it : Nat) :
    OnList { s with lock := lock, producer := pc, it := it } xs :=
  ⟨fun _ => h.closed hpc, fun heq => absurd heq hpc', h.nodup, h.node, h.fifo⟩

theorem ConsumerAt.producer (h : ConsumerAt s xs) (pc : ProducerPc) (it : Nat) :
    ConsumerAt { s with lock := lock, producer := pc, it := it } xs :=
  ⟨h.taken, h.full, h.pop, h.printed⟩

/-- The consumer without a node, at a place where it does not look at the list. -/
theorem ConsumerAt.idle (h : ConsumerAt s xs) (hpc : s.consumer.unprinted = false)
    {pc : ConsumerPc} (howns : pc.owns = false) (hunprinted : pc.unprinted = false)
    (htake : pc ≠ .take) (hpop : pc ≠ .pop) : ConsumerAt { s with lock := lock, consumer := pc } xs := by
  have hprinted := h.printed
  rw [hpc] at hprinted
  refine ⟨fun hown => ?_, fun hor => ?_, fun heq => absurd heq hpop, ?_⟩
  · rw [howns] at hown
    cases hown
  · rcases hor with heq | heq
    · exact absurd heq htake
    · exact absurd heq hpop
  · rw [hunprinted]
    exact hprinted

/-- A closed list is empty exactly if `head` is `NULL`. -/
theorem OnList.head_eq_zero_iff (h : OnList s xs) (hpc : s.producer ≠ .clearNext) :
    xs = [] ↔ s.head = 0 :=
  (h.closed hpc).eq_nil_iff fun hzero => (h.node 0 hzero).1 rfl

theorem OnList.head_mem (h : OnList s xs) (hpc : s.producer ≠ .clearNext) (hhead : s.head ≠ 0) :
    ∃ ys, xs = s.head :: ys := by
  have hchain := h.closed hpc
  cases xs with
  | nil => exact absurd hchain hhead
  | cons x ys => exact ⟨ys, by rw [hchain.1]⟩

/-- The statements of the consumer that leave the list alone. -/
theorem Shape.consumer_idle (h : Shape s xs) (hpc : s.consumer.unprinted = false)
    {pc : ConsumerPc} (howns : pc.owns = false) (hunprinted : pc.unprinted = false)
    (htake : pc ≠ .take) (hpop : pc ≠ .pop) : Shape { s with lock := lock, consumer := pc } xs where
  list := h.list.consumer _ _ _
  consumer := h.consumer.idle hpc howns hunprinted htake hpop
  producer := h.producer.consumer _ _ _
  apart := by
    intro _ hown
    rw [howns] at hown
    cases hown

theorem Shape.consumerFull (h : Shape s xs) (hpc : s.consumer = .test) (hfull : s.head ≠ 0) :
    Shape { s with consumer := .take } xs where
  list := h.list.consumer _ _ _
  consumer := by
    have hprinted := h.consumer.printed
    rw [hpc] at hprinted
    exact ⟨fun hown => absurd hown Bool.false_ne_true, fun _ => hfull, by rintro ⟨⟩,
      hprinted⟩
  producer := h.producer.consumer _ _ _
  apart := fun _ hown => absurd hown Bool.false_ne_true

theorem Shape.consumerTake (h : Shape s xs) (hpc : s.consumer = .take) :
    Shape { s with taken := s.head, consumer := .pop } xs where
  list := h.list.consumer _ _ _
  consumer := by
    have hprinted := h.consumer.printed
    rw [hpc] at hprinted
    exact ⟨fun hown => absurd hown Bool.false_ne_true, fun _ => h.consumer.full (.inl hpc), fun _ => rfl,
      hprinted⟩
  producer := h.producer.consumer _ _ _
  apart := fun _ hown => absurd hown Bool.false_ne_true

/-- Outside the lock the producer knows only its own node. -/
theorem ProducerAt.outside (hout : s.producer.inside = false)
    (hmade : s.producer.owns = true → s.made ≠ 0 ∧ s.live s.made = true ∧ s.made ∉ xs) :
    ProducerAt s xs := by
  refine ⟨hmade, ?_, ?_, ?_, ?_⟩
  · intro hwalk
    cases hpc : s.producer <;> rw [hpc] at hwalk hout <;> simp [ProducerPc.walks, ProducerPc.inside] at hwalk hout
  · intro hpc
    rw [hpc] at hout
    cases hout
  · intro hpc
    rw [hpc] at hout
    cases hout
  · intro hpc
    rw [hpc] at hout
    cases hout

/-- The first node is taken off. -/
theorem Shape.consumerPop (h : Shape s xs) (hl : Locked s) (hpc : s.consumer = .pop) :
    ∃ ys, Shape { s with head := s.next s.taken, consumed := s.consumed ++ [s.num s.taken],
                         consumer := .unlock } ys := by
  have hout := hl.producer_outside (by rw [hpc]; rfl)
  have hclosed : s.producer ≠ .clearNext := by
    intro heq
    rw [heq] at hout
    cases hout
  obtain ⟨ys, rfl⟩ := h.list.head_mem hclosed (h.consumer.full (.inr hpc))
  have hhead := h.consumer.pop hpc
  have hnodup := List.nodup_cons.mp h.list.nodup
  have hprinted := h.consumer.printed
  rw [hpc] at hprinted
  refine ⟨ys, ⟨fun _ => ?_, fun heq => absurd heq hclosed, hnodup.2, ?_, ?_⟩, ⟨fun _ => ?_, ?_, ?_, ?_⟩,
    .outside hout ?_, ?_⟩
  · rw [hhead]
    exact (h.list.closed hclosed).2
  · exact fun a ha => h.list.node a (List.mem_cons_of_mem _ ha)
  · rw [← h.list.fifo, hhead, List.map_cons, List.append_assoc]
    rfl
  · rw [hhead]
    exact ⟨(h.list.node _ List.mem_cons_self).2, hnodup.1⟩
  · rintro (heq | heq) <;> cases heq
  · rintro ⟨⟩
  · rw [← hprinted]
    simp [ConsumerPc.unprinted]
  · intro hown
    obtain ⟨hnull, hlive, hnot⟩ := h.producer.made hown
    exact ⟨hnull, hlive, fun hmem => hnot (List.mem_cons_of_mem _ hmem)⟩
  · intro hown _ heq
    rw [hhead] at heq
    exact (h.producer.made hown).2.2 (heq ▸ List.mem_cons_self)

theorem Shape.consumerUnlock (h : Shape s xs) (hpc : s.consumer = .unlock) :
    Shape { s with lock := lock, consumer := .print } xs where
  list := h.list.consumer _ _ _
  consumer := by
    have hprinted := h.consumer.printed
    rw [hpc] at hprinted
    refine ⟨fun _ => h.consumer.taken (by rw [hpc]; rfl), ?_, by rintro ⟨⟩, hprinted⟩
    rintro (heq | heq) <;> cases heq
  producer := h.producer.consumer _ _ _
  apart := fun hown _ => h.apart hown (by rw [hpc]; rfl)

theorem Shape.consumerPrint (h : Shape s xs) (hpc : s.consumer = .print) :
    Shape { s with printed := s.printed ++ [s.num s.taken], consumer := .free } xs where
  list := h.list.consumer _ _ _
  consumer := by
    have hprinted := h.consumer.printed
    rw [hpc] at hprinted
    refine ⟨fun _ => h.consumer.taken (by rw [hpc]; rfl), ?_, by rintro ⟨⟩, ?_⟩
    · rintro (heq | heq) <;> cases heq
    · rw [← hprinted]
      exact List.append_nil _
  producer := h.producer.consumer _ _ _
  apart := fun hown _ => h.apart hown (by rw [hpc]; rfl)

/-- The node taken off is given back. It is no node of the list and not that of
the producer. -/
theorem Shape.consumerFree (h : Shape s xs) (hpc : s.consumer = .free) :
    Shape { s with live := Function.update s.live s.taken false, consumer := .lock } xs := by
  have htaken := h.consumer.taken (by rw [hpc]; rfl)
  have hkeep : ∀ b, b ≠ s.taken → s.live b = true →
      Function.update s.live s.taken false b = true := by
    intro b hb hlive
    rw [Function.update_of_ne hb]
    exact hlive
  have hprinted := h.consumer.printed
  rw [hpc] at hprinted
  refine ⟨⟨h.list.closed, h.list.opened, h.list.nodup, ?_, h.list.fifo⟩, ⟨?_, ?_, ?_, hprinted⟩,
    ⟨?_, h.producer.walk, h.producer.last, h.producer.more, h.producer.empty⟩, ?_⟩
  · intro a ha
    have hne : a ≠ s.taken := fun heq => htaken.2 (heq ▸ ha)
    exact ⟨(h.list.node a ha).1, hkeep a hne (h.list.node a ha).2⟩
  · exact fun hown => absurd hown Bool.false_ne_true
  · rintro (heq | heq) <;> cases heq
  · rintro ⟨⟩
  · intro hown
    obtain ⟨hnull, hlive, hnot⟩ := h.producer.made hown
    exact ⟨hnull, hkeep _ (h.apart hown (by rw [hpc]; rfl)) hlive, hnot⟩
  · exact fun _ hown => absurd hown Bool.false_ne_true

/-- The number of a node that is not on the list can change. -/
theorem OnList.fifo_update (h : OnList s xs) {a : Nat} (ha : a ∉ xs) (n : Nat) :
    s.consumed ++ xs.map (Function.update s.num a n) = s.appended := by
  rw [← h.fifo]
  congr 1
  apply List.map_congr_left
  intro b hb
  have hne : b ≠ a := fun heq => ha (heq ▸ hb)
  exact Function.update_of_ne hne _ _

theorem ConsumerPc.owns_of_unprinted {pc : ConsumerPc} (h : pc.unprinted = true) :
    pc.owns = true := by
  cases pc <;> first | rfl | cases h

/-- The number of a node that is not the consumer's can change. -/
theorem ConsumerAt.printed_update (h : ConsumerAt s xs) {a : Nat}
    (ha : s.consumer.owns = true → s.taken ≠ a) (n : Nat) :
    s.printed ++ (if s.consumer.unprinted then [Function.update s.num a n s.taken] else []) =
      s.consumed := by
  rw [← h.printed]
  cases hpc : s.consumer.unprinted with
  | false => rfl
  | true => rw [Function.update_of_ne (ha (ConsumerPc.owns_of_unprinted hpc))]

/-- A block that is not in use is neither on the list nor the consumer's. -/
theorem Shape.malloc (h : Shape s xs) (hpc : s.producer = .malloc) {a : Nat} (hnull : a ≠ 0)
    (hdead : s.live a = false) (next num : Nat) :
    Shape { s with next := Function.update s.next a next, num := Function.update s.num a num,
                   live := Function.update s.live a true, made := a, producer := .setNum } xs := by
  have hnot : a ∉ xs := by
    intro hmem
    have hlive := (h.list.node a hmem).2
    rw [hdead] at hlive
    cases hlive
  have hne : s.consumer.owns = true → s.taken ≠ a := by
    rintro hown rfl
    have hlive := (h.consumer.taken hown).1
    rw [hdead] at hlive
    cases hlive
  have hlive : ∀ b, s.live b = true → Function.update s.live a true b = true := by
    intro b hb
    rw [Function.update_apply, hb, ite_self]
  have hclosed : s.producer ≠ .clearNext := by
    rw [hpc]
    decide
  refine ⟨⟨fun _ => (h.list.closed hclosed).update hnot, ?_, h.list.nodup, ?_, ?_⟩,
    ⟨?_, h.consumer.full, h.consumer.pop, ?_⟩, .outside rfl ?_, ?_⟩
  · rintro ⟨⟩
  · exact fun b hb => ⟨(h.list.node b hb).1, hlive b (h.list.node b hb).2⟩
  · exact h.list.fifo_update hnot num
  · exact fun hown => ⟨hlive _ (h.consumer.taken hown).1, (h.consumer.taken hown).2⟩
  · exact h.consumer.printed_update hne num
  · exact fun _ => ⟨hnull, Function.update_self _ _ _, hnot⟩
  · exact fun _ hown => (hne hown).symm

theorem Shape.setNum (h : Shape s xs) (hpc : s.producer = .setNum) (n : Nat) :
    Shape { s with num := Function.update s.num s.made n, producer := .lock } xs := by
  obtain ⟨hnull, hlive, hnot⟩ := h.producer.made (by rw [hpc]; rfl)
  have hne : s.consumer.owns = true → s.taken ≠ s.made :=
    fun hown => (h.apart (by rw [hpc]; rfl) hown).symm
  have hclosed : s.producer ≠ .clearNext := by
    rw [hpc]
    decide
  refine ⟨⟨fun _ => h.list.closed hclosed, ?_, h.list.nodup, h.list.node, h.list.fifo_update hnot n⟩,
    ⟨h.consumer.taken, h.consumer.full, h.consumer.pop, h.consumer.printed_update hne n⟩,
    .outside rfl fun _ => ⟨hnull, hlive, hnot⟩, fun _ hown => (hne hown).symm⟩
  rintro ⟨⟩

/-- The statements of the producer that leave the list and its node alone. -/
theorem Shape.producer_keeps (h : Shape s xs) (hpc : s.producer ≠ .clearNext) {pc : ProducerPc}
    (hpc' : pc ≠ .clearNext) {it : Nat} (howns : pc.owns = true → s.producer.owns = true)
    (hat : ProducerAt { s with lock := lock, producer := pc, it := it } xs) :
    Shape { s with lock := lock, producer := pc, it := it } xs where
  list := h.list.producer hpc hpc' it
  consumer := h.consumer.producer pc it
  producer := hat
  apart := fun hown => h.apart (howns hown)

/-- The producer comes to a place outside the lock. -/
theorem Shape.producer_outside (h : Shape s xs) (hpc : s.producer ≠ .clearNext) {pc : ProducerPc}
    (hout : pc.inside = false) (howns : pc.owns = false) :
    Shape { s with lock := lock, producer := pc } xs := by
  have hpc' : pc ≠ .clearNext := by
    rintro rfl
    cases hout
  have hown : pc.owns ≠ true := by
    rw [howns]
    decide
  exact h.producer_keeps hpc hpc' (fun heq => absurd heq hown) (.outside hout fun heq => absurd heq hown)

theorem ProducerPc.ne_clearNext_of_owns {pc : ProducerPc} (h : pc.owns = true) :
    pc ≠ .clearNext := by
  rintro rfl
  cases h

theorem ProducerPc.owns_of_walks {pc : ProducerPc} (h : pc.walks = true) : pc.owns = true := by
  cases pc with
  | loop | testNext | link | advance => rfl
  | _ => cases h

/-- The producer looks for the end of the list. -/
theorem Shape.producer_walks (h : Shape s xs) (hown : s.producer.owns = true) {pc : ProducerPc}
    (hwalks : pc.walks = true) {it : Nat} (hit : it ∈ xs) (hlast : pc = .link → s.next it = 0)
    (hmore : pc = .advance → s.next it ≠ 0) : Shape { s with producer := pc, it := it } xs := by
  have hpc' : pc ≠ .clearNext := ProducerPc.ne_clearNext_of_owns (ProducerPc.owns_of_walks hwalks)
  refine h.producer_keeps (ProducerPc.ne_clearNext_of_owns hown) hpc' (fun _ => hown)
    ⟨fun _ => h.producer.made hown, fun _ => hit, hlast, hmore, ?_⟩
  rintro rfl
  cases hwalks

/-- The producer tests the node it stands at. -/
theorem Shape.producer_tests (h : Shape s xs) (hwalk : s.producer.walks = true) {pc : ProducerPc}
    (hwalks : pc.walks = true) (hlast : pc = .link → s.next s.it = 0)
    (hmore : pc = .advance → s.next s.it ≠ 0) : Shape { s with producer := pc } xs :=
  h.producer_walks (ProducerPc.owns_of_walks hwalk) hwalks (h.producer.walk hwalk) hlast hmore

/-- Outside the lock the consumer knows only its own node. -/
theorem ConsumerAt.outside (hout : s.consumer.inside = false)
    (htaken : s.consumer.owns = true → s.live s.taken = true ∧ s.taken ∉ xs)
    (hprinted : s.printed ++ (if s.consumer.unprinted then [s.num s.taken] else []) = s.consumed) :
    ConsumerAt s xs := by
  refine ⟨htaken, ?_, ?_, hprinted⟩
  · rintro (hpc | hpc) <;> rw [hpc] at hout <;> cases hout
  · intro hpc
    rw [hpc] at hout
    cases hout

/-- The node of the producer comes behind the others. -/
theorem Shape.append (h : Shape s xs) (hl : Locked s) (hin : s.producer.inside = true)
    (hown : s.producer.owns = true) {head : Nat} {next : Nat → Nat}
    (hchain : Chain next head xs s.made) :
    Shape { s with head := head, next := next, appended := s.appended ++ [s.num s.made],
                   producer := .clearNext } (xs ++ [s.made]) := by
  obtain ⟨hnull, hlive, hnot⟩ := h.producer.made hown
  refine ⟨⟨fun hne => absurd rfl hne, fun _ => ⟨xs, rfl, hchain⟩, ?_, ?_, ?_⟩,
    .outside (hl.consumer_outside hin) ?_ h.consumer.printed, ⟨?_, ?_, ?_, ?_, ?_⟩, ?_⟩
  · rw [List.nodup_append]
    refine ⟨h.list.nodup, List.nodup_singleton _, ?_⟩
    rintro a ha b hb rfl
    exact hnot (List.mem_singleton.mp hb ▸ ha)
  · intro a ha
    rcases List.mem_append.mp ha with hmem | hmem
    · exact h.list.node a hmem
    · rw [List.mem_singleton.mp hmem]
      exact ⟨hnull, hlive⟩
  · rw [List.map_append, ← List.append_assoc, h.list.fifo]
    rfl
  · intro howns
    refine ⟨(h.consumer.taken howns).1, fun hmem => ?_⟩
    rcases List.mem_append.mp hmem with hmem | hmem
    · exact (h.consumer.taken howns).2 hmem
    · exact h.apart hown howns (List.mem_singleton.mp hmem).symm
  · exact fun howns => absurd howns Bool.false_ne_true
  · exact fun hwalk => absurd hwalk Bool.false_ne_true
  · rintro ⟨⟩
  · rintro ⟨⟩
  · rintro ⟨⟩
  · exact fun howns => absurd howns Bool.false_ne_true

theorem Shape.setHead (h : Shape s xs) (hl : Locked s) (hpc : s.producer = .setHead) :
    ∃ ys, Shape { s with head := s.made, appended := s.appended ++ [s.num s.made],
                         producer := .clearNext } ys := by
  have hempty : xs = [] :=
    (h.list.head_eq_zero_iff (by rw [hpc]; decide)).mpr (h.producer.empty hpc)
  subst hempty
  exact ⟨_, h.append hl (by rw [hpc]; rfl) (by rw [hpc]; rfl) rfl⟩

/-- The producer stands at the last node. -/
theorem Shape.link (h : Shape s xs) (hl : Locked s) (hpc : s.producer = .link) :
    ∃ ys, Shape { s with next := Function.update s.next s.it s.made,
                         appended := s.appended ++ [s.num s.made], producer := .clearNext } ys := by
  have hchain := h.list.closed (by rw [hpc]; decide)
  have hnext := h.producer.last hpc
  rcases hchain.next_mem (h.producer.walk (by rw [hpc]; rfl)) with hmem | ⟨-, ys, rfl⟩
  · exact absurd hnext (h.list.node _ hmem).1
  · have hnot : s.it ∉ ys := by
      intro hmem
      exact (List.nodup_append.mp h.list.nodup).2.2 _ hmem _ List.mem_cons_self rfl
    refine ⟨_, h.append hl (by rw [hpc]; rfl) (by rw [hpc]; rfl) ?_⟩
    exact Chain.concat_iff.mpr
      ⟨(Chain.concat_iff.mp hchain).1.update hnot, Function.update_self _ _ _⟩

/-- The last node is closed. -/
theorem Shape.clearNext (h : Shape s xs) (hpc : s.producer = .clearNext) :
    Shape { s with next := Function.update s.next s.made 0, producer := .unlock } xs := by
  obtain ⟨ys, rfl, hchain⟩ := h.list.opened hpc
  have hnot : s.made ∉ ys := by
    intro hmem
    exact (List.nodup_append.mp h.list.nodup).2.2 _ hmem _ List.mem_cons_self rfl
  refine ⟨⟨fun _ => ?_, ?_, h.list.nodup, h.list.node, h.list.fifo⟩,
    ⟨h.consumer.taken, h.consumer.full, h.consumer.pop, h.consumer.printed⟩, ⟨?_, ?_, ?_, ?_, ?_⟩, ?_⟩
  · exact Chain.concat_iff.mpr ⟨hchain.update hnot, Function.update_self _ _ _⟩
  · rintro ⟨⟩
  · exact fun howns => absurd howns Bool.false_ne_true
  · exact fun hwalk => absurd hwalk Bool.false_ne_true
  · rintro ⟨⟩
  · rintro ⟨⟩
  · rintro ⟨⟩
  · exact fun howns => absurd howns Bool.false_ne_true

theorem Shape.producerLock (h : Shape s xs) (hpc : s.producer = .lock) :
    Shape { s with lock := lock, producer := .test } xs := by
  refine h.producer_keeps (by rw [hpc]; decide) (by decide) (fun _ => by rw [hpc]; rfl)
    ⟨fun _ => h.producer.made (by rw [hpc]; rfl), ?_, ?_, ?_, ?_⟩
  · exact fun hwalk => absurd hwalk Bool.false_ne_true
  · rintro ⟨⟩
  · rintro ⟨⟩
  · rintro ⟨⟩

theorem Shape.producerEmpty (h : Shape s xs) (hpc : s.producer = .test) (hempty : s.head = 0) :
    Shape { s with producer := .setHead } xs := by
  refine h.producer_keeps (by rw [hpc]; decide) (by decide) (fun _ => by rw [hpc]; rfl)
    ⟨fun _ => h.producer.made (by rw [hpc]; rfl), ?_, ?_, ?_, fun _ => hempty⟩
  · exact fun hwalk => absurd hwalk Bool.false_ne_true
  · rintro ⟨⟩
  · rintro ⟨⟩

theorem Shape.loopEnd (h : Shape s xs) (hpc : s.producer = .loop) :
    Shape { s with producer := .unlock } xs := by
  refine h.producer_keeps (by rw [hpc]; decide) (by decide)
    (fun hown => absurd hown Bool.false_ne_true) ⟨?_, ?_, ?_, ?_, ?_⟩
  · exact fun hown => absurd hown Bool.false_ne_true
  · exact fun hwalk => absurd hwalk Bool.false_ne_true
  · rintro ⟨⟩
  · rintro ⟨⟩
  · rintro ⟨⟩

theorem Shape.moves (h : Shape s xs) (hl : Locked s) (hm : Moves s t) : ∃ ys, Shape t ys := by
  cases hm with
  | consumerLock pc => exact ⟨xs, h.consumer_idle (by rw [pc]; rfl) rfl rfl (by decide) (by decide)⟩
  | consumerEmpty pc => exact ⟨xs, h.consumer_idle (by rw [pc]; rfl) rfl rfl (by decide) (by decide)⟩
  | consumerFull pc full => exact ⟨xs, h.consumerFull pc full⟩
  | consumerWait pc => exact ⟨xs, h.consumer_idle (by rw [pc]; rfl) rfl rfl (by decide) (by decide)⟩
  | consumerRelock pc => exact ⟨xs, h.consumer_idle (by rw [pc]; rfl) rfl rfl (by decide) (by decide)⟩
  | consumerTake pc => exact ⟨xs, h.consumerTake pc⟩
  | consumerPop pc => exact h.consumerPop hl pc
  | consumerUnlock pc => exact ⟨xs, h.consumerUnlock pc⟩
  | consumerPrint pc => exact ⟨xs, h.consumerPrint pc⟩
  | consumerFree pc => exact ⟨xs, h.consumerFree pc⟩
  | spurious pc => exact ⟨xs, h.consumer_idle (by rw [pc]; rfl) rfl rfl (by decide) (by decide)⟩
  | malloc pc null dead => exact ⟨xs, h.malloc pc null dead _ _⟩
  | setNum pc => exact ⟨xs, h.setNum pc _⟩
  | setHead pc => exact h.setHead hl pc
  | link pc => exact h.link hl pc
  | clearNext pc => exact ⟨xs, h.clearNext pc⟩
  | producerLock pc => exact ⟨xs, h.producerLock pc⟩
  | producerEmpty pc empty => exact ⟨xs, h.producerEmpty pc empty⟩
  | producerFull pc full =>
      obtain ⟨ys, hys⟩ := h.list.head_mem (by rw [pc]; decide) full
      exact ⟨xs, h.producer_walks (by rw [pc]; rfl) rfl (hys ▸ List.mem_cons_self)
        (by rintro ⟨⟩) (by rintro ⟨⟩)⟩
  | loopEnd pc => exact ⟨xs, h.loopEnd pc⟩
  | loopBody pc =>
      exact ⟨xs, h.producer_tests (by rw [pc]; rfl) rfl (by rintro ⟨⟩) (by rintro ⟨⟩)⟩
  | nextNull pc last =>
      exact ⟨xs, h.producer_tests (by rw [pc]; rfl) rfl (fun _ => last) (by rintro ⟨⟩)⟩
  | nextNode pc more =>
      exact ⟨xs, h.producer_tests (by rw [pc]; rfl) rfl (by rintro ⟨⟩) (fun _ => more)⟩
  | advance pc =>
      have hchain := h.list.closed (by rw [pc]; decide)
      have hmem : s.next s.it ∈ xs :=
        (hchain.next_mem (h.producer.walk (by rw [pc]; rfl))).resolve_right
          fun hend => h.producer.more pc hend.1
      exact ⟨xs, h.producer_walks (by rw [pc]; rfl) rfl hmem (by rintro ⟨⟩) (by rintro ⟨⟩)⟩
  | producerUnlock pc => exact ⟨xs, h.producer_outside (by rw [pc]; decide) rfl rfl⟩
  | signal pc asleep =>
      have hwoken : Shape { s with consumer := .woken } xs :=
        h.consumer_idle (by rw [asleep]; rfl) rfl rfl (by decide) (by decide)
      have hout : s.producer ≠ .clearNext := by
        rw [pc]
        decide
      exact ⟨xs, hwoken.producer_outside hout rfl rfl⟩
  | signalLost pc => exact ⟨xs, h.producer_outside (by rw [pc]; decide) rfl rfl⟩

end Shape

section Wakeup

variable {s t : State} {l : Label} {next num : Nat → Nat}

/-- The consumer goes to sleep before an empty list, and when it sleeps before
another one the producer still has its signal to send. -/
structure Wakeful (s : State) : Prop where
  wait : s.consumer = .wait → s.head = 0
  waiting : s.consumer = .waiting → s.head ≠ 0 →
    s.producer = .clearNext ∨ s.producer = .unlock ∨ s.producer = .signal

theorem wakeful_of_awake (hwait : t.consumer ≠ .wait) (hwaiting : t.consumer ≠ .waiting) :
    Wakeful t :=
  ⟨fun heq => absurd heq hwait, fun heq => absurd heq hwaiting⟩

/-- A statement of the producer that leaves `head` alone. -/
theorem Wakeful.producer (h : Wakeful s) (hhead : t.head = s.head) (hc : t.consumer = s.consumer)
    (hp : s.producer = .clearNext ∨ s.producer = .unlock ∨ s.producer = .signal →
      t.producer = .clearNext ∨ t.producer = .unlock ∨ t.producer = .signal) : Wakeful t := by
  constructor
  · rw [hhead, hc]
    exact h.wait
  · rw [hhead, hc]
    exact fun hwaiting hne => hp (h.waiting hwaiting hne)

theorem Wakeful.moves (h : Wakeful s) (hl : Locked s) (hm : Moves s t) : Wakeful t := by
  cases hm with
  | consumerEmpty pc empty => exact ⟨fun _ => empty, fun heq => (by cases heq)⟩
  | consumerWait pc => exact ⟨fun heq => (by cases heq), fun _ hne => absurd (h.wait pc) hne⟩
  | consumerLock | consumerFull | consumerRelock | consumerTake | consumerPop | consumerUnlock
  | consumerPrint | consumerFree | spurious | signal =>
      exact wakeful_of_awake (by rintro ⟨⟩) (by rintro ⟨⟩)
  | setHead pc =>
      have hout := hl.consumer_outside (by rw [pc]; rfl)
      refine ⟨fun heq => ?_, fun _ _ => .inl rfl⟩
      change s.consumer = .wait at heq
      rw [heq] at hout
      cases hout
  | signalLost pc awake => exact ⟨h.wait, fun heq => absurd heq awake⟩
  | malloc pc | setNum pc | producerLock pc | producerEmpty pc | producerFull pc | loopEnd pc
  | loopBody pc | nextNull pc | nextNode pc | link pc | advance pc | clearNext pc
  | producerUnlock pc => exact h.producer rfl rfl (by simp [pc])

/-- Everything that is known of a state. -/
structure Sound (s : State) : Prop where
  locked : Locked s
  wakeful : Wakeful s
  shape : ∃ xs, Shape s xs

theorem sound_init (next num : Nat → Nat) : Sound (init next num) where
  locked := by constructor <;> simp [init, ConsumerPc.inside, ProducerPc.inside]
  wakeful := by constructor <;> simp [init]
  shape := by
    refine ⟨[], ⟨fun _ => rfl, ?_, List.nodup_nil, ?_, rfl⟩, .outside rfl ?_ rfl, .outside rfl ?_, ?_⟩
    · rintro ⟨⟩
    · exact fun _ ha => absurd ha List.not_mem_nil
    · exact fun hown => absurd hown Bool.false_ne_true
    · exact fun hown => absurd hown Bool.false_ne_true
    · exact fun hown => absurd hown Bool.false_ne_true

theorem sound_of_reachable (h : Reachable step (init next num) s) : Sound s := by
  refine h.invariant (sound_init next num) ?_
  intro t u l ht hu
  have hm := moves_of_step hu
  obtain ⟨xs, hxs⟩ := ht.shape
  exact ⟨ht.locked.moves hm, ht.wakeful.moves ht.locked hm, hxs.moves ht.locked hm⟩

/-- In every state of every run: except between the two statements that put a
node on the list, in particular while the lock is free, the list from `head` ends
at `NULL`, has no freed node, and continues the numbers taken off to those put
on; the consumer follows no `NULL` pointer; and when it sleeps before a list that
is not empty, the producer is between putting its node on the list and its
signal, behind its unlock if the lock is free. -/
theorem queue_of_reachable (h : Reachable step (init next num) s) :
    ((s.lock = none → s.producer ≠ .clearNext) ∧ (s.producer ≠ .clearNext →
      ∃ xs, Chain s.next s.head xs 0 ∧ xs.Nodup ∧ (∀ a ∈ xs, a ≠ 0 ∧ s.live a = true) ∧
        s.consumed ++ xs.map s.num = s.appended)) ∧
    s.printed <+: s.consumed ∧
    (s.consumer = .pop → s.taken = s.head ∧ s.head ≠ 0 ∧ s.live s.head = true) ∧
    (s.consumer = .waiting → s.head ≠ 0 →
      (s.producer = .clearNext ∨ s.producer = .unlock ∨ s.producer = .signal) ∧
        (s.lock = none → s.producer = .signal)) := by
  obtain ⟨hl, hw, xs, hxs⟩ := sound_of_reachable h
  have hfree : s.lock = none → s.producer.inside = false :=
    fun hnone => (hl.outside_of_free hnone).2
  have hclosed : s.lock = none → s.producer ≠ .clearNext := by
    intro hnone heq
    have hout := hfree hnone
    rw [heq] at hout
    cases hout
  refine ⟨⟨hclosed, fun hpc => ⟨xs, hxs.list.closed hpc, hxs.list.nodup, hxs.list.node,
    hxs.list.fifo⟩⟩, ⟨_, hxs.consumer.printed⟩, fun hpc => ?_, fun hpc hhead => ?_⟩
  · have hout := hl.producer_outside (by rw [hpc]; rfl)
    have hne : s.producer ≠ .clearNext := by
      intro heq
      rw [heq] at hout
      cases hout
    have hfull := hxs.consumer.full (.inr hpc)
    obtain ⟨ys, hys⟩ := hxs.list.head_mem hne hfull
    exact ⟨hxs.consumer.pop hpc, hfull, (hxs.list.node _ (hys ▸ List.mem_cons_self)).2⟩
  · refine ⟨hw.waiting hpc hhead, fun hnone => ?_⟩
    have hout := hfree hnone
    rcases hw.waiting hpc hhead with heq | heq | heq
    · exact absurd heq (hclosed hnone)
    · rw [heq] at hout
      cases hout
    · exact heq

/-- The consumer goes to sleep, then the producer puts its first node on the list. -/
def sleepThenLink : List Label :=
  [.consumer, .consumer, .consumer, .malloc 1 1 0, .producer 41, .producer 0, .producer 0,
    .producer 0]

/-- The consumer sleeps before the node and the producer has not even released
the lock; the node still holds what `malloc` left in it and follows itself. -/
theorem asleep_before_unlock : ∃ s, Reachable step (init (fun _ => 0) fun _ => 0) s ∧
    s.consumer = .waiting ∧ s.head = 1 ∧ s.producer = .clearNext ∧ s.lock = some .producer ∧
    s.next 1 = 1 := by
  have hx : (replay step sleepThenLink (init (fun _ => 0) fun _ => 0)).any (fun s =>
      decide (s.consumer = .waiting ∧ s.head = 1 ∧ s.producer = .clearNext ∧
        s.lock = some .producer ∧ s.next 1 = 1)) = true := by decide +kernel
  obtain ⟨s, hs, hprop⟩ := exists_of_replay_any hx
  exact ⟨s, .of_replay hs, hprop⟩

/-- The producer has released the lock. -/
theorem queue_sleepThenLink : ∃ s, Reachable step (init (fun _ => 0) fun _ => 0) s ∧
    s.consumer = .waiting ∧ s.head = 1 ∧ s.lock = none ∧ s.producer = .signal ∧
    ∃ xs, Chain s.next s.head xs 0 ∧ s.consumed ++ xs.map s.num = s.appended := by
  have hx : (replay step (sleepThenLink ++ [.producer 0, .producer 0])
      (init (fun _ => 0) fun _ => 0)).any (fun s =>
        decide (s.consumer = .waiting ∧ s.head = 1 ∧ s.lock = none)) = true := by decide +kernel
  obtain ⟨s, hs, hpc, hhead, hlock⟩ := exists_of_replay_any hx
  obtain ⟨⟨hclosed, hlist⟩, -, -, hwait⟩ := queue_of_reachable (.of_replay hs)
  obtain ⟨xs, hchain, -, -, hfifo⟩ := hlist (hclosed hlock)
  have hsignal := (hwait hpc (by rw [hhead]; decide)).2 hlock
  exact ⟨s, .of_replay hs, hpc, hhead, hlock, hsignal, xs, hchain, hfifo⟩

end Wakeup

end LinuxDevelopment.CondVar
