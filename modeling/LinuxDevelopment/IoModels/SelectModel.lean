import LinuxDevelopment.Base.Transition

/-!
# select-model: the table of clients

One turn of the main loop of `select-model.c`: the answer of `select`, a new
connection, and a pass over the clients. The set of descriptors is kept in four
places (`client`, `maxi`, `maxfd`, `allset`), which are changed at different
points.

`fd_set` is an array of 16 words of 64 bits. `FD_SET(fd)` sets the bit
`fd % 64` of the word `fd / 64`, with the division of C; a word outside the array
is undefined behaviour, and the shift count of a negative remainder is taken
modulo 64, as the machine does. So `FD_SET(-1)` sets the bit of the descriptor 63.
-/

namespace LinuxDevelopment.SelectModel

/-- `FD_SETSIZE`. -/
def fdSetsize : Nat := 1024

/-- The bits of an `fd_set`. -/
abbrev FdSet := Nat → Bool

/-- Why the program does not come back to `select`. -/
inductive Halt where
  | exit (code : Int)
  | undefined
  deriving DecidableEq, Repr

/-- The bit the macros `FD_SET`, `FD_CLR` and `FD_ISSET` work on. -/
def fdElt (fd : Int) : Except Halt Nat :=
  let bit := Int.tdiv fd 64 * 64 + fd % 64
  if 0 ≤ bit ∧ bit < fdSetsize then .ok bit.toNat else .error .undefined

def fdSet (fd : Int) (set : FdSet) : Except Halt FdSet :=
  (fdElt fd).map fun k => Function.update set k true

def fdClr (fd : Int) (set : FdSet) : Except Halt FdSet :=
  (fdElt fd).map fun k => Function.update set k false

def fdIsset (fd : Int) (set : FdSet) : Except Halt Bool := (fdElt fd).map set

/-- The variables that live from one turn of the loop to the next. -/
structure Server where
  client : Nat → Int
  maxi : Int
  maxfd : Int
  allset : FdSet

/-- The answers of the kernel during one turn. -/
structure Turn where
  /-- what `select` returns -/
  nready : Int
  /-- what `select` leaves in `rset` -/
  rset : FdSet
  /-- what `accept` returns, if it is called -/
  connfd : Int
  /-- what `read` returns for a descriptor -/
  read : Int → Int

/-- The system calls on the connections. -/
inductive Event where
  | accept (connfd : Int)
  | read (fd n : Int)
  | close (fd : Int)
  | write (fd n : Int)
  deriving DecidableEq, Repr

/-- The state in front of the loop. -/
def start (listenfd : Int) : Except Halt Server :=
  (fdSet listenfd fun _ => false).map fun allset => ⟨fun _ => -1, -1, listenfd, allset⟩

/-- The loop that looks for an entry of `client` that is free. -/
def freeSlot (client : Nat → Int) : (left i : Nat) → Nat
  | 0, i => i
  | left + 1, i => if client i < 0 then i else freeSlot client left (i + 1)

/-- A new client connection. -/
def addClient (s : Server) (connfd : Int) : Except Halt Server :=
  let i := freeSlot s.client fdSetsize 0
  if i = fdSetsize then .error (.exit 1)
  else (fdSet connfd s.allset).map fun allset =>
    { client := Function.update s.client i connfd
      maxi := if (i : Int) > s.maxi then i else s.maxi
      maxfd := if connfd > s.maxfd then connfd else s.maxfd
      allset := allset }

/-- Serve the readable client `sockfd`, which is the entry `i`. -/
def serve (turn : Turn) (i : Nat) (sockfd : Int) (s : Server) : Except Halt (List Event × Server) :=
  if turn.read sockfd = 0 then
    (fdClr sockfd s.allset).map fun allset =>
      ([.read sockfd 0, .close sockfd],
        { s with allset := allset, client := Function.update s.client i (-1) })
  else .ok ([.read sockfd (turn.read sockfd), .write sockfd (turn.read sockfd)], s)

/-- Check all clients for data. -/
def clientLoop (turn : Turn) :
    (left i : Nat) → Int → Server → Except Halt (List Event × Server)
  | 0, _, _, s => .ok ([], s)
  | left + 1, i, nready, s =>
      let sockfd := s.client i
      if sockfd < 0 then clientLoop turn left (i + 1) nready s
      else (fdIsset sockfd turn.rset).bind fun isset =>
        if isset then (serve turn i sockfd s).bind fun x =>
          if nready - 1 = 0 then .ok x
          else (clientLoop turn left (i + 1) (nready - 1) x.2).map fun y => (x.1 ++ y.1, y.2)
        else clientLoop turn left (i + 1) nready s

/-- One turn of the loop of `main`. -/
def turnLoop (listenfd : Int) (s : Server) (turn : Turn) : Except Halt (List Event × Server) :=
  if turn.nready < 0 then .error (.exit (-1))
  else (fdIsset listenfd turn.rset).bind fun isset =>
    if isset then (addClient s turn.connfd).bind fun s =>
      if turn.nready - 1 = 0 then .ok ([.accept turn.connfd], s)
      else (clientLoop turn (s.maxi + 1).toNat 0 (turn.nready - 1) s).map fun y =>
        (.accept turn.connfd :: y.1, y.2)
    else clientLoop turn (s.maxi + 1).toNat 0 turn.nready s

/-- The program between two calls of `select`, or when it has ended. -/
def step (listenfd : Int) : Except Halt Server → Turn → Option (Except Halt Server)
  | .ok s, turn => some ((turnLoop listenfd s turn).map Prod.snd)
  | .error _, _ => none

/-- The four places agree. -/
structure Table (listenfd : Int) (s : Server) : Prop where
  allset : ∀ k, s.allset k = true ↔ (k : Int) = listenfd ∨ ∃ i < fdSetsize, s.client i = k
  listenfd_range : 0 ≤ listenfd ∧ listenfd < fdSetsize
  client_lt : ∀ i < fdSetsize, s.client i < fdSetsize
  client_ne : ∀ i < fdSetsize, s.client i ≠ listenfd
  distinct : ∀ i < fdSetsize, ∀ j < fdSetsize, 0 ≤ s.client i → s.client i = s.client j → i = j
  le_maxi : ∀ i < fdSetsize, 0 ≤ s.client i → (i : Int) ≤ s.maxi
  maxi_lt : s.maxi < fdSetsize
  le_maxfd : ∀ k, s.allset k = true → (k : Int) ≤ s.maxfd

/-- A descriptor that is not open yet. -/
def Fresh (listenfd : Int) (s : Server) (connfd : Int) : Prop :=
  connfd ≠ listenfd ∧ ∀ i < fdSetsize, s.client i ≠ connfd

section Bits

variable {fd : Int}

theorem fdElt_eq (h : 0 ≤ fd ∧ fd < fdSetsize) : fdElt fd = .ok fd.toNat := by
  have hbit : Int.tdiv fd 64 * 64 + fd % 64 = fd := by
    rw [Int.tdiv_eq_ediv_of_nonneg h.1, Int.ediv_mul_add_emod]
  unfold fdElt
  simp only [hbit]
  rw [if_pos h]

theorem fdElt_of_large (h : (fdSetsize : Int) ≤ fd) : fdElt fd = .error .undefined := by
  have hpos : 0 ≤ fd := by
    unfold fdSetsize at h
    omega
  have hbit : Int.tdiv fd 64 * 64 + fd % 64 = fd := by
    rw [Int.tdiv_eq_ediv_of_nonneg hpos, Int.ediv_mul_add_emod]
  unfold fdElt
  simp only [hbit]
  rw [if_neg (by omega)]

end Bits

section Slots

variable {client : Nat → Int} {left i j : Nat}

theorem freeSlot_le : freeSlot client left i ≤ i + left := by
  induction left generalizing i with
  | zero => exact Nat.le_refl i
  | succ left ih =>
      unfold freeSlot
      split_ifs
      · omega
      · have := @ih (i + 1)
        omega

/-- The entry found is free. -/
theorem client_freeSlot (h : freeSlot client left i ≠ i + left) :
    client (freeSlot client left i) < 0 := by
  induction left generalizing i with
  | zero => exact absurd rfl h
  | succ left ih =>
      unfold freeSlot at h ⊢
      split_ifs at h ⊢ with hfree
      · exact hfree
      · exact ih (by omega)

/-- Nothing is found only if no entry is free. -/
theorem used_of_freeSlot (h : freeSlot client left i = i + left) (hj : i ≤ j) (hlt : j < i + left) :
    0 ≤ client j := by
  induction left generalizing i with
  | zero => omega
  | succ left ih =>
      unfold freeSlot at h
      split_ifs at h with hfree
      · omega
      · rcases Nat.eq_or_lt_of_le hj with rfl | hlt'
        · omega
        · exact ih (i := i + 1) (by omega) hlt' (by omega)

end Slots

namespace Table

variable {listenfd connfd : Int} {s s' : Server} {i : Nat}

/-- A descriptor of the set is one of the first `FD_SETSIZE`. -/
theorem bit_lt (h : Table listenfd s) {k : Nat} (hk : s.allset k = true) : k < fdSetsize := by
  have hlisten := h.listenfd_range
  rcases (h.allset k).mp hk with heq | ⟨i, hi, heq⟩
  · omega
  · have hlt := h.client_lt i hi
    omega

theorem start_ok (h : 0 ≤ listenfd ∧ listenfd < fdSetsize) :
    ∃ s, start listenfd = .ok s ∧ Table listenfd s := by
  refine ⟨⟨fun _ => -1, -1, listenfd, Function.update (fun _ => false) listenfd.toNat true⟩, ?_, ?_⟩
  · unfold start fdSet
    rw [fdElt_eq h]
    rfl
  · have hall : ∀ k, Function.update (fun _ => false) listenfd.toNat true k = true ↔
        (k : Int) = listenfd := by
      intro k
      rw [Function.update_apply]
      split_ifs with heq
      · exact iff_of_true rfl (by omega)
      · exact iff_of_false id (by omega)
    constructor
    case allset =>
      intro k
      rw [hall]
      constructor
      · exact .inl
      · rintro (heq | ⟨i, -, heq⟩)
        · exact heq
        · dsimp only at heq
          omega
    case listenfd_range => exact h
    case client_lt => exact fun i _ => by dsimp only; omega
    case client_ne => exact fun i _ => by dsimp only; omega
    case distinct => exact fun i _ j _ hpos => by dsimp only at hpos; omega
    case le_maxi => exact fun i _ hpos => by dsimp only at hpos; omega
    case maxi_lt => dsimp only; omega
    case le_maxfd => exact fun k hk => Int.le_of_eq ((hall k).mp hk)

/-- There are fewer clients than entries, since `listenfd` is no client. -/
theorem freeSlot_lt (h : Table listenfd s) : freeSlot s.client fdSetsize 0 < fdSetsize := by
  by_contra hfull
  have hslot : freeSlot s.client fdSetsize 0 = 0 + fdSetsize := by
    have hle : freeSlot s.client fdSetsize 0 ≤ 0 + fdSetsize := freeSlot_le
    omega
  have hused : ∀ j < fdSetsize, 0 ≤ s.client j := fun j hj =>
    used_of_freeSlot hslot (Nat.zero_le j) (by omega)
  have hlisten := h.listenfd_range
  -- all descriptors but the listening one are taken, by more entries than there are descriptors
  have hmaps : ∀ j ∈ Finset.range fdSetsize,
      (s.client j).toNat ∈ (Finset.range fdSetsize).erase listenfd.toNat := by
    intro j hj
    have hjlt := Finset.mem_range.mp hj
    have hpos := hused j hjlt
    have hlt := h.client_lt j hjlt
    have hne := h.client_ne j hjlt
    rw [Finset.mem_erase, Finset.mem_range]
    omega
  have hcard : ((Finset.range fdSetsize).erase listenfd.toNat).card <
      (Finset.range fdSetsize).card := by
    apply Finset.card_erase_lt_of_mem
    rw [Finset.mem_range]
    omega
  obtain ⟨i, hi, j, hj, hne, heq⟩ := Finset.exists_ne_map_eq_of_card_lt_of_maps_to hcard hmaps
  have hilt := Finset.mem_range.mp hi
  have hjlt := Finset.mem_range.mp hj
  have hipos := hused i hilt
  have hjpos := hused j hjlt
  exact hne (h.distinct i hilt j hjlt hipos (by omega))

/-- A new client in a free entry. -/
theorem add (h : Table listenfd s) (hfresh : Fresh listenfd s connfd)
    (hlt : connfd < fdSetsize) (hi : i < fdSetsize) (hfree : s.client i < 0)
    (hclient : ∀ j, s'.client j = if j = i then connfd else s.client j)
    (hallset : ∀ k, s'.allset k = true ↔ (k : Int) = connfd ∨ s.allset k = true)
    (hmaxi : s.maxi ≤ s'.maxi ∧ (i : Int) ≤ s'.maxi) (hmaxi_lt : s'.maxi < fdSetsize)
    (hmaxfd : s.maxfd ≤ s'.maxfd ∧ connfd ≤ s'.maxfd) : Table listenfd s' where
  allset := by
    intro k
    rw [hallset, h.allset]
    constructor
    · rintro (heq | heq | ⟨j, hj, heq⟩)
      · exact .inr ⟨i, hi, by rw [hclient, if_pos rfl, heq]⟩
      · exact .inl heq
      · have hne : j ≠ i := by
          rintro rfl
          omega
        exact .inr ⟨j, hj, by rw [hclient, if_neg hne, heq]⟩
    · rintro (heq | ⟨j, hj, heq⟩)
      · exact .inr (.inl heq)
      · rw [hclient] at heq
        split_ifs at heq
        · exact .inl heq.symm
        · exact .inr (.inr ⟨j, hj, heq⟩)
  listenfd_range := h.listenfd_range
  client_lt := by
    intro j hj
    rw [hclient]
    split_ifs
    · exact hlt
    · exact h.client_lt j hj
  client_ne := by
    intro j hj
    rw [hclient]
    split_ifs
    · exact hfresh.1
    · exact h.client_ne j hj
  distinct := by
    intro j hj k hk
    rw [hclient, hclient]
    split_ifs with hji hki hki
    · exact fun _ _ => hji.trans hki.symm
    · exact fun _ heq => absurd heq.symm (hfresh.2 k hk)
    · exact fun _ heq => absurd heq (hfresh.2 j hj)
    · exact h.distinct j hj k hk
  le_maxi := by
    intro j hj hpos
    rw [hclient] at hpos
    split_ifs at hpos with hji
    · rw [hji]
      exact hmaxi.2
    · exact Int.le_trans (h.le_maxi j hj hpos) hmaxi.1
  maxi_lt := hmaxi_lt
  le_maxfd := by
    intro k hk
    rcases (hallset k).mp hk with heq | hset
    · rw [heq]
      exact hmaxfd.2
    · exact Int.le_trans (h.le_maxfd k hset) hmaxfd.1

/-- The client of an entry leaves. -/
theorem remove (h : Table listenfd s) (hi : i < fdSetsize) (hpos : 0 ≤ s.client i)
    (hclient : ∀ j, s'.client j = if j = i then -1 else s.client j)
    (hallset : ∀ k, s'.allset k = true ↔ (k : Int) ≠ s.client i ∧ s.allset k = true)
    (hmaxi : s'.maxi = s.maxi) (hmaxfd : s'.maxfd = s.maxfd) : Table listenfd s' where
  allset := by
    intro k
    rw [hallset, h.allset]
    constructor
    · rintro ⟨hne, heq | ⟨j, hj, heq⟩⟩
      · exact .inl heq
      · have hji : j ≠ i := by
          rintro rfl
          exact hne heq.symm
        exact .inr ⟨j, hj, by rw [hclient, if_neg hji, heq]⟩
    · rintro (heq | ⟨j, hj, heq⟩)
      · exact ⟨fun hk => h.client_ne i hi (hk.symm.trans heq), .inl heq⟩
      · rw [hclient] at heq
        by_cases hji : j = i
        · rw [if_pos hji] at heq
          omega
        · rw [if_neg hji] at heq
          refine ⟨fun hk => hji ?_, .inr ⟨j, hj, heq⟩⟩
          exact (h.distinct i hi j hj hpos (hk.symm.trans heq.symm)).symm
  listenfd_range := h.listenfd_range
  client_lt := by
    intro j hj
    rw [hclient]
    split_ifs
    · omega
    · exact h.client_lt j hj
  client_ne := by
    intro j hj
    have hlisten := h.listenfd_range.1
    rw [hclient]
    split_ifs
    · omega
    · exact h.client_ne j hj
  distinct := by
    intro j hj k hk hpos' heq
    rw [hclient] at hpos'
    split_ifs at hpos' with hji
    · omega
    · rw [hclient j, hclient k, if_neg hji] at heq
      split_ifs at heq
      · omega
      · exact h.distinct j hj k hk hpos' heq
  le_maxi := by
    intro j hj hpos'
    rw [hclient] at hpos'
    rw [hmaxi]
    split_ifs at hpos'
    · omega
    · exact h.le_maxi j hj hpos'
  maxi_lt := by
    rw [hmaxi]
    exact h.maxi_lt
  le_maxfd := by
    intro k hk
    rw [hmaxfd]
    exact h.le_maxfd k ((hallset k).mp hk).2

theorem addClient_ok (h : Table listenfd s) (hfresh : Fresh listenfd s connfd)
    (hrange : 0 ≤ connfd ∧ connfd < fdSetsize) :
    ∃ s', addClient s connfd = .ok s' ∧ Table listenfd s' ∧
      ∀ k, s'.allset k = true ↔ (k : Int) = connfd ∨ s.allset k = true := by
  have hlt := h.freeSlot_lt
  have hmaxi := h.maxi_lt
  have hfree : s.client (freeSlot s.client fdSetsize 0) < 0 := client_freeSlot (by omega)
  have hbit : ∀ k, Function.update s.allset connfd.toNat true k = true ↔
      (k : Int) = connfd ∨ s.allset k = true := by
    intro k
    rw [Function.update_apply]
    split_ifs with heq
    · exact iff_of_true rfl (.inl (by omega))
    · exact ⟨.inr, fun hor => hor.resolve_left (by omega)⟩
  have hrun : addClient s connfd = .ok
      ⟨Function.update s.client (freeSlot s.client fdSetsize 0) connfd,
        if (freeSlot s.client fdSetsize 0 : Int) > s.maxi then freeSlot s.client fdSetsize 0
          else s.maxi,
        if connfd > s.maxfd then connfd else s.maxfd,
        Function.update s.allset connfd.toNat true⟩ := by
    unfold addClient fdSet
    simp only [fdElt_eq hrange]
    rw [if_neg (Nat.ne_of_lt hlt)]
    rfl
  refine ⟨_, hrun, h.add hfresh hrange.2 hlt hfree (fun j => Function.update_apply ..) hbit ?_ ?_ ?_,
    hbit⟩
  · dsimp only
    split_ifs <;> omega
  · dsimp only
    split_ifs <;> omega
  · dsimp only
    split_ifs <;> omega

theorem serve_ok (h : Table listenfd s) (turn : Turn) (hi : i < fdSetsize) (hpos : 0 ≤ s.client i) :
    ∃ es s', serve turn i (s.client i) s = .ok (es, s') ∧ Table listenfd s' ∧
      ∀ j, j ≠ i → s'.client j = s.client j := by
  unfold serve
  split_ifs
  · have hbit : ∀ k, Function.update s.allset (s.client i).toNat false k = true ↔
        (k : Int) ≠ s.client i ∧ s.allset k = true := by
      intro k
      rw [Function.update_apply]
      split_ifs with heq
      · exact iff_of_false id (fun hk => hk.1 (by omega))
      · exact ⟨fun hk => ⟨by omega, hk⟩, fun hk => hk.2⟩
    have hrun : fdClr (s.client i) s.allset =
        .ok (Function.update s.allset (s.client i).toNat false) := by
      unfold fdClr
      rw [fdElt_eq ⟨hpos, h.client_lt i hi⟩]
      rfl
    rw [hrun]
    exact ⟨_, _, rfl, h.remove hi hpos (fun j => Function.update_apply ..) hbit rfl rfl,
      fun j hj => Function.update_of_ne hj _ _⟩
  · exact ⟨_, s, rfl, h, fun _ _ => rfl⟩

end Table

/-- The descriptors a list of system calls reads from. -/
def Event.readFd : Event → Option Int
  | .read fd _ => some fd
  | _ => none

/-- The connections it accepts. -/
def Event.acceptFd : Event → Option Int
  | .accept fd => some fd
  | _ => none

/-- The clients from the entry `i` on that `select` reports, in the order of their entries. -/
def ready (client : Nat → Int) (rset : FdSet) : (left i : Nat) → List Int
  | 0, _ => []
  | left + 1, i =>
      if 0 ≤ client i ∧ rset (client i).toNat = true then client i :: ready client rset left (i + 1)
      else ready client rset left (i + 1)

section Loop

variable {listenfd nready : Int} {s s' : Server} {turn : Turn} {left i : Nat}

theorem ready_congr {client client' : Nat → Int} {rset : FdSet}
    (h : ∀ j, i ≤ j → client' j = client j) :
    ready client' rset left i = ready client rset left i := by
  induction left generalizing i with
  | zero => rfl
  | succ left ih =>
      unfold ready
      rw [h i (Nat.le_refl i), ih fun j hj => h j (by omega)]

theorem mem_ready {client : Nat → Int} {rset : FdSet} {fd : Int} :
    fd ∈ ready client rset left i ↔
      (∃ j, i ≤ j ∧ j < i + left ∧ client j = fd) ∧ 0 ≤ fd ∧ rset fd.toNat = true := by
  induction left generalizing i with
  | zero =>
      refine iff_of_false List.not_mem_nil ?_
      rintro ⟨⟨j, hij, hji, -⟩, -⟩
      omega
  | succ left ih =>
      have hsplit : (∃ j, i ≤ j ∧ j < i + (left + 1) ∧ client j = fd) ↔
          client i = fd ∨ ∃ j, i + 1 ≤ j ∧ j < i + 1 + left ∧ client j = fd := by
        constructor
        · rintro ⟨j, hij, hlt, heq⟩
          rcases Nat.eq_or_lt_of_le hij with rfl | hlt'
          · exact .inl heq
          · exact .inr ⟨j, hlt', by omega, heq⟩
        · rintro (heq | ⟨j, hij, hlt, heq⟩)
          · exact ⟨i, Nat.le_refl i, by omega, heq⟩
          · exact ⟨j, by omega, by omega, heq⟩
      unfold ready
      rw [hsplit]
      split_ifs with hready
      · rw [List.mem_cons, ih]
        constructor
        · rintro (rfl | ⟨hex, hbit⟩)
          · exact ⟨.inl rfl, hready⟩
          · exact ⟨.inr hex, hbit⟩
        · rintro ⟨heq | hex, hbit⟩
          · exact .inl heq.symm
          · exact .inr ⟨hex, hbit⟩
      · rw [ih]
        constructor
        · exact fun ⟨hex, hbit⟩ => ⟨.inr hex, hbit⟩
        · rintro ⟨rfl | hex, hbit⟩
          · exact absurd hbit hready
          · exact ⟨hex, hbit⟩

theorem serve_events {fd : Int} {es : List Event} (h : serve turn i fd s = .ok (es, s')) :
    es.filterMap Event.readFd = [fd] ∧ es.filterMap Event.acceptFd = [] := by
  unfold serve at h
  split_ifs at h
  · cases hclr : fdClr fd s.allset with
    | error e =>
        rw [hclr] at h
        cases h
    | ok allset =>
        rw [hclr] at h
        cases h
        exact ⟨rfl, rfl⟩
  · cases h
    exact ⟨rfl, rfl⟩

theorem fdIsset_eq {fd : Int} {set : FdSet} (h : 0 ≤ fd ∧ fd < fdSetsize) :
    fdIsset fd set = .ok (set fd.toNat) := by
  unfold fdIsset
  rw [fdElt_eq h]
  rfl

/-- The pass over the clients keeps the table. If `nready` counts the clients
reported, each of them is read once and no other one. -/
theorem Table.clientLoop_ok (h : Table listenfd s) (turn : Turn) (nready : Int)
    (hle : i + left ≤ fdSetsize) :
    ∃ es s', clientLoop turn left i nready s = .ok (es, s') ∧ Table listenfd s' ∧
      es.filterMap Event.acceptFd = [] ∧
      (nready = (ready s.client turn.rset left i).length →
        es.filterMap Event.readFd = ready s.client turn.rset left i) := by
  induction left generalizing i nready s with
  | zero => exact ⟨[], s, rfl, h, rfl, fun _ => rfl⟩
  | succ left ih =>
      have hi : i < fdSetsize := by omega
      unfold clientLoop ready
      by_cases hfree : s.client i < 0
      · rw [if_pos hfree, if_neg (by omega)]
        exact ih h nready (by omega)
      have hpos : 0 ≤ s.client i := by omega
      rw [if_neg hfree, fdIsset_eq ⟨hpos, h.client_lt i hi⟩]
      cases hset : turn.rset (s.client i).toNat with
      | false =>
          rw [if_neg (by simp)]
          exact ih h nready (by omega)
      | true =>
          obtain ⟨es, s₁, hserve, h₁, hclient⟩ := h.serve_ok turn hi hpos
          obtain ⟨hreads, haccepts⟩ := serve_events hserve
          rw [if_pos ⟨hpos, rfl⟩]
          simp only [Except.bind, if_true, hserve]
          by_cases hlast : nready - 1 = 0
          · rw [if_pos hlast]
            refine ⟨es, s₁, rfl, h₁, haccepts, fun hcount => ?_⟩
            rw [List.length_cons] at hcount
            have hnone : ready s.client turn.rset left (i + 1) = [] :=
              List.length_eq_zero_iff.mp (by omega)
            rw [hreads, hnone]
          · rw [if_neg hlast]
            obtain ⟨es', s₂, hrun, h₂, haccepts', hreads'⟩ :=
              ih (i := i + 1) h₁ (nready - 1) (by omega)
            have hrest : ready s₁.client turn.rset left (i + 1) =
                ready s.client turn.rset left (i + 1) :=
              ready_congr fun j hj => hclient j (by omega)
            rw [hrun]
            refine ⟨es ++ es', s₂, rfl, h₂, ?_, fun hcount => ?_⟩
            · rw [List.filterMap_append, haccepts, haccepts']
              rfl
            · rw [List.length_cons] at hcount
              rw [List.filterMap_append, hreads, hreads' (by rw [hrest]; omega), hrest]
              rfl

/-- A turn in which `accept`, if it is called, returns a new descriptor that fits
into an `fd_set`. -/
def Turn.Accepts (listenfd : Int) (turn : Turn) (s : Server) : Prop :=
  turn.rset listenfd.toNat = true →
    Fresh listenfd s turn.connfd ∧ 0 ≤ turn.connfd ∧ turn.connfd < fdSetsize

/-- A turn with such an answer keeps the table, whatever else the kernel answers. -/
theorem Table.turnLoop_ok (h : Table listenfd s) (ha : turn.Accepts listenfd s) :
    turnLoop listenfd s turn = .error (.exit (-1)) ∨
      ∃ es s', turnLoop listenfd s turn = .ok (es, s') ∧ Table listenfd s' := by
  unfold turnLoop
  by_cases herror : turn.nready < 0
  · exact .inl (if_pos herror)
  right
  rw [if_neg herror, fdIsset_eq h.listenfd_range]
  have hloop : ∀ {s : Server} (n : Int), Table listenfd s →
      ∃ es s', clientLoop turn (s.maxi + 1).toNat 0 n s = .ok (es, s') ∧ Table listenfd s' := by
    intro s n hs
    have hmaxi := hs.maxi_lt
    obtain ⟨es, s', hrun, hs', -⟩ := hs.clientLoop_ok turn n
      (show 0 + (s.maxi + 1).toNat ≤ fdSetsize by omega)
    exact ⟨es, s', hrun, hs'⟩
  cases hset : turn.rset listenfd.toNat with
  | false => exact hloop _ h
  | true =>
      obtain ⟨hfresh, hrange⟩ := ha hset
      obtain ⟨s₁, hadd, h₁, -⟩ := h.addClient_ok hfresh hrange
      simp only [Except.bind, if_true, hadd]
      split_ifs
      · exact ⟨_, s₁, rfl, h₁⟩
      · obtain ⟨es, s', hrun, hs'⟩ := hloop (turn.nready - 1) h₁
        rw [hrun]
        exact ⟨_, s', rfl, hs'⟩

end Loop

section Runs

variable {listenfd : Int} {st : Except Halt Server}

/-- In every run in which the descriptors that `socket` and `accept` return fit
into an `fd_set`, the table is right whenever `select` is called, and the program
ends only where `select` fails. -/
theorem table_of_reaches (hl : 0 ≤ listenfd ∧ listenfd < fdSetsize)
    (h : Reaches (step listenfd) (fun st turn => ∀ s, st = .ok s → turn.Accepts listenfd s)
      (start listenfd) st) :
    (∃ s, st = .ok s ∧ Table listenfd s) ∨ st = .error (.exit (-1)) := by
  refine h.invariant
    (P := fun st => (∃ s, st = .ok s ∧ Table listenfd s) ∨ st = .error (.exit (-1)))
    (.inl (Table.start_ok hl)) ?_
  rintro t u turn - (⟨s, rfl, hs⟩ | rfl) hturn hu
  · obtain rfl := Option.some.inj hu
    rcases hs.turnLoop_ok (hturn s rfl) with hexit | ⟨es, s', hrun, hs'⟩
    · rw [hexit]
      exact .inr rfl
    · rw [hrun]
      exact .inl ⟨s', rfl, hs'⟩
  · cases hu

/-- A turn in which only the listening descriptor 3 is ready. -/
def connecting (connfd : Int) : Turn where
  nready := 1
  rset := fun k => k == 3
  connfd := connfd
  read := fun _ => 0

/-- The first client of the server. -/
def connected (connfd maxfd : Int) (bit : Nat) : Server where
  client := Function.update (fun _ => -1) 0 connfd
  maxi := 0
  maxfd := maxfd
  allset := Function.update (Function.update (fun _ => false) 3 true) bit true

theorem step_connecting : step 3 (start 3) (connecting 4) = some (.ok (connected 4 4 4)) ∧
    step 3 (start 3) (connecting (-1)) = some (.ok (connected (-1) 3 63)) ∧
    step 3 (start 3) (connecting 1024) = some (.error .undefined) := ⟨rfl, rfl, rfl⟩

/-- The table after a connection got the descriptor 4. -/
theorem table_connected : Table 3 (connected 4 4 4) := by
  have hreaches : Reaches (step 3) (fun st turn => ∀ s, st = .ok s → turn.Accepts 3 s) (start 3)
      (.ok (connected 4 4 4)) := by
    refine .next .refl ?_ step_connecting.1
    intro s hs _
    cases hs
    exact ⟨⟨by decide, fun _ _ => show (-1 : Int) ≠ 4 by decide⟩, by decide, by decide⟩
  rcases table_of_reaches ⟨by decide, by decide⟩ hreaches with ⟨s, hs, htable⟩ | hexit
  · cases hs
    exact htable
  · cases hexit

/-- A failing `accept` puts the descriptor 63 into the set, and a descriptor past
`FD_SETSIZE` writes outside of it. -/
theorem not_table_connected :
    (Reachable (step 3) (start 3) (.ok (connected (-1) 3 63)) ∧ ¬ Table 3 (connected (-1) 3 63)) ∧
      Reachable (step 3) (start 3) (.error .undefined) := by
  obtain ⟨-, hfailed, hlarge⟩ := step_connecting
  refine ⟨⟨.next .refl hfailed, fun h => ?_⟩, .next .refl hlarge⟩
  rcases (h.allset 63).mp rfl with heq | ⟨i, -, heq⟩
  · exact absurd heq (by decide)
  · have hnone : (connected (-1) 3 63).client i = -1 := by
      change Function.update (fun _ => (-1 : Int)) 0 (-1) i = -1
      rw [Function.update_apply, ite_self]
    rw [hnone] at heq
    exact absurd heq (by decide)

end Runs

end LinuxDevelopment.SelectModel
