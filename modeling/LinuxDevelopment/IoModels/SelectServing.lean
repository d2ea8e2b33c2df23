import LinuxDevelopment.IoModels.SelectModel

/-!
# select-model: every ready descriptor is served

`nready` is counted down at each descriptor that is served, and the two early
exits of a turn rely on it. They skip nothing: when the counter is 0 there is no
entry left that `select` has reported.
-/

namespace LinuxDevelopment.SelectModel

/-- What `select` promises: it reports some of the descriptors of the set, and
returns their number. -/
structure Turn.Selects (turn : Turn) (s : Server) : Prop where
  subset : ∀ k, turn.rset k = true → s.allset k = true
  count : turn.nready = ((Finset.range fdSetsize).filter fun k => turn.rset k = true).card
  pos : 1 ≤ turn.nready

/-- The turn comes back to `select` after one `accept` if the listening descriptor
was reported, and after one `read` from each client that was reported and from no
other descriptor. -/
def Turn.Serves (turn : Turn) (listenfd : Int) (s : Server) : Prop :=
  ∃ es s', turnLoop listenfd s turn = .ok (es, s') ∧
    es.filterMap Event.acceptFd =
      (if turn.rset listenfd.toNat = true then [turn.connfd] else []) ∧
    (es.filterMap Event.readFd).Nodup ∧
    ∀ fd, fd ∈ es.filterMap Event.readFd ↔
      (∃ i < fdSetsize, s.client i = fd) ∧ 0 ≤ fd ∧ turn.rset fd.toNat = true

section Ready

variable {listenfd : Int} {s : Server} {turn : Turn} {left i : Nat} {client : Nat → Int}
  {rset : FdSet}

theorem nodup_ready (h : ∀ j, i ≤ j → j < i + left → ∀ k, i ≤ k → k < i + left →
    0 ≤ client j → client j = client k → j = k) : (ready client rset left i).Nodup := by
  induction left generalizing i with
  | zero => exact List.nodup_nil
  | succ left ih =>
      have hrest := ih (i := i + 1) fun j hj hj' k hk hk' =>
        h j (by omega) (by omega) k (by omega) (by omega)
      unfold ready
      split_ifs with hready
      · refine List.nodup_cons.mpr ⟨fun hmem => ?_, hrest⟩
        obtain ⟨⟨j, hj, hlt, heq⟩, -⟩ := mem_ready.mp hmem
        have hij := h i (Nat.le_refl i) (by omega) j (by omega) (by omega) hready.1 heq.symm
        omega
      · exact hrest

/-- The clients reported, over the whole table. -/
def Server.readyClients (s : Server) (rset : FdSet) : List Int :=
  ready s.client rset (s.maxi + 1).toNat 0

theorem Table.nodup_readyClients (h : Table listenfd s) (rset : FdSet) :
    (s.readyClients rset).Nodup := by
  have hmaxi := h.maxi_lt
  refine nodup_ready fun j _ hj k _ hk => ?_
  exact h.distinct j (by omega) k (by omega)

theorem Table.mem_readyClients (h : Table listenfd s) {fd : Int} :
    fd ∈ s.readyClients rset ↔
      (∃ j < fdSetsize, s.client j = fd) ∧ 0 ≤ fd ∧ rset fd.toNat = true := by
  have hmaxi := h.maxi_lt
  unfold Server.readyClients
  rw [mem_ready]
  constructor
  · rintro ⟨⟨j, -, hj, heq⟩, hpos, hset⟩
    exact ⟨⟨j, by omega, heq⟩, hpos, hset⟩
  · rintro ⟨⟨j, hj, heq⟩, hpos, hset⟩
    have hle := h.le_maxi j hj (by omega)
    exact ⟨⟨j, Nat.zero_le j, by omega, heq⟩, hpos, hset⟩

/-- What is reported of the set are clients and the listening descriptor. -/
theorem Table.mem_readyClients_iff (h : Table listenfd s)
    (hsub : ∀ k, rset k = true → s.allset k = true) {fd : Int} :
    fd ∈ s.readyClients rset ↔ fd ≠ listenfd ∧ 0 ≤ fd ∧ rset fd.toNat = true := by
  rw [h.mem_readyClients]
  constructor
  · rintro ⟨⟨j, hj, rfl⟩, hpos, hset⟩
    exact ⟨h.client_ne j hj, hpos, hset⟩
  · rintro ⟨hne, hpos, hset⟩
    refine ⟨?_, hpos, hset⟩
    rcases (h.allset fd.toNat).mp (hsub _ hset) with heq | ⟨j, hj, heq⟩
    · omega
    · exact ⟨j, hj, by omega⟩

/-- The number `select` returns counts the clients and the listening descriptor. -/
theorem Table.card_reported (h : Table listenfd s)
    (hsub : ∀ k, rset k = true → s.allset k = true) :
    ((Finset.range fdSetsize).filter fun k => rset k = true).card =
      (s.readyClients rset).length + if rset listenfd.toNat = true then 1 else 0 := by
  have hlisten := h.listenfd_range
  have hclients : ((Finset.range fdSetsize).filter fun k => rset k = true).erase listenfd.toNat =
      ((s.readyClients rset).map Int.toNat).toFinset := by
    ext k
    rw [Finset.mem_erase, Finset.mem_filter, Finset.mem_range, List.mem_toFinset, List.mem_map]
    constructor
    · rintro ⟨hne, -, hset⟩
      exact ⟨k, (h.mem_readyClients_iff hsub).mpr ⟨by omega, by omega, hset⟩, Int.toNat_natCast k⟩
    · rintro ⟨fd, hfd, rfl⟩
      obtain ⟨hne, hpos, hset⟩ := (h.mem_readyClients_iff hsub).mp hfd
      exact ⟨by omega, h.bit_lt (hsub _ hset), hset⟩
  have hlength : (((s.readyClients rset).map Int.toNat).toFinset).card =
      (s.readyClients rset).length := by
    rw [List.toFinset_card_of_nodup, List.length_map]
    refine (h.nodup_readyClients rset).map_on fun x hx y hy heq => ?_
    have hx' := ((h.mem_readyClients_iff hsub).mp hx).2.1
    have hy' := ((h.mem_readyClients_iff hsub).mp hy).2.1
    omega
  rw [← hlength, ← hclients]
  split_ifs with hset
  · refine (Finset.card_erase_add_one ?_).symm
    rw [Finset.mem_filter, Finset.mem_range]
    exact ⟨by omega, hset⟩
  · rw [Finset.erase_eq_of_notMem, Nat.add_zero]
    rw [Finset.mem_filter]
    exact fun hmem => hset hmem.2

end Ready

section Serving

variable {listenfd : Int} {s : Server} {turn : Turn}

/-- A pass with the right count reads the clients that were reported. -/
theorem Table.clientLoop_reads (h : Table listenfd s) (turn : Turn) (nready : Int)
    (hcount : nready = (s.readyClients turn.rset).length) :
    ∃ es s', clientLoop turn (s.maxi + 1).toNat 0 nready s = .ok (es, s') ∧
      es.filterMap Event.acceptFd = [] ∧
      es.filterMap Event.readFd = s.readyClients turn.rset := by
  have hmaxi := h.maxi_lt
  obtain ⟨es, s', hrun, -, haccepts, hreads⟩ := h.clientLoop_ok turn nready
    (show 0 + (s.maxi + 1).toNat ≤ fdSetsize by omega)
  exact ⟨es, s', hrun, haccepts, hreads hcount⟩

/-- A connection whose descriptor fits is served together with the clients. -/
theorem Table.serves (h : Table listenfd s) (hsel : turn.Selects s)
    (hfresh : Fresh listenfd s turn.connfd) (hpos : 0 ≤ turn.connfd)
    (hfits : turn.rset listenfd.toNat = false ∨ turn.connfd < fdSetsize) :
    turn.Serves listenfd s := by
  have hcard := h.card_reported hsel.subset
  have hcount := hsel.count
  have hnready := hsel.pos
  unfold Turn.Serves turnLoop
  rw [if_neg (by omega), fdIsset_eq h.listenfd_range]
  simp only [← h.mem_readyClients]
  cases hset : turn.rset listenfd.toNat with
  | false =>
      rw [hset, if_neg Bool.false_ne_true] at hcard
      obtain ⟨es, s', hrun, haccepts, hreads⟩ :=
        h.clientLoop_reads turn turn.nready (by omega)
      refine ⟨es, s', hrun, ?_, ?_, ?_⟩
      · rw [haccepts, if_neg Bool.false_ne_true]
      · rw [hreads]
        exact h.nodup_readyClients _
      · intro fd
        rw [hreads]
  | true =>
      rw [hset, if_pos rfl] at hcard
      have hrange : 0 ≤ turn.connfd ∧ turn.connfd < fdSetsize := by
        refine ⟨hpos, hfits.resolve_left ?_⟩
        rw [hset]
        decide
      obtain ⟨s₁, hadd, h₁, hbits⟩ := h.addClient_ok hfresh hrange
      have hsub₁ : ∀ k, turn.rset k = true → s₁.allset k = true :=
        fun k hk => (hbits k).mpr (.inr (hsel.subset k hk))
      have hmem : ∀ fd, fd ∈ s₁.readyClients turn.rset ↔ fd ∈ s.readyClients turn.rset := by
        intro fd
        rw [h₁.mem_readyClients_iff hsub₁, h.mem_readyClients_iff hsel.subset]
      have hcard₁ := h₁.card_reported hsub₁
      rw [hset, if_pos rfl] at hcard₁
      simp only [Except.bind, if_true, hadd]
      by_cases hlast : turn.nready - 1 = 0
      · -- the connection was all that was reported
        have hnone : s₁.readyClients turn.rset = [] := List.length_eq_zero_iff.mp (by omega)
        rw [if_pos hlast]
        refine ⟨_, s₁, rfl, rfl, List.nodup_nil, fun fd => ?_⟩
        rw [← hmem, hnone]
        rfl
      · obtain ⟨es, s', hrun, haccepts, hreads⟩ :=
          h₁.clientLoop_reads turn (turn.nready - 1) (by omega)
        rw [if_neg hlast, hrun]
        refine ⟨_, s', rfl, ?_, ?_, fun fd => ?_⟩
        · exact congrArg (turn.connfd :: ·) haccepts
        · rw [List.filterMap_cons_none rfl, hreads]
          exact h₁.nodup_readyClients _
        · rw [List.filterMap_cons_none rfl, hreads, hmem]

/-- From a right table and an honest `select` every ready descriptor is served
exactly if no connection comes with a descriptor past `FD_SETSIZE`. -/
theorem serves_iff (h : Table listenfd s) (hsel : turn.Selects s)
    (hfresh : Fresh listenfd s turn.connfd) (hpos : 0 ≤ turn.connfd) :
    turn.Serves listenfd s ↔
      (turn.rset listenfd.toNat = false ∨ turn.connfd < fdSetsize) := by
  refine ⟨fun hserves => ?_, h.serves hsel hfresh hpos⟩
  by_contra hlarge
  obtain ⟨hset, hge⟩ := not_or.mp hlarge
  obtain ⟨es, s', hrun, -⟩ := hserves
  have hnready := hsel.pos
  have hadd : addClient s turn.connfd = .error .undefined := by
    unfold addClient fdSet
    simp only [fdElt_of_large (Int.not_lt.mp hge)]
    rw [if_neg (Nat.ne_of_lt h.freeSlot_lt)]
    rfl
  unfold turnLoop at hrun
  rw [if_neg (by omega), fdIsset_eq h.listenfd_range, Bool.eq_true_of_not_eq_false hset] at hrun
  simp only [Except.bind, if_true, hadd] at hrun
  cases hrun

/-- The server with the listening descriptor 3 and no client. -/
def listening : Server := ⟨fun _ => -1, -1, 3, Function.update (fun _ => false) 3 true⟩

theorem table_listening : Table 3 listening := by
  obtain ⟨s, hs, htable⟩ := Table.start_ok (show (0 : Int) ≤ 3 ∧ (3 : Int) < fdSetsize by decide)
  have heq : listening = s := Except.ok.inj hs
  rwa [heq]

theorem fresh_listening {connfd : Int} (h : 3 < connfd) : Fresh 3 listening connfd := by
  refine ⟨by omega, fun i _ => ?_⟩
  change (-1 : Int) ≠ connfd
  omega

theorem selects_connecting (connfd : Int) : (connecting connfd).Selects listening where
  subset := by
    intro k hk
    have heq : k = 3 := by simpa [connecting] using hk
    rw [heq]
    rfl
  count := by
    change (1 : Int) = ((Finset.range fdSetsize).filter fun k => (k == 3) = true).card
    decide +kernel
  pos := Int.le_refl 1

/-- The connection with the descriptor 4 is served. -/
theorem serves_connecting : (connecting 4).Serves 3 listening :=
  (serves_iff table_listening (selects_connecting 4) (fresh_listening (by decide))
    (by decide)).mpr (.inr (by decide))

/-- The turn in which the descriptor 1024 is accepted does not come back to `select`. -/
theorem not_serves_connecting : Table 3 listening ∧ (connecting 1024).Selects listening ∧
    Fresh 3 listening 1024 ∧ turnLoop 3 listening (connecting 1024) = .error .undefined ∧
    ¬ (connecting 1024).Serves 3 listening := by
  have hrun : turnLoop 3 listening (connecting 1024) = .error .undefined := rfl
  refine ⟨table_listening, selects_connecting 1024, fresh_listening (by decide), hrun, ?_⟩
  rintro ⟨es, s', hok, -⟩
  rw [hrun] at hok
  cases hok

end Serving

end LinuxDevelopment.SelectModel
