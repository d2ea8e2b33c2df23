import LinuxDevelopment.Base.Bytes
import LinuxDevelopment.IoModels.SelectModel

/-!
# select-model: what the clients get back

The turns of the server together with the bytes on its connections. Data arrives
from the clients between the turns; a turn performs the system calls of
`SelectModel` one after the other, all of them through one buffer. Descriptors
are used again after `close`, so a connection is an object of its own and not a
descriptor.

The server does not look at the result of `write`. What a `write` does not take
is lost, whether it fails or is cut short, and the client gets the beginning of
each piece that was read from it, in upper case and in order. It gets all of its
bytes back if every `write` to it has taken all it was given. After a `read` that
fails `write` is called with the count -1 and fails as well. A `write` that raises
`SIGPIPE` ends the program, and with it the run.
-/

namespace LinuxDevelopment.SelectModel

/-- `MAXLINE`. -/
def maxline : Nat := 80

/-- `toupper` in the C locale. -/
def toupper (c : UInt8) : UInt8 := if 97 ≤ c ∧ c ≤ 122 then c - 32 else c

/-- `for (j = 0; j < n; j++) buf[j] = toupper(buf[j]);` -/
def toupperLoop : (left j : Nat) → Buffer → Buffer
  | 0, _, buf => buf
  | left + 1, j, buf => toupperLoop left (j + 1) (Function.update buf j (toupper (buf j)))

/-- A connection: what has arrived from the client, how much of it the server has
read, whether the client has ended its side, what was sent back, and the calls of
`write` with their counts and results. -/
structure Conn where
  arrived : List UInt8
  taken : Nat
  eof : Bool
  echoed : List UInt8
  writes : List (Int × Int)
  deriving DecidableEq, Repr

/-- The buffer `buf` of `main` and the connections. -/
structure Wire where
  buf : Buffer
  conn : Int → Option Conn
  closed : List Conn

namespace Wire

variable (w : Wire)

def setConn (fd : Int) (c : Option Conn) : Wire := { w with conn := Function.update w.conn fd c }

def accept (fd : Int) : Wire := w.setConn fd (some ⟨[], 0, false, [], []⟩)

/-- `read(fd, buf, MAXLINE)`, if the kernel can answer it with `n`: with 0 only at the
end of the data, with a positive number only if there is as much. -/
def read (fd n : Int) : Option Wire :=
  (w.conn fd).bind fun c =>
    if n < 0 then some w
    else if n = 0 then
      if c.taken = c.arrived.length ∧ c.eof = true then some w else none
    else if n ≤ maxline ∧ c.taken + n.toNat ≤ c.arrived.length then
      some { w with
        buf := w.buf.splice 0 ((c.arrived.drop c.taken).take n.toNat)
        conn := Function.update w.conn fd (some { c with taken := c.taken + n.toNat }) }
    else none

/-- The loop over the buffer and `write(fd, buf, n)`, if the kernel can answer it with
`m`: with the number of bytes it has taken, or with a negative number. -/
def write (fd n m : Int) : Option Wire :=
  (w.conn fd).bind fun c =>
    let buf := toupperLoop n.toNat 0 w.buf
    if m < 0 ∨ m ≤ n then
      some { w with
        buf := buf
        conn := Function.update w.conn fd (some { c with
          echoed := c.echoed ++ buf.bytesAt 0 m.toNat
          writes := c.writes ++ [(n, m)] }) }
    else none

def close (fd : Int) : Option Wire :=
  (w.conn fd).bind fun c =>
    some { w with conn := Function.update w.conn fd none, closed := w.closed ++ [c] }

/-- One system call of a turn in which `write` returns `written`. -/
def perform (written : Int → Int) (w : Wire) : Event → Option Wire
  | .accept fd => some (w.accept fd)
  | .read fd n => w.read fd n
  | .write fd n => w.write fd n (written fd)
  | .close fd => w.close fd

end Wire

/-- The server between two calls of `select`, with its connections. -/
structure System where
  server : Server
  wire : Wire

inductive Label where
  /-- bytes of a client arrive -/
  | arrive (fd : Int) (bytes : List UInt8)
  /-- a client shuts down its side or resets the connection -/
  | hangup (fd : Int)
  | turn (turn : Turn) (written : Int → Int)

/-- A turn, or an act of a client whose connection has been accepted. -/
def System.step (listenfd : Int) (s : System) : Label → Option System
  | .arrive fd bytes =>
      (s.wire.conn fd).bind fun c =>
        if c.eof then none
        else some { s with
          wire := s.wire.setConn fd (some { c with arrived := c.arrived ++ bytes }) }
  | .hangup fd =>
      (s.wire.conn fd).bind fun c =>
        some { s with wire := s.wire.setConn fd (some { c with eof := true }) }
  | .turn turn written =>
      match turnLoop listenfd s.server turn with
      | .ok (es, server) =>
          (replay (Wire.perform written) es s.wire).map fun wire => ⟨server, wire⟩
      | .error _ => none

section Upper

variable {buf : Buffer} {left j : Nat}

theorem toupperLoop_apply (i : Nat) :
    toupperLoop left j buf i = if j ≤ i ∧ i < j + left then toupper (buf i) else buf i := by
  induction left generalizing j buf with
  | zero => exact (if_neg (by omega)).symm
  | succ left ih =>
      unfold toupperLoop
      rw [ih]
      by_cases hi : i = j
      · subst hi
        rw [if_neg (by omega), if_pos (by omega), Function.update_self]
      · rw [Function.update_of_ne hi]
        exact if_congr (by omega) rfl rfl

theorem bytesAt_toupperLoop (n : Nat) :
    (toupperLoop n 0 buf).bytesAt 0 n = (buf.bytesAt 0 n).map toupper := by
  unfold Buffer.bytesAt
  rw [List.map_map]
  refine List.map_congr_left fun i hi => ?_
  have hi : i < n := List.mem_range.mp hi
  rw [toupperLoop_apply, if_pos (by omega)]
  rfl

end Upper

section Connections

variable {w w' : Wire} {written : Int → Int} {fd n : Int} {c : Conn}

/-- All bytes that were read from the connection were given to `write` in upper case, and
the client has what it has taken of them. -/
structure Conn.Echoes (c : Conn) : Prop where
  taken_le : c.taken ≤ c.arrived.length
  relays : Relays ((c.arrived.take c.taken).map toupper) c.writes c.echoed

/-- A connection over which one more piece was read and given to `write`. -/
theorem Conn.Echoes.piece (h : c.Echoes) (hle : c.taken + n.toNat ≤ c.arrived.length) (m : Int) :
    Conn.Echoes { c with
      taken := c.taken + n.toNat
      echoed := c.echoed ++ (((c.arrived.drop c.taken).take n.toNat).map toupper).take m.toNat
      writes := c.writes ++ [(n, m)] } where
  taken_le := hle
  relays := by
    have hpiece : (((c.arrived.drop c.taken).take n.toNat).map toupper).length = n.toNat := by
      rw [List.length_map, List.length_take, List.length_drop]
      omega
    dsimp only
    rw [List.take_add, List.map_append]
    exact h.relays.snoc hpiece m

/-- What `write` takes is a part of what was in the buffer, in upper case. -/
theorem conn_of_write {u : Wire} {m : Int} (hc : u.conn fd = some c)
    (hw : u.write fd n m = some w') :
    w'.conn = Function.update u.conn fd (some { c with
        echoed := c.echoed ++ ((u.buf.bytesAt 0 n.toNat).map toupper).take m.toNat
        writes := c.writes ++ [(n, m)] }) ∧
      w'.closed = u.closed := by
  unfold Wire.write at hw
  rw [hc, Option.bind_some] at hw
  obtain ⟨hm, hw⟩ := Option.ite_none_right_eq_some.mp hw
  obtain rfl := Option.some.inj hw
  have hle : m.toNat ≤ n.toNat := by omega
  refine ⟨?_, rfl⟩
  rw [← bytesAt_toupperLoop, Buffer.take_bytesAt hle]

/-- A `read` that does not return 0 and the `write` behind it answer the bytes read. -/
theorem echoes_of_read_write (hc : w.conn fd = some c) (h : c.Echoes) (hn : n ≠ 0)
    (hw : replay (Wire.perform written) [.read fd n, .write fd n] w = some w') :
    ∃ c', c'.Echoes ∧ w'.conn = Function.update w.conn fd (some c') ∧ w'.closed = w.closed := by
  obtain ⟨u, hread, hw⟩ := Option.bind_eq_some_iff.mp hw
  obtain ⟨v, hwrite, hw⟩ := Option.bind_eq_some_iff.mp hw
  obtain rfl := Option.some.inj hw
  change (w.conn fd).bind _ = _ at hread
  change u.write fd n (written fd) = _ at hwrite
  rw [hc, Option.bind_some] at hread
  by_cases hneg : n < 0
  · rw [if_pos hneg] at hread
    obtain rfl := Option.some.inj hread
    obtain ⟨hconn, hclosed⟩ := conn_of_write hc hwrite
    have hzero : n.toNat = 0 := Int.toNat_of_nonpos (by omega)
    have hpiece := h.piece (n := n) (by have := h.taken_le; omega) (written fd)
    rw [hzero] at hpiece hconn
    exact ⟨_, hpiece, hconn, hclosed⟩
  · rw [if_neg hneg, if_neg hn] at hread
    obtain ⟨⟨-, hle⟩, hu⟩ := Option.ite_none_right_eq_some.mp hread
    obtain rfl := Option.some.inj hu
    obtain ⟨hconn, hclosed⟩ := conn_of_write (Function.update_self ..) hwrite
    have hlen : ((c.arrived.drop c.taken).take n.toNat).length = n.toNat := by
      rw [List.length_take, List.length_drop]
      omega
    have hdata : (w.buf.splice 0 ((c.arrived.drop c.taken).take n.toNat)).bytesAt 0 n.toNat =
        (c.arrived.drop c.taken).take n.toNat := by
      nth_rewrite 2 [← hlen]
      exact Buffer.bytesAt_splice_self _ 0 _
    refine ⟨_, h.piece hle (written fd), ?_, hclosed⟩
    rw [hconn, hdata]
    exact Function.update_idem ..

/-- A `read` that returns 0 and the `close` behind it end a connection that has been
read to its end. -/
theorem taken_of_read_close (hc : w.conn fd = some c)
    (hw : replay (Wire.perform written) [.read fd 0, .close fd] w = some w') :
    c.taken = c.arrived.length ∧ w'.conn = Function.update w.conn fd none ∧
      w'.closed = w.closed ++ [c] := by
  obtain ⟨u, hread, hw⟩ := Option.bind_eq_some_iff.mp hw
  obtain ⟨v, hclose, hw⟩ := Option.bind_eq_some_iff.mp hw
  obtain rfl := Option.some.inj hw
  change (w.conn fd).bind _ = _ at hread
  rw [hc, Option.bind_some, if_neg (Int.lt_irrefl 0), if_pos rfl] at hread
  obtain ⟨⟨hall, -⟩, hu⟩ := Option.ite_none_right_eq_some.mp hread
  obtain rfl := Option.some.inj hu
  change (w.conn fd).bind _ = _ at hclose
  rw [hc, Option.bind_some] at hclose
  obtain rfl := Option.some.inj hclose
  exact ⟨hall, rfl, rfl⟩

end Connections

section Turns

variable {listenfd : Int} {s s' : Server} {w w' : Wire} {turn : Turn} {es : List Event}
  {left i : Nat} {nready connfd : Int} {written : Int → Int}

/-- The table is right, the open connections are those of its entries, each of them
is answered as far as it was read, and those that were closed were read to the end. -/
structure System.Echoes (listenfd : Int) (s : System) : Prop where
  table : Table listenfd s.server
  opened : ∀ fd, (∃ c, s.wire.conn fd = some c) ↔
    0 ≤ fd ∧ ∃ i < fdSetsize, s.server.client i = fd
  echoed : ∀ fd c, s.wire.conn fd = some c → c.Echoes
  closed : ∀ c ∈ s.wire.closed, c.Echoes ∧ c.taken = c.arrived.length

/-- Where one connection is replaced by another one that is answered as well. -/
theorem System.Echoes.setConn (h : System.Echoes listenfd ⟨s, w⟩) {fd : Int} {c c' : Conn}
    (hc : w.conn fd = some c) (hc' : c'.Echoes)
    (hconn : w'.conn = Function.update w.conn fd (some c')) (hclosed : w'.closed = w.closed) :
    System.Echoes listenfd ⟨s, w'⟩ where
  table := h.table
  opened := by
    intro g
    rw [← h.opened g]
    change (∃ d, w'.conn g = some d) ↔ ∃ d, w.conn g = some d
    rw [hconn]
    by_cases hg : g = fd
    · subst hg
      rw [Function.update_self, hc]
      exact iff_of_true ⟨c', rfl⟩ ⟨c, rfl⟩
    · rw [Function.update_of_ne hg]
  echoed := by
    intro g d hd
    change w'.conn g = some d at hd
    rw [hconn] at hd
    by_cases hg : g = fd
    · subst hg
      rw [Function.update_self] at hd
      exact Option.some.inj hd ▸ hc'
    · rw [Function.update_of_ne hg] at hd
      exact h.echoed g d hd
  closed := by
    intro d hd
    change d ∈ w'.closed at hd
    rw [hclosed] at hd
    exact h.closed d hd

/-- Where the entry of a connection that was read to its end is cleared. -/
theorem System.Echoes.removeConn (h : System.Echoes listenfd ⟨s, w⟩) {c : Conn} (hi : i < fdSetsize)
    (hpos : 0 ≤ s.client i) (hall : c.Echoes ∧ c.taken = c.arrived.length)
    (htable : Table listenfd s')
    (hclient : s'.client = Function.update s.client i (-1))
    (hconn : w'.conn = Function.update w.conn (s.client i) none)
    (hclosed : w'.closed = w.closed ++ [c]) : System.Echoes listenfd ⟨s', w'⟩ where
  table := htable
  opened := by
    intro g
    change (∃ d, w'.conn g = some d) ↔ 0 ≤ g ∧ ∃ j < fdSetsize, s'.client j = g
    rw [hconn, hclient]
    by_cases hg : g = s.client i
    · subst hg
      rw [Function.update_self]
      refine iff_of_false (fun ⟨d, hd⟩ => by cases hd) ?_
      rintro ⟨-, j, hj, heq⟩
      by_cases hji : j = i
      · subst hji
        rw [Function.update_self] at heq
        omega
      · rw [Function.update_of_ne hji] at heq
        exact hji (h.table.distinct i hi j hj hpos heq.symm).symm
    · rw [Function.update_of_ne hg]
      refine (h.opened g).trans (and_congr_right fun hnonneg => ?_)
      refine exists_congr fun j => and_congr_right fun _ => ?_
      by_cases hji : j = i
      · subst hji
        rw [Function.update_self]
        exact iff_of_false (fun heq => hg heq.symm) (by omega)
      · rw [Function.update_of_ne hji]
  echoed := by
    intro g d hd
    change w'.conn g = some d at hd
    rw [hconn] at hd
    by_cases hg : g = s.client i
    · subst hg
      rw [Function.update_self] at hd
      cases hd
    · rw [Function.update_of_ne hg] at hd
      exact h.echoed g d hd
  closed := by
    intro d hd
    change d ∈ w'.closed at hd
    rw [hclosed] at hd
    rcases List.mem_append.mp hd with hd | hd
    · exact h.closed d hd
    · exact List.mem_singleton.mp hd ▸ hall

theorem System.Echoes.serve (h : System.Echoes listenfd ⟨s, w⟩) (hi : i < fdSetsize)
    (hpos : 0 ≤ s.client i) (hserve : SelectModel.serve turn i (s.client i) s = .ok (es, s'))
    (hw : replay (Wire.perform written) es w = some w') : System.Echoes listenfd ⟨s', w'⟩ := by
  obtain ⟨c, hc⟩ := (h.opened (s.client i)).mpr ⟨hpos, i, hi, rfl⟩
  have hecho := h.echoed _ c hc
  obtain ⟨es₁, s₁, hserve₁, htable, -⟩ := h.table.serve_ok turn hi hpos
  rw [hserve] at hserve₁
  cases hserve₁
  by_cases hzero : turn.read (s.client i) = 0
  · have hrun : SelectModel.serve turn i (s.client i) s =
        (fdClr (s.client i) s.allset).map fun allset =>
          ([.read (s.client i) 0, .close (s.client i)],
            { s with allset := allset, client := Function.update s.client i (-1) }) :=
      if_pos hzero
    rw [hrun] at hserve
    cases hclr : fdClr (s.client i) s.allset with
    | error e =>
        rw [hclr] at hserve
        cases hserve
    | ok allset =>
        rw [hclr] at hserve
        cases hserve
        obtain ⟨hall, hconn, hclosed⟩ := taken_of_read_close hc hw
        exact h.removeConn hi hpos ⟨hecho, hall⟩ htable rfl hconn hclosed
  · have hrun : SelectModel.serve turn i (s.client i) s =
        .ok ([.read (s.client i) (turn.read (s.client i)),
          .write (s.client i) (turn.read (s.client i))], s) := if_neg hzero
    rw [hrun] at hserve
    cases hserve
    obtain ⟨c', hc', hconn, hclosed⟩ := echoes_of_read_write hc hecho hzero hw
    exact h.setConn hc hc' hconn hclosed

theorem System.Echoes.clientLoop (h : System.Echoes listenfd ⟨s, w⟩) (hle : i + left ≤ fdSetsize)
    (hrun : SelectModel.clientLoop turn left i nready s = .ok (es, s'))
    (hw : replay (Wire.perform written) es w = some w') : System.Echoes listenfd ⟨s', w'⟩ := by
  induction left generalizing i nready s w es with
  | zero =>
      cases hrun
      obtain rfl := Option.some.inj hw
      exact h
  | succ left ih =>
      have hi : i < fdSetsize := by omega
      unfold SelectModel.clientLoop at hrun
      by_cases hfree : s.client i < 0
      · rw [if_pos hfree] at hrun
        exact ih h (by omega) hrun hw
      have hpos : 0 ≤ s.client i := by omega
      rw [if_neg hfree, fdIsset_eq ⟨hpos, h.table.client_lt i hi⟩] at hrun
      cases hset : turn.rset (s.client i).toNat with
      | false =>
          rw [hset] at hrun
          exact ih h (by omega) hrun hw
      | true =>
          obtain ⟨es₁, s₁, hserve, -, -⟩ := h.table.serve_ok turn hi hpos
          rw [hset] at hrun
          simp only [Except.bind, if_true, hserve] at hrun
          by_cases hlast : nready - 1 = 0
          · rw [if_pos hlast] at hrun
            cases hrun
            exact h.serve hi hpos hserve hw
          · rw [if_neg hlast] at hrun
            cases hrest : SelectModel.clientLoop turn left (i + 1) (nready - 1) s₁ with
            | error e =>
                rw [hrest] at hrun
                cases hrun
            | ok y =>
                rw [hrest] at hrun
                cases hrun
                rw [replay_append] at hw
                obtain ⟨u, hu, hw⟩ := Option.bind_eq_some_iff.mp hw
                exact ih (h.serve hi hpos hserve hu) (by omega) hrest hw

/-- The entries of the table, read off the set of descriptors. -/
theorem Table.exists_client_iff (h : Table listenfd s) {fd : Int} (hfd : 0 ≤ fd) :
    (∃ i < fdSetsize, s.client i = fd) ↔ fd ≠ listenfd ∧ s.allset fd.toNat = true := by
  have hcast : (fd.toNat : Int) = fd := Int.toNat_of_nonneg hfd
  rw [h.allset, hcast]
  constructor
  · rintro ⟨i, hi, rfl⟩
    exact ⟨h.client_ne i hi, .inr ⟨i, hi, rfl⟩⟩
  · rintro ⟨hne, heq | hex⟩
    · exact absurd heq hne
    · exact hex

/-- A new connection does not take the place of another one. -/
theorem System.Echoes.addClient (h : System.Echoes listenfd ⟨s, w⟩)
    (hfresh : Fresh listenfd s connfd) (hrange : 0 ≤ connfd ∧ connfd < fdSetsize) :
    ∃ s', SelectModel.addClient s connfd = .ok s' ∧
      System.Echoes listenfd ⟨s', w.accept connfd⟩ := by
  obtain ⟨s', hadd, htable, hallset⟩ := h.table.addClient_ok hfresh hrange
  refine ⟨s', hadd, htable, fun g => ?_, fun g d hd => ?_, h.closed⟩
  · change (∃ d, Function.update w.conn connfd _ g = some d) ↔ _
    by_cases hg : g = connfd
    · subst hg
      rw [Function.update_self, and_iff_right hrange.1, htable.exists_client_iff hrange.1, hallset]
      exact iff_of_true ⟨_, rfl⟩ ⟨hfresh.1, .inl (Int.toNat_of_nonneg hrange.1)⟩
    · rw [Function.update_of_ne hg]
      refine (h.opened g).trans (and_congr_right fun hnonneg => ?_)
      have hcast : (g.toNat : Int) = g := Int.toNat_of_nonneg hnonneg
      rw [htable.exists_client_iff hnonneg, h.table.exists_client_iff hnonneg, hallset, hcast]
      exact and_congr_right fun _ => (or_iff_right hg).symm
  · change Function.update w.conn connfd _ g = some d at hd
    by_cases hg : g = connfd
    · subst hg
      rw [Function.update_self] at hd
      exact Option.some.inj hd ▸ ⟨Nat.le_refl 0, .nil⟩
    · rw [Function.update_of_ne hg] at hd
      exact h.echoed g d hd

theorem System.Echoes.turnLoop (h : System.Echoes listenfd ⟨s, w⟩) (ha : turn.Accepts listenfd s)
    (hrun : SelectModel.turnLoop listenfd s turn = .ok (es, s'))
    (hw : replay (Wire.perform written) es w = some w') : System.Echoes listenfd ⟨s', w'⟩ := by
  have hloop : ∀ {s : Server} {w : Wire} {es : List Event} {n : Int},
      System.Echoes listenfd ⟨s, w⟩ →
      SelectModel.clientLoop turn (s.maxi + 1).toNat 0 n s = .ok (es, s') →
      replay (Wire.perform written) es w = some w' → System.Echoes listenfd ⟨s', w'⟩ := by
    intro s w es n hs hclient hes
    have hmaxi := hs.table.maxi_lt
    exact hs.clientLoop (by dsimp only at hmaxi; omega) hclient hes
  unfold SelectModel.turnLoop at hrun
  by_cases herror : turn.nready < 0
  · rw [if_pos herror] at hrun
    cases hrun
  rw [if_neg herror, fdIsset_eq h.table.listenfd_range] at hrun
  cases hset : turn.rset listenfd.toNat with
  | false =>
      rw [hset] at hrun
      exact hloop h hrun hw
  | true =>
      obtain ⟨hfresh, hrange⟩ := ha hset
      obtain ⟨s₁, hadd, h₁⟩ := h.addClient hfresh hrange
      rw [hset] at hrun
      simp only [Except.bind, if_true, hadd] at hrun
      by_cases hlast : turn.nready - 1 = 0
      · rw [if_pos hlast] at hrun
        cases hrun
        obtain rfl := Option.some.inj hw
        exact h₁
      · rw [if_neg hlast] at hrun
        cases hrest : SelectModel.clientLoop turn (s₁.maxi + 1).toNat 0 (turn.nready - 1) s₁ with
        | error e =>
            rw [hrest] at hrun
            cases hrun
        | ok y =>
            rw [hrest] at hrun
            cases hrun
            exact hloop h₁ hrest hw

end Turns

section Runs

variable {listenfd : Int} {s t : System} {l : Label}

/-- In a turn `accept`, if it is called, returns a new descriptor that fits into an
`fd_set`. -/
def Label.Accepts (listenfd : Int) (s : System) (l : Label) : Prop :=
  ∀ turn written, l = .turn turn written → turn.Accepts listenfd s.server

theorem System.Echoes.step (h : System.Echoes listenfd s) (hl : l.Accepts listenfd s)
    (ht : System.step listenfd s l = some t) : System.Echoes listenfd t := by
  cases l with
  | arrive fd bytes =>
      obtain ⟨c, hc, ht⟩ := Option.bind_eq_some_iff.mp ht
      obtain ⟨-, ht⟩ := Option.ite_none_left_eq_some.mp ht
      obtain rfl := Option.some.inj ht
      obtain ⟨hle, hecho⟩ := h.echoed fd c hc
      have hc' : Conn.Echoes { c with arrived := c.arrived ++ bytes } := by
        refine ⟨?_, ?_⟩
        · rw [List.length_append]
          exact hle.trans (Nat.le_add_right ..)
        · rwa [List.take_append_of_le_length hle]
      exact h.setConn hc hc' rfl rfl
  | hangup fd =>
      obtain ⟨c, hc, ht⟩ := Option.bind_eq_some_iff.mp ht
      obtain rfl := Option.some.inj ht
      obtain ⟨hle, hecho⟩ := h.echoed fd c hc
      have hc' : Conn.Echoes { c with eof := true } := ⟨hle, hecho⟩
      exact h.setConn hc hc' rfl rfl
  | turn turn written =>
      unfold System.step at ht
      dsimp only at ht
      cases hrun : SelectModel.turnLoop listenfd s.server turn with
      | error e =>
          rw [hrun] at ht
          cases ht
      | ok y =>
          rw [hrun] at ht
          obtain ⟨wire, hwire, rfl⟩ := Option.map_eq_some_iff.mp ht
          exact h.turnLoop (hl turn written rfl) hrun hwire

/-- The program in front of the loop, with whatever the buffer contains. -/
def System.start (listenfd : Int) (buf : Buffer) : Except Halt System :=
  (SelectModel.start listenfd).map fun server => ⟨server, ⟨buf, fun _ => none, []⟩⟩

theorem client_start {server : Server} (h : SelectModel.start listenfd = .ok server) :
    server.client = fun _ => -1 := by
  unfold SelectModel.start at h
  cases hset : fdSet listenfd fun _ => false with
  | error e =>
      rw [hset] at h
      cases h
  | ok allset =>
      rw [hset] at h
      cases h
      rfl

theorem echoes_start {buf : Buffer} (hl : 0 ≤ listenfd ∧ listenfd < fdSetsize)
    (hstart : System.start listenfd buf = .ok s) : System.Echoes listenfd s := by
  obtain ⟨server, hserver, htable⟩ := Table.start_ok hl
  unfold System.start at hstart
  rw [hserver] at hstart
  cases hstart
  refine ⟨htable, fun fd => ?_, fun fd c hc => (by cases hc), fun c hc => (by cases hc)⟩
  refine iff_of_false (fun ⟨c, hc⟩ => by cases hc) ?_
  rintro ⟨hpos, i, -, heq⟩
  have hnone : server.client i = -1 := congrFun (client_start hserver) i
  dsimp only at heq
  omega

/-- In every run in which the descriptors fit into an `fd_set`, for all orders in
which data arrives and is reported, cut into pieces, with reads that fail and with
writes that fail or are cut short: the open connections are those of the table, over
each of them the client has got what the calls of `write` have taken of its own
bytes, in upper case, and a connection that the server has closed was read to its
end. Where all writes were complete this is the echo of all that was read. -/
theorem echo_of_reaches {buf : Buffer} {s₀ : System} (hl : 0 ≤ listenfd ∧ listenfd < fdSetsize)
    (hstart : System.start listenfd buf = .ok s₀)
    (h : Reaches (System.step listenfd) (fun s l => l.Accepts listenfd s) s₀ s) :
    (∀ fd, (∃ c, s.wire.conn fd = some c) ↔ 0 ≤ fd ∧ ∃ i < fdSetsize, s.server.client i = fd) ∧
      (∀ fd c, s.wire.conn fd = some c →
        Relays ((c.arrived.take c.taken).map toupper) c.writes c.echoed ∧
        (Whole c.writes → c.echoed = (c.arrived.take c.taken).map toupper)) ∧
      ∀ c ∈ s.wire.closed, Relays (c.arrived.map toupper) c.writes c.echoed ∧
        (Whole c.writes → c.echoed = c.arrived.map toupper) := by
  have hechoes : System.Echoes listenfd s :=
    h.invariant (echoes_start hl hstart) fun _ ht hmeets hu => ht.step hmeets hu
  refine ⟨hechoes.opened, fun fd c hc => ?_, fun c hc => ?_⟩
  · have hecho := (hechoes.echoed fd c hc).relays
    exact ⟨hecho, hecho.eq_of_whole⟩
  · obtain ⟨⟨-, hecho⟩, hall⟩ := hechoes.closed c hc
    rw [hall, List.take_length] at hecho
    exact ⟨hecho, hecho.eq_of_whole⟩

/-- A turn in which only the client with the descriptor 4 is ready. -/
def reading (n : Int) : Turn where
  nready := 1
  rset := fun k => k == 4
  connfd := -1
  read := fun _ => n

/-- The server with its listening descriptor 3, and when its first client has connected. -/
def awaiting : System :=
  ⟨⟨fun _ => -1, -1, 3, Function.update (fun _ => false) 3 true⟩, ⟨fun _ => 0, fun _ => none, []⟩⟩

def visited : System := ⟨connected 4 4 4, awaiting.wire.accept 4⟩

/-- The client sends `hi!` and hangs up. It is answered in two pieces, and of the
first `write` takes only one byte. -/
def shortVisit : List Label :=
  [.arrive 4 [104, 105, 33], .turn (reading 2) fun _ => 1, .hangup 4,
    .turn (reading 1) fun _ => 1, .turn (reading 0) fun _ => -1]

theorem echo_shortVisit : ∃ s, replay (System.step 3) shortVisit visited = some s ∧
    s.wire.closed.map (fun c => (c.arrived, c.writes)) = [([104, 105, 33], [(2, 1), (1, 1)])] ∧
    ∀ c ∈ s.wire.closed, c.echoed = [72, 33] := by
  obtain ⟨s, hs, hclosed⟩ : ∃ s, replay (System.step 3) shortVisit visited = some s ∧
      s.wire.closed.map (fun c => (c.arrived, c.writes)) =
        [([104, 105, 33], [(2, 1), (1, 1)])] :=
    exists_of_replay_any (by decide +kernel)
  have hvisited : Reaches (System.step 3) (fun s l => l.Accepts 3 s) awaiting visited := by
    have htaken : System.step 3 awaiting (.turn (connecting 4) fun _ => 0) = some visited := rfl
    refine .next .refl ?_ htaken
    intro turn written hturn _
    cases hturn
    exact ⟨⟨by decide, fun _ _ => show (-1 : Int) ≠ 4 by decide⟩, by decide, by decide⟩
  have hrest : Reaches (System.step 3) (fun s l => l.Accepts 3 s) visited s := by
    refine .of_replay ?_ hs
    -- no turn of the visit reports the listening descriptor
    intro l hl t turn written hturn hset
    subst hturn
    simp only [shortVisit, List.mem_cons, Label.turn.injEq, reduceCtorEq, false_or,
      List.not_mem_nil, or_false] at hl
    rcases hl with ⟨rfl, -⟩ | ⟨rfl, -⟩ | ⟨rfl, -⟩ <;> cases hset
  refine ⟨s, hs, hclosed, fun c hc => ?_⟩
  obtain ⟨⟨-, hecho⟩, -⟩ := (@echo_of_reaches 3 s (fun _ => 0) awaiting ⟨by decide, by decide⟩ rfl
    (hvisited.trans hrest)).2.2 c hc
  have hmem := List.mem_map_of_mem (f := fun c : Conn => (c.arrived, c.writes)) hc
  rw [hclosed, List.mem_singleton, Prod.mk.injEq] at hmem
  rw [hecho, hmem.1, hmem.2]
  decide

end Runs

end LinuxDevelopment.SelectModel
