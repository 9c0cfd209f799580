import Mathlib.Order.OrderIsoNat
import Kylin.Ipc.UsockServer

/-!
# The loops of `__server_process`

Three loops carry `pdu_pos` over the calls of the socket layer, and none of them asks whether a
call moved any bytes.  They are taken here one call at a time and on any sequence of results, so
that a loop that never ends can be told from one that ends late; `serverProcess` has no value for
the first, and is shown to be a run of such calls in `Kylin.Ipc.UsockRuns`.  An address past the
block is one more byte of it, so that the loops go on as they do in the code.

A receive that finds the peer closed is repeated for ever.  And `pdu_pos` is left where an error
finds it: if that was behind the header, the next call asks for a negative number of bytes.

## Main definitions

* `Process` — `__server_process` between two calls of the socket layer; `Process.step` is the
  second of them and what follows it.
* `Process.asked` — the length that it passes.
* `Ends` — it returns, and no length was negative.
* `Stalls` — a call that asks for bytes and moves none.

## Main results

* `Process.step_spec` — what one call of the socket layer does.
* `ends_iff` — when the loops end.
-/

namespace Kylin.Usock

open Lib

/-- Where `__server_process` stands; the number is `payload_len`. -/
inductive Phase
  | header
  | payload (payloadLen : ℕ)
  | send (payloadLen : ℕ)
  | returned
  deriving DecidableEq

/-- `__server_process` between two calls of the socket layer; `taken` counts the bytes received so
far. -/
structure Process where
  phase : Phase
  srv : Server
  taken : ℕ

/-- The bytes that a peer sends, and what the calls of the socket layer return: `none` is `-1`, and
`some k` moves as many bytes as are asked for, up to `k`. -/
structure Peer where
  inp : ℕ → Byte
  results : ℕ → Option ℕ

namespace Process

/-- `acpt->pdu_pos`. -/
def pos (p : Process) : ℕ := p.srv.procPriv.pduPos

/-- Position and block of the connection. -/
def conn (p : Process) : Conn := p.srv.conn

def setConn (p : Process) (c : Conn) : Process := { p with srv := p.srv.setConn c }

/-- The length passed to the socket layer. -/
def asked (p : Process) : Option ℤ :=
  match p.phase with
  | .header => some ((hdrSize : ℤ) - p.pos)
  | .payload payloadLen => some ((payloadLen : ℤ) - p.pos)
  | .send _ => some p.pos
  | .returned => none

/-- Before the first call. -/
def enter (srv : Server) (fd : ℤ) : Process :=
  match srv.acceptNodeFind fd with
  | none => ⟨.returned, srv, 0⟩
  | some _ => ⟨.header, srv, 0⟩

/-- `kylin_socket_recv(acpt->sock, fd, acpt->pdu + acpt->pdu_pos, target - acpt->pdu_pos)` that
returned `k`, and `acpt->pdu_pos += recv_len`. -/
def received (inp : ℕ → Byte) (target k : ℕ) (p : Process) : Process :=
  let n := min k (sizeSub target p.pos)
  { p.setConn ⟨p.pos + n, overlay p.conn.pdu (hdrSize * p.pos) (slice inp p.taken n)⟩ with
    taken := p.taken + n }

/-- `__server_process_error`, and return. -/
def failed (fd : ℤ) (p : Process) : Process :=
  { p with phase := .returned, srv := p.srv.serverProcessError fd }

/-- `hdr.err = proc(server, hdr.cmd, data)`, before the send loop. -/
def answered (proc : Proc) (payloadLen : ℕ) (p : Process) : Process :=
  { p.setConn ⟨p.pos, answer proc p.conn.pdu⟩ with phase := .send payloadLen }

/-- What follows the header. -/
def headed (proc : Proc) (fd : ℤ) (p : Process) : Process :=
  let len := (pduHdr p.conn.pdu).len
  if payloadMax ≤ len then p.failed fd
  else if len ≠ 0 then { p with phase := .payload (len + hdrSize) }
  else p.answered proc hdrSize

/-- One call of the socket layer. -/
def step (proc : Proc) (fd : ℤ) (inp : ℕ → Byte) (p : Process) : Option ℕ → Process
  | none => if p.phase = .returned then p else p.failed fd
  | some k =>
      match p.phase with
      | .header =>
          let p := p.received inp hdrSize k
          if p.pos < hdrSize then p else p.headed proc fd
      | .payload payloadLen =>
          let p := p.received inp payloadLen k
          if p.pos < payloadLen then p else p.answered proc payloadLen
      | .send _ =>
          let p := p.setConn ⟨p.pos - min k p.pos, p.conn.pdu⟩
          if 0 < p.pos then p else { p with phase := .returned }
      | .returned => p

end Process

open Process

section Handler
variable (proc : Proc) (fd : ℤ) (peer : Peer) (srv : Server)

/-- `__server_process` before its call `n` of the socket layer. -/
def processAt : ℕ → Process
  | 0 => enter srv fd
  | n + 1 => (processAt n).step proc fd peer.inp (peer.results n)

/-- **The loops end**: `__server_process` returns after finitely many calls of the socket layer,
and passes no negative length to it. -/
structure Ends : Prop where
  returns : ∃ n, (processAt proc fd peer srv n).phase = .returned
  asks : ∀ n len, (processAt proc fd peer srv n).asked = some len → 0 ≤ len

/-- A call that asks for bytes and moves none. -/
def Stalls (p : Process) (result : Option ℕ) : Prop :=
  result = some 0 ∧ ∃ len, p.asked = some len ∧ 0 < len

/-- One of the receive loops. -/
def Receiving (p : Process) : Prop := p.phase ≠ .returned ∧ ∀ n, p.phase ≠ .send n

/-- After the peer has closed every receive returns zero. -/
def StaysClosed : Prop :=
  ∀ n, Receiving (processAt proc fd peer srv n) →
    Stalls (processAt proc fd peer srv n) (peer.results n) →
    ∀ m, n < m → Receiving (processAt proc fd peer srv m) → peer.results m = some 0

/-- **When the loops end**: the connection is not that of `priv`, or no more than a header was left
by an earlier call; no receive finds the peer closed while bytes are missing, and not every send
from some call on moves nothing. -/
structure Moves : Prop where
  start : srv.AtRest fd
  receives : ∀ n, Receiving (processAt proc fd peer srv n) →
    ¬ Stalls (processAt proc fd peer srv n) (peer.results n)
  sends : ∀ n payloadLen, (processAt proc fd peer srv n).phase = .send payloadLen →
    ∃ m, n ≤ m ∧ ¬ Stalls (processAt proc fd peer srv m) (peer.results m)

end Handler

/-! ## One call of the socket layer -/

namespace Process

/-- The positions that the loops keep to. -/
def Bounded (p : Process) : Prop :=
  match p.phase with
  | .header => p.pos ≤ hdrSize
  | .payload payloadLen => p.pos ≤ payloadLen ∧ payloadLen < pduSize
  | .send _ => p.pos < pduSize
  | .returned => True

/-- Bytes still to be moved, each loop above those behind it. -/
def rank (p : Process) : ℕ :=
  match p.phase with
  | .header => 2 * (pduSize + 1) + (hdrSize - p.pos)
  | .payload payloadLen => (pduSize + 1) + (payloadLen - p.pos)
  | .send _ => p.pos + 1
  | .returned => 0

variable {p : Process} {proc : Proc} {fd : ℤ} {inp : ℕ → Byte} {target k : ℕ}

theorem received_pos (inp : ℕ → Byte) (k : ℕ) (hle : p.pos ≤ target) (hlt : target < 2 ^ 64) :
    (p.received inp target k).pos = p.pos + min k (target - p.pos) := by
  rw [← sizeSub_of_le hle hlt]
  rfl

theorem bounded_failed (p : Process) (fd : ℤ) : Bounded (p.failed fd) ∧ rank (p.failed fd) = 0 :=
  ⟨trivial, rfl⟩

theorem answered_spec (proc : Proc) (k : ℕ) (hlt : p.pos < pduSize) :
    Bounded (p.answered proc k) ∧ rank (p.answered proc k) = p.pos + 1 := ⟨hlt, rfl⟩

/-- A header that has come leads to a later loop, or to an error. -/
theorem headed_spec (proc : Proc) (fd : ℤ) (hpos : p.pos = hdrSize) :
    Bounded (p.headed proc fd) ∧ rank (p.headed proc fd) < 2 * (pduSize + 1) := by
  have hsize : hdrSize < pduSize := by decide
  rw [headed]
  split
  · have hfail := bounded_failed p fd
    exact ⟨hfail.1, by omega⟩
  next hlen =>
    split
    · have hmax : pduSize = hdrSize + payloadMax := rfl
      refine ⟨?_, ?_⟩
      · change p.pos ≤ _ ∧ _ < pduSize
        omega
      · change pduSize + 1 + (_ - p.pos) < _
        omega
    · obtain ⟨hbound, hrank⟩ := answered_spec (p := p) proc hdrSize (by omega)
      exact ⟨hbound, by omega⟩

/-- What a call of the socket layer does: less is left, unless it stalls, and then the loop is
where it was. -/
structure Advances (p : Process) (result : Option ℕ) (p' : Process) : Prop where
  bounded : Bounded p'
  nearer : ¬ Stalls p result → rank p' < rank p
  stays : Stalls p result → p'.phase = p.phase ∧ p'.pos = p.pos

theorem stalls_iff {len : ℤ} (h : p.asked = some len) : Stalls p (some k) ↔ k = 0 ∧ 0 < len := by
  simp [Stalls, h]

theorem advances_failed (hp : p.phase ≠ .returned) : Advances p none (p.failed fd) where
  bounded := (bounded_failed p fd).1
  nearer _ := by
    rw [(bounded_failed p fd).2, rank]
    split
    · omega
    · omega
    · omega
    · contradiction
  stays h := by
    obtain ⟨h, -⟩ := h
    cases h

/-- A receive, in the loop that counts to `target`: the loop goes on from what was received, or
`next` follows. -/
theorem advances_received (base : ℕ) {next : Process}
    (hle : p.pos ≤ target) (hlt : target < 2 ^ 64)
    (hasked : p.asked = some ((target : ℤ) - p.pos))
    (hrank : ∀ q : Process, q.phase = p.phase → rank q = base + (target - q.pos))
    (hbound : ∀ q : Process, q.phase = p.phase → q.pos ≤ target → Bounded q)
    (hnext : (p.received inp target k).pos = target → Bounded next ∧ rank next < base) :
    Advances p (some k) (if (p.received inp target k).pos < target then p.received inp target k
      else next) := by
  have hpos := received_pos inp k hle hlt
  have hrank₀ := hrank p rfl
  have hrank₁ := hrank (p.received inp target k) rfl
  split
  next hmore =>
    refine ⟨hbound _ rfl hmore.le, ?_, ?_⟩
    · rw [stalls_iff hasked, hrank₀, hrank₁]
      omega
    · rw [stalls_iff hasked]
      exact fun hstall => ⟨rfl, by omega⟩
  next hend =>
    obtain ⟨hbounded, hless⟩ := hnext (by omega)
    refine ⟨hbounded, ?_, ?_⟩
    · rw [stalls_iff hasked]
      omega
    · rw [stalls_iff hasked]
      omega

theorem advances_header (h : Bounded p) (hp : p.phase = .header) :
    Advances p (some k) (p.step proc fd inp (some k)) := by
  have hasked : p.asked = some ((hdrSize : ℤ) - p.pos) := by simp [asked, hp]
  have hstep : p.step proc fd inp (some k) =
      if (p.received inp hdrSize k).pos < hdrSize then p.received inp hdrSize k
      else (p.received inp hdrSize k).headed proc fd := by
    simp only [step, hp]
  rw [hstep]
  refine advances_received (2 * (pduSize + 1)) (by simpa [Bounded, hp] using h) (by decide) hasked
    ?_ ?_ ?_
  · intro q hq
    simp [rank, hq, hp]
  · intro q hq hpos
    simpa [Bounded, hq, hp] using hpos
  · exact fun hpos => headed_spec proc fd hpos

theorem advances_payload (h : Bounded p) (hp : p.phase = .payload target) :
    Advances p (some k) (p.step proc fd inp (some k)) := by
  obtain ⟨hle, hlt⟩ : p.pos ≤ target ∧ target < pduSize := by simpa [Bounded, hp] using h
  have hasked : p.asked = some ((target : ℤ) - p.pos) := by simp [asked, hp]
  have hsize : pduSize < 2 ^ 64 := by decide
  have hstep : p.step proc fd inp (some k) =
      if (p.received inp target k).pos < target then p.received inp target k
      else (p.received inp target k).answered proc target := by
    simp only [step, hp]
  rw [hstep]
  refine advances_received (pduSize + 1) hle (by omega) hasked ?_ ?_ ?_
  · intro q hq
    simp [rank, hq, hp]
  · intro q hq hpos
    simpa [Bounded, hq, hp] using ⟨hpos, hlt⟩
  · intro hpos
    obtain ⟨hbound, hrank⟩ := answered_spec (p := p.received inp target k) proc target (by omega)
    exact ⟨hbound, by omega⟩

theorem advances_send (h : Bounded p) (hp : p.phase = .send target) :
    Advances p (some k) (p.step proc fd inp (some k)) := by
  have hlt : p.pos < pduSize := by simpa [Bounded, hp] using h
  have hasked : p.asked = some p.pos := by simp [asked, hp]
  have hpos : (p.setConn ⟨p.pos - min k p.pos, p.conn.pdu⟩).pos = p.pos - min k p.pos := rfl
  have hrank : rank p = p.pos + 1 := by simp [rank, hp]
  simp only [step, hp]
  split
  next hmore =>
    refine ⟨?_, ?_, ?_⟩
    · simp only [Bounded, setConn, hp]
      change pos (p.setConn _) < pduSize
      omega
    · rw [stalls_iff hasked, hrank]
      simp only [rank, setConn, hp]
      change ¬ _ → pos (p.setConn _) + 1 < _
      omega
    · rw [stalls_iff hasked]
      exact fun hstall => ⟨rfl, by omega⟩
  next hend =>
    refine ⟨trivial, fun _ => ?_, ?_⟩
    · change 0 < rank p
      omega
    · rw [stalls_iff hasked]
      omega

/-- **One call of the socket layer.** -/
theorem step_spec (proc : Proc) (fd : ℤ) (inp : ℕ → Byte) (h : Bounded p)
    (hp : p.phase ≠ .returned) (result : Option ℕ) :
    Advances p result (p.step proc fd inp result) := by
  cases result with
  | none =>
      rw [step, if_neg hp]
      exact advances_failed hp
  | some k =>
      cases hphase : p.phase with
      | header => exact advances_header h hphase
      | payload => exact advances_payload h hphase
      | send => exact advances_send h hphase
      | returned => exact absurd hphase hp

theorem asked_congr {p' : Process} (hphase : p'.phase = p.phase) (hpos : p'.pos = p.pos) :
    p'.asked = p.asked := by
  rw [asked, asked, hphase, hpos]

theorem rank_congr {p' : Process} (hphase : p'.phase = p.phase) (hpos : p'.pos = p.pos) :
    rank p' = rank p := by
  rw [rank, rank, hphase, hpos]

theorem step_of_returned (hp : p.phase = .returned) (result : Option ℕ) :
    p.step proc fd inp result = p := by
  cases result with
  | none => rw [step, if_pos hp]
  | some k => simp only [step, hp]

theorem Bounded.asked_nonneg (h : Bounded p) {len : ℤ} (hlen : p.asked = some len) : 0 ≤ len := by
  have hbound := h
  rw [Bounded] at hbound
  rw [asked] at hlen
  cases hp : p.phase with
  | header =>
      simp only [hp, Option.some.injEq] at hlen hbound
      omega
  | payload =>
      simp only [hp, Option.some.injEq] at hlen hbound
      omega
  | send =>
      simp only [hp, Option.some.injEq] at hlen
      omega
  | returned => simp [hp] at hlen

theorem bounded_enter {srv : Server} (h : srv.AtRest fd) : Bounded (enter srv fd) := by
  rw [enter]
  cases hfind : srv.acceptNodeFind fd with
  | none => trivial
  | some acpt => exact h (Server.acceptNodeFind_eq_some_iff.mp hfind).1

end Process

/-! ## A whole call -/

section Whole
variable {proc : Proc} {fd : ℤ} {peer : Peer} {srv : Server}

theorem bounded_processAt (proc : Proc) (peer : Peer) (h : Bounded (enter srv fd)) (n : ℕ) :
    Bounded (processAt proc fd peer srv n) := by
  induction n with
  | zero => exact h
  | succ n ih =>
      by_cases hp : (processAt proc fd peer srv n).phase = .returned
      · rwa [processAt, step_of_returned hp]
      · exact (step_spec proc fd peer.inp ih hp _).bounded

theorem processAt_returned {n : ℕ} (h : (processAt proc fd peer srv n).phase = .returned) {m : ℕ}
    (hm : n ≤ m) : (processAt proc fd peer srv m).phase = .returned := by
  induction m, hm using Nat.le_induction with
  | base => exact h
  | succ m _ ih => rwa [processAt, step_of_returned ih]

theorem antitone_rank (proc : Proc) (peer : Peer) (h : Bounded (enter srv fd)) :
    Antitone fun n => rank (processAt proc fd peer srv n) := by
  refine antitone_nat_of_succ_le fun n => ?_
  by_cases hp : (processAt proc fd peer srv n).phase = .returned
  · rw [processAt, step_of_returned hp]
  · have hstep := step_spec proc fd peer.inp
      (bounded_processAt proc peer h n) hp (peer.results n)
    by_cases hstall : Stalls (processAt proc fd peer srv n) (peer.results n)
    · obtain ⟨hphase, hpos⟩ := hstep.stays hstall
      exact (rank_congr hphase hpos).le
    · exact (hstep.nearer hstall).le

/-- Loops that move something sooner or later end. -/
theorem Moves.ends (h : Moves proc fd peer srv) : Ends proc fd peer srv := by
  have hbound := bounded_processAt proc peer (bounded_enter h.start)
  refine ⟨?_, fun n len hlen => (hbound n).asked_nonneg hlen⟩
  obtain ⟨n, hn⟩ := WellFoundedLT.antitone_chain_condition
    (antitone_rank proc peer (bounded_enter h.start))
  -- from call `n` on nothing gets less, so nothing moves
  have hstill : ∀ m, n ≤ m → (processAt proc fd peer srv m).phase ≠ .returned →
      Stalls (processAt proc fd peer srv m) (peer.results m) := by
    intro m hm hp
    by_contra hmove
    have hless := (step_spec proc fd peer.inp (hbound m) hp
      (peer.results m)).nearer hmove
    have h₁ := hn m hm
    have h₂ := hn (m + 1) (by omega)
    simp only [processAt] at h₁ h₂
    omega
  by_contra hnone
  have hgo : ∀ m, (processAt proc fd peer srv m).phase ≠ .returned := fun m hm => hnone ⟨m, hm⟩
  by_cases hsend : ∃ payloadLen, (processAt proc fd peer srv n).phase = .send payloadLen
  · obtain ⟨payloadLen, hsend⟩ := hsend
    obtain ⟨m, hm, hmove⟩ := h.sends n payloadLen hsend
    exact hmove (hstill m hm (hgo m))
  · exact h.receives n ⟨hgo n, fun k hk => hsend ⟨k, hk⟩⟩ (hstill n (le_refl n) (hgo n))

/-- A receive that finds the peer closed is repeated for ever. -/
theorem stalls_forever (hbound : Bounded (enter srv fd)) (hclosed : StaysClosed proc fd peer srv)
    {n : ℕ} (hrecv : Receiving (processAt proc fd peer srv n))
    (hstall : Stalls (processAt proc fd peer srv n) (peer.results n)) {m : ℕ} (hm : n ≤ m) :
    Receiving (processAt proc fd peer srv m) ∧
      Stalls (processAt proc fd peer srv m) (peer.results m) := by
  induction m, hm using Nat.le_induction with
  | base => exact ⟨hrecv, hstall⟩
  | succ m hm ih =>
      obtain ⟨hr, hs⟩ := ih
      obtain ⟨hphase, hpos⟩ := (step_spec proc fd peer.inp
        (bounded_processAt proc peer hbound m) hr.1 (peer.results m)).stays hs
      have hr' : Receiving (processAt proc fd peer srv (m + 1)) := by
        rw [Receiving, processAt, hphase]
        exact hr
      refine ⟨hr', hclosed n hrecv hstall (m + 1) (by omega) hr', ?_⟩
      rw [processAt, asked_congr hphase hpos]
      exact hs.2

/-- Loops that end move something sooner or later. -/
theorem Ends.moves (h : Ends proc fd peer srv) (hclosed : StaysClosed proc fd peer srv) :
    Moves proc fd peer srv := by
  obtain ⟨⟨N, hN⟩, hasks⟩ := h
  have hstart : srv.AtRest fd := by
    intro hfd
    have hle := hasks 0 (hdrSize - (srv.procPriv.pduPos : ℤ)) (by
      rw [processAt, enter, Server.acceptNodeFind, if_pos hfd]
      rfl)
    omega
  refine ⟨hstart, ?_, ?_⟩
  · intro n hrecv hstall
    have hlast := stalls_forever (bounded_enter hstart) hclosed hrecv hstall (Nat.le_max_left n N)
    exact hlast.1.1 (processAt_returned hN (Nat.le_max_right n N))
  · intro n payloadLen _
    by_contra hnone
    have hret := processAt_returned hN (Nat.le_max_right n N)
    have hstall : Stalls (processAt proc fd peer srv (max n N)) (peer.results (max n N)) := by
      by_contra hmove
      exact hnone ⟨_, Nat.le_max_left n N, hmove⟩
    obtain ⟨-, len, hlen, -⟩ := hstall
    simp [asked, hret] at hlen

end Whole

/-- **When the loops of `__server_process` end.** -/
theorem ends_iff (proc : Proc) (fd : ℤ) (peer : Peer) (srv : Server)
    (hclosed : StaysClosed proc fd peer srv) :
    Ends proc fd peer srv ↔ Moves proc fd peer srv :=
  ⟨fun h => h.moves hclosed, Moves.ends⟩

/-- A new connection whose peer sends and takes five bytes at a time. -/
theorem ends_iff_fives :
    Ends (fun _ d => (0, d)) 0 ⟨fun _ => 0, fun _ => some 5⟩ ⟨⟨0, 0, 0⟩, fun _ _ => 0⟩ := by
  have hmove : ∀ p, ¬ Stalls p (some 5) := by
    rintro p ⟨h, -⟩
    cases h
  refine (ends_iff _ _ _ _ ?_).mpr ⟨?_, fun n _ => hmove _, fun n _ _ => ⟨n, le_refl n, hmove _⟩⟩
  · exact fun n _ h => absurd h (hmove _)
  · exact fun _ => Nat.zero_le _

/-- A peer that closes after five bytes of a header is asked for the other seven for ever.  And an
error after two of five bytes of payload leaves `pdu_pos` at fourteen, so that the next call
asks for two bytes less than none. -/
theorem not_ends_closed :
    (let peer : Peer := ⟨fun _ => 0, fun n => if n = 0 then some 5 else some 0⟩
      let srv : Server := ⟨⟨0, 0, 0⟩, fun _ _ => 0⟩
      StaysClosed (fun _ d => (0, d)) 0 peer srv ∧ ¬ Ends (fun _ d => (0, d)) 0 peer srv) ∧
    (let peer : Peer := ⟨fun i => if i = 2 then 5 else 0,
        fun n => if n = 0 then some 12 else if n = 1 then some 2 else none⟩
      let srv : Server := ⟨⟨0, 0, 0⟩, fun _ _ => 0⟩
      let left := processAt (fun _ d => (0, d)) 0 peer srv 3
      left.phase = .returned ∧ (enter left.srv 0).asked = some (-2)) := by
  refine ⟨?_, ?_⟩
  · intro peer srv
    have hclosed : StaysClosed (fun _ d => (0, d)) 0 peer srv := by
      rintro n - ⟨hn, -⟩ m hm -
      exact if_neg (by omega)
    refine ⟨hclosed, fun h => ?_⟩
    have hphase : (processAt (fun _ d => (0, d)) 0 peer srv 1).phase = .header := by decide
    have hasked : (processAt (fun _ d => (0, d)) 0 peer srv 1).asked = some 7 := by decide
    refine (h.moves hclosed).receives 1 ⟨?_, ?_⟩ ⟨rfl, 7, hasked, by decide⟩
    · rw [hphase]
      simp
    · rw [hphase]
      simp
  · decide

end Kylin.Usock
