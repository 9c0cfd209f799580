import Mathlib.Combinatorics.Enumerative.Composition
import Mathlib.Data.Int.Notation
import Kylin.Ipc.Usock

/-!
# Serving a usock request

`lib/core/ipc/usock/kylin_usock_server.c`.  When a connection becomes readable the
event loop calls `__server_process`, which reads one PDU into the block of the
connection, hands it to the `proc` callback of the server, and sends the block back.

Three loops carry a position over partial reads and writes.  The position counts
bytes, but it is added to a `usock_pdu_t *`, so every address in the loops is twelve
times too far: a read or write that starts at position zero lands where it should,
and any other lands at twelve times its position.

A handler is called with a descriptor and with `priv`, the record of a connection.  If the
record is that of another descriptor, `__accept_node_find` goes through the accept queues of
all servers with `KYLIN_RB_FOREACH`.  That loop starts at `kylin_rb_min`, which is `NULL` for
every tree (`Krb.World.run_foreach`), so it has no turn: the connection of `priv` is the only
one that is ever served.

## Main definitions

* `Server`, `acceptNodeFind` — the record, and the lookup.
* `recvLoop`, `sendLoop` — the loops, on the results the kernel gives.
* `serverProcess` — the handler.
* `Request`, `Reassembles` — a well-formed PDU, and what serving it over given
  splittings should do.

## Main results

* `recvLoop_keeps` — a loop leaves everything below its first address alone.
* `reassembles_iff` — serving is independent of what the block held before exactly
  when the connection is that of `priv`, the first read brings eight bytes, there is no
  payload and the answer leaves in one piece.
-/

namespace Kylin.Usock

open Lib

/-! ## Records -/

/-- `usock_accept_t`, without its back pointers; `pdu` is the address of the block. -/
structure UsockAccept where
  fd : ℤ
  pduPos : ℕ
  pdu : ℕ
  deriving Repr, DecidableEq

/-- The record that the argument `priv` of the handlers points to, and the blocks. -/
structure Server where
  procPriv : UsockAccept
  blocks : ℕ → ℕ → Byte

/-- What the handler works on: the position of a record and its block. -/
structure Conn where
  pduPos : ℕ
  pdu : ℕ → Byte

namespace Server

/-- Position and block of the connection. -/
def conn (srv : Server) : Conn := ⟨srv.procPriv.pduPos, srv.blocks srv.procPriv.pdu⟩

/-- Store position and block of the connection. -/
def setConn (srv : Server) (c : Conn) : Server :=
  ⟨{ srv.procPriv with pduPos := c.pduPos }, Function.update srv.blocks srv.procPriv.pdu c.pdu⟩

/-- `__accept_node_find`.  The loop over `serv_rb` has no turn, and the second comparison of the
descriptors is the first one again. -/
def acceptNodeFind (srv : Server) (fd : ℤ) : Option UsockAccept :=
  if srv.procPriv.fd = fd then some srv.procPriv else none

/-- `__server_process_error`: the block is cleared, the position is not. -/
def serverProcessError (srv : Server) (fd : ℤ) : Server :=
  match srv.acceptNodeFind fd with
  | none => srv
  | some acpt => { srv with blocks := Function.update srv.blocks acpt.pdu fun _ => 0 }

end Server

/-! ## The loops -/

/-- The socket as one run of the handler meets it: the bytes of the stream, and how
each `recv` and `send` turns out.  `none` is a return of `-1`; `some k` moves as many
bytes as were asked for, up to `k`. -/
structure Sock where
  inp : List Byte
  recvs : List (Option ℕ)
  sends : List (Option ℕ)

/-- After a receive loop; `ok` is false if `kylin_socket_recv` returned `-1`. -/
structure Recvd where
  ok : Bool
  recvs : List (Option ℕ)
  inp : List Byte
  conn : Conn

/-- `do { recv(acpt->pdu + acpt->pdu_pos, target - acpt->pdu_pos) } while(...)`.  `none`
if a read waits for ever, or writes outside the block. -/
def recvLoop (target : ℕ) : List (Option ℕ) → List Byte → Conn → Option Recvd
  | [], _, _ => none
  | none :: recvs, inp, conn => some ⟨false, recvs, inp, conn⟩
  | some k :: recvs, inp, conn =>
      let len := sizeSub target conn.pduPos
      let chunk := inp.take (min k len)
      if len ≠ 0 ∧ chunk = [] then none
      else do
        let block ← (Buffer.mk pduSize conn.pdu).write (hdrSize * conn.pduPos) chunk
        let next : Conn := ⟨conn.pduPos + chunk.length, block.get⟩
        if next.pduPos < target then recvLoop target recvs (inp.drop chunk.length) next
        else some ⟨true, recvs, inp.drop chunk.length, next⟩

/-- After the send loop: the bytes sent and the position left. -/
structure Sent where
  ok : Bool
  out : List Byte
  pduPos : ℕ

/-- `do { send(acpt->pdu + (payload_len - acpt->pdu_pos), acpt->pdu_pos) } while(...)`. -/
def sendLoop (payloadLen : ℕ) (pdu : ℕ → Byte) : List (Option ℕ) → ℕ → Option Sent
  | [], _ => none
  | none :: _, pos => some ⟨false, [], pos⟩
  | some k :: sends, pos =>
      let n := min k pos
      if pos ≠ 0 ∧ n = 0 ∨ payloadLen < pos then none
      else do
        let chunk ← (Buffer.mk pduSize pdu).read (hdrSize * (payloadLen - pos)) n
        if 0 < pos - n then do
          let rest ← sendLoop payloadLen pdu sends (pos - n)
          some { rest with out := chunk ++ rest.out }
        else some ⟨true, chunk, pos - n⟩

/-! ## The handler -/

/-- `acpt->pdu->hdr`. -/
def pduHdr (pdu : ℕ → Byte) : UsockPduHdr := hdrOf (slice pdu 0 hdrSize)

/-- `acpt->pdu->data`. -/
def pduData (pdu : ℕ → Byte) : ℕ → Byte := fun i => pdu (hdrSize + i)

/-- The `proc` callback: from the command and the data, the 32 bits it returns and
the data it leaves. -/
abbrev Proc := ℕ → (ℕ → Byte) → ℕ × (ℕ → Byte)

/-- The block after `hdr.err = proc(server, hdr.cmd, data)`. -/
def answer (proc : Proc) (pdu : ℕ → Byte) : ℕ → Byte :=
  let r := proc (pduHdr pdu).cmd (pduData pdu)
  overlay (fun i => if i < hdrSize then pdu i else r.2 (i - hdrSize)) 8 (leEncode 4 r.1)

/-- What one run of the handler did: the calls of `proc`, the bytes sent, the input
left and the record after it. -/
structure Served where
  ok : Bool
  calls : List (ℕ × (ℕ → Byte))
  out : List Byte
  inp : List Byte
  conn : Conn

/-- The first half of `__server_process`: a header, then `hdr.len` bytes.  The number
is `payload_len`. -/
def recvPdu (sock : Sock) (conn : Conn) : Option (Recvd × ℕ) := do
  let h ← recvLoop hdrSize sock.recvs sock.inp conn
  let len := (pduHdr h.conn.pdu).len
  if h.ok = false ∨ payloadMax ≤ len then some ({ h with ok := false }, 0)
  else if len ≠ 0 then do
    let p ← recvLoop (len + hdrSize) h.recvs h.inp h.conn
    some (p, len + hdrSize)
  else some (h, hdrSize)

/-- `__server_process` on the record it found. -/
def processPdu (proc : Proc) (sock : Sock) (conn : Conn) : Option Served := do
  let (p, payloadLen) ← recvPdu sock conn
  if p.ok = false then some ⟨false, [], [], p.inp, p.conn⟩
  else do
    let pdu := answer proc p.conn.pdu
    let s ← sendLoop payloadLen pdu sock.sends p.conn.pduPos
    some ⟨s.ok, [((pduHdr p.conn.pdu).cmd, pduData p.conn.pdu)], s.out, p.inp, ⟨s.pduPos, pdu⟩⟩

/-- The result of `__server_process`. -/
structure Result where
  calls : List (ℕ × (ℕ → Byte))
  out : List Byte
  inp : List Byte
  srv : Server

/-- `__server_process`. -/
def serverProcess (proc : Proc) (fd : ℤ) (sock : Sock) (srv : Server) : Option Result :=
  match srv.acceptNodeFind fd with
  | none => some ⟨[], [], sock.inp, srv⟩
  | some _ => do
      let r ← processPdu proc sock srv.conn
      let srv := srv.setConn r.conn
      some ⟨r.calls, r.out, r.inp, if r.ok then srv else srv.serverProcessError fd⟩

/-! ## What a loop does -/

/-- One turn of the receive loop that returned. -/
theorem recvLoop_cons {target k : ℕ} {recvs : List (Option ℕ)} {inp : List Byte} {conn : Conn}
    {r : Recvd} (h : recvLoop target (some k :: recvs) inp conn = some r) :
    ∃ chunk, chunk = inp.take (min k (sizeSub target conn.pduPos)) ∧
      hdrSize * conn.pduPos + chunk.length ≤ pduSize ∧
      let next : Conn :=
        ⟨conn.pduPos + chunk.length, overlay conn.pdu (hdrSize * conn.pduPos) chunk⟩
      (next.pduPos < target ∧ recvLoop target recvs (inp.drop chunk.length) next = some r ∨
        target ≤ next.pduPos ∧ r = ⟨true, recvs, inp.drop chunk.length, next⟩) := by
  refine ⟨_, rfl, ?_⟩
  simp only [recvLoop] at h
  split at h
  · cases h
  by_cases hfit : hdrSize * conn.pduPos +
      (inp.take (min k (sizeSub target conn.pduPos))).length ≤ pduSize
  · refine ⟨hfit, ?_⟩
    rw [Buffer.write_of_le hfit] at h
    simp only [Option.bind_eq_bind, Option.bind_some] at h
    split at h
    · exact .inl ⟨by assumption, h⟩
    · exact .inr ⟨Nat.not_lt.mp (by assumption), (Option.some.inj h).symm⟩
  · rw [Buffer.write, if_neg hfit] at h
    cases h

/-- **A receive loop writes at and above its first address.**  What lies below is as
it was. -/
theorem recvLoop_keeps {target : ℕ} {recvs : List (Option ℕ)} {inp : List Byte} {conn : Conn}
    {r : Recvd} (h : recvLoop target recvs inp conn = some r) :
    ∀ i, i < hdrSize * conn.pduPos → r.conn.pdu i = conn.pdu i := by
  induction recvs generalizing inp conn with
  | nil => simp [recvLoop] at h
  | cons o recvs ih =>
      intro i hi
      cases o with
      | none =>
          simp only [recvLoop, Option.some.injEq] at h
          rw [← h]
      | some k =>
          rcases recvLoop_cons h with ⟨chunk, -, -, ⟨-, hrest⟩ | ⟨-, rfl⟩⟩
          · rw [ih hrest i (by dsimp only; simp only [hdrSize] at hi ⊢; omega)]
            exact overlay_of_lt _ _ hi
          · exact overlay_of_lt _ _ hi

/-- A receive loop that was not cut short stops at its target. -/
theorem recvLoop_pos {target : ℕ} {recvs : List (Option ℕ)} {inp : List Byte} {conn : Conn}
    {r : Recvd} (h : recvLoop target recvs inp conn = some r) (hle : conn.pduPos ≤ target)
    (hlt : target < 2 ^ 64) : r.conn.pduPos ≤ target ∧ (r.ok = true → r.conn.pduPos = target) := by
  induction recvs generalizing inp conn with
  | nil => simp [recvLoop] at h
  | cons o recvs ih =>
      cases o with
      | none =>
          simp only [recvLoop, Option.some.injEq] at h
          rw [← h]
          exact ⟨hle, by simp⟩
      | some k =>
          rcases recvLoop_cons h with ⟨chunk, hchunk, -, hnext⟩
          have hlen : chunk.length ≤ target - conn.pduPos := by
            rw [hchunk, sizeSub_of_le hle hlt, List.length_take]
            omega
          rcases hnext with ⟨-, hrest⟩ | ⟨hge, rfl⟩
          · exact ih hrest (by dsimp only; omega)
          · dsimp only at hge ⊢
            exact ⟨by omega, fun _ => by omega⟩

/-- The loop returns on every splitting of the bytes it asks for, if the far end of
its addresses is inside the block. -/
theorem recvLoop_returns {target : ℕ} (hfit : hdrSize * target + target ≤ pduSize)
    (recvs : List (Option ℕ)) (rest : List Byte) :
    ∀ (ks : List ℕ) (inp : List Byte) (conn : Conn), ks ≠ [] → (∀ k ∈ ks, 0 < k) →
      conn.pduPos + ks.sum = target → inp.length = ks.sum →
      ∃ pdu, recvLoop target (ks.map some ++ recvs) (inp ++ rest) conn =
        some ⟨true, recvs, rest, target, pdu⟩ := by
  intro ks
  induction ks with
  | nil => intro inp conn hne
           exact absurd rfl hne
  | cons k ks ih =>
      intro inp conn _ hpos hsum hlen
      simp only [List.sum_cons] at hsum hlen
      have hk : 0 < k := hpos k (by simp)
      simp only [hdrSize, pduSize, payloadMax] at hfit
      have hsub : sizeSub target conn.pduPos = k + ks.sum := by
        rw [sizeSub_of_le (by omega) (by omega)]
        omega
      have htake : (inp ++ rest).take (min k (k + ks.sum)) = inp.take k := by
        rw [Nat.min_eq_left (by omega), List.take_append_of_le_length (by omega)]
      have hchunk : (inp.take k).length = k := by rw [List.length_take]; omega
      have hsome : inp.take k ≠ [] := by
        intro h
        rw [h] at hchunk
        simp at hchunk
        omega
      have hdrop : (inp ++ rest).drop k = inp.drop k ++ rest :=
        List.drop_append_of_le_length (by omega)
      have hin : hdrSize * conn.pduPos + (inp.take k).length ≤ pduSize := by
        simp only [hdrSize, pduSize, payloadMax]
        omega
      have hwrite := Buffer.write_of_le (b := ⟨pduSize, conn.pdu⟩) hin
      simp only [List.map_cons, List.cons_append, recvLoop, hsub, htake, hsome, and_false, if_false,
        hwrite, Option.bind_eq_bind, Option.bind_some, hchunk, hdrop]
      by_cases hend : conn.pduPos + k < target
      · rw [if_pos hend]
        have hne : ks ≠ [] := by
          rintro rfl
          simp at hsum
          omega
        exact ih _ _ hne (fun j hj => hpos j (by simp [hj])) (by dsimp only; omega)
          (by rw [List.length_drop]; omega)
      · rw [if_neg hend]
        have hks : ks = [] := by
          cases ks with
          | nil => rfl
          | cons j _ =>
              have := hpos j (by simp)
              simp only [List.sum_cons] at hsum
              omega
        subst hks
        simp only [List.sum_nil, Nat.add_zero] at hsum hlen
        exact ⟨_, by rw [hsum, List.drop_of_length_le (by omega)]; rfl⟩

/-- One turn of the send loop that returned and was not the last. -/
theorem sendLoop_cons {payloadLen k pos : ℕ} {pdu : ℕ → Byte} {sends : List (Option ℕ)} {s : Sent}
    (h : sendLoop payloadLen pdu (some k :: sends) pos = some s) (hk : k < pos) :
    ∃ s', sendLoop payloadLen pdu sends (pos - k) = some s' ∧
      s.out = slice pdu (hdrSize * (payloadLen - pos)) k ++ s'.out := by
  simp only [sendLoop, Nat.min_eq_left (Nat.le_of_lt hk)] at h
  split at h
  · cases h
  simp only [Option.bind_eq_bind, Option.bind_eq_some_iff] at h
  rcases h with ⟨chunk, hread, h⟩
  rw [if_pos (by omega)] at h
  rcases Option.bind_eq_some_iff.mp h with ⟨s', hs', hs⟩
  rw [Buffer.read] at hread
  split at hread
  · cases hread
    cases hs
    exact ⟨s', hs', rfl⟩
  · cases hread

/-- The first byte that a send loop sends. -/
theorem sendLoop_first {payloadLen k pos : ℕ} {pdu : ℕ → Byte} {sends : List (Option ℕ)} {s : Sent}
    (h : sendLoop payloadLen pdu (some k :: sends) pos = some s) (hk : 0 < k) (hpos : 0 < pos) :
    s.out.head? = some (pdu (hdrSize * (payloadLen - pos))) := by
  have hchunk : ∀ n, 0 < n → (slice pdu (hdrSize * (payloadLen - pos)) n).head? =
      some (pdu (hdrSize * (payloadLen - pos))) := by
    intro n hn
    obtain ⟨m, rfl⟩ := Nat.exists_eq_add_of_lt hn
    simp [slice, List.range_succ_eq_map]
  by_cases hlt : k < pos
  · rcases sendLoop_cons h hlt with ⟨s', -, hout⟩
    rw [hout, List.head?_append, hchunk k hk]
    rfl
  · simp only [sendLoop, Nat.min_eq_right (Nat.le_of_not_lt hlt)] at h
    split at h
    · cases h
    simp only [Option.bind_eq_bind, Option.bind_eq_some_iff] at h
    rcases h with ⟨chunk, hread, h⟩
    rw [if_neg (by omega)] at h
    rw [Buffer.read] at hread
    split at hread
    · cases hread
      cases h
      exact hchunk pos hpos
    · cases hread

/-- A PDU that leaves in one piece is the front of the block. -/
theorem sendLoop_whole {k pos : ℕ} {pdu : ℕ → Byte} (hk : pos ≤ k) (hpos : 0 < pos)
    (hfit : pos ≤ pduSize) :
    sendLoop pos pdu [some k] pos = some ⟨true, slice pdu 0 pos, 0⟩ := by
  have hin : 0 + pos ≤ pduSize := by omega
  have hread := Buffer.read_of_le (b := ⟨pduSize, pdu⟩) hin
  simp only [sendLoop, Nat.min_eq_right hk, Nat.lt_irrefl, Nat.sub_self, Nat.mul_zero, hread,
    Option.bind_eq_bind, Option.bind_some, if_false, or_false]
  rw [if_neg (by omega)]

/-! ## What `proc` is given -/

/-- A PDU was received: its header, and then its payload if it has one. -/
theorem recvPdu_ok {sock : Sock} {conn : Conn} {p : Recvd} {n : ℕ}
    (h : recvPdu sock conn = some (p, n)) (hok : p.ok = true) :
    ∃ r, recvLoop hdrSize sock.recvs sock.inp conn = some r ∧ r.ok = true ∧
      (pduHdr r.conn.pdu).len < payloadMax ∧ n = (pduHdr r.conn.pdu).len + hdrSize ∧
      (p = r ∧ n = hdrSize ∨ recvLoop n r.recvs r.inp r.conn = some p) := by
  simp only [recvPdu, Option.bind_eq_bind, Option.bind_eq_some_iff] at h
  rcases h with ⟨r, hr, h⟩
  refine ⟨r, hr, ?_⟩
  by_cases hbad : r.ok = false ∨ payloadMax ≤ (pduHdr r.conn.pdu).len
  · rw [if_pos hbad] at h
    cases h
    cases hok
  · rw [if_neg hbad] at h
    rw [not_or, Nat.not_le, Bool.not_eq_false] at hbad
    by_cases hlen : (pduHdr r.conn.pdu).len = 0
    · rw [if_neg (by simp [hlen])] at h
      cases h
      exact ⟨hbad.1, hbad.2, by omega, .inl ⟨rfl, rfl⟩⟩
    · rw [if_pos hlen] at h
      rcases Option.bind_eq_some_iff.mp h with ⟨p', hp', h⟩
      cases h
      exact ⟨hbad.1, hbad.2, rfl, .inr hp'⟩

/-- **Position and length of a received PDU.**  The header is not written over by the
payload, and the position is the whole length. -/
theorem recvPdu_spec {sock : Sock} {conn : Conn} {p : Recvd} {n : ℕ}
    (h : recvPdu sock conn = some (p, n)) (hok : p.ok = true) (hpos : conn.pduPos ≤ hdrSize) :
    (pduHdr p.conn.pdu).len < payloadMax ∧ n = (pduHdr p.conn.pdu).len + hdrSize ∧
      p.conn.pduPos = n := by
  rcases recvPdu_ok h hok with ⟨r, hr, hrok, hlt, hn, hp⟩
  have hrpos := (recvLoop_pos hr hpos (by decide)).2 hrok
  rcases hp with ⟨rfl, hhdr⟩ | hp
  · exact ⟨hlt, hn, hrpos.trans hhdr.symm⟩
  · have hhdr : pduHdr p.conn.pdu = pduHdr r.conn.pdu := by
      refine congrArg hdrOf (slice_congr fun i hi => recvLoop_keeps hp _ ?_)
      rw [hrpos]
      simp only [hdrSize] at hi ⊢
      omega
    simp only [payloadMax, hdrSize] at hlt hn hrpos
    refine ⟨hhdr ▸ hlt, hhdr ▸ hn, (recvLoop_pos hp ?_ ?_).2 hok⟩
    · omega
    · omega

/-- The first read of a header lies at the start of the block; nothing that came after
it lies below twelve times its length. -/
theorem recvLoop_front {k : ℕ} {recvs : List (Option ℕ)} {inp : List Byte} {conn : Conn} {r : Recvd}
    (h : recvLoop hdrSize (some k :: recvs) inp conn = some r) (hpos : conn.pduPos = 0)
    (hk : k ≤ hdrSize) (hinp : k ≤ inp.length) :
    ∀ i, i < hdrSize * k → r.conn.pdu i = overlay conn.pdu 0 (inp.take k) i := by
  intro i hi
  have hchunk : inp.take (min k (sizeSub hdrSize conn.pduPos)) = inp.take k := by
    rw [hpos, sizeSub_of_le (Nat.zero_le _) (by decide), Nat.min_eq_left (by omega)]
  rcases recvLoop_cons h with ⟨chunk, hc, -, hnext⟩
  rw [hchunk] at hc
  subst hc
  rw [List.length_take_of_le hinp, hpos, Nat.mul_zero, Nat.zero_add] at hnext
  rcases hnext with ⟨-, hrest⟩ | ⟨-, rfl⟩
  · exact recvLoop_keeps hrest i hi
  · rfl

/-- **What the block holds when `proc` is called.**  The payload does not reach the
front that the first read left. -/
theorem recvPdu_front {k : ℕ} {recvs sends : List (Option ℕ)} {inp : List Byte} {conn : Conn}
    {p : Recvd} {n : ℕ} (h : recvPdu ⟨inp, some k :: recvs, sends⟩ conn = some (p, n))
    (hok : p.ok = true) (hpos : conn.pduPos = 0) (hk : k ≤ hdrSize) (hinp : k ≤ inp.length) :
    ∀ i, i < hdrSize * k → p.conn.pdu i = overlay conn.pdu 0 (inp.take k) i := by
  intro i hi
  rcases recvPdu_ok h hok with ⟨r, hr, hrok, -, -, hp⟩
  have hrpos := (recvLoop_pos hr (by omega) (by decide)).2 hrok
  rw [← recvLoop_front hr hpos hk hinp i hi]
  rcases hp with ⟨rfl, -⟩ | hp
  · rfl
  · refine recvLoop_keeps hp i ?_
    rw [hrpos]
    exact Nat.lt_of_lt_of_le hi (Nat.mul_le_mul_left _ hk)

/-! ## Serving a request -/

/-- A well-formed request: a packed header, and as much payload as it announces. -/
structure Request where
  hdr : List Byte
  payload : List Byte
  hdr_length : hdr.length = hdrSize
  len_eq : (hdrOf hdr).len = payload.length
  len_lt : payload.length < payloadMax

/-- Serving the request works: whatever the block of the connection holds, and whatever `proc`
does.  `hs` and `ps` are the lengths of the reads of header and payload, `ss` those of the sends;
`privFd` is the descriptor in `priv`, and `fd` that of the connection. -/
def Reassembles (q : Request) (hs : Composition hdrSize) (ps : Composition q.payload.length)
    (ss : Composition (hdrSize + q.payload.length)) (privFd fd : ℤ) : Prop :=
  ∀ (srv : Server) (proc : Proc), srv.procPriv.fd = privFd → srv.procPriv.pduPos = 0 →
    ∃ (r : Result) (data : ℕ → Byte),
      serverProcess proc fd
        ⟨q.hdr ++ q.payload, (hs.blocks ++ ps.blocks).map some, ss.blocks.map some⟩ srv = some r ∧
      r.calls = [((hdrOf q.hdr).cmd, data)] ∧
      slice data 0 q.payload.length = q.payload ∧
      r.out = q.hdr.take 8 ++ leEncode 4 (proc (hdrOf q.hdr).cmd data).1 ++
        slice (proc (hdrOf q.hdr).cmd data).2 0 q.payload.length

/-- The block that goes back: the header with `err` replaced, then the data. -/
theorem slice_answer (proc : Proc) (pdu : ℕ → Byte) (n : ℕ) :
    slice (answer proc pdu) 0 (hdrSize + n) =
      slice pdu 0 8 ++ leEncode 4 (proc (pduHdr pdu).cmd (pduData pdu)).1 ++
        slice (proc (pduHdr pdu).cmd (pduData pdu)).2 0 n := by
  have hparts : hdrSize + n = 8 + 4 + n := rfl
  have hfront : slice (answer proc pdu) 0 8 = slice pdu 0 8 := by
    refine slice_congr fun i hi => ?_
    rw [answer, overlay_of_lt _ _ (by omega), if_pos (by simp only [hdrSize]; omega)]
  have herr : slice (answer proc pdu) (0 + 8) 4 =
      leEncode 4 (proc (pduHdr pdu).cmd (pduData pdu)).1 := slice_overlay_self _ 8 (leEncode 4 _)
  have hdata : slice (answer proc pdu) (0 + (8 + 4)) n =
      slice (proc (pduHdr pdu).cmd (pduData pdu)).2 0 n := by
    refine List.map_congr_left fun i _ => ?_
    have hi : 0 + (8 + 4) + i - hdrSize = 0 + i := by simp only [hdrSize]; omega
    rw [answer, overlay_of_ge _ _ (by rw [length_leEncode]; omega),
      if_neg (by simp only [hdrSize]; omega), hi]
  rw [hparts, slice_append, slice_append, hfront, herr, hdata]

/-- The fields before `err` depend on the first eight bytes. -/
theorem hdrOf_cmd_congr {bs cs : List Byte} (h : bs.take 8 = cs.take 8) :
    (hdrOf bs).cmd = (hdrOf cs).cmd := by
  have h' := congrArg (List.drop 4) h
  rw [List.drop_take, List.drop_take] at h'
  exact congrArg leDecode h'

theorem hdrOf_len_congr {bs cs : List Byte} (h : bs.take 8 = cs.take 8) :
    (hdrOf bs).len = (hdrOf cs).len := by
  have h' := congrArg (fun l => (l.take 4).drop 2) h
  simp only [List.take_take, List.drop_take] at h'
  exact congrArg leDecode h'

/-- A first read of eight bytes brings the fields before `err`. -/
theorem take_slice_front {g pdu : ℕ → Byte} {hdr : List Byte} {k : ℕ} (hk : 8 ≤ k)
    (hle : k ≤ hdr.length) (hg : ∀ i, i < hdrSize * k → g i = overlay pdu 0 (hdr.take k) i) :
    (slice g 0 hdrSize).take 8 = hdr.take 8 := by
  have hslice : slice g 0 8 = slice (overlay pdu 0 (hdr.take k)) 0 8 :=
    slice_congr fun i hi => hg _ (by simp only [hdrSize]; omega)
  have hself := slice_overlay_self pdu 0 (hdr.take k)
  rw [List.length_take_of_le hle] at hself
  rw [take_slice _ _ _ (by decide), hslice, ← take_slice _ _ k hk, hself, List.take_take,
    Nat.min_eq_left hk]

section Necessary
variable {q : Request} {hs : Composition hdrSize} {ps : Composition q.payload.length}
  {ss : Composition (hdrSize + q.payload.length)} {privFd fd : ℤ} {k : ℕ} {ks : List ℕ}

/-- Only the connection of `priv` is served. -/
theorem Reassembles.fd_eq (h : Reassembles q hs ps ss privFd fd) : privFd = fd := by
  by_contra hne
  obtain ⟨r, data, hr, hcalls, -⟩ := h ⟨⟨privFd, 0, 0⟩, fun _ _ => 0⟩ (fun _ d => (0, d)) rfl rfl
  simp only [serverProcess, Server.acceptNodeFind, if_neg hne, Option.some.injEq] at hr
  rw [← hr] at hcalls
  cases hcalls

/-- A request that is served works on a connection whose block holds `pdu`. -/
theorem Reassembles.on_block (h : Reassembles q hs ps ss privFd fd) (hhs : hs.blocks = k :: ks)
    (pdu : ℕ → Byte) (proc : Proc) :
    ∃ (g : ℕ → Byte) (s : Sent),
      (∀ i, i < hdrSize * k → g i = overlay pdu 0 (q.hdr.take k) i) ∧
      sendLoop ((pduHdr g).len + hdrSize) (answer proc g) (ss.blocks.map some)
        ((pduHdr g).len + hdrSize) = some s ∧
      (pduHdr g).cmd = (hdrOf q.hdr).cmd ∧
      slice (pduData g) 0 q.payload.length = q.payload ∧
      s.out = q.hdr.take 8 ++ leEncode 4 (proc (pduHdr g).cmd (pduData g)).1 ++
        slice (proc (pduHdr g).cmd (pduData g)).2 0 q.payload.length := by
  have hk : k ≤ hdrSize := hs.blocks_le (by simp [hhs])
  rcases h ⟨⟨privFd, 0, 0⟩, fun _ => pdu⟩ proc rfl rfl with ⟨r, data, hr, hcalls, hdata, hout⟩
  simp only [serverProcess, Server.acceptNodeFind, if_pos h.fd_eq, Option.bind_eq_bind,
    Option.bind_eq_some_iff, Option.some.injEq] at hr
  rcases hr with ⟨v, hv, rfl⟩
  simp only [processPdu, Option.bind_eq_bind, Option.bind_eq_some_iff] at hv
  rcases hv with ⟨⟨p, n⟩, hp, hv⟩
  dsimp only at hv hcalls hout
  by_cases hok : p.ok = true
  · rw [if_neg (by simp [hok])] at hv
    simp only [Option.bind_eq_some_iff, Option.some.injEq] at hv
    rcases hv with ⟨s, hs', rfl⟩
    rcases recvPdu_spec hp hok (Nat.zero_le _) with ⟨-, hn, hpos⟩
    simp only [List.cons.injEq, Prod.mk.injEq, and_true] at hcalls
    rcases hcalls with ⟨hcmd, rfl⟩
    refine ⟨p.conn.pdu, s, ?_, ?_, hcmd, hdata, ?_⟩
    · intro i hi
      rw [hhs] at hp
      rw [recvPdu_front hp hok rfl hk (by rw [List.length_append, q.hdr_length]; omega) i hi,
        List.take_append_of_le_length (by rw [q.hdr_length]; exact hk)]
      rfl
    · rw [← hn, ← hs', hpos]
    · rw [hcmd]
      exact hout
  · rw [if_pos (by simpa using hok)] at hv
    cases hv
    cases hcalls

/-- The first read brings the command: what it misses is left from the last PDU. -/
theorem Reassembles.eight_le (h : Reassembles q hs ps ss privFd fd)
    (hhs : hs.blocks = k :: ks) : 8 ≤ k := by
  by_contra hlt
  have hk : 0 < k := hs.blocks_pos (by simp [hhs])
  have h7 : 7 < q.hdr.length := by rw [q.hdr_length]; decide
  rcases h.on_block hhs (fun _ => q.hdr[7] + 1) (fun _ d => (0, d)) with ⟨g, s, hg, -, hcmd, -⟩
  have hbytes := leDecode_injective (by simp [hdrSize, q.hdr_length]) hcmd
  have hbyte : g 7 = q.hdr[7] := by
    have := congrArg (fun l => l[3]?) hbytes
    simpa [hdrSize, slice, List.getElem?_eq_getElem h7] using this
  rw [hg 7 (by simp only [hdrSize]; omega),
    overlay_of_ge _ _ (by rw [List.length_take]; omega)] at hbyte
  simp at hbyte

/-- There is no payload: its first byte is not read to the start of the data. -/
theorem Reassembles.payload_eq_nil (h : Reassembles q hs ps ss privFd fd)
    (hhs : hs.blocks = k :: ks) (hk : 8 ≤ k) : q.payload = [] := by
  by_contra hne
  rcases List.exists_cons_of_ne_nil hne with ⟨b, bs, hb⟩
  rcases h.on_block hhs (fun _ => b + 1) (fun _ d => (0, d)) with ⟨g, s, hg, -, -, hdata, -⟩
  have hbyte : g 12 = b := by
    have := congrArg List.head? hdata
    simpa [hb, slice, List.range_succ_eq_map, pduData, hdrSize] using this
  rw [hg 12 (by simp only [hdrSize]; omega),
    overlay_of_ge _ _ (by rw [List.length_take, q.hdr_length]; simp [hdrSize])] at hbyte
  simp at hbyte

/-- The answer leaves in one piece: a second send would start in the data. -/
theorem Reassembles.sends_eq (h : Reassembles q hs ps ss privFd fd) (hhs : hs.blocks = k :: ks)
    (hk : 8 ≤ k) (hnil : q.payload = []) : ss.blocks = [hdrSize] := by
  have hsum : ss.blocks.sum = hdrSize := by rw [ss.blocks_sum, hnil]; rfl
  rcases hss : ss.blocks with _ | ⟨m, _ | ⟨j, js⟩⟩
  · rw [hss] at hsum
    cases hsum
  · rw [hss] at hsum
    simpa using hsum
  exfalso
  have hm : 0 < m := ss.blocks_pos (by simp [hss])
  have hj : 0 < j := ss.blocks_pos (by simp [hss])
  simp only [hss, List.sum_cons, hdrSize] at hsum
  -- the byte that belongs after the first `m`, and a callback that leaves another there
  have hlen : (q.hdr.take 8 ++ leEncode 4 0).length = 12 := by simp [q.hdr_length, hdrSize]
  have hmlt : m < (q.hdr.take 8 ++ leEncode 4 0).length := by omega
  rcases h.on_block hhs (fun _ => 0)
    (fun _ _ => (0, fun _ => (q.hdr.take 8 ++ leEncode 4 0)[m] + 1)) with
    ⟨g, s, hg, hsend, -, -, hout⟩
  have hfront := take_slice_front hk (by rw [q.hdr_length]; exact hs.blocks_le (by simp [hhs])) hg
  have hlen0 : (pduHdr g).len = 0 := by
    rw [pduHdr, hdrOf_len_congr hfront, q.len_eq, hnil]
    rfl
  rw [hlen0, Nat.zero_add, hss] at hsend
  rcases sendLoop_cons hsend (by simp only [hdrSize]; omega) with ⟨s', hrest, hsout⟩
  have hfirst := sendLoop_first hrest hj (by simp only [hdrSize]; omega)
  -- twelve times `m` is past the header
  have hsecond : s.out[m]? = some ((q.hdr.take 8 ++ leEncode 4 0)[m] + 1) := by
    rw [hsout, List.getElem?_append_right (by simp), length_slice, Nat.sub_self,
      ← List.head?_eq_getElem?, hfirst]
    have hoff : hdrSize * (hdrSize - (hdrSize - m)) = 12 * m := by simp only [hdrSize]; omega
    rw [hoff, answer, overlay_of_ge _ _ (by rw [length_leEncode]; omega),
      if_neg (by simp only [hdrSize]; omega)]
  rw [hout, hnil, List.length_nil, slice_zero, List.append_nil,
    List.getElem?_eq_getElem hmlt] at hsecond
  simp at hsecond

end Necessary

/-- A request without payload, whose command comes with the first read and whose
answer leaves in one piece, is served. -/
theorem reassembles_of_front {q : Request} {hs : Composition hdrSize}
    {ps : Composition q.payload.length} {ss : Composition (hdrSize + q.payload.length)} {k : ℕ}
    {ks : List ℕ} (hhs : hs.blocks = k :: ks) (hk : 8 ≤ k) (hnil : q.payload = [])
    (hss : ss.blocks = [hdrSize]) (fd : ℤ) : Reassembles q hs ps ss fd fd := by
  intro srv proc hfd hpos
  have hkle : k ≤ hdrSize := hs.blocks_le (by simp [hhs])
  have hstart : srv.conn.pduPos = 0 := hpos
  -- the header is read, however it is split
  have hfit : hdrSize * hdrSize + hdrSize ≤ pduSize := by decide
  rcases recvLoop_returns hfit (ps.blocks.map some) q.payload hs.blocks q.hdr
    srv.conn (by simp [hhs]) (fun j hj => hs.blocks_pos hj)
    (by rw [hs.blocks_sum, hstart, Nat.zero_add]) (by rw [q.hdr_length, hs.blocks_sum])
    with ⟨g, hloop⟩
  rw [← List.map_append] at hloop
  have hfront : ∀ i, i < hdrSize * k → g i = overlay srv.conn.pdu 0 (q.hdr.take k) i := by
    intro i hi
    rw [hhs, List.cons_append, List.map_cons] at hloop
    have := recvLoop_front hloop hstart hkle (by rw [List.length_append, q.hdr_length]; omega) i hi
    rwa [List.take_append_of_le_length (by rw [q.hdr_length]; exact hkle)] at this
  have htake := take_slice_front hk (by rw [q.hdr_length]; exact hkle) hfront
  have hlen : (pduHdr g).len = 0 := by
    rw [pduHdr, hdrOf_len_congr htake, q.len_eq, hnil]
    rfl
  have hcmd : (pduHdr g).cmd = (hdrOf q.hdr).cmd := hdrOf_cmd_congr htake
  -- and the answer is the header with `err` replaced
  have hsend : sendLoop hdrSize (answer proc g) [some hdrSize] hdrSize =
      some ⟨true, slice (answer proc g) 0 hdrSize, 0⟩ :=
    sendLoop_whole (le_refl _) (by decide) (by decide)
  have hout := slice_answer proc g 0
  rw [← take_slice g 0 hdrSize (by decide), htake, hcmd] at hout
  have hproc : processPdu proc
      ⟨q.hdr ++ q.payload, (hs.blocks ++ ps.blocks).map some, ss.blocks.map some⟩ srv.conn =
      some ⟨true, [((hdrOf q.hdr).cmd, pduData g)], slice (answer proc g) 0 hdrSize, q.payload,
        ⟨0, answer proc g⟩⟩ := by
    simp [processPdu, recvPdu, hloop, hlen, payloadMax, hss, hsend, hcmd, -List.map_append]
  refine ⟨_, pduData g, by
    simp only [serverProcess, Server.acceptNodeFind, if_pos hfd, hproc]; rfl, rfl, ?_, ?_⟩
  · rw [hnil]
    rfl
  · rw [hnil]
    exact hout

/-- **When reassembly is independent of fragmentation.**  A request is served, whatever
the block held before and whatever `proc` does, exactly if it comes on the connection of `priv`,
its first read brings version, type, length and command, it has no payload, and the answer leaves
in one piece. -/
theorem reassembles_iff (q : Request) (hs : Composition hdrSize)
    (ps : Composition q.payload.length) (ss : Composition (hdrSize + q.payload.length))
    (privFd fd : ℤ) :
    Reassembles q hs ps ss privFd fd ↔
      privFd = fd ∧ 8 ≤ hs.blocks.headD 0 ∧ q.payload = [] ∧ ss.blocks = [hdrSize] := by
  rcases hhs : hs.blocks with _ | ⟨k, ks⟩
  · have := hs.blocks_sum
    rw [hhs] at this
    cases this
  constructor
  · intro h
    have hk := h.eight_le hhs
    have hnil := h.payload_eq_nil hhs hk
    exact ⟨h.fd_eq, hk, hnil, h.sends_eq hhs hk hnil⟩
  · rintro ⟨rfl, hk, hnil, hss⟩
    exact reassembles_of_front hhs hk hnil hss privFd

/-- One byte of payload, on a fresh connection, with every read and the send complete:
`proc` finds a zero where the byte should be, the byte being at `data[132]`. -/
theorem not_reassembles_one_byte :
    ¬ Reassembles ⟨[1, 1, 1, 0, 5, 0, 0, 0, 0, 0, 0, 0], [7], rfl, by decide, by decide⟩
      (.single 12 (by decide)) (.single 1 (by decide)) (.single 13 (by decide)) 0 0 := by
  intro h
  rcases h ⟨⟨0, 0, 0⟩, fun _ _ => 0⟩ (fun _ d => (0, d)) rfl rfl with
    ⟨r, data, hr, hcalls, hdata, -⟩
  have hseen : (serverProcess (fun _ d => (0, d)) 0
      ⟨[1, 1, 1, 0, 5, 0, 0, 0, 0, 0, 0, 0, 7], [some 12, some 1], [some 13]⟩
      ⟨⟨0, 0, 0⟩, fun _ _ => 0⟩).map (fun r => r.calls.map fun c => slice c.2 0 1) =
      some [[0]] := by decide +kernel
  have hr' := congrArg (Option.map fun r : Result => r.calls.map fun c => slice c.2 0 1) hr
  rw [Option.map_some, hcalls] at hr'
  have hzero := Option.some.inj (hr'.symm.trans hseen)
  rw [List.map_singleton, List.cons.injEq] at hzero
  exact absurd (hdata.symm.trans hzero.1) (by decide)

/-! ## Replies

Over a stream that loses nothing, every reply tells its own length, even where the
request behind it was garbled: a later read never reaches the header, and what is sent
is as long as the header says.
-/

/-- The length that the header of a reply announces is its length. -/
def SelfDelimiting (reply : List Byte) : Prop :=
  reply.length = hdrSize + (hdrOf (reply.take hdrSize)).len

/-- A receive loop fails only if `kylin_socket_recv` returns `-1`. -/
theorem recvLoop_ok {target : ℕ} {ks : List ℕ} {inp : List Byte} {conn : Conn} {r : Recvd}
    (h : recvLoop target (ks.map some) inp conn = some r) :
    r.ok = true ∧ ∃ js : List ℕ, r.recvs = js.map some := by
  induction ks generalizing inp conn with
  | nil => simp [recvLoop] at h
  | cons k ks ih =>
      rcases recvLoop_cons h with ⟨chunk, -, -, ⟨-, hrest⟩ | ⟨-, rfl⟩⟩
      · exact ih hrest
      · exact ⟨rfl, ks, rfl⟩

/-- A PDU that is refused is refused for its length, after its header. -/
theorem recvPdu_refused {ks : List ℕ} {inp : List Byte} {sends : List (Option ℕ)} {conn : Conn}
    {p : Recvd} {n : ℕ} (h : recvPdu ⟨inp, ks.map some, sends⟩ conn = some (p, n))
    (hok : p.ok = false) (hpos : conn.pduPos ≤ hdrSize) : p.conn.pduPos ≤ hdrSize := by
  simp only [recvPdu, Option.bind_eq_bind, Option.bind_eq_some_iff] at h
  rcases h with ⟨r, hr, h⟩
  have hrpos := (recvLoop_pos hr hpos (by decide)).1
  rcases recvLoop_ok hr with ⟨hrok, js, hjs⟩
  split at h
  · cases h
    exact hrpos
  · split at h
    · rcases Option.bind_eq_some_iff.mp h with ⟨p', hp', h⟩
      cases h
      rw [hjs] at hp'
      rw [(recvLoop_ok hp').1] at hok
      cases hok
    · cases h
      rw [hrok] at hok
      cases hok

/-- **One run of the handler on a connection at rest.**  The connection is at rest
again, and what was sent tells its own length. -/
theorem processPdu_spec {proc : Proc} {ks : List ℕ} {inp : List Byte} {conn : Conn} {r : Served}
    (h : processPdu proc ⟨inp, ks.map some, [some pduSize]⟩ conn = some r)
    (hpos : conn.pduPos ≤ hdrSize) :
    r.conn.pduPos ≤ hdrSize ∧ (r.out = [] ∨ SelfDelimiting r.out) := by
  simp only [processPdu, Option.bind_eq_bind, Option.bind_eq_some_iff] at h
  rcases h with ⟨⟨p, n⟩, hp, h⟩
  dsimp only at h
  split at h
  · rename_i hbad
    cases h
    exact ⟨recvPdu_refused hp hbad hpos, .inl rfl⟩
  · rename_i hok
    rcases recvPdu_spec hp (by simpa using hok) hpos with ⟨hlt, hn, hend⟩
    rw [hend, sendLoop_whole (by simp only [pduSize, hdrSize] at hn ⊢; omega)
      (by simp only [hdrSize] at hn; omega) (by simp only [pduSize, hdrSize] at hn ⊢; omega)] at h
    cases h
    refine ⟨Nat.zero_le _, .inr ?_⟩
    have hle : hdrSize ≤ n := by omega
    have hfront : ((slice (answer proc p.conn.pdu) 0 n).take hdrSize).take 8 =
        (slice p.conn.pdu 0 hdrSize).take 8 := by
      have hans := congrArg (List.take 8) (slice_answer proc p.conn.pdu 0)
      rw [take_slice _ _ _ hle, take_slice _ _ _ (by decide)]
      rw [Nat.add_zero, take_slice _ _ _ (by decide), List.append_assoc,
        List.take_left' (by simp)] at hans
      exact hans
    rw [SelfDelimiting, length_slice, hdrOf_len_congr hfront, hn, Nat.add_comm]
    rfl

namespace Server

/-- The connection is at rest: no more than a header was read. -/
def AtRest (srv : Server) (fd : ℤ) : Prop := srv.procPriv.fd = fd → srv.procPriv.pduPos ≤ hdrSize

variable {srv : Server} {fd : ℤ} {acpt : UsockAccept}

theorem acceptNodeFind_eq_some_iff :
    srv.acceptNodeFind fd = some acpt ↔ srv.procPriv.fd = fd ∧ srv.procPriv = acpt := by
  simp [acceptNodeFind]

theorem atRest_setConn {c : Conn} (hc : c.pduPos ≤ hdrSize) : (srv.setConn c).AtRest fd :=
  fun _ => hc

theorem AtRest.serverProcessError (h : srv.AtRest fd) : (srv.serverProcessError fd).AtRest fd := by
  rw [Server.serverProcessError]
  split
  · exact h
  · exact h

end Server

/-- **One run of the handler, on the server.** -/
theorem serverProcess_spec {proc : Proc} {fd : ℤ} {ks : List ℕ} {inp : List Byte} {srv : Server}
    {r : Result} (h : serverProcess proc fd ⟨inp, ks.map some, [some pduSize]⟩ srv = some r)
    (hrest : srv.AtRest fd) : r.srv.AtRest fd ∧ (r.out = [] ∨ SelfDelimiting r.out) := by
  rw [serverProcess] at h
  split at h
  · cases h
    exact ⟨hrest, .inl rfl⟩
  · rename_i acpt hfind
    rcases Option.bind_eq_some_iff.mp h with ⟨v, hv, h⟩
    cases h
    have hpos := hrest (Server.acceptNodeFind_eq_some_iff.mp hfind).1
    rcases processPdu_spec hv hpos with ⟨hpos', hout⟩
    refine ⟨?_, hout⟩
    dsimp only
    split
    · exact Server.atRest_setConn hpos'
    · exact (Server.atRest_setConn hpos').serverProcessError

end Kylin.Usock
