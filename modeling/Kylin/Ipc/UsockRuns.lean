import Kylin.Ipc.UsockLoops

/-!
# The handler as calls of the socket layer

`serverProcess` runs the three loops of `__server_process` on the results of the socket layer, and
`Process.step` goes from one call to the next.  They are two readings of one function: what
`serverProcess` returns, `Process.step` arrives at.  The results are those that `serverProcess` was
given, less the bytes of a receive that the stream does not have.

## Main definitions

* `Process.after` — the handler after calls with given results.
* `Process.store` — the handler with another position and block.

## Main results

* `exists_results_recv`, `exists_results_send` — the loops as calls.
* `exists_processAt` — the handler as calls.
-/

namespace Kylin.Usock

open Lib Process

/-! ## Records -/

namespace Server

theorem conn_setConn (srv : Server) (c : Conn) : (srv.setConn c).conn = c := by
  simp [conn, setConn]

theorem setConn_conn (srv : Server) : srv.setConn srv.conn = srv := by
  simp [conn, setConn]

theorem setConn_setConn (srv : Server) (c c' : Conn) :
    (srv.setConn c).setConn c' = srv.setConn c' := by
  simp [setConn]

end Server

/-! ## Calls of the socket layer -/

/-- Calls of the socket layer with these results, one after the other. -/
def Process.after (proc : Proc) (fd : ℤ) (inp : ℕ → Byte) (p : Process)
    (results : List (Option ℕ)) : Process :=
  results.foldl (step proc fd inp) p

/-- The handler with another position and block, and so many bytes received. -/
def Process.store (p : Process) (c : Conn) (taken : ℕ) : Process :=
  { p.setConn c with taken := taken }

variable {p : Process} {proc : Proc} {fd : ℤ} {inp : ℕ → Byte} {target taken taken' : ℕ}
  {total : List Byte} {c c' : Conn}

@[simp] theorem pos_store : (p.store c taken).pos = c.pduPos := rfl

@[simp] theorem conn_store : (p.store c taken).conn = c := Server.conn_setConn p.srv c

@[simp] theorem store_conn : p.store p.conn p.taken = p := by
  have hsame : p.srv.setConn p.conn = p.srv := Server.setConn_conn p.srv
  rw [store, setConn, hsame]

@[simp] theorem store_store : (p.store c taken).store c' taken' = p.store c' taken' := by
  simp only [store, setConn, Server.setConn_setConn]

/-! ## The loops -/

/-- What a receive leaves, by the bytes that it has taken. -/
theorem received_eq {chunk : List Byte} {k : ℕ} (hinp : ∀ i, inp i = total.getD i 0)
    (hchunk : chunk = (total.drop p.taken).take (min k (sizeSub target p.conn.pduPos))) :
    p.received inp target chunk.length =
      p.store ⟨p.conn.pduPos + chunk.length, overlay p.conn.pdu (hdrSize * p.conn.pduPos) chunk⟩
        (p.taken + chunk.length) := by
  have hlen : min chunk.length (sizeSub target p.pos) = chunk.length := by
    change chunk = (total.drop p.taken).take (min k (sizeSub target p.pos)) at hchunk
    rw [hchunk, List.length_take]
    omega
  have hslice : slice inp p.taken chunk.length = chunk := by
    apply List.ext_getElem
    · simp
    · intro i hi hi'
      have hget : chunk[i]? = total[p.taken + i]? := by
        rw [hchunk, List.getElem?_take_of_lt, List.getElem?_drop]
        rw [hchunk, List.length_take] at hi'
        omega
      rw [getElem_slice, hinp, List.getD_eq_getElem?_getD, ← hget, List.getElem?_eq_getElem hi']
      rfl
  simp only [received, hlen, hslice, store]
  rfl

/-- **A receive loop** is calls of the socket layer, one after the other, and what follows it. -/
theorem exists_results_recv (proc : Proc) (fd : ℤ) (target : ℕ) (next : Process → Process)
    (hinp : ∀ i, inp i = total.getD i 0) (hphase : p.phase ≠ .returned)
    (hstep : ∀ q : Process, q.phase = p.phase → ∀ k, q.step proc fd inp (some k) =
      if (q.received inp target k).pos < target then q.received inp target k
      else next (q.received inp target k))
    {recvs : List (Option ℕ)} {r : Recvd}
    (h : recvLoop target recvs (total.drop p.taken) p.conn = some r) :
    ∃ results taken, total.drop taken = r.inp ∧ p.after proc fd inp results =
      if r.ok then next (p.store r.conn taken) else (p.store r.conn taken).failed fd := by
  induction recvs generalizing p with
  | nil => cases h
  | cons o recvs ih =>
      cases o with
      | none =>
          have hfail : p.step proc fd inp none = p.failed fd := by
            rw [step, if_neg hphase]
          cases h
          refine ⟨[none], p.taken, rfl, ?_⟩
          rw [store_conn]
          exact hfail
      | some k =>
          obtain ⟨chunk, hchunk, -, hnext⟩ := recvLoop_cons h
          have hfirst := hstep p rfl chunk.length
          rw [received_eq hinp hchunk, pos_store] at hfirst
          rcases hnext with ⟨hmore, hrest⟩ | ⟨hend, rfl⟩
          · rw [if_pos hmore] at hfirst
            generalize hq : p.store ⟨p.conn.pduPos + chunk.length,
              overlay p.conn.pdu (hdrSize * p.conn.pduPos) chunk⟩ (p.taken + chunk.length) = q
              at hfirst
            have hqphase : q.phase = p.phase := by rw [← hq]; rfl
            have hqrest : recvLoop target recvs (total.drop q.taken) q.conn = some r := by
              rw [← hq, conn_store]
              exact (congrArg (recvLoop target recvs · _) List.drop_drop.symm).trans hrest
            obtain ⟨results, taken, htaken, hafter⟩ := ih (by rwa [hqphase])
              (by rwa [hqphase]) hqrest
            have hqstore : q.store r.conn taken = p.store r.conn taken := by
              rw [← hq, store_store]
            rw [hqstore, ← hfirst] at hafter
            exact ⟨some chunk.length :: results, taken, htaken, hafter⟩
          · rw [if_neg (Nat.not_lt.mpr hend)] at hfirst
            exact ⟨[some chunk.length], p.taken + chunk.length, List.drop_drop.symm, hfirst⟩

/-- **The send loop**, in the same way. -/
theorem exists_results_send {payloadLen : ℕ} {sends : List (Option ℕ)} {s : Sent}
    (hphase : p.phase = .send payloadLen)
    (h : sendLoop payloadLen p.conn.pdu sends p.pos = some s) :
    ∃ results, (p.after proc fd inp results).phase = .returned ∧
      (p.after proc fd inp results).srv =
        let srv := p.srv.setConn ⟨s.pduPos, p.conn.pdu⟩
        if s.ok then srv else srv.serverProcessError fd := by
  induction sends generalizing p s with
  | nil => cases h
  | cons o sends ih =>
      cases o with
      | none =>
          have hsame : p.srv.setConn ⟨p.pos, p.conn.pdu⟩ = p.srv :=
            Server.setConn_conn p.srv
          have hfail : p.step proc fd inp none = p.failed fd := by
            rw [step, if_neg (by simp [hphase])]
          cases h
          refine ⟨[none], ?_, ?_⟩
          · change (p.step proc fd inp none).phase = _
            rw [hfail]
            rfl
          · change (p.step proc fd inp none).srv = _
            rw [hfail, hsame]
            rfl
      | some k =>
          simp only [sendLoop] at h
          split at h
          · cases h
          obtain ⟨chunk, -, h⟩ := Option.bind_eq_some_iff.mp h
          have hpos : (p.store ⟨p.pos - min k p.pos, p.conn.pdu⟩ p.taken).pos =
              p.pos - min k p.pos := pos_store
          have hstep : p.step proc fd inp (some k) =
              if 0 < p.pos - min k p.pos then p.store ⟨p.pos - min k p.pos, p.conn.pdu⟩ p.taken
              else { p.store ⟨p.pos - min k p.pos, p.conn.pdu⟩ p.taken with
                phase := .returned } := by
            simp only [step, hphase]
            have hcond := congrArg (0 < ·) hpos
            exact if_congr (iff_of_eq hcond) rfl rfl
          by_cases hmore : 0 < p.pos - min k p.pos
          · rw [if_pos hmore] at h hstep
            obtain ⟨rest, hrest, h⟩ := Option.bind_eq_some_iff.mp h
            cases h
            generalize hq : p.store ⟨p.pos - min k p.pos, p.conn.pdu⟩ p.taken = q at hpos hstep
            have hqconn : q.conn = ⟨p.pos - min k p.pos, p.conn.pdu⟩ := by
              rw [← hq]
              exact conn_store
            have hqsrv : q.srv.setConn ⟨rest.pduPos, p.conn.pdu⟩ =
                p.srv.setConn ⟨rest.pduPos, p.conn.pdu⟩ := by
              rw [← hq]
              exact Server.setConn_setConn _ _ _
            obtain ⟨results, hreturned, hsrv⟩ := ih (p := q) (by rw [← hq]; exact hphase)
              (by rw [hqconn, hpos]; exact hrest)
            rw [hqconn, hqsrv] at hsrv
            rw [← hstep] at hreturned hsrv
            exact ⟨some k :: results, hreturned, hsrv⟩
          · rw [if_neg hmore] at h hstep
            cases h
            refine ⟨[some k], ?_, ?_⟩
            · change (p.step proc fd inp (some k)).phase = _
              rw [hstep]
            · change (p.step proc fd inp (some k)).srv = _
              rw [hstep]
              rfl

/-! ## The handler -/

theorem after_append (p : Process) (results results' : List (Option ℕ)) :
    p.after proc fd inp (results ++ results') =
      (p.after proc fd inp results).after proc fd inp results' := by
  simp only [Process.after, List.foldl_append]

/-- Calls with the results of a list are the first of a peer that returns them. -/
theorem processAt_eq_after (proc : Proc) (fd : ℤ) (inp : ℕ → Byte) (srv : Server)
    (results : List (Option ℕ)) :
    processAt proc fd ⟨inp, fun n => results.getD n none⟩ srv results.length =
      (enter srv fd).after proc fd inp results := by
  have key : ∀ n ≤ results.length,
      processAt proc fd ⟨inp, fun n => results.getD n none⟩ srv n =
        (enter srv fd).after proc fd inp (results.take n) := by
    intro n
    induction n with
    | zero => exact fun _ => rfl
    | succ n ih =>
        intro hn
        have hget : results.getD n none = results[n] := List.getD_eq_getElem _ _ hn
        rw [processAt, ih (by omega), List.take_succ_eq_append_getElem hn, after_append]
        simp only [hget]
        rfl
  rw [key _ le_rfl, List.take_length]

/-- The answer to a PDU that has come, and the send loop. -/
theorem exists_results_answered (proc : Proc) (fd : ℤ) (inp : ℕ → Byte) (taken : ℕ)
    {payloadLen : ℕ} {sends : List (Option ℕ)} {s : Sent}
    (h : sendLoop payloadLen (answer proc c.pdu) sends c.pduPos = some s) :
    ∃ results, (((p.store c taken).answered proc payloadLen).after proc fd inp results).phase =
        .returned ∧
      (((p.store c taken).answered proc payloadLen).after proc fd inp results).srv =
        let srv := p.srv.setConn ⟨s.pduPos, answer proc c.pdu⟩
        if s.ok then srv else srv.serverProcessError fd := by
  have hq : (p.store c taken).answered proc payloadLen =
      { p.store ⟨c.pduPos, answer proc c.pdu⟩ taken with phase := .send payloadLen } := by
    rw [answered, pos_store, conn_store]
    change { (p.store c taken).store ⟨c.pduPos, answer proc c.pdu⟩ taken with
      phase := Phase.send payloadLen } = _
    rw [store_store]
  generalize (p.store c taken).answered proc payloadLen = q at hq
  have hconn : q.conn = ⟨c.pduPos, answer proc c.pdu⟩ := by
    rw [hq]
    exact Server.conn_setConn _ _
  have hsrv : q.srv.setConn ⟨s.pduPos, answer proc c.pdu⟩ =
      p.srv.setConn ⟨s.pduPos, answer proc c.pdu⟩ := by
    rw [hq]
    exact Server.setConn_setConn _ _ _
  have hsend : sendLoop payloadLen q.conn.pdu sends q.conn.pduPos = some s := by
    rw [hconn]
    exact h
  obtain ⟨results, hreturned, hafter⟩ : ∃ results, (q.after proc fd inp results).phase = .returned ∧
      (q.after proc fd inp results).srv = _ :=
    exists_results_send (by rw [hq]) hsend
  rw [hconn, hsrv] at hafter
  exact ⟨results, hreturned, hafter⟩

/-- What is left of a call behind its receive loops. -/
theorem exists_results_pdu (proc : Proc) (fd : ℤ) (inp : ℕ → Byte) (taken : ℕ) {rp : Recvd}
    {payloadLen : ℕ} {sends : List (Option ℕ)} {served : Served}
    (h : (if rp.ok = false then some (⟨false, [], [], rp.inp, rp.conn⟩ : Served)
      else do
        let pdu := answer proc rp.conn.pdu
        let s ← sendLoop payloadLen pdu sends rp.conn.pduPos
        some ⟨s.ok, [((pduHdr rp.conn.pdu).cmd, pduData rp.conn.pdu)], s.out, rp.inp,
          ⟨s.pduPos, pdu⟩⟩) = some served) :
    ∃ results, let q := (if rp.ok then (p.store rp.conn taken).answered proc payloadLen
        else (p.store rp.conn taken).failed fd).after proc fd inp results
      q.phase = .returned ∧ q.srv =
        let srv := p.srv.setConn served.conn
        if served.ok then srv else srv.serverProcessError fd := by
  cases hok : rp.ok with
  | false =>
      rw [if_pos hok] at h
      cases h
      exact ⟨[], rfl, rfl⟩
  | true =>
      rw [if_neg (by simp [hok])] at h
      obtain ⟨s, hsend, h⟩ := Option.bind_eq_some_iff.mp h
      cases h
      exact exists_results_answered proc fd inp taken hsend

/-- `processPdu` as calls of the socket layer: the header, the payload if there is one, and the
answer. -/
theorem exists_results_process {sock : Sock} {served : Served}
    (hinp : ∀ i, inp i = sock.inp.getD i 0) (hphase : p.phase = .header) (htaken : p.taken = 0)
    (h : processPdu proc sock p.conn = some served) :
    ∃ results, (p.after proc fd inp results).phase = .returned ∧
      (p.after proc fd inp results).srv =
        let srv := p.srv.setConn served.conn
        if served.ok then srv else srv.serverProcessError fd := by
  obtain ⟨⟨rp, payloadLen⟩, hrecv, hrest⟩ := Option.bind_eq_some_iff.mp h
  obtain ⟨hdr, hhead, hrecv⟩ := Option.bind_eq_some_iff.mp hrecv
  have hheadPhase : p.phase ≠ .returned := by simp [hphase]
  obtain ⟨results₁, taken₁, htaken₁, hafter₁⟩ := exists_results_recv proc fd hdrSize
    (headed proc fd) hinp hheadPhase (fun q hq k => by simp only [step, hq, hphase])
    (by rw [htaken]; exact hhead)
  have hconn₁ : (p.store hdr.conn taken₁).conn = hdr.conn := conn_store
  dsimp only at hrecv
  split at hrecv
  · next hbad =>
      -- the header did not come, or asks for too much
      have hfail : p.after proc fd inp results₁ = (p.store hdr.conn taken₁).failed fd := by
        rw [hafter₁]
        split
        · next hok =>
            rw [headed, hconn₁, if_pos (hbad.resolve_left (by simp [hok]))]
        · rfl
      cases hrecv
      cases hrest
      exact ⟨results₁, by rw [hfail]; rfl, by rw [hfail]; rfl⟩
  · next hgood =>
      rw [not_or, Bool.not_eq_false] at hgood
      rw [if_pos hgood.1, headed, hconn₁, if_neg hgood.2] at hafter₁
      split at hrecv
      · next hlen =>
          obtain ⟨rp', hpay, hrecv⟩ := Option.bind_eq_some_iff.mp hrecv
          cases hrecv
          rw [if_pos hlen] at hafter₁
          generalize hq : ({ p.store hdr.conn taken₁ with
            phase := .payload ((pduHdr hdr.conn.pdu).len + hdrSize) } : Process) = q at hafter₁
          have hqphase : q.phase = .payload ((pduHdr hdr.conn.pdu).len + hdrSize) := by rw [← hq]
          have hqconn : q.conn = hdr.conn := by
            rw [← hq]
            exact hconn₁
          have hqpay : recvLoop ((pduHdr hdr.conn.pdu).len + hdrSize) hdr.recvs
              (sock.inp.drop q.taken) q.conn = some rp := by
            rw [hqconn, ← hq]
            exact (congrArg (recvLoop _ _ · _) htaken₁).trans hpay
          obtain ⟨results₂, taken₂, -, hafter₂⟩ := exists_results_recv proc fd
            ((pduHdr hdr.conn.pdu).len + hdrSize)
            (fun q => q.answered proc ((pduHdr hdr.conn.pdu).len + hdrSize)) hinp
            (by simp [hqphase]) (fun q' hq' k => by simp only [step, hq', hqphase]) hqpay
          obtain ⟨results₃, hreturned, hsrv⟩ := exists_results_pdu proc fd inp taken₂ hrest
          have hqsrv : q.srv.setConn served.conn = p.srv.setConn served.conn := by
            rw [← hq]
            exact Server.setConn_setConn _ _ _
          rw [hqsrv, ← hafter₂] at hsrv
          rw [← hafter₂] at hreturned
          refine ⟨results₁ ++ (results₂ ++ results₃), ?_, ?_⟩
          · rw [after_append, hafter₁, after_append]
            exact hreturned
          · rw [after_append, hafter₁, after_append]
            exact hsrv
      · next hlen =>
          cases hrecv
          rw [if_neg hlen] at hafter₁
          obtain ⟨results, hreturned, hsrv⟩ := exists_results_pdu proc fd inp taken₁ hrest
          rw [if_pos hgood.1] at hreturned hsrv
          exact ⟨results₁ ++ results, by rw [after_append, hafter₁]; exact hreturned,
            by rw [after_append, hafter₁]; exact hsrv⟩

/-- **`__server_process` as a run**: what `serverProcess` returns is what some results of the socket
layer lead to, on the same stream of bytes. -/
theorem exists_processAt {srv : Server} {sock : Sock} {r : Result}
    (h : serverProcess proc fd sock srv = some r) :
    ∃ results n, let peer : Peer := ⟨fun i => sock.inp.getD i 0, results⟩
      (processAt proc fd peer srv n).phase = .returned ∧
        (processAt proc fd peer srv n).srv = r.srv := by
  let inp : ℕ → Byte := fun i => sock.inp.getD i 0
  have key : ∃ results, ((enter srv fd).after proc fd inp results).phase = .returned ∧
      ((enter srv fd).after proc fd inp results).srv = r.srv := by
    rw [serverProcess] at h
    cases hfind : srv.acceptNodeFind fd with
    | none =>
        rw [hfind] at h
        cases h
        refine ⟨[], ?_, ?_⟩
        · simp [Process.after, enter, hfind]
        · simp [Process.after, enter, hfind]
    | some found =>
        rw [hfind] at h
        obtain ⟨served, hserved, h⟩ := Option.bind_eq_some_iff.mp h
        cases h
        have henter : enter srv fd = ⟨.header, srv, 0⟩ := by rw [enter, hfind]
        rw [henter]
        exact exists_results_process (p := ⟨.header, srv, 0⟩) (fun _ => rfl) rfl rfl hserved
  obtain ⟨results, hreturned, hsrv⟩ := key
  refine ⟨fun n => results.getD n none, results.length, ?_⟩
  dsimp only
  rw [processAt_eq_after]
  exact ⟨hreturned, hsrv⟩

end Kylin.Usock
