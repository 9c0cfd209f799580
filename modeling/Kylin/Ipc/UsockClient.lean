import Kylin.Ipc.UsockServer
import Kylin.Lib.Run

/-!
# A usock client and its server

`lib/core/ipc/usock/kylin_usock_client.c`.  `kylin_usock_client_request` sends a PDU
and then makes two `recv` calls for the response, one for the header and one for the
payload.  Neither is repeated when it returns less than was asked for, and the second
is not made when the response carries an error.

Client and server are joined by two byte streams that lose and reorder nothing.  The
streams have no frames, so the ends agree on where a response starts only as long as
the client takes exactly what the server sent.

## Main definitions

* `sendRequestPdu` — the sending half of a request.
* `System`, `System.step` — both ends, the streams and what has happened.
* `System.Aligned` — every call has parsed and consumed the reply of its number.
* `System.Whole` — a `recv` of the client returns what was asked for, and a response
  with an error has no payload.

## Main results

* `sendRequestPdu_request` — a request that was sent is a well-formed PDU.
* `System.run_aligned` — runs whose steps are all `Whole` stay aligned.
-/

namespace Kylin.Usock

open Lib

/-! ## Requests -/

/-- `USOCK_PDU_VERSION`. -/
def usockPduVersion : ℕ := 1

/-- `USOCK_PDU_TYPE_REQUEST`. -/
def usockPduTypeRequest : ℕ := 1

/-- `KYLIN_ERROR_2BIG`. -/
def kylinError2big : ℕ := 7

/-- `KYLIN_ERROR_INVAL`. -/
def kylinErrorInval : ℕ := 22

/-- `(cmd & ~IOC_DIRMASK) >> 16`: the length field of an `ioctl` command. -/
def requestLen (cmd : ℕ) : ℕ := (cmd &&& 0x1fffffff) >>> 16

/-- The header `__send_request_pdu` fills in. -/
def requestHdr (cmd : ℕ) (data : Option (List Byte)) (length : ℕ) : UsockPduHdr where
  version := usockPduVersion
  type := usockPduTypeRequest
  len := if data.isNone then 0 else length % 2 ^ 16
  cmd := cmd % 2 ^ 32
  err := 0

/-- `__send_request_pdu`: the code it returns, and the bytes that went out.  `data` is
the memory behind the pointer; the two sends take at most `takes` bytes, and a short
one returns `errno`.  `none` if it reads past the memory. -/
def sendRequestPdu (cmd : ℕ) (data : Option (List Byte)) (length : ℕ) (takes : ℕ × ℕ)
    (errno : ℕ) : Option (ℕ × List Byte) :=
  let hdr := requestHdr cmd data length
  if payloadMax < length then some (kylinError2big, [])
  else if takes.1 < hdrSize then some (errno, hdr.bytes.take takes.1)
  else if hdr.len = 0 then some (0, hdr.bytes)
  else if (data.getD []).length < hdr.len then none
  else if takes.2 < hdr.len then some (errno, hdr.bytes ++ (data.getD []).take takes.2)
  else some (0, hdr.bytes ++ (data.getD []).take hdr.len)

theorem requestLen_lt (cmd : ℕ) : requestLen cmd < 8192 := by
  have h : cmd &&& 0x1fffffff ≤ 0x1fffffff := Nat.and_le_right
  rw [requestLen, Nat.shiftRight_eq_div_pow]
  omega

theorem requestHdr_fits (cmd : ℕ) (data : Option (List Byte)) (length : ℕ) :
    (requestHdr cmd data length).Fits where
  version := by simp [requestHdr, usockPduVersion]
  type := by simp [requestHdr, usockPduTypeRequest]
  len := by
    rw [requestHdr]
    dsimp only
    split
    · decide
    · exact Nat.mod_lt _ (by decide)
  cmd := Nat.mod_lt _ (by decide)
  err := by simp [requestHdr]

/-- What goes out, if both sends are complete, is a well-formed request for the command. -/
theorem sendRequestPdu_request {cmd errno : ℕ} {data : Option (List Byte)} {takes : ℕ × ℕ}
    {bytes : List Byte} (h : sendRequestPdu cmd data (requestLen cmd) takes errno = some (0, bytes))
    (herrno : errno ≠ 0) :
    ∃ q : Request, bytes = q.hdr ++ q.payload ∧ (hdrOf q.hdr).cmd = cmd % 2 ^ 32 := by
  have hhdr := hdrOf_bytes (requestHdr_fits cmd data (requestLen cmd))
  have hcmd : (requestHdr cmd data (requestLen cmd)).cmd = cmd % 2 ^ 32 := rfl
  have hlen : (requestHdr cmd data (requestLen cmd)).len < payloadMax := by
    have hlt := requestLen_lt cmd
    rw [requestHdr, payloadMax]
    dsimp only
    split
    · decide
    · omega
  simp only [sendRequestPdu] at h
  generalize requestHdr cmd data (requestLen cmd) = hdr at h hhdr hcmd hlen
  rw [← hhdr] at hcmd
  split at h
  · cases h
  split at h
  · -- the first send was short
    cases h
    exact absurd rfl herrno
  split at h
  · rename_i hzero
    cases h
    exact ⟨⟨hdr.bytes, [], hdr.length_bytes, by rw [hhdr, hzero]; rfl, by decide⟩, by simp, hcmd⟩
  split at h
  · cases h
  rename_i hdata
  split at h
  · -- the second was
    cases h
    exact absurd rfl herrno
  · cases h
    have hpayload : ((data.getD []).take hdr.len).length = hdr.len :=
      List.length_take_of_le (Nat.le_of_not_lt hdata)
    exact ⟨⟨hdr.bytes, (data.getD []).take hdr.len, hdr.length_bytes, by rw [hhdr, hpayload],
      by rw [hpayload]; exact hlen⟩, rfl, hcmd⟩

/-! ## The two ends -/

/-- Where `kylin_usock_client_request` is.  `room` is the memory behind `data`. -/
inductive ClientPc
  | idle
  | recvHdr (room : ℕ)
  | recvData (hdr : List Byte) (room : ℕ)
  deriving DecidableEq, Repr

/-- A call that got past sending and has returned: the header it parsed, the bytes it
took from the stream, and its result. -/
structure ClientCall where
  hdr : Option (List Byte)
  consumed : List Byte
  ret : ℕ

/-- Both ends, the streams between them, the replies sent and the calls returned. -/
structure System where
  cli : ClientPc
  c2s : List Byte
  s2c : List Byte
  srv : Server
  replies : List (List Byte)
  calls : List ClientCall

/-- What can happen next: the client calls `kylin_usock_client_request`; its first or
second `recv` returns `k` bytes; the server handles the connection. -/
inductive Action
  | request (cmd : ℕ) (data : Option (List Byte)) (takes : ℕ × ℕ) (errno : ℕ)
  | recvHdr (k : ℕ)
  | recvData (k errno : ℕ)
  | serve (recvs : List ℕ) (proc : Proc)

namespace System

/-- A client at rest, connected to `srv`. -/
def init (srv : Server) : System := ⟨.idle, [], [], srv, [], []⟩

/-- The client returns. -/
def ret (s : System) (call : ClientCall) : System :=
  { s with cli := .idle, calls := s.calls ++ [call] }

/-- One step.  A `recv` may return any part of what was asked for, but not nothing;
it waits, and this is `none`, while the stream is empty.  The sends of the server are
complete. -/
def step (fd : ℤ) (s : System) : Action → Option (Unit × System)
  | .request cmd data takes errno =>
      match s.cli with
      | .idle => do
          let (code, bytes) ← sendRequestPdu cmd data (requestLen cmd) takes errno
          some ((), { s with
            c2s := s.c2s ++ bytes
            cli := if code ≠ 0 then .idle else .recvHdr (data.getD []).length })
      | _ => none
  | .recvHdr k =>
      match s.cli with
      | .recvHdr room =>
          if k = 0 ∨ hdrSize < k ∨ s.s2c.length < k then none
          else
            let hdr := s.s2c.take k
            let s := { s with s2c := s.s2c.drop k }
            if k ≠ hdrSize then some ((), s.ret ⟨none, hdr, kylinErrorInval⟩)
            else if (hdrOf hdr).err ≠ 0 then some ((), s.ret ⟨some hdr, hdr, (hdrOf hdr).err⟩)
            else some ((), { s with cli := .recvData hdr room })
      | _ => none
  | .recvData k errno =>
      match s.cli with
      | .recvData hdr room =>
          let len := (hdrOf hdr).len
          if (k = 0 ∧ len ≠ 0) ∨ len < k ∨ s.s2c.length < k ∨ room < k then none
          else
            let data := s.s2c.take k
            let s := { s with s2c := s.s2c.drop k }
            some ((), s.ret ⟨some hdr, hdr ++ data, if k ≠ len then errno else 0⟩)
      | _ => none
  | .serve recvs proc => do
      let r ← serverProcess proc fd ⟨s.c2s, recvs.map some, [some pduSize]⟩ s.srv
      some ((), { s with
        c2s := r.inp
        s2c := s.s2c ++ r.out
        srv := r.srv
        replies := if r.out = [] then s.replies else s.replies ++ [r.out] })

/-- **Alignment.**  The `n`-th call that returned had parsed the first twelve bytes of
the `n`-th reply as its header, and had consumed that whole reply; a call that has
parsed its header and not yet returned parsed those of the next. -/
structure Aligned (s : System) : Prop where
  returned : ∀ (n : ℕ) (call : ClientCall), s.calls[n]? = some call →
    ∃ reply, s.replies[n]? = some reply ∧ call.hdr = some (reply.take hdrSize) ∧
      call.consumed = reply
  parsed : ∀ (hdr : List Byte) (room : ℕ), s.cli = .recvData hdr room →
    ∃ reply, s.replies[s.calls.length]? = some reply ∧ hdr = reply.take hdrSize

/-- The step avoids the two ways in which the client leaves bytes behind: a `recv`
that returns less than was asked for, and a response with an error and a payload. -/
def Whole (s : System) : Action → Prop
  | .recvHdr k => k = hdrSize ∧
      ((hdrOf (s.s2c.take hdrSize)).err ≠ 0 → (hdrOf (s.s2c.take hdrSize)).len = 0)
  | .recvData k _ => match s.cli with
      | .recvData hdr _ => k = (hdrOf hdr).len
      | _ => True
  | _ => True

instance (s : System) (a : Action) : Decidable (s.Whole a) :=
  match a with
  | .request .. => .isTrue trivial
  | .recvHdr _ => inferInstanceAs (Decidable (_ ∧ _))
  | .recvData k _ => match h : s.cli with
      | .idle => .isTrue (by simp [Whole, h])
      | .recvHdr _ => .isTrue (by simp [Whole, h])
      | .recvData hdr _ => decidable_of_iff (k = (hdrOf hdr).len) (by simp [Whole, h])
  | .serve .. => .isTrue trivial

/-! ## The invariant -/

/-- The stream to the client holds the replies not yet consumed, less the header of
the first if the client is between its two reads. -/
def Pending (s2c : List Byte) (pending : List (List Byte)) : ClientPc → Prop
  | .recvData hdr _ => ∃ reply rest, pending = reply :: rest ∧ hdr = reply.take hdrSize ∧
      s2c = reply.drop hdrSize ++ rest.flatten
  | _ => s2c = pending.flatten

/-- What holds between the steps of an aligned system. -/
structure Inv (fd : ℤ) (s : System) : Prop where
  atRest : s.srv.AtRest fd
  delimited : ∀ reply ∈ s.replies, SelfDelimiting reply
  hdrs : ∀ call ∈ s.calls, call.hdr = some (call.consumed.take hdrSize)
  stream : ∃ pending, s.replies = s.calls.map ClientCall.consumed ++ pending ∧
    Pending s.s2c pending s.cli

variable {fd : ℤ} {s s' : System}

theorem inv_init {srv : Server} (h : srv.AtRest fd) : Inv fd (init srv) where
  atRest := h
  delimited := by simp [init]
  hdrs := by simp [init]
  stream := ⟨[], rfl, rfl⟩

theorem Inv.aligned (H : Inv fd s) : Aligned s where
  returned := by
    intro n call hn
    rcases H.stream with ⟨pending, hreplies, -⟩
    have hlt : n < s.calls.length := (List.getElem?_eq_some_iff.mp hn).1
    refine ⟨call.consumed, ?_, H.hdrs call (List.mem_of_getElem? hn), rfl⟩
    rw [hreplies, List.getElem?_append_left (by simpa using hlt), List.getElem?_map, hn]
    rfl
  parsed := by
    intro hdr room hcli
    rcases H.stream with ⟨pending, hreplies, hpend⟩
    rw [hcli] at hpend
    rcases hpend with ⟨reply, rest, rfl, hhdr, -⟩
    refine ⟨reply, ?_, hhdr⟩
    rw [hreplies, List.getElem?_append_right (by simp)]
    simp

/-- A call that returns with the first pending reply consumed. -/
theorem Inv.returns (H : Inv fd s) {reply : List Byte} {rest : List (List Byte)}
    (hreplies : s.replies = s.calls.map ClientCall.consumed ++ reply :: rest) (code : ℕ) :
    Inv fd (ret { s with s2c := rest.flatten } ⟨some (reply.take hdrSize), reply, code⟩) where
  atRest := H.atRest
  delimited := H.delimited
  hdrs := by
    intro call hcall
    rcases List.mem_append.mp hcall with hcall | hcall
    · exact H.hdrs call hcall
    · rw [List.mem_singleton.mp hcall]
  stream := ⟨rest, by simp [ret, hreplies], rfl⟩

/-- The first read, if it is whole, takes the header of the first pending reply. -/
theorem Inv.recvHdr (H : Inv fd s) {k : ℕ} (hok : s.Whole (.recvHdr k))
    (hstep : step fd s (.recvHdr k) = some ((), s')) : Inv fd s' := by
  rcases hok with ⟨rfl, herr⟩
  simp only [step] at hstep
  split at hstep
  · rename_i room hcli
    split at hstep
    · cases hstep
    rename_i hlen
    rcases H.stream with ⟨pending, hreplies, hpend⟩
    rw [hcli] at hpend
    change s.s2c = pending.flatten at hpend
    rcases pending with _ | ⟨reply, rest⟩
    · rw [hpend] at hlen
      simp [hdrSize] at hlen
    have hdelim : SelfDelimiting reply := H.delimited reply (by simp [hreplies])
    have hle : hdrSize ≤ reply.length := by rw [hdelim]; omega
    have htake : s.s2c.take hdrSize = reply.take hdrSize := by
      rw [hpend, List.flatten_cons, List.take_append_of_le_length hle]
    have hdrop : s.s2c.drop hdrSize = reply.drop hdrSize ++ rest.flatten := by
      rw [hpend, List.flatten_cons, List.drop_append_of_le_length hle]
    rw [htake] at hstep herr
    rw [hdrop] at hstep
    rw [if_neg (by simp)] at hstep
    split at hstep
    · -- an error: the reply is its header
      rename_i hcode
      cases hstep
      have hwhole : reply.length = hdrSize := by rw [hdelim, herr hcode, Nat.add_zero]
      have hself : reply.take hdrSize = reply := List.take_of_length_le (by omega)
      have h := H.returns hreplies (hdrOf (reply.take hdrSize)).err
      rw [List.drop_of_length_le (by omega), List.nil_append]
      rw [hself] at h ⊢
      exact h
    · cases hstep
      exact ⟨H.atRest, H.delimited, H.hdrs, _, hreplies, reply, rest, rfl, rfl, rfl⟩
  · cases hstep

/-- The second read, if it is whole, takes the rest of the reply. -/
theorem Inv.recvData (H : Inv fd s) {k errno : ℕ} (hok : s.Whole (.recvData k errno))
    (hstep : step fd s (.recvData k errno) = some ((), s')) : Inv fd s' := by
  simp only [step] at hstep
  split at hstep
  · rename_i hdr room hcli
    split at hstep
    · cases hstep
    cases hstep
    have hk : k = (hdrOf hdr).len := by simpa [Whole, hcli] using hok
    rcases H.stream with ⟨pending, hreplies, hpend⟩
    rw [hcli] at hpend
    rcases hpend with ⟨reply, rest, rfl, rfl, hs2c⟩
    have hdelim : SelfDelimiting reply := H.delimited reply (by simp [hreplies])
    have hlen : (reply.drop hdrSize).length = k := by
      rw [List.length_drop, hdelim, hk, Nat.add_sub_cancel_left]
    rw [hs2c, List.take_left' hlen, List.drop_left' hlen, List.take_append_drop]
    exact H.returns hreplies _
  · cases hstep

/-- The server adds a reply behind the others. -/
theorem Inv.serve (H : Inv fd s) {recvs : List ℕ} {proc : Proc}
    (hstep : step fd s (.serve recvs proc) = some ((), s')) : Inv fd s' := by
  simp only [step, Option.bind_eq_bind, Option.bind_eq_some_iff] at hstep
  rcases hstep with ⟨r, hr, hstep⟩
  cases hstep
  rcases serverProcess_spec hr H.atRest with ⟨hrest, hout⟩
  rcases H.stream with ⟨pending, hreplies, hpend⟩
  by_cases hnil : r.out = []
  · simp only [hnil, if_true, List.append_nil]
    exact ⟨hrest, H.delimited, H.hdrs, pending, hreplies, hpend⟩
  · simp only [hnil, if_false]
    refine ⟨hrest, ?_, H.hdrs, pending ++ [r.out], by simp [hreplies], ?_⟩
    · intro reply hmem
      rcases List.mem_append.mp hmem with hmem | hmem
      · exact H.delimited reply hmem
      · rw [List.mem_singleton.mp hmem]
        exact hout.resolve_left hnil
    · dsimp only
      cases hcli : s.cli with
      | idle =>
          rw [hcli] at hpend
          exact (congrArg (· ++ r.out) hpend).trans (by simp)
      | recvHdr room =>
          rw [hcli] at hpend
          exact (congrArg (· ++ r.out) hpend).trans (by simp)
      | recvData hdr room =>
          rw [hcli] at hpend
          rcases hpend with ⟨reply, rest, rfl, hhdr, hs2c⟩
          exact ⟨reply, rest ++ [r.out], rfl, hhdr, by simp [hs2c]⟩

/-- Sending changes nothing that alignment depends on. -/
theorem Inv.request (H : Inv fd s) {cmd errno : ℕ} {data : Option (List Byte)} {takes : ℕ × ℕ}
    (hstep : step fd s (.request cmd data takes errno) = some ((), s')) : Inv fd s' := by
  simp only [step] at hstep
  split at hstep
  · rename_i hcli
    simp only [Option.bind_eq_bind, Option.bind_eq_some_iff] at hstep
    rcases hstep with ⟨⟨code, bytes⟩, -, hstep⟩
    cases hstep
    rcases H.stream with ⟨pending, hreplies, hpend⟩
    rw [hcli] at hpend
    refine ⟨H.atRest, H.delimited, H.hdrs, pending, hreplies, ?_⟩
    dsimp only
    split
    · exact hpend
    · exact hpend
  · cases hstep

theorem inv_step {a : Action} (H : Inv fd s) (hok : s.Whole a)
    (hstep : step fd s a = some ((), s')) : Inv fd s' := by
  cases a with
  | request => exact H.request hstep
  | recvHdr => exact H.recvHdr hok hstep
  | recvData => exact H.recvData hok hstep
  | serve => exact H.serve hstep

/-- **Requests and responses stay aligned** in every run in which each `recv` of the
client returns what it asked for and no response has both an error and a payload. -/
theorem run_aligned {srv : Server} {tr : List (Step System Action Unit)} (hsrv : srv.AtRest fd)
    (h : Run (step fd) Whole (init srv) tr s) : Aligned s :=
  (h.invariant (inv_init hsrv) fun _ _ _ _ H hok hstep => inv_step H hok hstep).aligned

/-- A handler that is called with the record of descriptor 3 as `priv`, the connection just
accepted. -/
def justAccepted : Server := ⟨⟨3, 0, 0⟩, fun _ _ => 0⟩

theorem justAccepted_atRest : justAccepted.AtRest 3 := fun _ => Nat.zero_le _

/-- A request with a byte of payload and one without, both answered without error. -/
theorem run_aligned_two : ∃ tr s, Run (step 3) Whole (init justAccepted) tr s ∧
    s.calls.length = 2 ∧ Aligned s := by
  have hrun : ∃ tr s, Run (step 3) Whole (init justAccepted) tr s ∧ s.calls.length = 2 :=
    exists_run_of_eval
      [.request 0x10005 (some [7]) (12, 1) 0, .serve [12, 1] fun _ d => (0, d), .recvHdr 12,
        .recvData 1 0, .request 6 none (12, 0) 0, .serve [12] fun _ d => (0, d), .recvHdr 12,
        .recvData 0 0] (by decide +kernel)
  rcases hrun with ⟨tr, s, h, hcalls⟩
  exact ⟨tr, s, h, hcalls, run_aligned justAccepted_atRest h⟩

/-- A request with a byte of payload, answered with error 5, and a second request.
The first call leaves the payload of its reply behind, and the second takes it for
the first byte of its header. -/
theorem not_aligned_after_error : ∃ tr s,
    Run (step 3) (fun _ _ => True) (init justAccepted) tr s ∧ ¬ Aligned s := by
  have hrun : (runList (step 3) (init justAccepted)
      [.request 0x10005 (some [7]) (12, 1) 0, .serve [12, 1] fun _ _ => (5, fun _ => 7),
        .recvHdr 12, .request 6 none (12, 0) 0, .serve [12] fun _ d => (0, d), .recvHdr 12]).map
      (fun p => (p.2.cli, p.2.replies[p.2.calls.length]?)) =
      some (.recvData [7, 1, 1, 0, 0, 6, 0, 0, 0, 0, 0, 0] 0,
        some [1, 1, 0, 0, 6, 0, 0, 0, 0, 0, 0, 0]) := by decide +kernel
  rcases Option.map_eq_some_iff.mp hrun with ⟨⟨tr, s⟩, hlist, hp⟩
  rw [Prod.mk.injEq] at hp
  refine ⟨tr, s, run_of_runList _ hlist (fun _ _ => trivial), fun h => ?_⟩
  rcases h.parsed _ _ hp.1 with ⟨reply, hreply, hhdr⟩
  rw [hp.2, Option.some.injEq] at hreply
  subst hreply
  exact absurd hhdr (by decide)

end System

end Kylin.Usock
