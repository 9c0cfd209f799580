import Kylin.Event.Backend
import Kylin.Socket.Conn
import Kylin.Ipc.UsockServer

/-!
# Accepting a client

`__server_accept` (`lib/core/ipc/usock/kylin_usock_server.c`) takes a connection from its socket,
registers it in `process_event`, and puts a record with a new block on the accept queue.  Behind
the last step comes the label `error`, with no `return` before it, so a client that was accepted
is dropped like one that was not.

What fails is not undone either.  `kylin_event_add` leaves its entry when the plugin refuses, and
`kylin_event_del` is called with `READ | WRITE | WRITE`, which are not the flags of the entry, so
that it keeps the entry and changes its flags.

## Main definitions

* `KusockServer`, `AcceptState` — the servers, their sockets and queues, and `process_event`.
* `serverAccept` — the handler.
* `Kept`, `Dropped` — what it should do with a client.

## Main results

* `Accepts.not_kept` — no client is kept.
* `keepsOrDrops_iff` — when the handler does what it should.
-/

namespace Kylin.Usock

open Lib Event

/-! ## The handler -/

/-- `kusock_server_t`, less what accepting does not read; `sock` and `acptQ` are pointers. -/
structure KusockServer where
  fd : ℕ
  sock : ℕ
  acptQ : ℕ

/-- The pointer `serv`: `acpt_priv`, or a record in `serv_rb`. -/
inductive ServRef
  | priv
  | node (fd : ℕ)

/-- `usock_accept_t` with its back pointers. -/
structure AcptEntry where
  acpt : UsockAccept
  sock : ℕ
  server : ServRef

/-- `acpt_priv`, the values of `serv_rb`, the sockets and accept queues, and `process_event`. -/
structure AcceptState (P : Type) where
  acptPriv : KusockServer
  servRb : List KusockServer
  socks : ℕ → Ksock.World
  queues : ℕ → List AcptEntry
  processEvent : Guard P

/-- The answers of the system: of `accept`, and whether there is memory for the connection, its
node, the block and the node of the record. -/
structure AcceptSys where
  os : Option (ℕ × Ksock.SockAddr)
  conn : Option ℕ
  connNode : Bool
  pdu : Option ℕ
  node : Bool

/-- `KEVENT_FLAG_READ | KEVENT_FLAG_WRITE | KEVENT_FLAG_ERROR`. -/
def addFlags : Flags := Kind.read.flag ||| Kind.write.flag ||| Kind.error.flag

/-- `KEVENT_FLAG_READ | KEVENT_FLAG_WRITE | KEVENT_FLAG_WRITE`. -/
def delFlags : Flags := Kind.read.flag ||| Kind.write.flag ||| Kind.write.flag

namespace AcceptState
variable {P : Type}

/-- The server of a descriptor, with the copy in `acpt_priv`. -/
def findServer (st : AcceptState P) (fd : ℕ) : Option (ServRef × KusockServer × AcceptState P) :=
  if st.acptPriv.fd = fd then some (.priv, st.acptPriv, st)
  else
    match st.servRb.find? fun serv => serv.fd = fd with
    | none => none
    | some serv => some (.node fd, serv, { st with acptPriv := serv })

/-- `kylin_socket_accept`. -/
def socketAccept (st : AcceptState P) (sock : ℕ) (sys : AcceptSys) :
    Option (Option ℕ × AcceptState P) :=
  ((st.socks sock).step (.accept sys.os sys.conn sys.connNode)).map fun (conn, w) =>
    (conn, { st with socks := Function.update st.socks sock w })

/-- `kylin_socket_connection_destroy`. -/
def connectionDestroy (st : AcceptState P) (sock a : ℕ) : Option (AcceptState P) :=
  ((st.socks sock).step (.destroy a)).map fun (_, w) =>
    { st with socks := Function.update st.socks sock w }

/-- `kylin_event_del(process_event, conn->fd, ...)`, whose result nobody reads. -/
def eventDel (reg : Reg P) (st : AcceptState P) (fd : ℕ) : Option (AcceptState P) :=
  (st.processEvent.del reg fd delFlags).map fun (_, guard) => { st with processEvent := guard }

/-- From `kylin_event_add` to the label `error`. -/
def addClient (reg : Reg P) (sys : AcceptSys) (st : AcceptState P) (ref : ServRef)
    (serv : KusockServer) (conn : Ksock.Conn) : Option (AcceptState P) := do
  let (ret, guard) ← st.processEvent.add reg conn.fd addFlags
  let st := { st with processEvent := guard }
  if ret ≠ .ok then some st
  else
    match sys.pdu with
    | none => st.eventDel reg conn.fd
    | some pdu =>
        if sys.node = true then
          let acpt : AcptEntry := ⟨⟨conn.fd, 0, pdu⟩, serv.sock, ref⟩
          some { st with
            queues := Function.update st.queues serv.acptQ (acpt :: st.queues serv.acptQ) }
        else st.eventDel reg conn.fd

/-- `__server_accept`. -/
def serverAccept (reg : Reg P) (sys : AcceptSys) (st : AcceptState P) (fd : ℕ) :
    Option (AcceptState P) :=
  match st.findServer fd with
  | none => some st
  | some (ref, serv, st) => do
      let (p, st) ← st.socketAccept serv.sock sys
      match p with
      | none => some st
      | some a => do
          let conn ← (st.socks serv.sock).heap.get a
          let st ← st.addClient reg sys ref serv conn
          -- every path comes to the label `error`
          st.connectionDestroy serv.sock a

/-! ## What it should do -/

/-- `kylin_socket_accept` has returned the connection at `a`, and the state is now `st₁`. -/
structure Accepts (st : AcceptState P) (fd : ℕ) (sys : AcceptSys) (ref : ServRef)
    (serv : KusockServer) (st₁ : AcceptState P) (a : ℕ) (conn : Ksock.Conn) : Prop where
  accepted : ∃ st₀, st.findServer fd = some (ref, serv, st₀) ∧
    st₀.socketAccept serv.sock sys = some (some a, st₁)
  conn_eq : (st₁.socks serv.sock).heap.get a = some conn

/-- The steps behind `kylin_socket_accept` succeed. -/
structure Succeeds (B : Backend P) (sys : AcceptSys) (st₁ : AcceptState P) (conn : Ksock.Conn) :
    Prop where
  event : ∃ guard, st₁.processEvent.add B.reg conn.fd addFlags = some (.ok, guard)
  pdu : sys.pdu ≠ none
  node : sys.node = true

/-- **A client is kept**: its connection is open and on the list of the socket, its descriptor is
registered, and there is a record for it. -/
structure Kept (st' : AcceptState P) (serv : KusockServer) (a : ℕ) (conn : Ksock.Conn) : Prop where
  opened : conn.fd ∈ (st'.socks serv.sock).opened
  tracked : a ∈ (st'.socks serv.sock).conns ∧ (st'.socks serv.sock).heap.get a = some conn
  registered : ∀ k, Backend.Listed st'.processEvent conn.fd k
  queued : ∃ e ∈ st'.queues serv.acptQ, e.acpt.fd = conn.fd

/-- **A client is dropped**: its connection is closed, freed and off the list, its descriptor is
registered neither in the set nor with the plugin, and the queue is as before. -/
structure Dropped (B : Backend P) (st st' : AcceptState P) (serv : KusockServer) (a : ℕ)
    (conn : Ksock.Conn) : Prop where
  closed : conn.fd ∉ (st'.socks serv.sock).opened
  destroyed : a ∉ (st'.socks serv.sock).conns ∧ (st'.socks serv.sock).heap.get a = none
  unregistered : ∀ k, ¬ Backend.Listed st'.processEvent conn.fd k ∧
    ¬ B.watches st'.processEvent.priv conn.fd k
  queue : st'.queues serv.acptQ = st.queues serv.acptQ

/-- **Accepting a client keeps it**, or else drops it. -/
def KeepsOrDrops (B : Backend P) (sys : AcceptSys) (st : AcceptState P) (fd : ℕ)
    (serv : KusockServer) (st₁ : AcceptState P) (a : ℕ) (conn : Ksock.Conn) : Prop :=
  ∃ st', st.serverAccept B.reg sys fd = some st' ∧
    (Succeeds B sys st₁ conn → Kept st' serv a conn) ∧
    (¬ Succeeds B sys st₁ conn → Dropped B st st' serv a conn)

/-- When it does: `process_event` is full and has not seen the descriptor, and a connection with
this descriptor is on the list of the socket, the new one being on it no second time. -/
structure Unwinds (B : Backend P) (st₁ : AcceptState P) (serv : KusockServer) (a : ℕ)
    (conn : Ksock.Conn) : Prop where
  full : st₁.processEvent.entries.length = eventsOpts.cap
  unseen : ∀ k, ¬ Backend.Listed st₁.processEvent conn.fd k ∧
    ¬ B.watches st₁.processEvent.priv conn.fd k
  listed : ∃ b, (st₁.socks serv.sock).findConn conn.fd (st₁.socks serv.sock).conns =
    some (some b) ∧ a ∉ (st₁.socks serv.sock).conns.erase b

variable {B : Backend P} {reg : Reg P} {sys : AcceptSys} {st st₁ st₂ st' : AcceptState P} {fd a : ℕ}
  {ref : ServRef} {serv : KusockServer} {conn : Ksock.Conn} {guard guard' : Guard P}
  {es : List KeventEvent}

/-! ## What is left of the entry -/

theorem has_addFlags : has addFlags .read = true := by decide

theorem has_delFlags : has delFlags .read = true := by decide

theorem addFlags_ne_delFlags : addFlags ≠ delFlags := by decide

/-- The last entry of a descriptor outlives a deletion with part of its flags. -/
theorem listed_of_del (hlists : guard.Lists (es ++ [⟨fd, addFlags⟩])) {ret : Kerr}
    (h : guard.del reg fd delFlags = some (ret, guard')) : Backend.Listed guard' fd .read := by
  have hlast : (⟨fd, addFlags⟩ : KeventEvent) ∈ es ++ [⟨fd, addFlags⟩] := by simp
  obtain ⟨g, hg⟩ : ∃ g, Guard.lookup (es ++ [⟨fd, addFlags⟩]) fd = some g := by
    rw [← Option.ne_none_iff_exists', ne_eq, Guard.lookup_eq_none_iff]
    exact fun hno => hno _ hlast rfl
  obtain ⟨i, e, hfirst, -⟩ := Guard.exists_first hg
  by_cases hret : ret = .ok
  · subst hret
    obtain ⟨-, -, -, hlists'⟩ := hlists.del_ok hfirst h
    rw [Backend.Listed, hlists'.entries_eq]
    split
    next hflags =>
      -- the entry that is removed is another one
      refine ⟨⟨fd, addFlags⟩, ?_, rfl, has_addFlags⟩
      rcases List.mem_append.mp (List.mem_of_getElem? hfirst.2) with he | he
      · have hfd : decide (e.efd = fd) = true := by simp [hfirst.efd_eq]
        rw [List.eraseP_append_left (p := fun e : KeventEvent => decide (e.efd = fd)) hfd _ he]
        simp
      · rw [List.mem_singleton.mp he] at hflags
        exact absurd hflags addFlags_ne_delFlags
    next hflags =>
      refine ⟨{ e with flags := delFlags }, ?_, hfirst.efd_eq, has_delFlags⟩
      obtain ⟨hlt, -⟩ := List.getElem?_eq_some_iff.mp hfirst.2
      exact List.mem_set hlt _
  · rw [Backend.Listed, (hlists.del_error hfirst hret h).entries_eq]
    exact ⟨_, hlast, rfl, has_addFlags⟩

/-- A descriptor that `kylin_event_add` has put into the set stays registered. -/
theorem listed_of_addClient (hlists : st.processEvent.Lists es)
    (hroom : es.length < eventsOpts.cap)
    (h : st.addClient reg sys ref serv conn = some st') :
    Backend.Listed st'.processEvent conn.fd .read := by
  obtain ⟨guard₁, hlists₁, -, hadd⟩ := hlists.add hroom reg conn.fd addFlags
  simp only [addClient, hadd, Option.bind_eq_bind, Option.bind_eq_some_iff] at h
  obtain ⟨⟨ret, guard₂⟩, hcall, h⟩ := h
  have hlists₂ := hlists₁.of_events (Guard.events_of_call hcall)
  have hstays : Backend.Listed guard₂ conn.fd .read := by
    rw [Backend.Listed, hlists₂.entries_eq]
    exact ⟨⟨conn.fd, addFlags⟩, by simp, rfl, has_addFlags⟩
  have hdel : ∀ {st₂ : AcceptState P},
      ({ st with processEvent := guard₂ } : AcceptState P).eventDel reg conn.fd = some st₂ →
        Backend.Listed st₂.processEvent conn.fd .read := by
    intro st₂ hdel
    rw [eventDel, Option.map_eq_some_iff] at hdel
    obtain ⟨⟨ret, guard⟩, hdel, rfl⟩ := hdel
    exact listed_of_del hlists₂ hdel
  split at h
  · cases h
    exact hstays
  · split at h
    · exact hdel h
    · split at h
      · cases h
        exact hstays
      · exact hdel h

/-! ## The connection -/

/-- Finding the server changes `acpt_priv` only. -/
theorem findServer_frame (h : st.findServer fd = some (ref, serv, st')) :
    st'.socks = st.socks ∧ st'.processEvent = st.processEvent ∧ st'.queues = st.queues := by
  rw [findServer] at h
  split at h
  · cases h
    exact ⟨rfl, rfl, rfl⟩
  · split at h
    · cases h
    · cases h
      exact ⟨rfl, rfl, rfl⟩

theorem eventDel_socks (h : st.eventDel reg fd = some st') : st'.socks = st.socks := by
  rw [eventDel, Option.map_eq_some_iff] at h
  obtain ⟨r, -, rfl⟩ := h
  rfl

theorem addClient_socks (h : st.addClient reg sys ref serv conn = some st') :
    st'.socks = st.socks := by
  simp only [addClient, Option.bind_eq_bind, Option.bind_eq_some_iff] at h
  obtain ⟨r, -, h⟩ := h
  split at h
  · cases h
    rfl
  · split at h
    · exact (eventDel_socks h).trans rfl
    · split at h
      · cases h
        rfl
      · exact (eventDel_socks h).trans rfl

/-- What `kylin_socket_connection_destroy` changes. -/
theorem connectionDestroy_some {sock : ℕ} (h : st.connectionDestroy sock a = some st') :
    (st.socks sock).connDestroy a = some (st'.socks sock) ∧
      st'.processEvent = st.processEvent ∧ st'.queues = st.queues := by
  rw [connectionDestroy, Option.map_eq_some_iff] at h
  obtain ⟨r, hstep, rfl⟩ := h
  rw [Ksock.World.step, Option.map_eq_some_iff] at hstep
  obtain ⟨w, hw, rfl⟩ := hstep
  refine ⟨?_, rfl, rfl⟩
  simpa using hw

namespace Accepts

/-- What is done with a connection that was accepted. -/
theorem serverAccept_eq (h : Accepts st fd sys ref serv st₁ a conn) : st.serverAccept reg sys fd =
    (st₁.addClient reg sys ref serv conn).bind fun st => st.connectionDestroy serv.sock a := by
  obtain ⟨st₀, hfind, haccept⟩ := h.accepted
  simp only [serverAccept, hfind, haccept, h.conn_eq, Option.bind_eq_bind, Option.bind_some]

/-- Finding and accepting leave `process_event` and the queues alone. -/
theorem frame (h : Accepts st fd sys ref serv st₁ a conn) :
    st₁.processEvent = st.processEvent ∧ st₁.queues = st.queues := by
  obtain ⟨st₀, hfind, haccept⟩ := h.accepted
  have hfound := findServer_frame hfind
  rw [socketAccept, Option.map_eq_some_iff] at haccept
  obtain ⟨r, -, hr⟩ := haccept
  obtain ⟨-, rfl⟩ := Prod.mk.inj hr
  exact hfound.2

/-- **No client is kept**: after the call its connection is not on the list, or it is freed. -/
theorem not_kept (h : Accepts st fd sys ref serv st₁ a conn)
    (hret : st.serverAccept reg sys fd = some st') : ¬ Kept st' serv a conn := by
  intro hkept
  rw [h.serverAccept_eq] at hret
  obtain ⟨st₂, hadd, hdestroy⟩ := Option.bind_eq_some_iff.mp hret
  have hdestroyed := (connectionDestroy_some hdestroy).1
  have hconn := h.conn_eq
  rw [← addClient_socks hadd] at hconn
  exact Ksock.World.not_tracked_of_destroyed hconn hdestroyed hkept.tracked

/-- The descriptor of a connection that was accepted is open once. -/
theorem not_mem_erase (h : Accepts st fd sys ref serv st₁ a conn)
    (hnew : ∀ fd client, sys.os = some (fd, client) → ∀ sock, fd ∉ (st.socks sock).opened) :
    conn.fd ∉ (st₁.socks serv.sock).opened.erase conn.fd := by
  obtain ⟨st₀, hfind, haccept⟩ := h.accepted
  have hsocks := (findServer_frame hfind).1
  rw [socketAccept, Option.map_eq_some_iff] at haccept
  obtain ⟨⟨p, w⟩, hstep, hr⟩ := haccept
  obtain ⟨rfl, rfl⟩ := Prod.mk.inj hr
  obtain ⟨fd', client, hos, -, rfl⟩ := Ksock.World.accept_some hstep
  have hconn := h.conn_eq
  simp only [Function.update_self, Heap.alloc, Option.some.injEq] at hconn ⊢
  rw [← hconn, List.erase_cons_head, hsocks]
  exact hnew fd' client hos serv.sock

end Accepts

/-! ## When it does what it should -/

/-- `process_event` has room: the descriptor stays registered whatever comes after. -/
theorem not_keepsOrDrops_of_room (h : Accepts st fd sys ref serv st₁ a conn)
    (hlists : st₁.processEvent.Lists es) (hroom : es.length < eventsOpts.cap) :
    ¬ KeepsOrDrops B sys st fd serv st₁ a conn := by
  rintro ⟨st', hret, hkept, hdropped⟩
  by_cases hsucc : Succeeds B sys st₁ conn
  · exact h.not_kept hret (hkept hsucc)
  · rw [h.serverAccept_eq] at hret
    obtain ⟨st₂, hadd, hdestroy⟩ := Option.bind_eq_some_iff.mp hret
    have hlisted := listed_of_addClient hlists hroom hadd
    rw [← (connectionDestroy_some hdestroy).2.1] at hlisted
    exact ((hdropped hsucc).unregistered .read).1 hlisted

/-- `process_event` is full: nothing is registered, and the connection is destroyed at once. -/
theorem keepsOrDrops_iff_of_full (h : Accepts st fd sys ref serv st₁ a conn)
    (hlists : st₁.processEvent.Lists es) (hfull : es.length = eventsOpts.cap)
    (hnew : conn.fd ∉ (st₁.socks serv.sock).opened.erase conn.fd) :
    KeepsOrDrops B sys st fd serv st₁ a conn ↔ Unwinds B st₁ serv a conn := by
  have hentries : st₁.processEvent.entries.length = eventsOpts.cap := by
    rw [hlists.entries_eq, hfull]
  have hadd : st₁.processEvent.add B.reg conn.fd addFlags = some (.inval, st₁.processEvent) :=
    hlists.add_full hfull
  have hclient : st₁.addClient B.reg sys ref serv conn = some st₁ := by
    simp [addClient, hadd]
  have hfail : ¬ Succeeds B sys st₁ conn := by
    rintro ⟨⟨guard, hok⟩, -, -⟩
    rw [hadd] at hok
    cases hok
  have hret : st.serverAccept B.reg sys fd = st₁.connectionDestroy serv.sock a := by
    rw [h.serverAccept_eq, hclient]
    rfl
  have hspec := Ksock.World.connDestroy_spec h.conn_eq
  constructor
  · rintro ⟨st', hst', -, hdropped⟩
    rw [hret] at hst'
    obtain ⟨hdestroy, hevent, hqueues⟩ := connectionDestroy_some hst'
    obtain ⟨hclosed, hdestroyed, hunreg, -⟩ := hdropped hfail
    rw [hevent] at hunreg
    refine ⟨hentries, hunreg, ?_⟩
    rw [hspec, Option.map_eq_some_iff] at hdestroy
    obtain ⟨b, hfind, hw⟩ := hdestroy
    cases b with
    | none =>
        rw [← hw, h.conn_eq] at hdestroyed
        cases hdestroyed.2
    | some b =>
        rw [← hw] at hdestroyed
        exact ⟨b, hfind, hdestroyed.1⟩
  · rintro ⟨-, hunseen, b, hfind, hb⟩
    rw [hfind, Option.map_some] at hspec
    have hdestroy : ∃ w, (st₁.socks serv.sock).connDestroy a = some w ∧ conn.fd ∉ w.opened ∧
        a ∉ w.conns ∧ w.heap.get a = none :=
      ⟨_, hspec, hnew, hb, Function.update_self _ _ _⟩
    obtain ⟨w, hdestroy, hclosed, hunlisted, hfreed⟩ := hdestroy
    refine ⟨{ st₁ with socks := Function.update st₁.socks serv.sock w }, ?_,
      fun hsucc => absurd hsucc hfail, fun _ => ?_⟩
    · rw [hret, connectionDestroy, Ksock.World.step, hdestroy]
      rfl
    · have hsock : Function.update st₁.socks serv.sock w serv.sock = w :=
        Function.update_self _ _ _
      constructor
      · simpa only [hsock] using hclosed
      · simpa only [hsock] using ⟨hunlisted, hfreed⟩
      · exact hunseen
      · exact congrFun h.frame.2 serv.acptQ

/-- **When a client is kept or dropped.** -/
theorem keepsOrDrops_iff (B : Backend P) (h : Accepts st fd sys ref serv st₁ a conn)
    (hlists : st.processEvent.Lists es)
    (hnew : ∀ fd client, sys.os = some (fd, client) → ∀ sock, fd ∉ (st.socks sock).opened) :
    KeepsOrDrops B sys st fd serv st₁ a conn ↔ Unwinds B st₁ serv a conn := by
  rw [← h.frame.1] at hlists
  by_cases hfull : es.length = eventsOpts.cap
  · exact keepsOrDrops_iff_of_full h hlists hfull (h.not_mem_erase hnew)
  · refine iff_of_false (not_keepsOrDrops_of_room h hlists
      (Nat.lt_of_le_of_ne hlists.room hfull)) ?_
    intro hunwinds
    exact hfull (hlists.entries_eq ▸ hunwinds.full)

/-- A server on a socket that has the connections `conns` on its list and none in memory. -/
def listening (guard : Guard P) (conns : List ℕ) : AcceptState P :=
  ⟨⟨3, 0, 0⟩, [], fun _ => ⟨⟨.unix, true, ⟨16, []⟩⟩, some 3, conns, ⟨fun _ => none⟩, []⟩,
    fun _ => [], guard⟩

/-- A client, and memory for all but the node of its connection. -/
def oneClient : AcceptSys := ⟨some (4, ⟨16, []⟩), some 1, false, some 9, true⟩

/-- A full `process_event`, and a connection at an address that an earlier one has left on the
list. -/
theorem keepsOrDrops_iff_full : ∃ (guard : Guard Kepoll.Interest)
    (st₁ : AcceptState Kepoll.Interest) (conn : Ksock.Conn),
    Accepts (listening guard [1]) 3 oneClient .priv ⟨3, 0, 0⟩ st₁ 1 conn ∧
      KeepsOrDrops (Kepoll.backend _ Kepoll.lawful_interestCtl) oneClient (listening guard [1]) 3
        ⟨3, 0, 0⟩ st₁ 1 conn := by
  obtain ⟨guard, hlists, hpriv⟩ : ∃ guard : Guard Kepoll.Interest,
      guard.Lists (List.replicate eventsOpts.cap ⟨7, 0⟩) ∧ guard.priv = fun _ => none :=
    ⟨_, Guard.lists_replicate _ _ (Nat.le_refl _), rfl⟩
  have hentries := hlists.entries_eq
  have haccepts : Accepts (listening guard [1]) 3 oneClient .priv ⟨3, 0, 0⟩ _ 1 _ :=
    ⟨⟨listening guard [1], rfl, rfl⟩, rfl⟩
  refine ⟨_, _, _, haccepts,
    (keepsOrDrops_iff (Kepoll.backend _ Kepoll.lawful_interestCtl) haccepts hlists ?_).mpr ?_⟩
  · exact fun _ _ _ _ => List.not_mem_nil
  · refine ⟨?_, fun k => ⟨?_, ?_⟩, 1, rfl, List.not_mem_nil⟩
    · exact (congrArg List.length hentries).trans List.length_replicate
    · rintro ⟨e, he, hfd, -⟩
      change e ∈ guard.entries at he
      rw [hentries] at he
      rw [List.eq_of_mem_replicate he] at hfd
      cases hfd
    · change ¬ Kepoll.watches guard.priv 4 k
      rw [hpriv]
      cases k <;> simp [Kepoll.watches, Kepoll.watched]

/-- The first client of a server: `epoll` refuses its descriptor, which stays registered.  Over
`poll` every step succeeds, and the connection, which is on the list, is freed. -/
theorem not_keepsOrDrops_first :
    (∃ (st₁ : AcceptState Kepoll.Interest) (conn : Ksock.Conn),
      let st := listening Kepoll.init []
      Accepts st 3 oneClient .priv ⟨3, 0, 0⟩ st₁ 1 conn ∧
        ¬ KeepsOrDrops (Kepoll.backend _ Kepoll.lawful_interestCtl) oneClient st 3 ⟨3, 0, 0⟩ st₁ 1
          conn) ∧
    (∃ (st₁ : AcceptState Unit) (conn : Ksock.Conn),
      let st := listening (Guard.create ()) [1]
      Accepts st 3 oneClient .priv ⟨3, 0, 0⟩ st₁ 1 conn ∧
        Succeeds Kpoll.backend oneClient st₁ conn ∧
        ¬ KeepsOrDrops Kpoll.backend oneClient st 3 ⟨3, 0, 0⟩ st₁ 1 conn) := by
  have hroom : ([] : List KeventEvent).length < eventsOpts.cap := by decide
  constructor
  · have haccepts : Accepts (listening Kepoll.init []) 3 oneClient .priv ⟨3, 0, 0⟩ _ 1 _ :=
      ⟨⟨listening Kepoll.init [], rfl, rfl⟩, rfl⟩
    exact ⟨_, _, haccepts, not_keepsOrDrops_of_room haccepts (Guard.lists_create _) hroom⟩
  · have haccepts : Accepts (listening (Guard.create ()) [1]) 3 oneClient .priv ⟨3, 0, 0⟩ _ 1 _ :=
      ⟨⟨listening (Guard.create ()) [1], rfl, rfl⟩, rfl⟩
    exact ⟨_, _, haccepts, ⟨⟨_, rfl⟩, by decide, rfl⟩,
      not_keepsOrDrops_of_room haccepts (Guard.lists_create _) hroom⟩

end AcceptState

end Kylin.Usock
