import Kylin.Lib.Run
import Kylin.Lib.Ensures
import Kylin.Lib.Heap
import Kylin.Arch.Word

/-!
# Accepted connections

The stream server sockets of `lib/core/socket/plugin/kylin_socket_tcp.c` and
`kylin_socket_unix.c` keep the connections they accept in the list `conns`.  The list itself
is that of `Kylin.Math.List`; here it is the list of the addresses in it.

Both functions compare the pointer that `kylin_list_insert_head` returns with
`KYLIN_ERROR_OK`, which is zero.  A connection that has been put on the list is therefore
closed and freed at once, and stays on the list; one that has not, for want of memory for
the node, is returned.  `run_tracked_iff` says which runs are right: those where the
functions do not get as far.

## Main definitions

* `Conn`, `World` — connections, and a socket with the memory around it.
* `tcpAccept`, `unixAccept`, `connDestroy` — the operations.
* `Tracked` — the list and the open connections agree.
* `Behaves` — the side condition on one call.

## Main results

* `run_tracked_iff` — the runs whose connections are tracked.
-/

namespace Kylin

open Lib

namespace Ksock

/-- `ksock_addr_t`. -/
structure SockAddr where
  len : ℕ
  addr : List Byte

/-- The two plugins with stream sockets. -/
inductive Plugin
  | tcp
  | unix
  deriving DecidableEq

/-- What accepting reads of `ksock_opts_t`: whether the type is `SOCK_STREAM`, and
`config.server.local`. -/
structure Opts where
  plugin : Plugin
  stream : Bool
  server : SockAddr

/-- `ksock_conn_t`, less the pointer to its socket. -/
structure Conn where
  fd : ℕ
  server : SockAddr
  client : SockAddr

/-- A server socket: the socket it listens on, `none` for `-1`, the list of its connections,
their memory, and the accepted sockets that are open. -/
structure World where
  opts : Opts
  fd : Option ℕ
  conns : List ℕ
  heap : Heap Conn
  opened : List ℕ

namespace World

/-- `close` of an accepted socket. -/
def close (w : World) (fd : ℕ) : World := { w with opened := w.opened.erase fd }

/-- `kylin_free` of a connection. -/
def free (w : World) (a : ℕ) : Option World :=
  (w.heap.free a).map fun h => { w with heap := h }

/-- `kylin_list_insert_head` on the connections; `node` says whether there is memory for a
node. -/
def insertHead (w : World) (a : ℕ) (node : Bool) : Option ℕ × World :=
  if node then (some a, { w with conns := a :: w.conns }) else (none, w)

/-- The end of both functions: a connection for the socket `fd`; `mem` is the answer of
`kylin_malloc`. -/
def addConn (w : World) (fd : ℕ) (client : SockAddr) (mem : Option ℕ) (node : Bool) :
    Option (Option ℕ × World) :=
  match mem with
  | none => some (none, w.close fd)
  | some a =>
      let conn : Conn := ⟨fd, w.opts.server, client⟩
      let (p, w) := insertHead { w with heap := w.heap.alloc a conn } a node
      -- the test is `p != KYLIN_ERROR_OK`
      if p ≠ none then do
        let w ← (w.close conn.fd).free a
        some (none, w)
      else some (some a, w)

/-- `tcp_accept`; `os` is the answer of `accept`. -/
def tcpAccept (w : World) (os : Option (ℕ × SockAddr)) (mem : Option ℕ) (node : Bool) :
    Option (Option ℕ × World) :=
  if w.fd = none then some (none, w)
  else
    match os with
    | none => some (none, w)
    | some (fd, client) =>
        let w := { w with opened := fd :: w.opened }
        if w.opts.server.len = 0 then some (none, w.close fd) else w.addConn fd client mem node

/-- `unix_accept`. -/
def unixAccept (w : World) (os : Option (ℕ × SockAddr)) (mem : Option ℕ) (node : Bool) :
    Option (Option ℕ × World) :=
  if w.opts.stream = false ∨ w.opts.server.len = 0 then some (none, w)
  else if w.fd = none then some (none, w)
  else
    match os with
    | none => some (none, w)
    | some (fd, client) => { w with opened := fd :: w.opened }.addConn fd client mem node

/-- `kylin_list_find_raw` with `__tcp_connection_match`, which reads the connections on the
list. -/
def findConn (w : World) (fd : ℕ) : List ℕ → Option (Option ℕ)
  | [] => some none
  | b :: bs => do
      let c ← w.heap.get b
      if c.fd = fd then some (some b) else findConn w fd bs

/-- `tcp_conn_destroy` and `unix_conn_destroy`. -/
def connDestroy (w : World) (a : ℕ) : Option World := do
  let conn ← w.heap.get a
  match ← w.findConn conn.fd w.conns with
  | none => some w
  | some b => ({ w with conns := w.conns.erase b }.close conn.fd).free a

/-- `tcp_conn_count` and `unix_conn_count`. -/
def connCount (w : World) : ℕ := w.conns.length

/-! ## Runs -/

/-- The calls, with the answers of the system. -/
inductive Call
  | accept (os : Option (ℕ × SockAddr)) (mem : Option ℕ) (node : Bool)
  | destroy (a : ℕ)

/-- One call, with the connection it returns. -/
def step (w : World) : Call → Option (Option ℕ × World)
  | .accept os mem node =>
      match w.opts.plugin with
      | .tcp => w.tcpAccept os mem node
      | .unix => w.unixAccept os mem node
  | .destroy a => (w.connDestroy a).map fun w => (none, w)

/-- A new server socket. -/
def listen (opts : Opts) (fd : Option ℕ) : World := ⟨opts, fd, [], ⟨fun _ => none⟩, []⟩

/-- An accepted socket is not open yet, memory is new, and the caller owns the connection it
destroys. -/
def Allowed (w : World) : Call → Prop
  | .accept os mem _ =>
      (∀ fd client, os = some (fd, client) → fd ∉ w.opened) ∧
        ∀ a, mem = some a → w.heap.get a = none
  | .destroy a => (w.heap.get a).isSome

/-- The system is asked for a connection: `unix_accept` first looks at the options. -/
def Asks (w : World) : Prop :=
  w.fd ≠ none ∧ (w.opts.plugin = .unix → w.opts.stream = true ∧ w.opts.server.len ≠ 0)

/-- **The connections are tracked**: those on the list are alive, and their sockets are the
accepted ones that are open. -/
def Tracked (w : World) : Prop :=
  ∃ cs : List Conn, w.conns.map w.heap.get = cs.map some ∧ (cs.map Conn.fd).Perm w.opened

/-- **What holds of a call**: a connection is returned exactly when the system gave one and
there was memory, and the connections are tracked and counted. -/
structure Right (e : Step World Call (Option ℕ)) : Prop where
  returned_iff : ∀ os mem node, e.call = .accept os mem node →
    (e.result ≠ none ↔ e.before.Asks ∧ os ≠ none ∧ mem ≠ none ∧ node = true)
  tracked : e.after.Tracked
  count : e.after.connCount = e.after.opened.length

/-- The calls that are right: the system has no connection or there is no memory for one; a
`tcp` socket without an address also gives up, which is right without memory for a node. -/
def Behaves (w : World) : Call → Prop
  | .accept os mem node =>
      w.Asks → os ≠ none → mem ≠ none → w.opts.server.len = 0 ∧ node = false
  | .destroy _ => True

section Spec
variable {w : World} {os : Option (ℕ × SockAddr)} {mem : Option ℕ} {node : Bool}

theorem close_opened (fd : ℕ) : close { w with opened := fd :: w.opened } fd = w := by
  simp [close]

/-- A connection is returned exactly when it was not put on the list. -/
theorem addConn_inverted (fd : ℕ) (client : SockAddr) (a : ℕ) (node : Bool) :
    Ensures (w.addConn fd client (some a) node) fun r => (r.1 ≠ none ↔ node = false) := by
  cases node with
  | false => exact .some (by simp)
  | true => exact .bind .any fun _ _ => .some (by simp)

/-- When the system gives a connection and there is memory for it. -/
theorem accept_inverted (hasks : w.Asks) (hos : os ≠ none) (hmem : mem ≠ none) :
    Ensures (w.step (.accept os mem node)) fun r =>
      (r.1 ≠ none ↔ w.opts.server.len ≠ 0 ∧ node = false) := by
  obtain ⟨⟨fd, client⟩, rfl⟩ := Option.ne_none_iff_exists'.mp hos
  obtain ⟨a, rfl⟩ := Option.ne_none_iff_exists'.mp hmem
  unfold step
  cases hplugin : w.opts.plugin with
  | tcp =>
      simp only [tcpAccept, if_neg hasks.1]
      by_cases hlen : w.opts.server.len = 0
      · simp only [if_pos hlen]
        exact .some (by simp [hlen])
      · simp only [if_neg hlen]
        refine (addConn_inverted fd client a node).mono ?_
        intro r hr
        simpa [hlen] using hr
  | unix =>
      obtain ⟨hstream, hlen⟩ := hasks.2 hplugin
      have hpass : ¬ (w.opts.stream = false ∨ w.opts.server.len = 0) := by simp [hstream, hlen]
      simp only [unixAccept, if_neg hpass, if_neg hasks.1]
      refine (addConn_inverted fd client a node).mono ?_
      intro r hr
      simpa [hlen] using hr

/-- A call that accepts nothing, in every state: it leaves the socket as it was. -/
theorem accept_nothing (hb : Behaves w (.accept os mem node)) :
    w.step (.accept os mem node) = some (none, w) := by
  unfold step
  cases hplugin : w.opts.plugin with
  | tcp =>
      by_cases hfd : w.fd = none
      · exact if_pos hfd
      have hasks : w.Asks := ⟨hfd, by simp [hplugin]⟩
      simp only [tcpAccept, if_neg hfd]
      cases os with
      | none => rfl
      | some c =>
          by_cases hlen : w.opts.server.len = 0
          · simp only [if_pos hlen, close_opened]
          · obtain rfl : mem = none := by
              by_contra hmem
              exact hlen (hb hasks (by simp) hmem).1
            simp only [if_neg hlen, addConn, close_opened]
  | unix =>
      by_cases hopts : w.opts.stream = false ∨ w.opts.server.len = 0
      · exact if_pos hopts
      by_cases hfd : w.fd = none
      · exact (if_neg hopts).trans (if_pos hfd)
      have hlen : w.opts.server.len ≠ 0 := fun h => hopts (.inr h)
      have hasks : w.Asks := ⟨hfd, fun _ => ⟨by simpa using fun h => hopts (.inl h), hlen⟩⟩
      simp only [unixAccept, if_neg hopts, if_neg hfd]
      cases os with
      | none => rfl
      | some c =>
          obtain rfl : mem = none := by
            by_contra hmem
            exact hlen (hb hasks (by simp) hmem).1
          simp only [addConn, close_opened]

/-- A connection that is returned has no node, and is not on the list. -/
theorem addConn_some {fd a : ℕ} {client : SockAddr} {w' : World}
    (h : w.addConn fd client mem node = some (some a, w')) :
    mem = some a ∧
      w' = { w with heap := w.heap.alloc a ⟨fd, w.opts.server, client⟩ } := by
  cases mem with
  | none => cases h
  | some b =>
      cases node with
      | true =>
          obtain ⟨w'', -, hw⟩ := Option.bind_eq_some_iff.mp h
          cases hw
      | false =>
          cases h
          exact ⟨rfl, rfl⟩

/-- What accepting has done when it returns a connection. -/
theorem accept_some {a : ℕ} {w' : World}
    (h : w.step (.accept os mem node) = some (some a, w')) :
    ∃ fd client, os = some (fd, client) ∧ mem = some a ∧
      w' = { w with
        opened := fd :: w.opened
        heap := w.heap.alloc a ⟨fd, w.opts.server, client⟩ } := by
  unfold step at h
  cases hplugin : w.opts.plugin with
  | tcp =>
      simp only [hplugin, tcpAccept] at h
      split at h
      · cases h
      · cases os with
        | none => cases h
        | some c =>
            simp only at h
            split at h
            · cases h
            · obtain ⟨hmem, hw⟩ := addConn_some h
              exact ⟨c.1, c.2, rfl, hmem, hw⟩
  | unix =>
      simp only [hplugin, unixAccept] at h
      split at h
      · cases h
      · split at h
        · cases h
        · cases os with
          | none => cases h
          | some c =>
              obtain ⟨hmem, hw⟩ := addConn_some h
              exact ⟨c.1, c.2, rfl, hmem, hw⟩

theorem findConn_none {fd : ℕ} {bs : List ℕ} (h : w.findConn fd bs = some none) :
    ∀ b ∈ bs, ∀ c, w.heap.get b = some c → c.fd ≠ fd := by
  induction bs with
  | nil => simp
  | cons b bs ih =>
      obtain ⟨c, hc, hrest⟩ := Option.bind_eq_some_iff.mp h
      split at hrest
      · cases hrest
      next hne =>
        rw [List.forall_mem_cons]
        refine ⟨?_, ih hrest⟩
        intro c' hc'
        rw [hc] at hc'
        cases hc'
        exact hne

/-- Destroying a connection: if there is one with its descriptor on the list, this one leaves the
list, and the connection is closed and freed; else nothing happens. -/
theorem connDestroy_spec {a : ℕ} {conn : Conn} (hget : w.heap.get a = some conn) :
    w.connDestroy a =
      (w.findConn conn.fd w.conns).map fun b => match b with
        | none => w
        | some b => { w with
            conns := w.conns.erase b
            opened := w.opened.erase conn.fd
            heap := ⟨Function.update w.heap.get a none⟩ } := by
  rw [connDestroy, hget]
  simp only [Option.bind_eq_bind, Option.bind_some]
  cases w.findConn conn.fd w.conns with
  | none => rfl
  | some b =>
      cases b with
      | none => rfl
      | some b =>
          have hfree : (w.heap.get a).isSome := by simp [hget]
          simp only [Option.bind_some, free, close, Heap.free, hfree, if_true, Option.map_some]

/-- A connection that was destroyed is not on the list any more, or not in memory. -/
theorem not_tracked_of_destroyed {a : ℕ} {conn : Conn} {w' : World}
    (hget : w.heap.get a = some conn) (h : w.connDestroy a = some w') :
    ¬ (a ∈ w'.conns ∧ w'.heap.get a = some conn) := by
  rw [connDestroy_spec hget, Option.map_eq_some_iff] at h
  obtain ⟨b, hfind, rfl⟩ := h
  cases b with
  | none => exact fun h => findConn_none hfind a h.1 conn h.2 rfl
  | some b => simp

/-- A call that does not behave is not right. -/
theorem not_right_of_not_behaves {c : Call} (hb : ¬ Behaves w c) {p : Option ℕ} {w' : World}
    (hs : w.step c = some (p, w')) : ¬ Right ⟨w, c, p, w'⟩ := by
  intro hright
  cases c with
  | destroy a => exact hb trivial
  | accept os mem node =>
      simp only [Behaves, Classical.not_imp] at hb
      obtain ⟨hasks, hos, hmem, hnot⟩ := hb
      have hinv : p ≠ none ↔ w.opts.server.len ≠ 0 ∧ node = false :=
        accept_inverted hasks hos hmem _ hs
      have hiff : p ≠ none ↔ node = true := by
        simpa [hasks, hos, hmem] using hright.returned_iff os mem node rfl
      rw [hinv] at hiff
      cases node with
      | true => simp at hiff
      | false => exact hnot ⟨by simpa using hiff, rfl⟩

/-- Without connections, a call that behaves changes nothing, and is right. -/
theorem right_of_behaves {opts : Opts} {fd : Option ℕ} {c : Call}
    (ha : Allowed (listen opts fd) c) (hb : Behaves (listen opts fd) c) {p : Option ℕ} {w' : World}
    (hs : (listen opts fd).step c = some (p, w')) :
    w' = listen opts fd ∧ Right ⟨listen opts fd, c, p, w'⟩ := by
  cases c with
  | destroy a => cases ha
  | accept os mem node =>
      rw [accept_nothing hb] at hs
      obtain ⟨rfl, rfl⟩ := Prod.mk.inj (Option.some.inj hs)
      refine ⟨rfl, ?_, ⟨[], rfl, .nil⟩, rfl⟩
      intro os' mem' node' hcall
      cases hcall
      refine ⟨fun h => absurd rfl h, ?_⟩
      intro ⟨hasks, hos, hmem, hnode⟩
      rw [(hb hasks hos hmem).2] at hnode
      cases hnode

end Spec

/-- **When the connections are tracked.**  The calls of a run are all right exactly when they
all behave. -/
theorem run_tracked_iff {opts : Opts} {fd : Option ℕ} {w : World}
    {tr : List (Step World Call (Option ℕ))} (h : Run step Allowed (listen opts fd) tr w) :
    (∀ e ∈ tr, Right e) ↔ ∀ e ∈ tr, Behaves e.before e.call := by
  apply h.forall_mem_iff (I := fun w => w = listen opts fd) rfl
  rintro w c p w' rfl ha hs
  have hbehaves : Right ⟨listen opts fd, c, p, w'⟩ → Behaves (listen opts fd) c := by
    intro hright
    by_contra hb
    exact not_right_of_not_behaves hb hs hright
  constructor
  · exact ⟨hbehaves, fun hb => (right_of_behaves ha hb hs).2⟩
  · exact fun hright => (right_of_behaves ha (hbehaves hright) hs).1

/-- A `tcp` socket with an address. -/
def tcpOpts : Opts := ⟨.tcp, true, ⟨16, []⟩⟩

/-- Nobody connects, and then there is no memory. -/
theorem run_tracked_no_memory :
    ∃ tr w, Run step Allowed (listen tcpOpts (some 3)) tr w ∧ tr.length = 2 ∧
      ∀ e ∈ tr, Right e := by
  have hrun : Run step Allowed (listen tcpOpts (some 3)) _ _ :=
    run_of_runList [.accept none none true, .accept (some (4, ⟨16, []⟩)) none true] rfl (by
      simp only [List.forall_mem_cons]
      exact ⟨⟨nofun, nofun⟩, ⟨by simp [listen], nofun⟩, by simp⟩)
  refine ⟨_, _, hrun, rfl, (run_tracked_iff hrun).mpr ?_⟩
  simp only [List.forall_mem_cons]
  exact ⟨fun _ h => absurd rfl h, fun _ _ h => absurd rfl h, by simp⟩

/-- The first connection: it is put on the list, closed, freed and not returned. -/
theorem not_right_first_accept :
    ∃ e, Run step Allowed (listen tcpOpts (some 3)) [e] e.after ∧
      e.call = .accept (some (4, ⟨16, []⟩)) (some 1) true ∧ e.result = none ∧
      e.after.conns = [1] ∧ e.after.heap.get 1 = none ∧ e.after.opened = [] ∧ ¬ Right e := by
  refine ⟨_, run_of_runList [.accept (some (4, ⟨16, []⟩)) (some 1) true] rfl (by
    simp only [List.forall_mem_cons]
    exact ⟨⟨by simp [listen], fun _ _ => rfl⟩, by simp⟩), rfl, rfl, rfl, rfl, rfl, ?_⟩
  intro hright
  cases hright.count

end World

end Ksock

end Kylin
