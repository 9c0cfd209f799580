import Kylin.Log.Log

/-!
# From a call of the log to a printed line

`buffer_enqueue` (`lib/core/log/kylin_log_buf.c`) puts a message on the ring of each logger whose
level admits it, one after the other, and sets the flag of the ring behind each.  The thread of
`__buffer_process` goes round the rings: from each whose flag is set it takes one message, finds
the log object of the message again, and calls the logger that is there now.

Both threads run one step at a time, in any order.  Between two calls of the logging thread the
log objects may change in any way.  Two things are assumed: a call on a ring is one step, which the
rings do not ensure (`Kring.System.unsafe_interleaving`), and there is memory for each message.

A logger prints what was logged for it in the order of the calls, and nothing twice,
`run_prints`.  It may miss messages: a full ring drops them, the object or its logger may be gone
when their turn comes, and a flag may be cleared too late (`Kylin.Klog.System.Orderly`).  Runs in
which this does not happen lose nothing: when the logging thread rests, the writer prints all that
is left within a bounded number of steps, `run_delivers`.

## Main definitions

* `Pipeline`, `Pipeline.advance` — the rings, the two threads and one step.
* `Pipeline.due` — what was logged for a logger.
* `Pipeline.Good` — the side condition on one step.

## Main results

* `Pipeline.exists_runList_log` — an undisturbed call is `bufferEnqueue`.
* `Pipeline.run_prints` — what is printed, in every run.
* `Pipeline.run_delivers` — runs that lose nothing.
-/

namespace Kylin.Klog

open Lib

/-- Where the logging thread stands in `buffer_enqueue`; `todo` are the slots that come. -/
inductive Logging
  | idle
  | put (buf : LogBuffer) (obj : Table) (todo : List (Fin logMax))
  /-- About to set the flag of ring `i`. -/
  | flag (i : Fin logMax) (buf : LogBuffer) (obj : Table) (todo : List (Fin logMax))

/-- Where the writer stands in `__buffer_process`; `todo` are the slots that come in this turn of
its endless loop. -/
inductive Writing
  | pass (todo : List (Fin logMax))
  | dequeue (i : Fin logMax) (todo : List (Fin logMax))
  /-- About to look up the log object of a message. -/
  | print (i : Fin logMax) (buf : LogBuffer) (todo : List (Fin logMax))
  | peek (i : Fin logMax) (todo : List (Fin logMax))
  /-- About to clear the flag of ring `i`. -/
  | clear (i : Fin logMax) (todo : List (Fin logMax))

/-- The log objects, the rings, the threads, and the calls of `print` so far. -/
structure Pipeline where
  objs : ℕ → Option Table
  rings : Rings
  logging : Logging
  writing : Writing
  printed : Fin logMax → List (ℕ × LogBuffer)

/-- The test of `buffer_enqueue`. -/
def Admits (obj : Table) (i : Fin logMax) (buf : LogBuffer) : Prop :=
  (obj i).type = i ∧ buf.logLevel ≤ (obj i).level

instance (obj : Table) (i : Fin logMax) (buf : LogBuffer) : Decidable (Admits obj i buf) :=
  inferInstanceAs (Decidable (_ ∧ _))

namespace Pipeline

/-- What happens: a change of the log objects, a call of the log, or the next step of a thread. -/
inductive Move
  | config (objs : ℕ → Option Table)
  | log (buf : LogBuffer)
  | step
  | write

/-- A change of one ring. -/
def setRing (s : Pipeline) (i : Fin logMax) (ring : List LogBuffer) : Pipeline :=
  { s with rings := { s.rings with ring := Function.update s.rings.ring i ring } }

/-- A store to one flag. -/
def setNeed (s : Pipeline) (i : Fin logMax) (need : Bool) : Pipeline :=
  { s with rings := { s.rings with need := Function.update s.rings.need i need } }

/-- The next step of `__buffer_process`. -/
def write (s : Pipeline) : Pipeline :=
  match s.writing with
  | .pass [] => { s with writing := .pass (List.finRange logMax) }
  | .pass (i :: todo) =>
      { s with writing := if s.rings.need i then .dequeue i todo else .pass todo }
  | .dequeue i todo =>
      match ringDequeue (s.rings.ring i) with
      | (none, _) => { s with writing := .clear i todo }
      | (some buf, ring) => { s.setRing i ring with writing := .print i buf todo }
  | .print i buf todo =>
      match s.objs buf.objId with
      | none => { s with writing := .pass todo }
      | some obj =>
          match (obj i).print with
          | none => { s with writing := .peek i todo }
          | some print => { s with
              printed := Function.update s.printed i (s.printed i ++ [(print, buf)])
              writing := .peek i todo }
  | .peek i todo =>
      { s with writing := if (ringPeek (s.rings.ring i)).isNone then .clear i todo else .pass todo }
  | .clear i todo => { s.setNeed i false with writing := .pass todo }

@[simp] theorem objs_write (s : Pipeline) : s.write.objs = s.objs := by
  rw [write]
  split <;> (try split) <;> (try split) <;> rfl

@[simp] theorem logging_write (s : Pipeline) : s.write.logging = s.logging := by
  rw [write]
  split <;> (try split) <;> (try split) <;> rfl

/-- One step. -/
def advance (s : Pipeline) : Move → Option (Unit × Pipeline)
  | .config objs =>
      match s.logging with
      | .idle => some ((), { s with objs := objs })
      | _ => none
  | .log buf =>
      match s.logging with
      | .idle =>
          match s.objs buf.objId with
          | none => some ((), s)
          | some obj => some ((), { s with logging := .put buf obj (List.finRange logMax) })
      | _ => none
  | .step =>
      match s.logging with
      | .idle => none
      | .put _ _ [] => some ((), { s with logging := .idle })
      | .put buf obj (i :: todo) =>
          if Admits obj i buf then
            some ((), { s.setRing i (ringEnqueue (s.rings.ring i) buf) with
              logging := .flag i buf obj todo })
          else some ((), { s with logging := .put buf obj todo })
      | .flag i buf obj todo =>
          some ((), { s.setNeed i true with logging := .put buf obj todo })
  | .write => some ((), s.write)

/-- After `buffer_init`. -/
def start (objs : ℕ → Option Table) : Pipeline :=
  ⟨objs, ⟨fun _ => [], fun _ => false⟩, .idle, .pass [], fun _ => []⟩

theorem exists_runList_cons {s s' t : Pipeline} {a : Move} {as : List Move}
    (h : s.advance a = some ((), s')) (hrest : ∃ tr, runList advance s' as = some (tr, t)) :
    ∃ tr, runList advance s (a :: as) = some (tr, t) := by
  obtain ⟨tr, hrun⟩ := hrest
  refine ⟨⟨s, a, (), s'⟩ :: tr, ?_⟩
  simp only [runList, h, hrun, Option.bind_eq_bind, Option.bind_some]

/-- The turns of the loop of `buffer_enqueue`, with no step of the writer between them. -/
theorem exists_runList_put (s : Pipeline) (buf : LogBuffer) (obj : Table)
    (todo : List (Fin logMax)) : ∃ as, (∀ a ∈ as, a = Move.step) ∧
      ∃ tr, runList advance { s with logging := .put buf obj todo } as = some (tr,
        { s with rings := todo.foldl (enqueueTurn obj buf) s.rings, logging := .idle }) := by
  induction todo generalizing s with
  | nil => exact ⟨[.step], by simp, _, rfl⟩
  | cons i todo ih =>
      by_cases hadmits : Admits obj i buf
      · have hturn : enqueueTurn obj buf s.rings i =
            ((s.setRing i (ringEnqueue (s.rings.ring i) buf)).setNeed i true).rings := by
          rw [enqueueTurn, if_neg]
          · rfl
          · rw [Admits] at hadmits
            omega
        obtain ⟨as, has, hrun⟩ :=
          ih ((s.setRing i (ringEnqueue (s.rings.ring i) buf)).setNeed i true)
        refine ⟨.step :: .step :: as, by simpa using has, ?_⟩
        rw [List.foldl_cons, hturn]
        exact exists_runList_cons (if_pos hadmits) (exists_runList_cons rfl hrun)
      · have hturn : enqueueTurn obj buf s.rings i = s.rings := by
          rw [enqueueTurn, if_pos]
          rw [Admits] at hadmits
          omega
        obtain ⟨as, has, hrun⟩ := ih s
        refine ⟨.step :: as, by simpa using has, ?_⟩
        rw [List.foldl_cons, hturn]
        exact exists_runList_cons (if_neg hadmits) hrun

/-- A call of the log with no step of the writer in it is `bufferEnqueue`. -/
theorem exists_runList_log {s : Pipeline} (hidle : s.logging = .idle) (buf : LogBuffer) :
    ∃ as, (∀ a ∈ as, a = Move.step) ∧ ∃ tr, runList advance s (.log buf :: as) =
      some (tr, { s with rings := (bufferEnqueue s.objs s.rings buf).2 }) := by
  cases hobj : s.objs buf.objId with
  | none =>
      have hstep : s.advance (.log buf) = some ((), s) := by simp [advance, hidle, hobj]
      have hsame : (bufferEnqueue s.objs s.rings buf).2 = s.rings := by rw [bufferEnqueue, hobj]
      rw [hsame]
      exact ⟨[], by simp, exists_runList_cons hstep ⟨[], rfl⟩⟩
  | some obj =>
      have hstep : s.advance (.log buf) =
          some ((), { s with logging := .put buf obj (List.finRange logMax) }) := by
        simp [advance, hidle, hobj]
      obtain ⟨as, has, hrun⟩ := s.exists_runList_put buf obj (List.finRange logMax)
      refine ⟨as, has, exists_runList_cons hstep ?_⟩
      simpa only [bufferEnqueue, hobj, hidle] using hrun

/-! ## What is on its way -/

end Pipeline

/-- The message that has not come to ring `i` yet. -/
def Logging.coming : Logging → Fin logMax → List LogBuffer
  | .idle, _ => []
  | .put buf obj todo, i => if i ∈ todo ∧ Admits obj i buf then [buf] else []
  | .flag _ buf obj todo, i => if i ∈ todo ∧ Admits obj i buf then [buf] else []

/-- The slots that come are all different. -/
def Logging.Distinct : Logging → Prop
  | .idle => True
  | .put _ _ todo => todo.Nodup
  | .flag _ _ _ todo => todo.Nodup

/-- About to set the flag of ring `i`. -/
def Logging.Flagging : Logging → Fin logMax → Prop
  | .flag j _ _ _, i => j = i
  | _, _ => False

/-- The message that has been taken off ring `i` and is not printed yet. -/
def Writing.held : Writing → Fin logMax → List LogBuffer
  | .print j buf _, i => if j = i then [buf] else []
  | _, _ => []

/-- About to clear the flag of ring `i`. -/
def Writing.Clearing : Writing → Fin logMax → Prop
  | .clear j _, i => j = i
  | _, _ => False

/-- The slots that come. -/
def Writing.todo : Writing → List (Fin logMax)
  | .pass todo | .dequeue _ todo | .print _ _ todo | .peek _ todo | .clear _ todo => todo

namespace Pipeline

/-- The messages for a logger that are on their way, the oldest first. -/
def inFlight (s : Pipeline) (i : Fin logMax) : List LogBuffer :=
  s.writing.held i ++ s.rings.ring i ++ s.logging.coming i

/-- The messages for a logger that have been printed, or are on their way. -/
def total (s : Pipeline) (i : Fin logMax) : List LogBuffer :=
  (s.printed i).map Prod.snd ++ s.inFlight i

/-- What a step logs for a logger. -/
def dueOf (s : Pipeline) (i : Fin logMax) : Move → List LogBuffer
  | .log buf =>
      match s.objs buf.objId with
      | some obj => if Admits obj i buf then [buf] else []
      | none => []
  | _ => []

/-- **What was logged for a logger** along a run. -/
def due (i : Fin logMax) (tr : List (Step Pipeline Move Unit)) : List LogBuffer :=
  tr.flatMap fun e => e.before.dueOf i e.call

/-- A message finds its object, and a logger in the slot. -/
def CanPrint (objs : ℕ → Option Table) (i : Fin logMax) (buf : LogBuffer) : Prop :=
  ∃ obj, objs buf.objId = some obj ∧ (obj i).print ≠ none

/-- The next step does not drop a message for logger `i`. -/
def Keeps (s : Pipeline) (i : Fin logMax) : Move → Prop
  | .step => ∀ buf obj todo, s.logging = .put buf obj (i :: todo) → Admits obj i buf →
      (s.rings.ring i).length < ringCap - 1
  | .write => ∀ buf todo, s.writing = .print i buf todo → CanPrint s.objs i buf
  | _ => True

/-- What each step does, and where it is taken. -/
inductive Advances (s : Pipeline) : Move → Pipeline → Prop
  | config {objs} : s.logging = .idle → Advances s (.config objs) { s with objs := objs }
  | unknown {buf} : s.logging = .idle → s.objs buf.objId = none → Advances s (.log buf) s
  | found {buf obj} : s.logging = .idle → s.objs buf.objId = some obj →
      Advances s (.log buf) { s with logging := .put buf obj (List.finRange logMax) }
  | done {buf obj} : s.logging = .put buf obj [] → Advances s .step { s with logging := .idle }
  | pass {buf obj i todo} : s.logging = .put buf obj (i :: todo) → ¬ Admits obj i buf →
      Advances s .step { s with logging := .put buf obj todo }
  | put {buf obj i todo} : s.logging = .put buf obj (i :: todo) → Admits obj i buf →
      Advances s .step { s.setRing i (ringEnqueue (s.rings.ring i) buf) with
        logging := .flag i buf obj todo }
  | flag {buf obj i todo} : s.logging = .flag i buf obj todo →
      Advances s .step { s.setNeed i true with logging := .put buf obj todo }
  | write : Advances s .write s.write

section Flow
variable {s s' : Pipeline} {a : Move} {u : Unit} {i : Fin logMax}

theorem advances (h : s.advance a = some (u, s')) : s.Advances a s' := by
  cases a with
  | config objs =>
      cases hlog : s.logging <;> simp only [advance, hlog] at h <;> cases h
      simpa only [hlog] using Advances.config hlog
  | log buf =>
      cases hlog : s.logging <;> simp only [advance, hlog] at h <;> try cases h
      split at h <;> cases h
      · next hobj => exact .unknown hlog hobj
      · next hobj => exact .found hlog hobj
  | step =>
      cases hlog : s.logging with
      | idle => simp [advance, hlog] at h
      | put buf obj todo =>
          cases todo with
          | nil =>
              simp only [advance, hlog] at h
              cases h
              exact .done hlog
          | cons i todo =>
              simp only [advance, hlog] at h
              split at h <;> cases h
              · next hadmits => exact .put hlog hadmits
              · next hadmits => exact .pass hlog hadmits
      | flag i buf obj todo =>
          simp only [advance, hlog] at h
          cases h
          exact .flag hlog
  | write =>
      obtain ⟨-, rfl⟩ := Prod.mk.inj (Option.some.inj h)
      exact .write

/-- A step of the writer changes the total only where it drops a message. -/
theorem total_write (s : Pipeline) (i : Fin logMax) : s.write.total i = s.total i ∨
    ¬ s.Keeps i .write ∧ (s.write.total i).Sublist (s.total i) := by
  obtain ⟨objs, ⟨ring, need⟩, logging, writing, printed⟩ := s
  cases writing with
  | pass todo =>
      left
      cases todo with
      | nil => rfl
      | cons j todo =>
          simp only [write, total, inFlight]
          split <;> rfl
  | dequeue j todo =>
      left
      cases hring : ring j with
      | nil => simp [write, total, inFlight, ringDequeue, hring, Writing.held]
      | cons buf rest =>
          by_cases hj : j = i
          · subst hj
            simp [write, total, inFlight, ringDequeue, hring, Writing.held, setRing]
          · simp [write, total, inFlight, ringDequeue, hring, Writing.held, setRing, hj,
              Function.update_of_ne (Ne.symm hj)]
  | print j buf todo =>
      cases hobj : objs buf.objId with
      | none =>
          by_cases hj : j = i
          · subst hj
            right
            simp [write, total, inFlight, hobj, Writing.held, Keeps, CanPrint]
          · left
            simp [write, total, inFlight, hobj, Writing.held, hj]
      | some obj =>
          cases hprint : (obj i).print with
          | none =>
              by_cases hj : j = i
              · subst hj
                right
                simp [write, total, inFlight, hobj, hprint, Writing.held, Keeps, CanPrint]
              · left
                simp only [write, total, inFlight, hobj]
                split <;> simp [Writing.held, hj, Function.update_of_ne (Ne.symm hj)]
          | some print =>
              left
              by_cases hj : j = i
              · subst hj
                simp [write, total, inFlight, hobj, hprint, Writing.held]
              · simp only [write, total, inFlight, hobj]
                split <;> simp [Writing.held, hj, Function.update_of_ne (Ne.symm hj)]
  | peek j todo =>
      left
      simp only [write, total, inFlight]
      split <;> rfl
  | clear j todo => exact .inl rfl

/-- Putting a message on a ring. -/
theorem ringEnqueue_sublist (ring : List LogBuffer) (buf : LogBuffer) :
    (ringEnqueue ring buf).Sublist (ring ++ [buf]) := by
  rw [ringEnqueue]
  split
  · exact List.Sublist.refl _
  · exact List.sublist_append_left ring [buf]

/-- **One step** adds what it logs at the end, unless it drops a message. -/
theorem total_advance (hdistinct : s.logging.Distinct) (h : s.advance a = some (u, s'))
    (i : Fin logMax) : s'.total i = s.total i ++ s.dueOf i a ∨
      ¬ s.Keeps i a ∧ (s'.total i).Sublist (s.total i ++ s.dueOf i a) := by
  cases advances h with
  | config hlog | unknown hlog hobj | found hlog hobj | done hlog | flag hlog =>
      left
      simp [total, inFlight, dueOf, Logging.coming, setNeed, *]
  | pass hlog hadmits =>
      left
      next buf obj j todo =>
      by_cases hj : i = j
      · subst hj
        simp [total, inFlight, dueOf, hlog, Logging.coming, hadmits]
      · simp [total, inFlight, dueOf, hlog, Logging.coming, hj]
  | put hlog hadmits =>
      next buf obj j todo =>
      rw [hlog, Logging.Distinct, List.nodup_cons] at hdistinct
      by_cases hj : i = j
      · subst hj
        simp only [total, inFlight, dueOf, hlog, Logging.coming, setRing, hdistinct.1, hadmits,
          Function.update_self, false_and, if_false, List.append_nil, List.mem_cons, true_or,
          true_and, if_true]
        by_cases hroom : (s.rings.ring i).length < ringCap - 1
        · left
          rw [ringEnqueue, if_pos hroom, List.append_assoc]
        · right
          refine ⟨fun hkeeps => hroom (hkeeps buf obj todo hlog hadmits), ?_⟩
          rw [List.append_assoc]
          exact ((ringEnqueue_sublist _ buf).append_left _).append_left _
      · left
        simp [total, inFlight, dueOf, hlog, Logging.coming, setRing, hj]
  | write => simpa only [dueOf, List.append_nil] using s.total_write i

/-- The slots that come stay different. -/
theorem distinct_advance (hdistinct : s.logging.Distinct) (h : s.advance a = some (u, s')) :
    s'.logging.Distinct := by
  cases advances h with
  | config | unknown => exact hdistinct
  | found => exact List.nodup_finRange logMax
  | done => exact trivial
  | pass hlog | put hlog =>
      rw [hlog] at hdistinct
      exact (List.nodup_cons.mp hdistinct).2
  | flag hlog => rwa [hlog] at hdistinct
  | write => rwa [logging_write]

end Flow

@[simp] theorem due_append (i : Fin logMax) (tr : List (Step Pipeline Move Unit))
    (e : Step Pipeline Move Unit) : due i (tr ++ [e]) = due i tr ++ e.before.dueOf i e.call := by
  simp [due]

section Runs
variable {objs : ℕ → Option Table} {tr : List (Step Pipeline Move Unit)} {s : Pipeline}

/-- **What a logger prints** was logged for it, in the order of the calls and nothing twice, in
every interleaving of the two threads. -/
theorem run_prints (h : Run advance (fun _ _ => True) (start objs) tr s) (i : Fin logMax) :
    ((s.printed i).map Prod.snd).Sublist (due i tr) := by
  have htotal : s.logging.Distinct ∧ (s.total i).Sublist (due i tr) := by
    refine h.induct (P := fun tr s => s.logging.Distinct ∧ (s.total i).Sublist (due i tr))
      ⟨trivial, List.Sublist.refl _⟩ ?_
    intro tr s a u s' _ ⟨hdistinct, hsub⟩ _ hs
    refine ⟨distinct_advance hdistinct hs, ?_⟩
    rw [due_append]
    have hmore := hsub.append_right (s.dueOf i a)
    rcases total_advance hdistinct hs i with heq | ⟨-, hless⟩
    · rwa [heq]
    · exact hless.trans hmore
  exact (List.sublist_append_left _ _).trans htotal.2

end Runs

/-- A log object with a logger for the console. -/
def consoleOnly : ℕ → Option Table := fun id =>
  if id = 1 then some (Function.update fresh logConsole console) else none

/-- A message. -/
def hello : LogBuffer := ⟨1, 5, 6, []⟩

/-- A message that is printed before the call for it has come to its end. -/
theorem run_prints_hello : ∃ tr s, Run advance (fun _ _ => True) (start consoleOnly) tr s ∧
    s.printed logConsole = [(1, hello)] ∧
      ((s.printed logConsole).map Prod.snd).Sublist (due logConsole tr) := by
  have hrun : Run advance (fun _ _ => True) (start consoleOnly) _ _ := run_of_runList
    [.log hello, .step, .step, .write, .write, .write, .write] rfl fun _ _ => trivial
  exact ⟨_, _, hrun, rfl, run_prints hrun logConsole⟩

/-! ## Runs that lose nothing -/

/-- **The side condition.**  A message that is logged for a logger finds room on its ring, and the
logger when its turn comes; and its flag is not set while the writer is about to clear it. -/
def Good (s : Pipeline) : Move → Prop
  | .config objs => ∀ i, ∀ buf ∈ s.inFlight i, CanPrint objs i buf
  | .log buf => ∀ obj, s.objs buf.objId = some obj → ∀ i, Admits obj i buf → (obj i).print ≠ none
  | .step => (∀ i, s.Keeps i .step) ∧
      ∀ i, s.logging.Flagging i → s.writing.Clearing i → s.rings.ring i = []
  | .write => True

/-- Ring `i` is not left with messages and without its flag. -/
def Awake (s : Pipeline) (i : Fin logMax) : Prop :=
  ¬ s.logging.Flagging i → (s.writing.Clearing i → s.rings.ring i = []) ∧
    (¬ s.writing.Clearing i → s.rings.ring i ≠ [] → s.rings.need i = true)

/-- What holds along runs that lose nothing. -/
structure Inv (s : Pipeline) : Prop where
  distinct : s.logging.Distinct
  printable : ∀ i, ∀ buf ∈ s.inFlight i, CanPrint s.objs i buf
  awake : ∀ i, s.Awake i
  short : s.writing.todo.length ≤ logMax
  room : ∀ i, (s.rings.ring i).length ≤ ringCap - 1

section Steps
variable {s s' : Pipeline} {a : Move} {u : Unit} {i : Fin logMax}

/-- What has been printed stays printed. -/
theorem printed_write (s : Pipeline) (i : Fin logMax) : s.printed i <+: s.write.printed i := by
  cases hwriting : s.writing with
  | pass todo => cases todo <;> simp [write, hwriting]
  | dequeue j todo =>
      cases hring : s.rings.ring j <;> simp [write, hwriting, ringDequeue, hring, setRing]
  | print j buf todo =>
      cases hobj : s.objs buf.objId with
      | none => simp [write, hwriting, hobj]
      | some obj =>
          cases hprint : (obj j).print with
          | none => simp [write, hwriting, hobj, hprint]
          | some print =>
              by_cases hj : i = j
              · subst hj
                simp [write, hwriting, hobj, hprint]
              · simp [write, hwriting, hobj, hprint, hj]
  | peek j todo => simp [write, hwriting]
  | clear j todo => simp [write, hwriting, setNeed]

theorem printed_advance (h : s.advance a = some (u, s')) (i : Fin logMax) :
    s.printed i <+: s'.printed i := by
  cases advances h with
  | write => exact s.printed_write i
  | config | unknown | found | done | pass | put | flag => exact List.prefix_rfl

theorem Inv.keeps (H : Inv s) (hgood : s.Good a) (i : Fin logMax) : s.Keeps i a := by
  cases a with
  | config objs => trivial
  | log buf => trivial
  | step => exact hgood.1 i
  | write =>
      intro buf todo hprint
      refine H.printable i buf ?_
      simp [inFlight, hprint, Writing.held]

/-- Nothing is lost. -/
theorem Inv.total_eq (H : Inv s) (hgood : s.Good a) (h : s.advance a = some (u, s'))
    (i : Fin logMax) : s'.total i = s.total i ++ s.dueOf i a :=
  (total_advance H.distinct h i).resolve_right fun hlost => hlost.1 (H.keeps hgood i)

/-- What is on its way was so before, or has just been logged. -/
theorem Inv.mem_inFlight (H : Inv s) (hgood : s.Good a) (h : s.advance a = some (u, s'))
    {buf : LogBuffer} (hbuf : buf ∈ s'.inFlight i) : buf ∈ s.inFlight i ∨ buf ∈ s.dueOf i a := by
  obtain ⟨out, hout⟩ := printed_advance h i
  have htotal := H.total_eq hgood h i
  rw [total, total, ← hout, List.map_append, List.append_assoc, List.append_assoc,
    List.append_cancel_left_eq] at htotal
  rw [← List.mem_append, ← htotal]
  exact List.mem_append_right _ hbuf

/-- The writer takes a message off a ring or leaves it. -/
theorem ring_write (s : Pipeline) (i : Fin logMax) :
    s.write.rings.ring i = s.rings.ring i ∨ s.write.rings.ring i = (s.rings.ring i).tail := by
  cases hwriting : s.writing with
  | pass todo => cases todo <;> simp [write, hwriting]
  | dequeue j todo =>
      cases hring : s.rings.ring j with
      | nil => simp [write, hwriting, ringDequeue, hring]
      | cons buf rest =>
          by_cases hj : i = j
          · subst hj
            simp [write, hwriting, ringDequeue, hring, setRing]
          · simp [write, hwriting, ringDequeue, hring, setRing, hj]
  | print j buf todo =>
      left
      simp only [write, hwriting]
      split <;> (try split) <;> rfl
  | peek j todo => simp [write, hwriting]
  | clear j todo => simp [write, hwriting, setNeed]

/-- The writer keeps the flags of the rings with messages. -/
theorem Awake.write (h : s.Awake i) : s.write.Awake i := by
  rw [Awake, logging_write]
  intro hlogging
  obtain ⟨hempty, hflagged⟩ := h hlogging
  cases hwriting : s.writing with
  | pass todo =>
      rw [hwriting] at hempty hflagged
      cases todo with
      | nil => simpa [Pipeline.write, hwriting, Writing.Clearing] using hflagged
      | cons j todo =>
          simp only [Pipeline.write, hwriting]
          split <;> simpa [Writing.Clearing] using hflagged
  | dequeue j todo =>
      rw [hwriting] at hempty hflagged
      cases hring : s.rings.ring j with
      | nil =>
          simp only [Pipeline.write, hwriting, ringDequeue, hring, Writing.Clearing]
          exact ⟨fun hj => hj ▸ hring, fun _ => hflagged id⟩
      | cons buf rest =>
          by_cases hj : i = j
          · subst hj
            have hneed : s.rings.need i = true := hflagged id (by simp [hring])
            simp [Pipeline.write, hwriting, ringDequeue, hring, setRing, Writing.Clearing, hneed]
          · simpa [Pipeline.write, hwriting, ringDequeue, hring, setRing, hj, Writing.Clearing]
              using hflagged
  | print j buf todo =>
      rw [hwriting] at hempty hflagged
      simp only [Pipeline.write, hwriting]
      split <;> (try split) <;> simpa [Writing.Clearing] using hflagged
  | peek j todo =>
      rw [hwriting] at hempty hflagged
      simp only [Pipeline.write, hwriting]
      split
      · next hnone =>
        have hring : s.rings.ring j = [] := by simpa [ringPeek] using hnone
        exact ⟨fun hj => hj ▸ hring, fun _ => hflagged id⟩
      · simpa [Writing.Clearing] using hflagged
  | clear j todo =>
      rw [hwriting] at hempty hflagged
      by_cases hj : i = j
      · subst hj
        simpa [Pipeline.write, hwriting, setNeed, Writing.Clearing] using hempty
      · simpa [Pipeline.write, hwriting, setNeed, Writing.Clearing, hj, Ne.symm hj] using hflagged

theorem length_ringEnqueue (ring : List LogBuffer) (buf : LogBuffer)
    (h : ring.length ≤ ringCap - 1) : (ringEnqueue ring buf).length ≤ ringCap - 1 := by
  rw [ringEnqueue]
  split
  · rw [List.length_append]
    exact Nat.succ_le_of_lt ‹_›
  · exact h

/-- The writer goes through the slots. -/
theorem todo_write (h : s.writing.todo.length ≤ logMax) : s.write.writing.todo.length ≤ logMax := by
  cases hwriting : s.writing with
  | pass todo =>
      rw [hwriting, Writing.todo] at h
      cases todo with
      | nil => simp [write, hwriting, Writing.todo]
      | cons j todo =>
          rw [List.length_cons] at h
          simp only [write, hwriting]
          split <;> exact Nat.le_of_succ_le h
  | dequeue j todo =>
      rw [hwriting, Writing.todo] at h
      simp only [write, hwriting]
      split <;> exact h
  | print j buf todo =>
      rw [hwriting, Writing.todo] at h
      simp only [write, hwriting]
      split <;> (try split) <;> exact h
  | peek j todo =>
      rw [hwriting, Writing.todo] at h
      simp only [write, hwriting]
      split <;> exact h
  | clear j todo =>
      rw [hwriting, Writing.todo] at h
      simp only [write, hwriting]
      exact h

/-- The rings keep to their size. -/
theorem room_advance (hroom : ∀ i, (s.rings.ring i).length ≤ ringCap - 1)
    (h : s.advance a = some (u, s')) (i : Fin logMax) :
    (s'.rings.ring i).length ≤ ringCap - 1 := by
  cases advances h with
  | config | unknown | found | done | pass | flag => exact hroom i
  | put =>
      next buf obj j todo _ _ =>
      by_cases hj : i = j
      · subst hj
        simpa [setRing] using length_ringEnqueue _ buf (hroom i)
      · simpa [setRing, hj] using hroom i
  | write =>
      rcases s.ring_write i with heq | heq <;> rw [heq]
      · exact hroom i
      · rw [List.length_tail]
        exact Nat.le_trans (Nat.sub_le _ _) (hroom i)

/-- The messages on their way can still be printed. -/
theorem Inv.printable_advance (H : Inv s) (hgood : s.Good a) (h : s.advance a = some (u, s'))
    {buf : LogBuffer} (hbuf : buf ∈ s'.inFlight i) : CanPrint s'.objs i buf := by
  have hmem := H.mem_inFlight hgood h hbuf
  cases advances h with
  | config => exact hgood i buf (hmem.resolve_right List.not_mem_nil)
  | unknown => exact H.printable i buf hbuf
  | found _ hobj =>
      next buf' obj _ =>
      rcases hmem with hmem | hmem
      · exact H.printable i buf hmem
      · simp only [dueOf, hobj] at hmem
        split at hmem
        · next hadmits =>
          obtain rfl := List.mem_singleton.mp hmem
          exact ⟨obj, hobj, hgood obj hobj i hadmits⟩
        · cases hmem
  | done | pass | put | flag => exact H.printable i buf (hmem.resolve_right List.not_mem_nil)
  | write =>
      rw [objs_write]
      exact H.printable i buf (hmem.resolve_right List.not_mem_nil)

/-- A ring is not left without its flag. -/
theorem Awake.advance (h : s.Awake i) (hgood : s.Good a) (hs : s.advance a = some (u, s')) :
    s'.Awake i := by
  cases advances hs with
  | config | unknown => exact h
  | found hlog | done hlog | pass hlog =>
      rw [Awake, hlog] at h
      exact fun _ => h id
  | put hlog =>
      next buf obj j todo _ =>
      rw [Awake, hlog] at h
      intro hj
      have hne : i ≠ j := fun heq => hj heq.symm
      simpa [setRing, hne] using h id
  | flag hlog =>
      next buf obj j todo =>
      have hclear := hgood.2 i
      rw [Awake, hlog] at h
      rw [hlog] at hclear
      intro _
      by_cases hj : i = j
      · subst hj
        exact ⟨hclear rfl, fun _ _ => Function.update_self ..⟩
      · have hne : ¬ j = i := fun heq => hj heq.symm
        simpa [setNeed, hj] using h hne
  | write => exact h.write

/-- **Steps that lose nothing** keep the invariant. -/
theorem Inv.advance (H : Inv s) (hgood : s.Good a) (h : s.advance a = some (u, s')) : Inv s' where
  distinct := distinct_advance H.distinct h
  printable _ _ hbuf := H.printable_advance hgood h hbuf
  awake i := (H.awake i).advance hgood h
  short := by
    cases advances h with
    | config | unknown | found | done | pass | put | flag => exact H.short
    | write => exact todo_write H.short
  room := room_advance H.room h

end Steps

/-! ## The writer alone -/

/-- The writer, run alone, gets to such a state within `k` steps. -/
def Soon (k : ℕ) (s : Pipeline) (P : Pipeline → Prop) : Prop := ∃ n ≤ k, P (write^[n] s)

/-- The logging thread rests, and nothing is lost. -/
structure Quiet (s : Pipeline) : Prop where
  inv : Inv s
  idle : s.logging = .idle

/-- The rings of `t` are not longer than those of `s`, and those of some slots are shorter. -/
def Shorter (is : List (Fin logMax)) (s t : Pipeline) : Prop :=
  ∀ i, (t.rings.ring i).length ≤ (s.rings.ring i).length ∧
    (i ∈ is → (t.rings.ring i).length ≤ (s.rings.ring i).length - 1)

section Alone
variable {s t : Pipeline} {P Q : Pipeline → Prop} {k m : ℕ} {i : Fin logMax}
  {todo : List (Fin logMax)}

theorem Soon.now (h : P s) : Soon k s P := ⟨0, Nat.zero_le k, h⟩

theorem Soon.next (h : Soon k s.write P) : Soon (k + 1) s P := by
  obtain ⟨n, hn, hP⟩ := h
  exact ⟨n + 1, Nat.succ_le_succ hn, hP⟩

theorem Soon.trans (h : Soon k s P) (hPQ : ∀ t, P t → Soon m t Q) : Soon (k + m) s Q := by
  obtain ⟨n, hn, hP⟩ := h
  obtain ⟨n', hn', hQ⟩ := hPQ _ hP
  refine ⟨n' + n, by omega, ?_⟩
  rwa [Function.iterate_add_apply]

theorem Soon.mono (h : Soon k s P) (hkm : k ≤ m) : Soon m s P := by
  obtain ⟨n, hn, hP⟩ := h
  exact ⟨n, Nat.le_trans hn hkm, hP⟩

theorem Quiet.write (h : Quiet s) : Quiet s.write where
  inv := h.inv.advance (a := .write) trivial rfl
  idle := by rw [logging_write, h.idle]

theorem Quiet.clear (h : Quiet s) (hwriting : s.writing = .clear i todo) : Soon 1 s fun t =>
    Quiet t ∧ t.writing = .pass todo ∧ t.rings.ring = s.rings.ring := by
  refine .next (.now ⟨h.write, ?_⟩)
  simp [Pipeline.write, hwriting, setNeed]

theorem Quiet.peek (h : Quiet s) (hwriting : s.writing = .peek i todo) : Soon 2 s fun t =>
    Quiet t ∧ t.writing = .pass todo ∧ t.rings.ring = s.rings.ring := by
  have hrings : s.write.rings = s.rings := by simp [Pipeline.write, hwriting]
  refine .next ?_
  rw [← hrings]
  by_cases hnone : (ringPeek (s.rings.ring i)).isNone
  · exact h.write.clear (i := i) (by simp [Pipeline.write, hwriting, hnone])
  · exact .now ⟨h.write, by simp [Pipeline.write, hwriting, hnone], rfl⟩

theorem Quiet.print {buf : LogBuffer} (h : Quiet s) (hwriting : s.writing = .print i buf todo) :
    Soon 3 s fun t => Quiet t ∧ t.writing = .pass todo ∧ t.rings.ring = s.rings.ring := by
  have hrings : s.write.rings = s.rings := by
    simp only [Pipeline.write, hwriting]
    split <;> (try split) <;> rfl
  refine .next ?_
  rw [← hrings]
  cases hobj : s.objs buf.objId with
  | none => exact .now ⟨h.write, by simp [Pipeline.write, hwriting, hobj], rfl⟩
  | some obj =>
      refine h.write.peek (i := i) ?_
      simp only [Pipeline.write, hwriting, hobj]
      split <;> rfl

/-- A message is taken off a ring. -/
theorem Quiet.dequeue (h : Quiet s) (hwriting : s.writing = .dequeue i todo) : Soon 4 s fun t =>
    Quiet t ∧ t.writing = .pass todo ∧
      t.rings.ring = Function.update s.rings.ring i (s.rings.ring i).tail := by
  refine .next ?_
  cases hring : s.rings.ring i with
  | nil =>
      have hsame : s.write.rings.ring = Function.update s.rings.ring i [] := by
        rw [← hring, Function.update_eq_self]
        simp [Pipeline.write, hwriting, ringDequeue, hring]
      have hclear : s.write.writing = .clear i todo := by
        simp [Pipeline.write, hwriting, ringDequeue, hring]
      rw [List.tail_nil, ← hsame]
      exact (h.write.clear hclear).mono (by omega)
  | cons buf rest =>
      have hsame : s.write.rings.ring = Function.update s.rings.ring i rest := by
        simp [Pipeline.write, hwriting, ringDequeue, hring, setRing]
      have hprint : s.write.writing = .print i buf todo := by
        simp [Pipeline.write, hwriting, ringDequeue, hring]
      rw [List.tail_cons, ← hsame]
      exact h.write.print hprint

/-- The writer visits a ring. -/
theorem Quiet.visit (h : Quiet s) (hwriting : s.writing = .pass (i :: todo)) : Soon 5 s fun t =>
    Quiet t ∧ t.writing = .pass todo ∧
      t.rings.ring = Function.update s.rings.ring i (s.rings.ring i).tail := by
  have hrings : s.write.rings = s.rings := by simp [Pipeline.write, hwriting]
  refine .next ?_
  rw [← hrings]
  by_cases hneed : s.rings.need i = true
  · exact h.write.dequeue (by simp [Pipeline.write, hwriting, hneed])
  · -- a ring without its flag is empty
    have hempty : s.write.rings.ring i = [] := by
      rw [hrings]
      by_contra hring
      refine hneed (((h.inv.awake i) ?_).2 ?_ hring)
      · rw [h.idle]
        exact id
      · rw [hwriting]
        exact id
    refine .now ⟨h.write, by simp [Pipeline.write, hwriting, hneed], ?_⟩
    rw [hempty, List.tail_nil, ← hempty, Function.update_eq_self]

theorem shorter_update (h : t.rings.ring =
    Function.update s.rings.ring i (s.rings.ring i).tail) : Shorter [i] s t := by
  intro j
  rw [h]
  by_cases hj : j = i
  · subst hj
    simp
  · simp [hj]

theorem Shorter.trans {is js : List (Fin logMax)} {u : Pipeline} (h : Shorter is s t)
    (h' : Shorter js t u) : Shorter (is ++ js) s u := by
  intro i
  obtain ⟨hle, hless⟩ := h i
  obtain ⟨hle', hless'⟩ := h' i
  refine ⟨Nat.le_trans hle' hle, fun hi => ?_⟩
  rcases List.mem_append.mp hi with hi | hi
  · exact Nat.le_trans hle' (hless hi)
  · exact Nat.le_trans (hless' hi) (Nat.sub_le_sub_right hle 1)

/-- The rest of a turn of the loop. -/
theorem Quiet.turn (h : Quiet s) (hwriting : s.writing = .pass todo) :
    Soon (5 * todo.length) s fun t => Quiet t ∧ t.writing = .pass [] ∧ Shorter todo s t := by
  induction todo generalizing s with
  | nil => exact .now ⟨h, hwriting, fun i => ⟨Nat.le_refl _, fun hi => by cases hi⟩⟩
  | cons i todo ih =>
      have hsum : 5 * (i :: todo).length = 5 + 5 * todo.length := by
        rw [List.length_cons]
        omega
      rw [hsum]
      refine (h.visit hwriting).trans fun t ⟨ht, htw, htr⟩ => ?_
      obtain ⟨n, hn, hu, huw, hshort⟩ := ih ht htw
      exact ⟨n, hn, hu, huw, (shorter_update htr).trans hshort⟩

/-- The writer comes to the end of a turn, wherever it stands. -/
theorem Quiet.finish (h : Quiet s) : Soon (5 * (logMax + 1)) s fun t =>
    Quiet t ∧ t.writing = .pass [] ∧ Shorter [] s t := by
  have hvisit : Soon 4 s fun t => Quiet t ∧ t.writing = .pass s.writing.todo ∧
      Shorter [] s t := by
    have hsame : ∀ {t : Pipeline}, t.rings.ring = s.rings.ring → Shorter [] s t := by
      intro t heq i
      rw [heq]
      exact ⟨Nat.le_refl _, fun hi => by cases hi⟩
    cases hwriting : s.writing with
    | pass todo => exact .now ⟨h, hwriting, hsame rfl⟩
    | dequeue i todo =>
        obtain ⟨n, hn, ht, htw, htr⟩ := h.dequeue hwriting
        exact ⟨n, hn, ht, htw, fun j => ⟨(shorter_update htr j).1, fun hj => by cases hj⟩⟩
    | print i buf todo =>
        obtain ⟨n, hn, ht, htw, htr⟩ := h.print hwriting
        exact ⟨n, by omega, ht, htw, hsame htr⟩
    | peek i todo =>
        obtain ⟨n, hn, ht, htw, htr⟩ := h.peek hwriting
        exact ⟨n, by omega, ht, htw, hsame htr⟩
    | clear i todo =>
        obtain ⟨n, hn, ht, htw, htr⟩ := h.clear hwriting
        exact ⟨n, by omega, ht, htw, hsame htr⟩
  have hshort : 4 + 5 * s.writing.todo.length ≤ 5 * (logMax + 1) := by
    have hle := h.inv.short
    omega
  refine (hvisit.trans fun t ⟨ht, htw, htr⟩ => ?_).mono hshort
  obtain ⟨n, hn, hu, huw, hshorter⟩ := ht.turn htw
  exact ⟨n, hn, hu, huw, fun i => ⟨(htr.trans hshorter i).1, fun hi => by cases hi⟩⟩

/-- One turn of the loop takes a message off each ring. -/
theorem Quiet.round (h : Quiet s) (hwriting : s.writing = .pass []) :
    Soon (5 * logMax + 1) s fun t => Quiet t ∧ t.writing = .pass [] ∧
      ∀ i, (t.rings.ring i).length ≤ (s.rings.ring i).length - 1 := by
  have hpass : s.write.writing = .pass (List.finRange logMax) := by
    simp [Pipeline.write, hwriting]
  have hrings : s.write.rings = s.rings := by simp [Pipeline.write, hwriting]
  obtain ⟨n, hn, ht, htw, hshorter⟩ := h.write.turn hpass
  rw [List.length_finRange] at hn
  refine .next ⟨n, hn, ht, htw, fun i => ?_⟩
  rw [← hrings]
  exact (hshorter i).2 (List.mem_finRange i)

theorem Quiet.rounds (h : Quiet s) (hwriting : s.writing = .pass []) (n : ℕ) :
    Soon ((5 * logMax + 1) * n) s fun t => Quiet t ∧ t.writing = .pass [] ∧
      ∀ i, (t.rings.ring i).length ≤ (s.rings.ring i).length - n := by
  induction n with
  | zero => exact .now ⟨h, hwriting, fun i => Nat.le_refl _⟩
  | succ n ih =>
      rw [Nat.mul_succ]
      refine ih.trans fun t ⟨ht, htw, htr⟩ => ?_
      obtain ⟨k, hk, hu, huw, hur⟩ := ht.round htw
      refine ⟨k, hk, hu, huw, fun i => Nat.le_trans (hur i) ?_⟩
      rw [Nat.sub_add_eq]
      exact Nat.sub_le_sub_right (htr i) 1

/-- **The writer empties the rings.** -/
theorem Quiet.drains (h : Quiet s) :
    Soon (5 * (logMax + 1) + (5 * logMax + 1) * (ringCap - 1)) s fun t =>
      Quiet t ∧ t.writing = .pass [] ∧ ∀ i, t.rings.ring i = [] := by
  refine h.finish.trans fun t ⟨ht, htw, _⟩ => ?_
  obtain ⟨n, hn, hu, huw, hur⟩ := ht.rounds htw (ringCap - 1)
  refine ⟨n, hn, hu, huw, fun i => ?_⟩
  have hle := hur i
  rw [Nat.sub_eq_zero_of_le (ht.inv.room i), Nat.le_zero] at hle
  exact List.eq_nil_of_length_eq_zero hle

/-- The writer alone loses nothing. -/
theorem total_iterate (h : Quiet s) (i : Fin logMax) (n : ℕ) :
    (write^[n] s).total i = s.total i := by
  induction n generalizing s with
  | zero => rfl
  | succ n ih =>
      rw [Function.iterate_succ_apply, ih h.write]
      simpa [dueOf] using h.inv.total_eq (a := .write) trivial rfl i

end Alone

section Runs
variable {objs : ℕ → Option Table} {tr : List (Step Pipeline Move Unit)} {s : Pipeline}

theorem inv_start (objs : ℕ → Option Table) : Inv (start objs) where
  distinct := trivial
  printable i buf hbuf := by cases hbuf
  awake i _ := ⟨False.elim, fun _ h => absurd rfl h⟩
  short := Nat.zero_le _
  room i := Nat.zero_le _

/-- Along a run that loses nothing, all that was logged is printed or on its way. -/
theorem run_total (h : Run advance Good (start objs) tr s) :
    Inv s ∧ ∀ i, s.total i = due i tr := by
  refine h.induct (P := fun tr s => Inv s ∧ ∀ i, s.total i = due i tr)
    ⟨inv_start objs, fun i => rfl⟩ ?_
  intro tr s a u s' _ ⟨H, htotal⟩ hgood hs
  refine ⟨H.advance hgood hs, fun i => ?_⟩
  rw [H.total_eq hgood hs, htotal i, due_append]

/-- **Delivery.**  After every run that loses nothing, once the logging thread rests, the writer
needs a bounded number of steps to print all that was logged for each logger, in the order of the
calls and once. -/
theorem run_delivers (h : Run advance Good (start objs) tr s) (hidle : s.logging = .idle) :
    ∃ n ≤ 5 * (logMax + 1) + (5 * logMax + 1) * (ringCap - 1), ∀ i,
      (write^[n] s).rings.ring i = [] ∧
        ((write^[n] s).printed i).map Prod.snd = due i tr := by
  obtain ⟨H, htotal⟩ := run_total h
  have hquiet : Quiet s := ⟨H, hidle⟩
  obtain ⟨n, hn, ht, hwriting, hring⟩ := hquiet.drains
  refine ⟨n, hn, fun i => ⟨hring i, ?_⟩⟩
  rw [← htotal i, ← total_iterate hquiet i n, total, inFlight, hring, hwriting, ht.idle]
  simp [Writing.held, Logging.coming]

end Runs

/-- A call for one message, and a rest. -/
theorem run_delivers_hello : ∃ tr s n, Run advance Good (start consoleOnly) tr s ∧
    ((write^[n] s).printed logConsole).map Prod.snd = [hello] := by
  have hroom : ∀ {s : Pipeline}, (∀ i, (s.rings.ring i).length < ringCap - 1) →
      (∀ i, ¬ s.writing.Clearing i) → s.Good .step := fun hring hclear =>
    ⟨fun i _ _ _ _ _ => hring i, fun i _ h => absurd h (hclear i)⟩
  have hrun : Run advance Good (start consoleOnly) _ _ := run_of_runList
    [.log hello, .step, .step, .step, .step, .step, .step] rfl (by
      simp only [List.forall_mem_cons]
      refine ⟨?_, hroom ?_ ?_, hroom ?_ ?_, hroom ?_ ?_, hroom ?_ ?_, hroom ?_ ?_, hroom ?_ ?_,
        by simp⟩
      · intro obj hobj i hadmits
        obtain rfl : Function.update fresh logConsole console = obj := Option.some.inj hobj
        revert i
        decide
      all_goals first
        | exact fun _ => id
        | decide +kernel)
  obtain ⟨n, -, hall⟩ := run_delivers hrun rfl
  exact ⟨_, _, n, hrun, (hall logConsole).2⟩

end Pipeline

end Kylin.Klog
