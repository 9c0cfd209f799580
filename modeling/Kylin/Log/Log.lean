import Kylin.Lib.Run
import Kylin.Log.Buffer
import Mathlib.Data.List.FinRange
import Mathlib.Data.Fintype.Basic

/-!
# Log objects

A `klog_t` (`lib/core/log/kylin_log.c`) is a table of loggers, one slot for each type;
`buffer_enqueue` (`kylin_log_buf.c`) puts a message on the ring of every logger whose level
admits it.

A failed change of the table may leave it changed.  `kylin_log_expand` fills the slot before
it calls the constructor whose error it returns; `kylin_log_logger_set` empties a slot before
it knows whether the new logger is accepted, and then reads the logger again, which is gone
when it was passed as the slot itself; `kylin_log_level_set` takes any level.  `Fits` says
which calls are free of this, in every state, `right_iff_fits`; a run is right exactly when
all its calls are such, `run_routes_iff`.

## Main definitions

* `Logger`, `Table`, `LoggerPtr` — loggers, the slots of a log object, a logger to pass.
* `expand`, `reduce`, `loggerSet`, `levelSet`, `bufferEnqueue` — the operations.
* `SlotsOk` — the invariant of the slots.
* `Right`, `Fits` — what holds of a call, and when.

## Main results

* `bufferEnqueue_rings` — where a message goes.
* `right_iff_fits`, `run_routes_iff` — calls and runs that are right.
-/

namespace Kylin.Klog

open Lib

/-- `KYLIN_LOG_MAX`. -/
def logMax : ℕ := 4

/-- `KYLIN_LOG_DEBUG`. -/
def logDebug : ℕ := 7

/-- `klog_logger_t`; functions are named by numbers, `none` for `NULL`. -/
@[ext]
structure Logger where
  type : ℕ
  level : ℕ
  print : Option ℕ
  priv : ℕ
  ctor : Option ℕ
  dtor : Option ℕ
  deriving DecidableEq

/-- The slots of a `klog_t`. -/
abbrev Table := Fin logMax → Logger

/-- A slot that has been emptied: zeros, and the type `KYLIN_LOG_MAX`. -/
def Logger.free : Logger := ⟨logMax, 0, none, 0, none, none⟩

/-- The slots of a log object that `kylin_log_create` has just allocated. -/
def fresh : Table := fun _ => .free

/-- A `klog_logger_t *`: to a logger of the caller, or to a slot of the object, as
`kylin_log_logger_get` returns it. -/
inductive LoggerPtr
  | own (logger : Logger)
  | slot (type : Fin logMax)
  deriving DecidableEq

/-- The logger that a pointer leads to. -/
def LoggerPtr.deref (obj : Table) : LoggerPtr → Logger
  | own logger => logger
  | slot type => obj type

/-- `kylin_log_expand`; `ret` is what the constructor returns. -/
def expand (obj : Table) (ptr : LoggerPtr) (ret : ℕ) : ℕ × Table :=
  let logger := ptr.deref obj
  if h : logMax ≤ logger.type ∨ logDebug < logger.level ∨ logger.print = none then
    (Kerr.inval.code, obj)
  else
    let i : Fin logMax := ⟨logger.type, Nat.lt_of_not_le fun h' => h (.inl h')⟩
    if (obj i).type = logger.type then (Kerr.exist.code, obj)
    else
      let obj := Function.update obj i logger
      if logger.ctor ≠ none then (ret, obj) else (Kerr.ok.code, obj)

/-- `kylin_log_reduce`; what the destructor returns is not used. -/
def reduce (obj : Table) (type : Fin logMax) : ℕ × Table :=
  if (obj type).type = logMax then (Kerr.noent.code, obj)
  else (Kerr.ok.code, Function.update obj type .free)

/-- `kylin_log_logger_set`: `kylin_log_expand` reads the logger after `kylin_log_reduce`. -/
def loggerSet (obj : Table) (type : Fin logMax) (ptr : LoggerPtr) (ret : ℕ) : ℕ × Table :=
  let logger := ptr.deref obj
  if logger.type = logMax ∨ logDebug < logger.level ∨ logger.print = none then
    (Kerr.inval.code, obj)
  else expand (reduce obj type).2 ptr ret

/-- `kylin_log_level_set`. -/
def levelSet (obj : Table) (type : Fin logMax) (level : ℕ) : ℕ × Table :=
  if (obj type).type = logMax then (Kerr.inval.code, obj)
  else (Kerr.ok.code, Function.update obj type { obj type with level := level })

/-! ## Routing -/

/-- `klog_buffer_t`. -/
structure LogBuffer where
  objId : ℕ
  timestamp : ℕ
  logLevel : ℕ
  data : List Byte

/-- The rings and their flags. -/
structure Rings where
  ring : Fin logMax → List LogBuffer
  need : Fin logMax → Bool

/-- One turn of the loop of `buffer_enqueue`. -/
def enqueueTurn (obj : Table) (buf : LogBuffer) (r : Rings) (i : Fin logMax) : Rings :=
  if (obj i).type ≠ i ∨ (obj i).level < buf.logLevel then r
  else
    ⟨Function.update r.ring i (ringEnqueue (r.ring i) buf), Function.update r.need i true⟩

/-- `buffer_enqueue`, with `find` for `object_find`. -/
def bufferEnqueue (find : ℕ → Option Table) (r : Rings) (buf : LogBuffer) : ℕ × Rings :=
  match find buf.objId with
  | none => (Kerr.noent.code, r)
  | some obj => (Kerr.ok.code, (List.finRange logMax).foldl (enqueueTurn obj buf) r)

/-- A logger in the slot of its type. -/
structure Installed (i : Fin logMax) (logger : Logger) : Prop where
  type_eq : logger.type = i
  level_le : logger.level ≤ logDebug
  print_ne : logger.print ≠ none

instance (i : Fin logMax) (logger : Logger) : Decidable (Installed i logger) :=
  decidable_of_iff (logger.type = i ∧ logger.level ≤ logDebug ∧ logger.print ≠ none)
    ⟨fun h => ⟨h.1, h.2.1, h.2.2⟩, fun h => ⟨h.type_eq, h.level_le, h.print_ne⟩⟩

/-- **The invariant of the slots**: each is installed or free. -/
def SlotsOk (obj : Table) : Prop := ∀ i, Installed i (obj i) ∨ (obj i).type = logMax

/-- The turns for the slots of a list without repetitions change their own rings only. -/
theorem foldl_enqueueTurn_ring (obj : Table) (buf : LogBuffer) (is : List (Fin logMax))
    (hnodup : is.Nodup) (r : Rings) (i : Fin logMax) :
    (is.foldl (enqueueTurn obj buf) r).ring i =
      if i ∈ is ∧ (obj i).type = i ∧ buf.logLevel ≤ (obj i).level then
        ringEnqueue (r.ring i) buf
      else r.ring i := by
  induction is generalizing r with
  | nil => simp
  | cons j is ih =>
      obtain ⟨hj, hnodup⟩ := List.nodup_cons.mp hnodup
      rw [List.foldl_cons, ih hnodup]
      by_cases hij : i = j
      · subst hij
        simp only [hj, false_and, if_false, List.mem_cons, true_or, true_and]
        rw [enqueueTurn]
        split
        · next h =>
            rw [if_neg]
            omega
        · next h =>
            rw [if_pos (by omega)]
            simp
      · have hring : (enqueueTurn obj buf r j).ring i = r.ring i := by
          rw [enqueueTurn]
          split
          · rfl
          · exact Function.update_of_ne hij _ _
        simp [hring, hij]

/-- **Where a message goes**, by the slots as they are. -/
theorem bufferEnqueue_rings {find : ℕ → Option Table} {obj : Table} {buf : LogBuffer}
    (hfind : find buf.objId = some obj) (r : Rings) (i : Fin logMax) :
    (bufferEnqueue find r buf).2.ring i =
      if (obj i).type = i ∧ buf.logLevel ≤ (obj i).level then ringEnqueue (r.ring i) buf
      else r.ring i := by
  rw [bufferEnqueue, hfind]
  simp only
  rw [foldl_enqueueTurn_ring obj buf _ (List.nodup_finRange _)]
  simp

/-! ## Runs -/

/-- The calls on a log object, with what the constructor returns. -/
inductive Call
  | expand (ptr : LoggerPtr) (ret : ℕ)
  | reduce (type : Fin logMax)
  | loggerSet (type : Fin logMax) (ptr : LoggerPtr) (ret : ℕ)
  | levelSet (type : Fin logMax) (level : ℕ)

/-- One call. -/
def step (obj : Table) : Call → ℕ × Table
  | .expand ptr ret => expand obj ptr ret
  | .reduce type => reduce obj type
  | .loggerSet type ptr ret => loggerSet obj type ptr ret
  | .levelSet type level => levelSet obj type level

/-- **What holds of a call**: an error leaves the slots as they were, they are installed or
free, and messages go to the installed ones whose level admits them. -/
structure Right (e : Step Table Call ℕ) : Prop where
  unchanged : e.result ≠ Kerr.ok.code → e.after = e.before
  slots : SlotsOk e.after
  routes : ∀ (find : ℕ → Option Table) (buf : LogBuffer), find buf.objId = some e.after →
    ∀ (r : Rings) (i : Fin logMax), (bufferEnqueue find r buf).2.ring i =
      if Installed i (e.after i) ∧ buf.logLevel ≤ (e.after i).level then ringEnqueue (r.ring i) buf
      else r.ring i

/-- The slot for a logger is free, or there is none for its type. -/
def FreeAt (obj : Table) (type : ℕ) : Prop := ∀ i : Fin logMax, i.val = type → (obj i).type = logMax

/-- The first test of `kylin_log_expand` lets a logger through. -/
def Valid (logger : Logger) : Prop :=
  logger.type < logMax ∧ logger.level ≤ logDebug ∧ logger.print ≠ none

/-- The constructor of a logger does not fail. -/
def Constructs (logger : Logger) (ret : ℕ) : Prop := logger.ctor = none ∨ ret = Kerr.ok.code

/-- The calls that are right, by the slots they are made on. -/
def Fits (obj : Table) : Call → Prop
  | .expand ptr ret =>
      Valid (ptr.deref obj) → FreeAt obj (ptr.deref obj).type → Constructs (ptr.deref obj) ret
  | .reduce _ => True
  | .loggerSet type ptr ret =>
      let logger := ptr.deref obj
      logger.type ≠ logMax → logger.level ≤ logDebug → logger.print ≠ none →
        -- the logger is not read from the slot that has been emptied,
        ptr ≠ .slot type ∧
          -- and it is installed, where the old one was or in a free slot,
          ((logger.type < logMax ∧ (logger.type = type ∨ FreeAt obj logger.type) ∧
              Constructs logger ret) ∨
            -- or it is not accepted and there was no old one,
            ((logMax < logger.type ∨ (logger.type ≠ type ∧ ¬ FreeAt obj logger.type)) ∧
              (obj type).type = logMax) ∨
            -- or it is a copy of the old one
            obj type = logger)
  | .levelSet type level => (obj type).type ≠ logMax → level ≤ logDebug

section Slots
variable {obj : Table} {i : Fin logMax} {logger : Logger} {ret : ℕ}

theorem ne_logMax (i : Fin logMax) : i.val ≠ logMax := Nat.ne_of_lt i.isLt

theorem SlotsOk.type_eq_iff (H : SlotsOk obj) : (obj i).type = i ↔ (obj i).type ≠ logMax := by
  constructor
  · intro h
    rw [h]
    exact ne_logMax i
  · intro h
    exact ((H i).resolve_right h).type_eq

theorem SlotsOk.installed_iff (H : SlotsOk obj) : Installed i (obj i) ↔ (obj i).type = i :=
  ⟨Installed.type_eq, fun h => (H i).resolve_right (H.type_eq_iff.mp h)⟩

theorem SlotsOk.update_iff (H : SlotsOk obj) :
    SlotsOk (Function.update obj i logger) ↔ Installed i logger ∨ logger.type = logMax := by
  rw [SlotsOk, Function.forall_update_iff obj fun i x => Installed i x ∨ x.type = logMax]
  exact and_iff_left fun j _ => H j

/-- Messages are routed by the installed slots. -/
theorem right_iff {e : Step Table Call ℕ} :
    Right e ↔ (e.result ≠ Kerr.ok.code → e.after = e.before) ∧ SlotsOk e.after := by
  refine ⟨fun h => ⟨h.unchanged, h.slots⟩, fun ⟨hsame, H⟩ => ⟨hsame, H, ?_⟩⟩
  intro find buf hfind r i
  rw [bufferEnqueue_rings hfind]
  simp only [H.installed_iff]

theorem freeAt_val : FreeAt obj i ↔ (obj i).type = logMax := by
  refine ⟨fun h => h i rfl, fun h j hj => ?_⟩
  rwa [Fin.ext hj]

/-- The logger is read once, before the slots change. -/
theorem expand_eq_own (ptr : LoggerPtr) :
    expand obj ptr ret = expand obj (.own (ptr.deref obj)) ret := rfl

theorem expand_of_not_valid (hv : ¬ Valid logger) :
    expand obj (.own logger) ret = (Kerr.inval.code, obj) := by
  simp only [Valid, not_and_or, Nat.not_lt, Nat.not_le, Classical.not_not] at hv
  exact dif_pos hv

theorem SlotsOk.freeAt_iff (H : SlotsOk obj) (hi : logger.type = i) :
    FreeAt obj logger.type ↔ (obj i).type ≠ logger.type := by
  rw [hi, freeAt_val, ne_eq, H.type_eq_iff, Classical.not_not]

/-- A logger that is not refused: its slot is taken, -/
theorem expand_of_taken (H : SlotsOk obj) (hv : Valid logger) (hfree : ¬ FreeAt obj logger.type) :
    expand obj (.own logger) ret = (Kerr.exist.code, obj) := by
  have hpass : ¬ (logMax ≤ logger.type ∨ logDebug < logger.level ∨ logger.print = none) := by
    simpa [Valid, not_or] using hv
  have htaken : (obj ⟨logger.type, hv.1⟩).type = logger.type := by
    by_contra h
    exact hfree ((H.freeAt_iff rfl).mpr h)
  exact (dif_neg hpass).trans (if_pos htaken)

/-- or it is installed, whatever its constructor returns. -/
theorem expand_of_free (H : SlotsOk obj) (hv : Valid logger) (hi : logger.type = i)
    (hfree : FreeAt obj logger.type) :
    expand obj (.own logger) ret =
      (if logger.ctor ≠ none then ret else Kerr.ok.code, Function.update obj i logger) := by
  have hpass : ¬ (logMax ≤ logger.type ∨ logDebug < logger.level ∨ logger.print = none) := by
    simpa [Valid, not_or] using hv
  obtain rfl : i = ⟨logger.type, hv.1⟩ := Fin.ext hi.symm
  have hother := (H.freeAt_iff hi).mp hfree
  refine (dif_neg hpass).trans ((if_neg hother).trans ?_)
  by_cases hctor : logger.ctor ≠ none
  · rw [if_pos hctor]
    exact if_pos hctor
  · rw [if_neg hctor]
    exact if_neg hctor

theorem constructs_iff :
    Constructs logger ret ↔ (if logger.ctor ≠ none then ret else Kerr.ok.code) = Kerr.ok.code := by
  rw [Constructs]
  split <;> simp_all

end Slots

/-! ## Which calls are right -/

section Calls
variable {obj : Table} {type : Fin logMax} {ptr : LoggerPtr} {logger : Logger} {ret : ℕ}

/-- Installing a logger in a slot, with the result of its constructor: right, unless an error
is returned and the slot was different. -/
theorem right_install_iff {c : Call} {obj' : Table} (H' : SlotsOk obj') :
    Right ⟨obj, c, if logger.ctor ≠ none then ret else Kerr.ok.code, obj'⟩ ↔
      Constructs logger ret ∨ obj' = obj := by
  rw [right_iff, constructs_iff, and_iff_left H', or_iff_not_imp_left]

theorem right_expand_iff (H : SlotsOk obj) :
    Right ⟨obj, .expand ptr ret, (expand obj ptr ret).1, (expand obj ptr ret).2⟩ ↔
      Fits obj (.expand ptr ret) := by
  rw [expand_eq_own, Fits]
  generalize ptr.deref obj = logger
  by_cases hv : Valid logger
  · by_cases hfree : FreeAt obj logger.type
    · have hchanged : Function.update obj ⟨logger.type, hv.1⟩ logger ≠ obj := by
        intro h
        have hslot : logger = obj ⟨logger.type, hv.1⟩ := by
          rw [← h, Function.update_self]
        exact (H.freeAt_iff rfl).mp hfree (congrArg Logger.type hslot.symm)
      have H' : SlotsOk (Function.update obj ⟨logger.type, hv.1⟩ logger) :=
        H.update_iff.mpr (.inl ⟨rfl, hv.2.1, hv.2.2⟩)
      rw [expand_of_free (i := ⟨logger.type, hv.1⟩) H hv rfl hfree, right_install_iff H',
        or_iff_left hchanged]
      exact ⟨fun h _ _ => h, fun h => h hv hfree⟩
    · rw [expand_of_taken H hv hfree]
      exact iff_of_true (right_iff.mpr ⟨fun _ => rfl, H⟩) fun _ h => absurd h hfree
  · rw [expand_of_not_valid hv]
    exact iff_of_true (right_iff.mpr ⟨fun _ => rfl, H⟩) fun h => absurd h hv

theorem SlotsOk.reduce (H : SlotsOk obj) (type : Fin logMax) : SlotsOk (reduce obj type).2 := by
  rw [Klog.reduce]
  split
  · exact H
  · exact H.update_iff.mpr (.inr rfl)

theorem reduce_eq_self_iff : (reduce obj type).2 = obj ↔ (obj type).type = logMax := by
  rw [reduce]
  split
  · next h => exact iff_of_true rfl h
  · next h =>
      refine iff_of_false (fun hsame => h ?_) h
      rw [← hsame]
      exact congrArg Logger.type (Function.update_self type Logger.free obj)

theorem reduce_of_ne {i : Fin logMax} (hi : i ≠ type) : (reduce obj type).2 i = obj i := by
  rw [reduce]
  split
  · rfl
  · exact Function.update_of_ne hi _ _

theorem reduce_self : ((reduce obj type).2 type).type = logMax := by
  rw [reduce]
  split
  · assumption
  · exact congrArg Logger.type (Function.update_self type Logger.free obj)

theorem update_reduce : Function.update (reduce obj type).2 type logger =
    Function.update obj type logger := by
  rw [reduce]
  split
  · rfl
  · exact Function.update_idem _ _ _

theorem right_reduce (H : SlotsOk obj) (type : Fin logMax) :
    Right ⟨obj, .reduce type, (reduce obj type).1, (reduce obj type).2⟩ := by
  refine right_iff.mpr ⟨?_, H.reduce type⟩
  rw [reduce]
  split
  · exact fun _ => rfl
  · exact fun h => absurd rfl h

theorem right_levelSet_iff (H : SlotsOk obj) {level : ℕ} :
    Right ⟨obj, .levelSet type level, (levelSet obj type level).1, (levelSet obj type level).2⟩ ↔
      Fits obj (.levelSet type level) := by
  rw [levelSet]
  split
  · next h => exact iff_of_true (right_iff.mpr ⟨fun _ => rfl, H⟩) fun h' => absurd h h'
  · next h =>
      have hslot := (H type).resolve_right h
      rw [right_iff, H.update_iff]
      constructor
      · rintro ⟨-, hnew | hnew⟩ _
        · exact hnew.level_le
        · exact absurd hnew h
      · intro hlevel
        exact ⟨fun h => absurd rfl h, .inl ⟨hslot.type_eq, hlevel h, hslot.print_ne⟩⟩

/-- A logger in its slot has the type of the slot. -/
theorem SlotsOk.type_of_eq (H : SlotsOk obj) (h : obj type = logger)
    (hne : logger.type ≠ logMax) : logger.type = type := by
  rw [← h] at hne ⊢
  exact H.type_eq_iff.mpr hne

/-- The last part of `kylin_log_logger_set`, after its test: with a logger for the slot that
has been emptied, -/
theorem right_loggerSet_same (H : SlotsOk obj) (hv : Valid logger) (htype : logger.type = type)
    {c : Call} :
    Right ⟨obj, c, (expand (reduce obj type).2 (.own logger) ret).1,
        (expand (reduce obj type).2 (.own logger) ret).2⟩ ↔
      Constructs logger ret ∨ obj type = logger := by
  have hfree : FreeAt (reduce obj type).2 logger.type := by
    rw [htype, freeAt_val]
    exact reduce_self
  have H' : SlotsOk (Function.update obj type logger) :=
    H.update_iff.mpr (.inl ⟨htype, hv.2.1, hv.2.2⟩)
  rw [expand_of_free (H.reduce type) hv htype hfree, update_reduce, right_install_iff H',
    Function.update_eq_self_iff, eq_comm (a := logger)]

/-- for another slot, -/
theorem right_loggerSet_other (H : SlotsOk obj) (hv : Valid logger) (htype : logger.type ≠ type)
    {c : Call} :
    Right ⟨obj, c, (expand (reduce obj type).2 (.own logger) ret).1,
        (expand (reduce obj type).2 (.own logger) ret).2⟩ ↔
      (FreeAt obj logger.type ∧ Constructs logger ret) ∨
        (¬ FreeAt obj logger.type ∧ (obj type).type = logMax) := by
  let i : Fin logMax := ⟨logger.type, hv.1⟩
  have hi : i ≠ type := fun h => htype (congrArg Fin.val h)
  have hslot : FreeAt (reduce obj type).2 logger.type ↔ FreeAt obj logger.type := by
    rw [(H.reduce type).freeAt_iff (i := i) rfl, H.freeAt_iff (i := i) rfl, reduce_of_ne hi]
  by_cases hfree : FreeAt obj logger.type
  · have hchanged : Function.update (reduce obj type).2 i logger ≠ obj := by
      intro h
      have hsame : logger = obj i := by
        rw [← h, Function.update_self]
      exact (H.freeAt_iff (i := i) rfl).mp hfree (congrArg Logger.type hsame.symm)
    have H' : SlotsOk (Function.update (reduce obj type).2 i logger) :=
      (H.reduce type).update_iff.mpr (.inl ⟨rfl, hv.2.1, hv.2.2⟩)
    rw [expand_of_free (i := i) (H.reduce type) hv rfl (hslot.mpr hfree), right_install_iff H']
    simp [hchanged, hfree]
  · rw [expand_of_taken (H.reduce type) hv (mt hslot.mp hfree), right_iff, reduce_eq_self_iff]
    simp [hfree, H.reduce type, Kerr.code]

/-- and for none. -/
theorem right_loggerSet_none (H : SlotsOk obj) (hv : ¬ Valid logger) {c : Call} :
    Right ⟨obj, c, (expand (reduce obj type).2 (.own logger) ret).1,
        (expand (reduce obj type).2 (.own logger) ret).2⟩ ↔ (obj type).type = logMax := by
  rw [expand_of_not_valid hv, right_iff, reduce_eq_self_iff]
  simp [H.reduce type, Kerr.code]

/-- A logger that passes the first test and is read as it was. -/
theorem right_loggerSet_own (H : SlotsOk obj) (hne : logger.type ≠ logMax)
    (hlevel : logger.level ≤ logDebug) (hprint : logger.print ≠ none) {c : Call} :
    Right ⟨obj, c, (expand (reduce obj type).2 (.own logger) ret).1,
        (expand (reduce obj type).2 (.own logger) ret).2⟩ ↔
      (logger.type < logMax ∧ (logger.type = type ∨ FreeAt obj logger.type) ∧
          Constructs logger ret) ∨
        ((logMax < logger.type ∨ (logger.type ≠ type ∧ ¬ FreeAt obj logger.type)) ∧
          (obj type).type = logMax) ∨
        obj type = logger := by
  rcases Nat.lt_or_gt_of_ne hne with hlt | hgt
  · by_cases htype : logger.type = type
    · rw [right_loggerSet_same H ⟨hlt, hlevel, hprint⟩ htype]
      simp only [hlt, Nat.lt_asymm hlt, eq_true htype, not_true_eq_false, ne_eq, true_or,
        true_and, false_and, or_false, false_or]
    · rw [right_loggerSet_other H ⟨hlt, hlevel, hprint⟩ htype]
      have hnot : obj type ≠ logger := fun h => htype (H.type_of_eq h hne)
      simp [hlt, htype, Nat.lt_asymm hlt, hnot]
  · have hv : ¬ Valid logger := fun h => Nat.lt_asymm h.1 hgt
    have hnot : obj type ≠ logger := by
      intro h
      have := H.type_of_eq h hne
      omega
    rw [right_loggerSet_none H hv]
    simp [hgt, Nat.lt_asymm hgt, hnot]

/-- The logger in a slot in use, passed for that slot: what is read is the emptied slot, so
the call fails with the logger lost. -/
theorem not_right_loggerSet_slot (H : SlotsOk obj) (hne : (obj type).type ≠ logMax) {c : Call} :
    ¬ Right ⟨obj, c, (expand (reduce obj type).2 (.slot type) ret).1,
        (expand (reduce obj type).2 (.slot type) ret).2⟩ := by
  have hv : ¬ Valid ((reduce obj type).2 type) := by
    intro h
    exact absurd reduce_self (Nat.ne_of_lt h.1)
  rw [expand_eq_own, LoggerPtr.deref, right_loggerSet_none H hv]
  exact hne

/-- Other pointers lead to the same logger after a slot has been emptied. -/
theorem deref_reduce (hptr : ptr ≠ .slot type) : ptr.deref (reduce obj type).2 = ptr.deref obj := by
  cases ptr with
  | own logger => rfl
  | slot i => exact reduce_of_ne fun h => hptr (congrArg LoggerPtr.slot h)

theorem right_loggerSet_iff (H : SlotsOk obj) :
    Right ⟨obj, .loggerSet type ptr ret, (loggerSet obj type ptr ret).1,
        (loggerSet obj type ptr ret).2⟩ ↔ Fits obj (.loggerSet type ptr ret) := by
  rw [loggerSet, Fits]
  by_cases hcheck : (ptr.deref obj).type = logMax ∨ logDebug < (ptr.deref obj).level ∨
      (ptr.deref obj).print = none
  · rw [if_pos hcheck]
    refine iff_of_true (right_iff.mpr ⟨fun _ => rfl, H⟩) fun h1 h2 h3 => ?_
    rcases hcheck with h | h | h
    · exact absurd h h1
    · exact absurd h2 (Nat.not_le.mpr h)
    · exact absurd h h3
  · rw [if_neg hcheck]
    simp only [not_or, Nat.not_lt] at hcheck
    obtain ⟨hne, hlevel, hprint⟩ := hcheck
    simp only [hne, hlevel, hprint, ne_eq, not_false_eq_true, true_imp_iff]
    by_cases hptr : ptr = .slot type
    · subst hptr
      exact iff_of_false (not_right_loggerSet_slot H hne) fun h => h.1 rfl
    · rw [expand_eq_own, deref_reduce hptr, right_loggerSet_own H hne hlevel hprint,
        and_iff_right hptr]

/-- **Which calls are right**, on slots that are in order. -/
theorem right_iff_fits (H : SlotsOk obj) (c : Call) :
    Right ⟨obj, c, (step obj c).1, (step obj c).2⟩ ↔ Fits obj c := by
  cases c with
  | expand ptr ret => exact right_expand_iff H
  | reduce type => exact iff_of_true (right_reduce H type) trivial
  | loggerSet type ptr ret => exact right_loggerSet_iff H
  | levelSet type level => exact right_levelSet_iff H

end Calls

/-- `KYLIN_LOG_CONSOLE`. -/
def logConsole : Fin logMax := ⟨0, by decide⟩

/-- The default logger on the console, with a constructor. -/
def console : Logger := ⟨0, 6, some 1, 0, some 2, some 3⟩

end Kylin.Klog
