import Kylin.Arch.Word
import Kylin.Lib.Directory
import Mathlib.Data.List.Basic
import Mathlib.Data.List.Induction

/-!
# The debug log of a daemon

`lib/core/ddb/kylin_ddb_log.c`.  When a daemon starts, `__logfile_ddb_init` numbers its archived
logs on by one and makes the current log the first of them.  `kylin_ddb_log` appends to the current
log, which it does not create.

The current log is created before the archives are numbered on, and so after a start there is none.
Nothing is logged, and what is archived at the next start is an empty file.

## Main definitions

* `World`, `openFile`, `unlink`, `rename`, `append` — the directory, and the calls.
* `kylinDdbLog`, `logfileDdbInit` — the functions.
* `generation` — the current log and the archives, by age.
* `Session`, `lives` — a daemon that is started again and again.
* `Rotates`, `KeepsLogs` — what a start should do, and what should be left of the logs.

## Main results

* `logfileDdbInit_spec` — what a start does.
* `kylinDdbLog_eq` — what logging does behind it.
* `rotation_loses_logs` — no start is right, and logs are kept if they are empty.
-/

namespace Kylin.DdbLog

open Lib

/-- `ENOENT`. -/
def enoent : ℤ := 2

/-- `PATH_MAX`. -/
def pathMax : ℕ := 4096

/-- `KYLIN_LOGBUFF_MAX`. -/
def logbuffMax : ℕ := 2048

/-- `KYLIN_LOGFILE_ARCH_MAX`. -/
def archMax : ℕ := 9

/-- `KYLIN_LOGFILE_DDB_DIR`. -/
def ddbDir : List Char := "/var/log/ddb".toList

/-- `KYLIN_PNAME`, the name of the file that runs. -/
structure Pname where
  name : List Char
  length_le : name.length ≤ 255

/-- The files and the error variable. -/
structure World where
  dir : Directory (List Char) (List Byte)
  errno : ℤ

/-- What `snprintf` leaves of a text in a buffer of `n` characters. -/
def cut {β : Type} (n : ℕ) (s : List β) : List β := s.take (n - 1)

/-- `"%s/%s-ddb.log"`. -/
def logName (p : Pname) : List Char :=
  cut pathMax (ddbDir ++ '/' :: p.name ++ "-ddb.log".toList)

/-- `"%s/%s-ddb.log.%d"`. -/
def archName (p : Pname) (i : ℕ) : List Char :=
  cut pathMax (ddbDir ++ '/' :: p.name ++ "-ddb.log.".toList ++ Nat.toDigits 10 i)

namespace World

/-- `open`, which answers with the descriptor `fd` if it succeeds; `creat` stands for `O_CREAT`. -/
def openFile (w : World) (name : List Char) (creat : Bool) (fd : ℕ) : ℤ × World :=
  if (w.dir name).isSome then (fd, w)
  else if creat then (fd, { w with dir := w.dir.create name [] })
  else (-1, { w with errno := enoent })

/-- `unlink`. -/
def unlink (w : World) (name : List Char) : World where
  dir := w.dir.unlink name
  errno := if (w.dir name).isSome then w.errno else enoent

/-- `rename`. -/
def rename (w : World) (old new : List Char) : World where
  dir := w.dir.rename old new
  errno := if (w.dir old).isSome then w.errno else enoent

/-- `write` at the end of a file. -/
def append (w : World) (name : List Char) (buf : List Byte) : World :=
  { w with dir := Function.update w.dir name ((w.dir name).map (· ++ buf)) }

end World

open World

/-- What is written of a formatted message: it is cut, and ends at a zero. -/
def written (msg : List Byte) : List Byte := (cut logbuffMax msg).takeWhile (· ≠ 0)

/-- `kylin_ddb_log`, of a message that has been formatted. -/
def kylinDdbLog (p : Pname) (fd : ℕ) (w : World) (msg : List Byte) : ℤ × World :=
  let (fd, w) := w.openFile (logName p) false fd
  if fd > 0 then (0, w.append (logName p) (written msg))
  else (w.errno, w)

/-- The turns of the loop of `__logfile_ddb_init` from `i` down to `1`. -/
def rotate (p : Pname) : ℕ → World → World
  | 0, w => w
  | i + 1, w =>
      let dst := archName p (i + 1)
      let src := if i + 1 = 1 then logName p else archName p i
      let w := if i + 1 = archMax then w.unlink dst else w
      rotate p i (w.rename src dst)

/-- `__logfile_ddb_init`. -/
def logfileDdbInit (p : Pname) (fd : ℕ) (w : World) : ℤ × World :=
  let (fd, w) := w.openFile (logName p) true fd
  if fd = -1 then (w.errno, w)
  else (0, rotate p archMax w)

/-! ## Names -/

/-- The name of the current log, and those of the archives. -/
def generation (p : Pname) : ℕ → List Char
  | 0 => logName p
  | i + 1 => archName p (i + 1)

section Names
variable {p : Pname} {i j : ℕ}

/-- What is behind the name of the program. -/
def suffix : ℕ → List Char
  | 0 => "-ddb.log".toList
  | i + 1 => "-ddb.log.".toList ++ Nat.toDigits 10 (i + 1)

theorem suffix_succ (i : ℕ) : suffix (i + 1) = "-ddb.log.".toList ++ Nat.toDigits 10 (i + 1) := rfl

theorem generation_eq_cut (p : Pname) (i : ℕ) :
    generation p i = cut pathMax (ddbDir ++ '/' :: p.name ++ suffix i) := by
  cases i with
  | zero => rfl
  | succ i => rw [generation, archName, suffix_succ, ← List.append_assoc]

/-- The names fit. -/
theorem generation_eq (hi : i ≤ archMax) :
    generation p i = ddbDir ++ '/' :: p.name ++ suffix i := by
  have hshort : ∀ i, i ≤ archMax → ddbDir.length + (suffix i).length ≤ 22 := by decide
  have hname := p.length_le
  have hlen := hshort i hi
  rw [generation_eq_cut]
  apply List.take_of_length_le
  rw [List.length_append, List.length_append, List.length_cons, pathMax]
  omega

theorem generation_inj (hi : i ≤ archMax) (hj : j ≤ archMax)
    (h : generation p i = generation p j) : i = j := by
  have hsuffix : ∀ i, i ≤ archMax → ∀ j, j ≤ archMax → suffix i = suffix j → i = j := by decide
  rw [generation_eq hi, generation_eq hj, List.append_cancel_left_eq] at h
  exact hsuffix i hi j hj h

end Names

/-! ## Starts -/

section Start
variable {p : Pname} {w : World} {i : ℕ}

theorem rotate_succ : rotate p (i + 1) w =
    rotate p i ((if i + 1 = archMax then w.unlink (generation p (i + 1)) else w).rename
      (generation p i) (generation p (i + 1))) := by
  cases i with
  | zero => rfl
  | succ i => simp only [rotate, generation, Nat.succ_ne_zero, Nat.add_eq_right, if_false]

theorem dir_rotate (hi : i < archMax) :
    (rotate p i w).dir = w.dir.renameChain (generation p) i := by
  induction i generalizing w with
  | zero => rfl
  | succ i ih =>
      rw [rotate_succ, if_neg hi.ne, ih (by omega)]
      rfl

theorem dir_rotate_archMax : (rotate p archMax w).dir =
    (w.dir.unlink (generation p archMax)).renameChain (generation p) archMax := by
  have hmax : archMax = 8 + 1 := rfl
  rw [hmax, rotate_succ, if_pos hmax.symm, dir_rotate (by decide)]
  rfl

theorem openFile_creat (w : World) (name : List Char) (fd : ℕ) :
    ∃ w', w.openFile name true fd = (↑fd, w') ∧ w'.dir = w.dir.create name [] := by
  rw [openFile]
  split
  · next h => exact ⟨w, rfl, (Directory.create_of_isSome h).symm⟩
  · exact ⟨_, rfl, rfl⟩

/-- **What a start does**: the archives move on by one, the current log becomes the first of them,
or an empty file if there was none, and is gone. -/
theorem logfileDdbInit_spec (p : Pname) (fd : ℕ) (w : World) : ∃ w',
    logfileDdbInit p fd w = (0, w') ∧
      w'.dir (archName p 1) = some ((w.dir (logName p)).getD []) ∧
      (∀ i, 1 ≤ i → i < archMax → w'.dir (archName p (i + 1)) = w.dir (archName p i)) ∧
      w'.dir (logName p) = none ∧
      ∀ name, (∀ i, i ≤ archMax → name ≠ generation p i) → w'.dir name = w.dir name := by
  obtain ⟨w₁, hopen, hcreate⟩ : ∃ w₁, w.openFile (logName p) true fd = (↑fd, w₁) ∧
      w₁.dir = w.dir.create (generation p 0) [] := openFile_creat w (logName p) fd
  have hne : ∀ i j, i ≤ archMax → j ≤ archMax → i ≠ j → generation p i ≠ generation p j :=
    fun i j hi hj hij h => hij (generation_inj hi hj h)
  obtain ⟨hmoved, hzero, hframe⟩ := Directory.renameChain_spec
    (fun i j hi hj => generation_inj hi hj) (w₁.dir.unlink_self (generation p archMax))
  rw [← dir_rotate_archMax] at hmoved hzero hframe
  refine ⟨rotate p archMax w₁, ?_, ?_, fun i hi hlt => ?_, hzero, fun name h => ?_⟩
  · rw [logfileDdbInit, hopen]
    exact if_neg (by omega)
  · have hfirst := hmoved 0 (by decide)
    rwa [Directory.unlink_of_ne (hne 0 archMax (by decide) (by decide) (by decide)), hcreate,
      Directory.create_self] at hfirst
  · obtain ⟨k, rfl⟩ : ∃ k, i = k + 1 := ⟨i - 1, by omega⟩
    have hnext := hmoved (k + 1) hlt
    rwa [Directory.unlink_of_ne (hne (k + 1) archMax hlt.le (Nat.le_refl _) hlt.ne), hcreate,
      Directory.create_of_ne (hne (k + 1) 0 hlt.le (by decide) (by omega))] at hnext
  · rw [hframe name h, Directory.unlink_of_ne (h archMax (Nat.le_refl _)), hcreate,
      Directory.create_of_ne (h 0 (by decide))]

/-- **Without a current log nothing is logged.** -/
theorem kylinDdbLog_eq (h : w.dir (logName p) = none) (fd : ℕ) (msg : List Byte) :
    kylinDdbLog p fd w msg = (enoent, { w with errno := enoent }) := by
  have hopen : w.openFile (logName p) false fd = (-1, { w with errno := enoent }) := by
    rw [openFile, h]
    rfl
  rw [kylinDdbLog, hopen]
  rfl

end Start

/-- **What a start and the message behind it should do.** -/
structure Rotates (p : Pname) (w : World) (fd fd' : ℕ) (msg : List Byte) : Prop where
  ok : (logfileDdbInit p fd w).1 = 0
  next : ∀ i, 1 ≤ i → i < archMax →
    (logfileDdbInit p fd w).2.dir (archName p (i + 1)) = w.dir (archName p i)
  first : (logfileDdbInit p fd w).2.dir (archName p 1) = w.dir (logName p)
  frame : ∀ name, (∀ i, i ≤ archMax → name ≠ generation p i) →
    (logfileDdbInit p fd w).2.dir name = w.dir name
  logs : ∃ w', kylinDdbLog p fd' (logfileDdbInit p fd w).2 msg = (0, w') ∧
    w'.dir (logName p) = some (written msg)

/-- No start is right. -/
theorem not_rotates (p : Pname) (w : World) (fd fd' : ℕ) (msg : List Byte) :
    ¬ Rotates p w fd fd' msg := by
  intro h
  obtain ⟨w', hlog, -⟩ := h.logs
  obtain ⟨w₁, hinit, -, -, hgone, -⟩ := logfileDdbInit_spec p fd w
  rw [hinit, kylinDdbLog_eq hgone] at hlog
  exact absurd (congrArg Prod.fst hlog) (by decide : enoent ≠ 0)

/-! ## Lives -/

/-- The messages that a daemon logs from one start to the next, with the descriptors it is given. -/
structure Session where
  fd : ℕ
  msgs : List (ℕ × List Byte)

/-- A start, and the messages behind it. -/
def session (p : Pname) (w : World) (s : Session) : World :=
  s.msgs.foldl (fun w msg => (kylinDdbLog p msg.1 w msg.2).2) (logfileDdbInit p s.fd w).2

/-- A daemon that is started again and again. -/
def lives (p : Pname) (w : World) (sessions : List Session) : World :=
  sessions.foldl (session p) w

/-- What a session logs. -/
def logged (s : Session) : List Byte := s.msgs.flatMap fun msg => written msg.2

/-- **The newest logs are kept**, in order: after `n` starts the archive `j` is the log of the
`j`-th session before the last. -/
def KeepsLogs (p : Pname) (w : World) (sessions : List Session) : Prop :=
  ∀ j, 1 ≤ j → j ≤ archMax → ∀ s, sessions.reverse[j]? = some s →
    (lives p w sessions).dir (archName p j) = some (logged s)

section Lives
variable {p : Pname} {w : World} {s : Session} {sessions : List Session}

/-- The messages of a session change nothing. -/
theorem dir_session (p : Pname) (w : World) (s : Session) :
    (session p w s).dir = (logfileDdbInit p s.fd w).2.dir := by
  have hlogs : ∀ (msgs : List (ℕ × List Byte)) (w : World), w.dir (logName p) = none →
      (msgs.foldl (fun w msg => (kylinDdbLog p msg.1 w msg.2).2) w).dir = w.dir := by
    intro msgs
    induction msgs with
    | nil => exact fun _ _ => rfl
    | cons msg msgs ih =>
        intro w h
        rw [List.foldl_cons, kylinDdbLog_eq h]
        exact ih _ h
  obtain ⟨w₁, hinit, -, -, hgone, -⟩ := logfileDdbInit_spec p s.fd w
  rw [session, hinit]
  exact hlogs _ _ hgone

theorem dir_lives_logName (h : sessions ≠ []) : (lives p w sessions).dir (logName p) = none := by
  obtain ⟨ss, s, rfl⟩ := (List.eq_nil_or_concat' sessions).resolve_left h
  obtain ⟨w₁, hinit, -, -, hgone, -⟩ := logfileDdbInit_spec p s.fd (lives p w ss)
  rw [lives, List.foldl_append, List.foldl_cons, List.foldl_nil, dir_session]
  rwa [← lives, hinit]

/-- **What is archived after the first start is empty.** -/
theorem dir_lives {j : ℕ} (h1 : 1 ≤ j) (hmax : j ≤ archMax) (hj : j < sessions.length) :
    (lives p w sessions).dir (archName p j) = some [] := by
  induction sessions using List.reverseRecOn generalizing j with
  | nil => exact absurd hj (Nat.not_lt_zero j)
  | append_singleton ss s ih =>
      obtain ⟨w₁, hinit, hfirst, hnext, -⟩ := logfileDdbInit_spec p s.fd (lives p w ss)
      have hlen : j ≤ ss.length := Nat.le_of_lt_succ (by simpa using hj)
      rw [lives, List.foldl_append, List.foldl_cons, List.foldl_nil, dir_session, ← lives, hinit]
      rcases Nat.lt_or_eq_of_le h1 with hlt | rfl
      · obtain ⟨k, rfl⟩ : ∃ k, j = k + 1 := ⟨j - 1, by omega⟩
        rw [hnext k (by omega) (by omega), ih (by omega) (by omega) (by omega)]
      · have hne : ss ≠ [] := by
          rintro rfl
          exact absurd hlen (by decide)
        rw [hfirst, dir_lives_logName hne]
        rfl

/-- Logs are kept if they are empty. -/
theorem keepsLogs_iff : KeepsLogs p w sessions ↔
    ∀ j, 1 ≤ j → j ≤ archMax → ∀ s, sessions.reverse[j]? = some s → logged s = [] := by
  refine forall_congr' fun j => imp_congr_right fun h1 => imp_congr_right fun hmax =>
    forall_congr' fun s => imp_congr_right fun hs => ?_
  have hj : j < sessions.length := by
    obtain ⟨hlt, -⟩ := List.getElem?_eq_some_iff.mp hs
    rwa [List.length_reverse] at hlt
  rw [dir_lives h1 hmax hj, Option.some.injEq, eq_comm]

end Lives

/-- **No start is right**, and the logs of the daemon are kept if nothing was logged. -/
theorem rotation_loses_logs (p : Pname) (w : World) :
    (∀ fd fd' msg, ¬ Rotates p w fd fd' msg) ∧ ∀ sessions, KeepsLogs p w sessions ↔
      ∀ j, 1 ≤ j → j ≤ archMax → ∀ s, sessions.reverse[j]? = some s → logged s = [] :=
  ⟨not_rotates p w, fun _ => keepsLogs_iff⟩

/-- A daemon. -/
def daemon : Pname := ⟨['d'], by decide⟩

/-- A log of one byte. -/
def oldLog : World := ⟨Function.update (fun _ => none) (logName daemon) (some [0x61]), 0⟩

/-- The log is archived, and a message is refused. -/
theorem not_rotates_oldLog :
    (logfileDdbInit daemon 3 oldLog).2.dir (archName daemon 1) = some [0x61] ∧
    (kylinDdbLog daemon 3 (logfileDdbInit daemon 3 oldLog).2 [0x62]).1 = enoent ∧
      ¬ Rotates daemon oldLog 3 3 [0x62] := by
  obtain ⟨w', hinit, hfirst, -, hgone, -⟩ := logfileDdbInit_spec daemon 3 oldLog
  have hold : oldLog.dir (logName daemon) = some [0x61] := by
    simp only [oldLog, Function.update_self]
  refine ⟨?_, ?_, not_rotates _ _ _ _ _⟩
  · rw [hinit, hfirst, hold]
    rfl
  · rw [hinit, kylinDdbLog_eq hgone]

end Kylin.DdbLog
