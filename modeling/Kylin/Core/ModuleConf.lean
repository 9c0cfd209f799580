import Kylin.Core.ModuleOrder
import Mathlib.Data.List.TakeWhile

/-!
# The configuration of the module loader

`kylin_module_load_all` maps `modules.conf` and calls `kylin_module_load` for each of its lines.
The scan for the end of a line looks at the byte before it looks whether there is one, so a file
whose last line is not ended is read past its end.  A line is copied if it is shorter than
`PATH_MAX`, into a buffer of `KYLIN_NAME_LENGTH` bytes.

The calls of `kylin_module_load` are a parameter, `load`, on states of any kind.  `none` is an
access outside the mapping or the buffer.

## Main definitions

* `loadAll` — the function, on the bytes of the file.
* `loadLines` — calls for the lines of a list, until one fails.
* `LoadsLines` — what the function is for.
* `LinesFit` — the files for which it does that.

## Main results

* `loadAll_eq_lineLoop` — the scan, line by line.
* `calls_prefix` — the calls that are wanted, in the order of the lines.
* `loadsLines_iff` — the function loads the lines of exactly these files.
-/

namespace Kylin.Kmod

open Lib

/-- `PATH_MAX`. -/
def pathMax : ℕ := 4096

/-- `strncpy`, which faults when the destination is too short. -/
def strncpy (dest src : List Char) (n : ℕ) : Option (List Char) :=
  if n ≤ dest.length then
    some (str (src.take n) ++ List.replicate (n - (str (src.take n)).length) nul ++ dest.drop n)
  else none

/-- The string in a buffer, as it is read by a function it is handed to. -/
def readString (buf : List Char) : Option (List Char) :=
  if nul ∈ buf then some (str buf) else none

/-- The inner loop: the end of a line, from the byte `e` on. -/
def lineEnd (content : List Char) : ℕ → ℕ → Option ℕ
  | 0, _ => none
  | fuel + 1, e =>
      match content[e]? with
      | none => none
      | some c =>
          if c ≠ '\n' ∧ e < content.length then lineEnd content fuel (e + 1) else some e

variable {σ : Type}

/-- The outer loop.  Its result is that of the calls, with the names they were made with. -/
def loadLoop (load : σ → List Char → Except Stop (Kerr × σ)) (content : List Char) :
    ℕ → ℕ → σ → Option (Except Stop (Kerr × σ) × List (List Char))
  | 0, begin, s => if begin < content.length then none else some (.ok (.ok, s), [])
  | fuel + 1, begin, s =>
      if begin < content.length then do
        let e ← lineEnd content (content.length + 1 - begin) begin
        let c ← content[e]?
        if c = '\n' ∧ content.length ≤ e then some (.ok (.ok, s), [])
        else if begin < e ∧ e - begin < pathMax then do
          let moduleName ←
            strncpy (List.replicate nameLength nul) (content.drop begin) (e - begin)
          let name ← readString moduleName
          match load s name with
          | .error stop => some (.error stop, [name])
          | .ok (ret, s) =>
              if ret ≠ .ok ∧ ret ≠ .exist then some (.ok (ret, s), [name])
              else do
                let (r, calls) ← loadLoop load content fuel (e + 1) s
                some (r, name :: calls)
        else loadLoop load content fuel (e + 1) s
      else some (.ok (.ok, s), [])

/-- `kylin_module_load_all`, where the mapping holds `content`. -/
def loadAll (load : σ → List Char → Except Stop (Kerr × σ)) (content : List Char) (s : σ) :
    Option (Except Stop (Kerr × σ) × List (List Char)) :=
  loadLoop load content content.length 0 s

/-- Calls for the lines of a list, in order, until one returns something else than
`KYLIN_ERROR_OK` or `KYLIN_ERROR_EXIST`: the result, and the lines for which there was a call. -/
def loadLines (load : σ → List Char → Except Stop (Kerr × σ)) :
    List (List Char) → σ → Except Stop (Kerr × σ) × List (List Char)
  | [], s => (.ok (.ok, s), [])
  | l :: ls, s =>
      match load s l with
      | .error stop => (.error stop, [l])
      | .ok (ret, s) =>
          if ret ≠ .ok ∧ ret ≠ .exist then (.ok (ret, s), [l])
          else
            let (r, calls) := loadLines load ls s
            (r, l :: calls)

/-- The lines that name a module: those that are not empty and fit. -/
def named (ls : List (List Char)) : List (List Char) :=
  ls.filter fun l => l ≠ [] ∧ l.length < nameLength

/-- **What the function is for**: the calls for the lines of the file. -/
def LoadsLines (load : σ → List Char → Except Stop (Kerr × σ)) (content : List Char) (s : σ) :
    Prop :=
  loadAll load content s = some (loadLines load (named (content.splitOn '\n')) s)

/-- The calls for these lines all go well. -/
def Passed (load : σ → List Char → Except Stop (Kerr × σ)) (s : σ) (ls : List (List Char)) :
    Prop :=
  ∃ s', (loadLines load (named ls) s).1 = .ok (.ok, s')

/-- A line that is ended fits, or is too long to be copied.  The last one, which is not ended, is
empty. -/
def LineFits (l : List Char) (after : List (List Char)) : Prop :=
  if after = [] then l = [] else l.length < nameLength ∨ pathMax ≤ l.length

/-- Every line that is reached fits. -/
def LinesFit (load : σ → List Char → Except Stop (Kerr × σ)) (ls : List (List Char)) (s : σ) :
    Prop :=
  ∀ before l after, ls = before ++ l :: after → Passed load s before → LineFits l after

variable {load : σ → List Char → Except Stop (Kerr × σ)} {content l tail : List Char}
  {ls : List (List Char)} {s : σ} {e fuel : ℕ}

/-! ## Lines -/

theorem getElem?_of_drop {c : Char} (h : content.drop e = c :: tail) :
    content[e]? = some c ∧ content.drop (e + 1) = tail := by
  constructor
  · have hget : (content.drop e)[0]? = content[e + 0]? := List.getElem?_drop
    rw [h] at hget
    exact hget.symm
  · rw [← List.tail_drop, h]
    rfl

/-- The end of a line that is ended. -/
theorem lineEnd_of_drop (hdrop : content.drop e = l ++ '\n' :: tail) (hl : '\n' ∉ l)
    (hfuel : l.length < fuel) : lineEnd content fuel e = some (e + l.length) := by
  induction l generalizing e fuel with
  | nil =>
      cases fuel with
      | zero => cases hfuel
      | succ fuel => simp [lineEnd, (getElem?_of_drop hdrop).1]
  | cons c l ih =>
      cases fuel with
      | zero => cases hfuel
      | succ fuel =>
          obtain ⟨hget, hrest⟩ := getElem?_of_drop hdrop
          have hc : c ≠ '\n' := fun h => hl (h ▸ List.mem_cons_self)
          have hlt : e < content.length := (List.getElem?_eq_some_iff.mp hget).1
          have hend := ih hrest (fun h => hl (List.mem_cons_of_mem c h))
            (Nat.lt_of_succ_lt_succ hfuel)
          simp only [lineEnd, hget, if_pos (And.intro hc hlt), hend, List.length_cons]
          congr 1
          omega

/-- The scan of a line that is not ended leaves the mapping. -/
theorem lineEnd_eq_none (h : '\n' ∉ content.drop e) : lineEnd content fuel e = none := by
  induction fuel generalizing e with
  | zero => rfl
  | succ fuel ih =>
      cases hget : content[e]? with
      | none => simp [lineEnd, hget]
      | some c =>
          obtain ⟨hlt, hce⟩ := List.getElem?_eq_some_iff.mp hget
          have hdrop := List.drop_eq_getElem_cons hlt
          rw [hce] at hdrop
          rw [hdrop, List.mem_cons, not_or] at h
          have hc : c ≠ '\n' := fun hc => h.1 hc.symm
          simp only [lineEnd, hget, if_pos (And.intro hc hlt)]
          exact ih h.2

theorem str_of_nul_not_mem (h : nul ∉ l) : str l = l := by
  rw [str, List.takeWhile_eq_self_iff]
  intro c hc
  rw [decide_eq_true_eq]
  rintro rfl
  exact h hc

/-- A line in the buffer: it can be read there if it is shorter. -/
theorem readString_strncpy (h : nul ∉ l) (tail : List Char) :
    ((strncpy (List.replicate nameLength nul) (l ++ tail) l.length).bind readString) =
      if l.length < nameLength then some l else none := by
  rw [strncpy, List.take_left, str_of_nul_not_mem h, Nat.sub_self, List.length_replicate]
  by_cases hlt : l.length < nameLength
  · have hpad : l ++ List.replicate 0 nul ++ (List.replicate nameLength nul).drop l.length =
        pad l := by
      rw [pad, List.drop_replicate, List.replicate_zero, List.append_nil]
    rw [if_pos hlt, if_pos (Nat.le_of_lt hlt), hpad, Option.bind_some, readString, if_pos,
      str_pad ⟨hlt, h⟩]
    rw [pad, List.mem_append, List.mem_replicate]
    exact .inr ⟨by omega, rfl⟩
  · rw [if_neg hlt]
    by_cases hle : l.length ≤ nameLength
    · have heq : l.length = nameLength := by omega
      rw [if_pos hle, heq, Option.bind_some, readString, if_neg]
      simpa using h
    · rw [if_neg hle]
      rfl

/-! ## The scan, line by line -/

/-- A call for the line `l`, and the rest of the loop if it goes well. -/
def callThen (load : σ → List Char → Except Stop (Kerr × σ)) (l : List Char)
    (rest : σ → Option (Except Stop (Kerr × σ) × List (List Char))) (s : σ) :
    Option (Except Stop (Kerr × σ) × List (List Char)) :=
  match load s l with
  | .error stop => some (.error stop, [l])
  | .ok (ret, s) =>
      if ret ≠ .ok ∧ ret ≠ .exist then some (.ok (ret, s), [l])
      else (rest s).map fun r => (r.1, l :: r.2)

/-- The outer loop on the lines of the file, the last of which is not ended. -/
def lineLoop (load : σ → List Char → Except Stop (Kerr × σ)) :
    List (List Char) → σ → Option (Except Stop (Kerr × σ) × List (List Char))
  | [], s => some (.ok (.ok, s), [])
  | [l], s => if l = [] then some (.ok (.ok, s), []) else none
  | l :: l' :: ls, s =>
      if l = [] ∨ pathMax ≤ l.length then lineLoop load (l' :: ls) s
      else if nameLength ≤ l.length then none
      else callThen load l (lineLoop load (l' :: ls)) s

/-- One turn of the outer loop, on a line that is ended. -/
theorem loadLoop_line {begin : ℕ} (hdrop : content.drop begin = l ++ '\n' :: tail)
    (hl : '\n' ∉ l) (hnul : nul ∉ l) : loadLoop load content (fuel + 1) begin s =
      if l = [] ∨ pathMax ≤ l.length then loadLoop load content fuel (begin + l.length + 1) s
      else if nameLength ≤ l.length then none
      else callThen load l (loadLoop load content fuel (begin + l.length + 1)) s := by
  have hlen := congrArg List.length hdrop
  rw [List.length_drop, List.length_append, List.length_cons] at hlen
  have hend : content.drop (begin + l.length) = '\n' :: tail := by
    rw [← List.drop_drop, hdrop, List.drop_left]
  have hbegin : begin < content.length := by omega
  have hbound : ¬ content.length ≤ begin + l.length := by omega
  have hscan : lineEnd content (content.length + 1 - begin) begin = some (begin + l.length) :=
    lineEnd_of_drop hdrop hl (by omega)
  have hwidth : begin + l.length - begin = l.length := Nat.add_sub_cancel_left _ _
  have hname := readString_strncpy hnul ('\n' :: tail)
  have hpos : begin < begin + l.length ↔ l ≠ [] := by
    rw [← List.length_pos_iff]
    omega
  simp only [loadLoop, if_pos hbegin, hscan, (getElem?_of_drop hend).1, Option.bind_eq_bind,
    Option.bind_some, hbound, and_false, if_false, hwidth, hpos, hdrop]
  by_cases hskip : l = [] ∨ pathMax ≤ l.length
  · have hno : ¬ (l ≠ [] ∧ l.length < pathMax) := by
      rintro ⟨hne, hlt⟩
      rcases hskip with hnil | hlong
      · exact hne hnil
      · exact absurd hlt (Nat.not_lt.mpr hlong)
    rw [if_neg hno, if_pos hskip]
  · have hcopy : l ≠ [] ∧ l.length < pathMax := by
      rwa [not_or, Nat.not_le] at hskip
    rw [if_pos hcopy, if_neg hskip, ← Option.bind_assoc, hname]
    by_cases hlt : l.length < nameLength
    · rw [if_pos hlt, if_neg (Nat.not_le.mpr hlt), Option.bind_some, callThen]
      cases load s l with
      | error stop => rfl
      | ok r =>
          obtain ⟨ret, s'⟩ := r
          dsimp only
          by_cases hstop : ret ≠ .ok ∧ ret ≠ .exist
          · rw [if_pos hstop, if_pos hstop]
          · rw [if_neg hstop, if_neg hstop]
            cases loadLoop load content fuel (begin + l.length + 1) s' with
            | none => rfl
            | some r => rfl
    · rw [if_neg hlt, if_pos (Nat.not_lt.mp hlt)]
      rfl

/-- The outer loop leaves the mapping on a line that is not ended. -/
theorem loadLoop_rest {begin : ℕ} (h : '\n' ∉ content.drop begin) (hne : content.drop begin ≠ [])
    (s : σ) : loadLoop load content (fuel + 1) begin s = none := by
  have hbegin : begin < content.length := by
    by_contra hout
    exact hne (List.drop_eq_nil_of_le (Nat.not_lt.mp hout))
  simp [loadLoop, hbegin, lineEnd_eq_none h]

theorem loadLoop_end {begin : ℕ} (h : content.drop begin = []) (fuel : ℕ) (s : σ) :
    loadLoop load content fuel begin s = some (.ok (.ok, s), []) := by
  have hbegin : ¬ begin < content.length := Nat.not_lt.mpr (List.drop_eq_nil_iff.mp h)
  cases fuel with
  | zero => exact if_neg hbegin
  | succ fuel => exact if_neg hbegin

/-- **The scan**, by induction on the turns of the outer loop. -/
theorem loadLoop_eq_lineLoop (hnul : nul ∉ content) : ∀ fuel begin (s : σ),
    content.length - begin ≤ fuel → loadLoop load content fuel begin s =
      lineLoop load ((content.drop begin).splitOn '\n') s := by
  intro fuel
  induction fuel with
  | zero =>
      intro begin s hfuel
      have hnil : content.drop begin = [] := List.drop_eq_nil_of_le (by omega)
      rw [loadLoop_end hnil, hnil]
      rfl
  | succ fuel ih =>
      intro begin s hfuel
      by_cases hline : '\n' ∈ content.drop begin
      · obtain ⟨l, tail, hdrop, hl⟩ := List.eq_append_cons_of_mem hline
        have hlen := congrArg List.length hdrop
        rw [List.length_drop, List.length_append, List.length_cons] at hlen
        have hnull : nul ∉ l := by
          intro hmem
          refine hnul (List.mem_of_mem_drop (i := begin) ?_)
          rw [hdrop]
          exact List.mem_append_left _ hmem
        have hend : content.drop (begin + l.length) = '\n' :: tail := by
          rw [← List.drop_drop, hdrop, List.drop_left]
        have hnext : loadLoop load content fuel (begin + l.length + 1) =
            lineLoop load (tail.splitOn '\n') := by
          funext s
          rw [ih _ s (by omega), (getElem?_of_drop hend).2]
        obtain ⟨l', ls, hsplit⟩ := List.exists_cons_of_ne_nil (List.splitOn_ne_nil '\n' tail)
        rw [loadLoop_line hdrop hl hnull, hnext, hdrop,
          List.splitOn_append_cons_self_of_not_mem hl, hsplit]
        rfl
      · rw [List.splitOn_eq_singleton hline]
        by_cases hnil : content.drop begin = []
        · rw [loadLoop_end hnil, hnil]
          rfl
        · rw [loadLoop_rest hline hnil]
          exact (if_neg hnil).symm

theorem loadAll_eq_lineLoop (hnul : nul ∉ content) (s : σ) :
    loadAll load content s = lineLoop load (content.splitOn '\n') s := by
  rw [loadAll, loadLoop_eq_lineLoop hnul _ _ _ (by omega), List.drop_zero]

/-! ## The lines that are loaded -/

/-- The calls are made for the first lines, and for all of them if they go well. -/
theorem calls_prefix (load : σ → List Char → Except Stop (Kerr × σ)) (ls : List (List Char))
    (s : σ) : (loadLines load ls s).2 <+: ls ∧
      ((∃ s', (loadLines load ls s).1 = .ok (.ok, s')) → (loadLines load ls s).2 = ls) := by
  induction ls generalizing s with
  | nil => exact ⟨List.prefix_rfl, fun _ => rfl⟩
  | cons l ls ih =>
      rw [loadLines]
      cases load s l with
      | error stop => simp
      | ok r =>
          obtain ⟨ret, s'⟩ := r
          dsimp only
          by_cases hstop : ret ≠ .ok ∧ ret ≠ .exist
          · rw [if_pos hstop]
            simp [hstop.1]
          · rw [if_neg hstop]
            exact ⟨(List.prefix_cons_inj l).mpr (ih s').1, fun h => congrArg _ ((ih s').2 h)⟩

theorem named_cons (hl : l ≠ [] ∧ l.length < nameLength) : named (l :: ls) = l :: named ls :=
  List.filter_cons_of_pos (by simpa using hl)

theorem named_cons_of_not (hl : ¬ (l ≠ [] ∧ l.length < nameLength)) :
    named (l :: ls) = named ls :=
  List.filter_cons_of_neg (by simpa using hl)

/-- The lines go well if the first does, and then the others do. -/
theorem passed_call (hl : l ≠ [] ∧ l.length < nameLength) :
    Passed load s (l :: ls) ↔ ∃ ret s', load s l = .ok (ret, s') ∧
      ¬ (ret ≠ .ok ∧ ret ≠ .exist) ∧ Passed load s' ls := by
  rw [Passed, named_cons hl, loadLines]
  cases hload : load s l with
  | error stop => simp
  | ok r =>
      obtain ⟨ret, s'⟩ := r
      dsimp only
      by_cases hstop : ret ≠ .ok ∧ ret ≠ .exist
      · simp [hstop]
      · rw [if_neg hstop]
        constructor
        · exact fun h => ⟨ret, s', rfl, hstop, h⟩
        · rintro ⟨ret', s₁, hcall, -, h⟩
          cases hcall
          exact h

theorem passed_skip (hl : ¬ (l ≠ [] ∧ l.length < nameLength)) :
    Passed load s (l :: ls) ↔ Passed load s ls := by
  rw [Passed, named_cons_of_not hl]
  rfl

theorem linesFit_cons : LinesFit load (l :: ls) s ↔ LineFits l ls ∧
    ∀ before c after, ls = before ++ c :: after → Passed load s (l :: before) →
      LineFits c after := by
  constructor
  · intro h
    refine ⟨h [] l ls rfl ⟨s, rfl⟩, fun before c after hsplit => ?_⟩
    exact h (l :: before) c after (by rw [hsplit]; rfl)
  · rintro ⟨hl, hrest⟩ before c after hsplit hpassed
    cases before with
    | nil =>
        obtain ⟨rfl, rfl⟩ := List.cons.inj hsplit
        exact hl
    | cons b before =>
        obtain ⟨rfl, htail⟩ := List.cons.inj hsplit
        exact hrest before c after htail hpassed

/-- The lines behind one that there is no call for. -/
theorem linesFit_skip (hl : ¬ (l ≠ [] ∧ l.length < nameLength)) :
    LinesFit load (l :: ls) s ↔ LineFits l ls ∧ LinesFit load ls s := by
  simp only [linesFit_cons, passed_skip hl]
  rfl

/-- The lines behind a call. -/
theorem linesFit_call (hl : l ≠ [] ∧ l.length < nameLength) :
    LinesFit load (l :: ls) s ↔ LineFits l ls ∧ ∀ ret s', load s l = .ok (ret, s') →
      ¬ (ret ≠ .ok ∧ ret ≠ .exist) → LinesFit load ls s' := by
  rw [linesFit_cons]
  refine and_congr_right fun _ => ?_
  constructor
  · intro h ret s' hload hgo before c after hsplit hpassed
    exact h before c after hsplit ((passed_call hl).mpr ⟨ret, s', hload, hgo, hpassed⟩)
  · intro h before c after hsplit hpassed
    obtain ⟨ret, s', hload, hgo, hrest⟩ := (passed_call hl).mp hpassed
    exact h ret s' hload hgo before c after hsplit hrest

/-- A call, and the rest of the loop, make the calls they should if the rest does so behind a call
that goes well. -/
theorem callThen_iff {rest : σ → Option (Except Stop (Kerr × σ) × List (List Char))} :
    callThen load l rest s = some (loadLines load (l :: ls) s) ↔
      ∀ ret s', load s l = .ok (ret, s') → ¬ (ret ≠ .ok ∧ ret ≠ .exist) →
        rest s' = some (loadLines load ls s') := by
  rw [callThen, loadLines]
  cases load s l with
  | error stop => simp
  | ok r =>
      obtain ⟨ret, s'⟩ := r
      dsimp only
      by_cases hstop : ret ≠ .ok ∧ ret ≠ .exist
      · rw [if_pos hstop, if_pos hstop]
        refine iff_of_true rfl ?_
        intro ret' s₁ hcall hgo
        cases hcall
        exact absurd hstop hgo
      · rw [if_neg hstop, if_neg hstop, Option.map_eq_some_iff]
        constructor
        · rintro ⟨r, hrest, heq⟩ ret' s₁ hcall -
          cases hcall
          obtain ⟨hres, hcalls⟩ := Prod.mk.inj heq
          rw [hrest]
          exact congrArg some (Prod.ext hres (List.cons.inj hcalls).2)
        · exact fun h => ⟨_, h ret s' rfl hstop, rfl⟩

/-- **Line by line** the loop makes the calls it should if and only if the lines fit, by induction
on the lines. -/
theorem lineLoop_iff (load : σ → List Char → Except Stop (Kerr × σ)) (ls : List (List Char))
    (s : σ) : lineLoop load ls s = some (loadLines load (named ls) s) ↔ LinesFit load ls s := by
  induction ls generalizing s with
  | nil =>
      refine iff_of_true rfl ?_
      intro before l after h
      simp at h
  | cons l ls ih =>
      cases ls with
      | nil =>
          by_cases hl : l = []
          · rw [linesFit_skip (by simp [hl])]
            refine iff_of_true (by rw [hl]; rfl) ⟨by rw [LineFits, if_pos rfl, hl], ?_⟩
            intro before c after h
            simp at h
          · rw [linesFit_cons, lineLoop, if_neg hl, LineFits, if_pos rfl]
            simp [hl]
      | cons l' ls =>
          have hfits : LineFits l (l' :: ls) ↔ l.length < nameLength ∨ pathMax ≤ l.length := by
            simp [LineFits]
          rw [lineLoop]
          by_cases hskip : l = [] ∨ pathMax ≤ l.length
          · -- no call, and none is wanted
            have hnot : ¬ (l ≠ [] ∧ l.length < nameLength) := by
              rintro ⟨hne, hlt⟩
              rcases hskip with hnil | hlong
              · exact hne hnil
              · rw [nameLength] at hlt
                rw [pathMax] at hlong
                omega
            have hline : LineFits l (l' :: ls) := by
              rw [hfits]
              rcases hskip with rfl | hlong
              · exact .inl (by decide)
              · exact .inr hlong
            rw [if_pos hskip, linesFit_skip hnot, and_iff_right hline, named_cons_of_not hnot]
            exact ih s
          · rw [if_neg hskip]
            rw [not_or] at hskip
            by_cases hlong : nameLength ≤ l.length
            · -- the buffer is too short
              rw [if_pos hlong, linesFit_cons, hfits]
              simp [Nat.not_lt.mpr hlong, hskip.2]
            · have hl : l ≠ [] ∧ l.length < nameLength := ⟨hskip.1, Nat.not_le.mp hlong⟩
              rw [if_neg hlong, named_cons hl, callThen_iff, linesFit_call hl,
                and_iff_right (hfits.mpr (.inl hl.2))]
              simp only [ih]

/-- **The lines of a file** without zero bytes are loaded, with no access outside the mapping and
the buffer, if and only if every line that is reached is ended, and is shorter than
`KYLIN_NAME_LENGTH` or not shorter than `PATH_MAX`. -/
theorem loadsLines_iff (hnul : nul ∉ content) :
    LoadsLines load content s ↔ LinesFit load (content.splitOn '\n') s := by
  rw [LoadsLines, loadAll_eq_lineLoop hnul, lineLoop_iff]

/-- It is enough that all lines are short, and the last one is ended. -/
theorem linesFit_of_short (h : ∀ l ∈ ls.dropLast, l.length < nameLength)
    (hlast : ls.getLast? = some []) : LinesFit load ls s := by
  rintro before l after rfl -
  rw [LineFits]
  split
  · next hnil =>
      rw [hnil, List.getLast?_append_cons] at hlast
      simpa using hlast
  · next hne =>
      refine .inl (h l ?_)
      rw [List.dropLast_append_of_ne_nil (List.cons_ne_nil l after),
        List.dropLast_cons_of_ne_nil hne]
      simp

/-- `kylin_module_load` on the modules of the diamond. -/
def loadDiamond (s : Session) (modName : List Char) : Except Stop (Kerr × Session) :=
  s.load Session.diamond modName (some (pad []))

/-- The bottom of the diamond and its top are named in two lines, with an empty one between. -/
theorem loadsLines_iff_diamond :
    LoadsLines loadDiamond "d\n\na\n".toList Session.create :=
  (loadsLines_iff (by decide)).mpr (linesFit_of_short (by decide) (by decide))

/-- A file without a newline, and lines of 64 and of 70 characters, which the buffer cannot hold
with the zero behind them. -/
theorem not_loadsLines_open :
    ¬ LoadsLines loadDiamond ['a'] Session.create ∧
    ¬ LoadsLines loadDiamond (List.replicate 64 'a' ++ ['\n']) Session.create ∧
    ¬ LoadsLines loadDiamond (List.replicate 70 'a' ++ ['\n']) Session.create := by
  have hopen : loadAll loadDiamond ['a'] Session.create = none := rfl
  have hfull : loadAll loadDiamond (List.replicate 64 'a' ++ ['\n']) Session.create = none := rfl
  have hlong : loadAll loadDiamond (List.replicate 70 'a' ++ ['\n']) Session.create = none := rfl
  simp only [LoadsLines, hopen, hfull, hlong]
  simp

end Kylin.Kmod
