import Kylin.Arch.Word

/-!
# Dumps of memory

`lib/core/utils/kylin_hexdump.c` writes bytes as text.  `kylin_hexdump` writes 16 bytes a line,
with their offset before and their characters behind; `rte_memdump`, which the header declares
as `kylin_memdump`, separates them with colons.  Both put a line together with `snprintf` in an
array of 128 characters, from a position that they keep in `out`.

`snprintf` cuts what does not fit, and counts it all the same.  It is shown that nothing is cut,
and that both texts can be read back.

## Main definitions

* `Line`, `Line.snprintf` — the array and the position.
* `hexdump`, `memdump` — the functions, as what they hand to `fprintf`.
* `undump`, `unpair` — readers of the two texts.

## Main results

* `undump_hexdump`, `unpair_memdump` — what was dumped is read back.
-/

namespace Kylin.Hexdump

/-- `LINE_LEN`. -/
def lineLen : ℕ := 128

/-- The array `line`, up to the NUL character, and `out`. -/
structure Line where
  text : List Char
  out : ℕ
  deriving DecidableEq

/-- `out += snprintf(line + out, LINE_LEN - out, …)`; `none` if `line + out` is not in the
array. -/
def Line.snprintf (l : Line) (s : List Char) : Option Line :=
  if l.out < lineLen then
    some ⟨l.text.take l.out ++ s.take (lineLen - l.out - 1), l.out + s.length⟩
  else none

/-! ## Formats -/

/-- A digit of `%X`, or of `%x` for `upper = false`. -/
def hexDigit (upper : Bool) (d : ℕ) : Char :=
  if d < 10 then Char.ofNat (48 + d) else Char.ofNat ((if upper then 55 else 87) + d)

/-- `%02X` or `%02x` of a byte. -/
def hexByte (upper : Bool) (b : Byte) : List Char :=
  [hexDigit upper (b.toNat / 16), hexDigit upper (b.toNat % 16)]

/-- `%08X` of an `unsigned int`. -/
def hexWord (n : ℕ) : List Char :=
  [7, 6, 5, 4, 3, 2, 1, 0].map fun k => hexDigit true (n / 16 ^ k % 16)

/-- `%c`, with `.` for what cannot be printed. -/
def printable (b : Byte) : Char :=
  if b < 32 ∨ 126 < b then '.' else Char.ofNat b.toNat

/-! ## `kylin_hexdump` -/

/-- The loop over the bytes of a line, with `16 - i` turns left; the last `i` is returned. -/
def bytesLoop (data : List Byte) (ofs : ℕ) : ℕ → Line → ℕ → Option (Line × ℕ)
  | 0, l, i => some (l, i)
  | turns + 1, l, i =>
      if (ofs + i) % 2 ^ 32 < data.length then do
        let b ← data[(ofs + i) % 2 ^ 32]?
        let l ← l.snprintf (' ' :: hexByte true b)
        bytesLoop data ofs turns l (i + 1)
      else some (l, i)

/-- The loop over the places that are empty, with `17 - i` turns. -/
def barsLoop : ℕ → Line → Option Line
  | 0, l => some l
  | turns + 1, l => do
      let l ← l.snprintf [' ', '|', ' ']
      barsLoop turns l

/-- The loop over the characters, with `16 - i` turns left; `ofs` is returned. -/
def charsLoop (data : List Byte) : ℕ → Line → ℕ → Option (Line × ℕ)
  | 0, l, ofs => some (l, ofs)
  | turns + 1, l, ofs =>
      if ofs < data.length then do
        let c ← data[ofs]?
        let l ← l.snprintf [printable c]
        charsLoop data turns l (ofs + 1)
      else some (l, ofs)

/-- The loop over the lines.  Each turn takes a byte, so that no more turns are made than there
are bytes. -/
def linesLoop (data : List Byte) : ℕ → ℕ → Option (List (List Char))
  | 0, _ => some []
  | turns + 1, ofs =>
      if ofs < data.length then do
        let l ← (⟨[], 0⟩ : Line).snprintf (hexWord ofs ++ [':'])
        let (l, i) ← bytesLoop data ofs 16 l 0
        let l ← barsLoop (17 - i) l
        let (l, ofs) ← charsLoop data 16 l ofs
        let rest ← linesLoop data turns ofs
        some ((l.text ++ ['\n']) :: rest)
      else some []

/-- The first line; `addr` is what `%p` makes of the address. -/
def header (title : Option (List Char)) (addr : List Char) (len : ℕ) : List Char :=
  title.getD "  Dump data".toList ++ " at [".toList ++ addr ++ "], len=".toList ++
    Nat.toDigits 10 len ++ ['\n']

/-- `kylin_hexdump`: the texts that are handed to `fprintf`. -/
def hexdump (title : Option (List Char)) (addr : List Char) (data : List Byte) :
    Option (List (List Char)) :=
  (linesLoop data data.length 0).map fun lines => header title addr data.length :: lines

/-! ## `rte_memdump` -/

/-- The loop over the bytes, with the texts that have been handed to `fprintf`. -/
def pairsLoop : List Byte → Line → List (List Char) → Option (Line × List (List Char))
  | [], l, texts => some (l, texts)
  | b :: data, l, texts => do
      let (l, texts) := if lineLen - 4 ≤ l.out then (⟨[], 0⟩, texts ++ [l.text]) else (l, texts)
      -- `(i + 1) < len` if there is another byte
      let l ← l.snprintf (hexByte false b ++ if data.isEmpty then [] else [':'])
      pairsLoop data l texts

/-- `rte_memdump`: the texts that are handed to `fprintf`. -/
def memdump (title : Option (List Char)) (data : List Byte) : Option (List (List Char)) := do
  let start := (title.map fun t => t ++ [':', ' ']).toList
  let (l, texts) ← pairsLoop data ⟨[], 0⟩ start
  some (texts ++ (if 0 < l.out then [l.text] else []) ++ [['\n']])

/-! ## Readers -/

/-- The value of a digit. -/
def hexVal (c : Char) : Option ℕ :=
  if 48 ≤ c.toNat ∧ c.toNat ≤ 57 then some (c.toNat - 48)
  else if 65 ≤ c.toNat ∧ c.toNat ≤ 70 then some (c.toNat - 55)
  else if 97 ≤ c.toNat ∧ c.toNat ≤ 102 then some (c.toNat - 87)
  else none

/-- A byte from its two digits. -/
def readByte (c d : Char) : Option Byte := do
  let x ← hexVal c
  let y ← hexVal d
  some (UInt8.ofNat (16 * x + y))

/-- The bytes of a line, up to the first bar. -/
def readBytes : List Char → List Byte
  | ' ' :: c :: d :: s =>
      match readByte c d with
      | some b => b :: readBytes s
      | none => []
  | _ => []

/-- Read a line, behind the offset. -/
def readLine (s : List Char) : List Byte := readBytes (s.drop 9)

/-- Read a text of `kylin_hexdump`. -/
def undump (text : List Char) : List Byte := (text.splitOn '\n').tail.flatMap readLine

/-- Read bytes that are separated by a character. -/
def unpair : List Char → List Byte
  | c :: d :: _ :: s =>
      match readByte c d with
      | some b => b :: unpair s
      | none => []
  | _ => []

/-! ## Lines -/

/-- An array with a text in it, and the position behind the text. -/
def Line.of (s : List Char) : Line := ⟨s, s.length⟩

/-- What fits is not cut. -/
theorem Line.snprintf_of {s t : List Char} (h : s.length + t.length < lineLen) :
    (Line.of s).snprintf t = some (.of (s ++ t)) := by
  have hout : s.length < lineLen := Nat.lt_of_le_of_lt (Nat.le_add_right _ _) h
  have hcut : t.length ≤ lineLen - s.length - 1 := by omega
  rw [Line.snprintf, Line.of, if_pos hout, List.take_length, List.take_of_length_le hcut, Line.of,
    List.length_append]

/-- The text of the bytes. -/
def bytesText (chunk : List Byte) : List Char := chunk.flatMap fun b => ' ' :: hexByte true b

/-- The text of the places that are empty. -/
def barsText (turns : ℕ) : List Char := (List.replicate turns [' ', '|', ' ']).flatten

@[simp] theorem length_hexByte (upper : Bool) (b : Byte) : (hexByte upper b).length = 2 := rfl

@[simp] theorem length_hexWord (n : ℕ) : (hexWord n).length = 8 := rfl

@[simp] theorem length_bytesText (chunk : List Byte) :
    (bytesText chunk).length = 3 * chunk.length := by
  induction chunk with
  | nil => rfl
  | cons b chunk ih =>
      rw [bytesText, List.flatMap_cons, List.length_append, ← bytesText, ih]
      simp
      omega

@[simp] theorem length_barsText (turns : ℕ) : (barsText turns).length = 3 * turns := by
  simp [barsText, Nat.mul_comm]

section Loops
variable {data : List Byte} {ofs : ℕ}

theorem bytesLoop_of {turns i : ℕ} {s : List Char} (hwrap : ofs + i + turns ≤ 2 ^ 32)
    (hlen : s.length + 3 * turns < lineLen) :
    bytesLoop data ofs turns (.of s) i =
      some (.of (s ++ bytesText ((data.drop (ofs + i)).take turns)),
        i + ((data.drop (ofs + i)).take turns).length) := by
  induction turns generalizing i s with
  | zero => simp [bytesLoop, bytesText]
  | succ turns ih =>
      have hmod : (ofs + i) % 2 ^ 32 = ofs + i := Nat.mod_eq_of_lt (by omega)
      rw [bytesLoop, hmod]
      by_cases hlt : ofs + i < data.length
      · have hrest := ih (i := i + 1) (s := s ++ ' ' :: hexByte true data[ofs + i]) (by omega) (by
          simp
          omega)
        have hprint : (Line.of s).snprintf (' ' :: hexByte true data[ofs + i]) =
            some (.of (s ++ ' ' :: hexByte true data[ofs + i])) := Line.snprintf_of (by
          simp
          omega)
        rw [← Nat.add_assoc] at hrest
        rw [if_pos hlt, List.getElem?_eq_getElem hlt, Option.bind_eq_bind, Option.bind_some, hprint,
          Option.bind_eq_bind, Option.bind_some, hrest, List.drop_eq_getElem_cons hlt,
          List.take_succ_cons, bytesText, bytesText, List.flatMap_cons, List.length_cons]
        simp only [List.append_assoc, Nat.add_assoc, Nat.add_comm 1]
      · have hnil : data.drop (ofs + i) = [] := List.drop_eq_nil_of_le (Nat.not_lt.mp hlt)
        rw [if_neg hlt, hnil]
        simp [bytesText]

theorem barsLoop_of {turns : ℕ} {s : List Char} (hlen : s.length + 3 * turns < lineLen) :
    barsLoop turns (.of s) = some (.of (s ++ barsText turns)) := by
  induction turns generalizing s with
  | zero => simp [barsLoop, barsText]
  | succ turns ih =>
      have hprint : (Line.of s).snprintf [' ', '|', ' '] = some (.of (s ++ [' ', '|', ' '])) :=
        Line.snprintf_of (by
          simp
          omega)
      have hrest := ih (s := s ++ [' ', '|', ' ']) (by
        simp
        omega)
      rw [barsLoop, hprint, Option.bind_eq_bind, Option.bind_some, hrest]
      simp [barsText, List.replicate_succ]

theorem charsLoop_of {turns : ℕ} {s : List Char} (hlen : s.length + turns < lineLen) :
    charsLoop data turns (.of s) ofs =
      some (.of (s ++ ((data.drop ofs).take turns).map printable),
        ofs + ((data.drop ofs).take turns).length) := by
  induction turns generalizing ofs s with
  | zero => simp [charsLoop]
  | succ turns ih =>
      rw [charsLoop]
      by_cases hlt : ofs < data.length
      · have hprint : (Line.of s).snprintf [printable data[ofs]] =
            some (.of (s ++ [printable data[ofs]])) := Line.snprintf_of (by
          simp
          omega)
        have hrest : charsLoop data turns (.of (s ++ [printable data[ofs]])) (ofs + 1) = _ :=
          ih (by
            simp
            omega)
        rw [if_pos hlt, List.getElem?_eq_getElem hlt, Option.bind_eq_bind, Option.bind_some, hprint,
          Option.bind_eq_bind, Option.bind_some, hrest, List.drop_eq_getElem_cons hlt,
          List.take_succ_cons, List.map_cons, List.length_cons]
        simp only [List.append_assoc, List.singleton_append, Nat.add_assoc, Nat.add_comm 1]
      · have hnil : data.drop ofs = [] := List.drop_eq_nil_of_le (Nat.not_lt.mp hlt)
        rw [if_neg hlt, hnil]
        simp

end Loops

/-- The text of a line. -/
def lineText (ofs : ℕ) (chunk : List Byte) : List Char :=
  hexWord ofs ++ [':'] ++ bytesText chunk ++ barsText (17 - chunk.length) ++ chunk.map printable

/-- One line: nothing in it is cut. -/
theorem linesLoop_succ {data : List Byte} {ofs turns : ℕ} (hlt : ofs < data.length)
    (hwrap : ofs + 16 ≤ 2 ^ 32) : linesLoop data (turns + 1) ofs =
      (linesLoop data turns (ofs + ((data.drop ofs).take 16).length)).map fun rest =>
        (lineText ofs ((data.drop ofs).take 16) ++ ['\n']) :: rest := by
  have hchunk : ((data.drop ofs).take 16).length ≤ 16 := List.length_take_le _ _
  have hofs : (⟨[], 0⟩ : Line).snprintf (hexWord ofs ++ [':']) =
      some (.of (hexWord ofs ++ [':'])) := Line.snprintf_of (s := []) (by simp [lineLen])
  have hbytes : bytesLoop data ofs 16 (.of (hexWord ofs ++ [':'])) 0 = _ :=
    bytesLoop_of (by omega) (by simp [lineLen])
  rw [Nat.add_zero, Nat.zero_add] at hbytes
  have hbars : barsLoop (17 - ((data.drop ofs).take 16).length)
      (.of (hexWord ofs ++ [':'] ++ bytesText ((data.drop ofs).take 16))) = _ := barsLoop_of (by
    simp only [List.length_append, length_hexWord, length_bytesText, List.length_singleton,
      lineLen]
    omega)
  have hchars : charsLoop data 16 (.of (hexWord ofs ++ [':'] ++
      bytesText ((data.drop ofs).take 16) ++
        barsText (17 - ((data.drop ofs).take 16).length))) ofs = _ := charsLoop_of (by
    simp only [List.length_append, length_hexWord, length_bytesText, length_barsText,
      List.length_singleton, lineLen]
    omega)
  rw [linesLoop, if_pos hlt, hofs]
  simp only [Option.bind_eq_bind, Option.bind_some, hbytes, hbars, hchars]
  cases linesLoop data turns (ofs + ((data.drop ofs).take 16).length) <;> rfl

/-! ## Digits -/

theorem hexVal_hexDigit (upper : Bool) {d : ℕ} (hd : d < 16) :
    hexVal (hexDigit upper d) = some d := by
  have hall : ∀ (upper : Bool) (d : Fin 16), hexVal (hexDigit upper d) = some d.val := by decide
  exact hall upper ⟨d, hd⟩

theorem hexDigit_ne_newline (upper : Bool) {d : ℕ} (hd : d < 16) : hexDigit upper d ≠ '\n' := by
  have hall : ∀ (upper : Bool) (d : Fin 16), hexDigit upper d ≠ '\n' := by decide
  exact hall upper ⟨d, hd⟩

/-- A byte is read as it was written. -/
theorem readByte_hexByte (upper : Bool) (b : Byte) :
    readByte (hexDigit upper (b.toNat / 16)) (hexDigit upper (b.toNat % 16)) = some b := by
  have hb : b.toNat < 256 := b.toNat_lt
  rw [readByte, hexVal_hexDigit upper (by omega), hexVal_hexDigit upper (by omega)]
  change some (UInt8.ofNat (16 * (b.toNat / 16) + b.toNat % 16)) = some b
  rw [Nat.div_add_mod, UInt8.ofNat_toNat]

theorem printable_ne_newline (b : Byte) : printable b ≠ '\n' := by
  rw [printable]
  split
  · decide
  · next hb =>
      rw [not_or, UInt8.not_lt, UInt8.not_lt] at hb
      have hlow : 32 ≤ b.toNat := hb.1
      have hvalid : b.toNat.isValidChar := .inl (Nat.lt_trans b.toNat_lt (by decide))
      intro hcon
      have hval := congrArg Char.toNat hcon
      rw [Char.ofNat, dif_pos hvalid] at hval
      have hten : b.toNat = 10 := hval
      omega

/-- The bytes of a line are read up to the bar. -/
theorem readBytes_bytesText (chunk : List Byte) (s : List Char) :
    readBytes (bytesText chunk ++ ' ' :: '|' :: ' ' :: s) = chunk := by
  induction chunk with
  | nil => rfl
  | cons b chunk ih =>
      rw [bytesText, List.flatMap_cons, ← bytesText]
      change (match readByte (hexDigit true (b.toNat / 16)) (hexDigit true (b.toNat % 16)) with
        | some b => b :: readBytes (bytesText chunk ++ ' ' :: '|' :: ' ' :: s)
        | none => []) = b :: chunk
      rw [readByte_hexByte, ih]

section Lines
variable {ofs : ℕ} {chunk : List Byte}

theorem readLine_lineText (h : chunk.length ≤ 16) : readLine (lineText ofs chunk) = chunk := by
  have hbars : barsText (17 - chunk.length) =
      ' ' :: '|' :: ' ' :: barsText (16 - chunk.length) := by
    rw [show 17 - chunk.length = (16 - chunk.length) + 1 by omega]
    rfl
  have hdrop : (lineText ofs chunk).drop 9 =
      bytesText chunk ++ ' ' :: '|' :: ' ' :: (barsText (16 - chunk.length) ++
        chunk.map printable) := by
    rw [lineText, hbars]
    simp only [List.append_assoc]
    rfl
  rw [readLine, hdrop, readBytes_bytesText]

theorem newline_not_mem_lineText : '\n' ∉ lineText ofs chunk := by
  simp only [lineText, List.mem_append, not_or]
  refine ⟨⟨⟨⟨?_, by decide⟩, ?_⟩, ?_⟩, ?_⟩
  · rw [hexWord, List.mem_map]
    rintro ⟨k, -, hk⟩
    exact hexDigit_ne_newline true (Nat.mod_lt _ (by decide)) hk
  · rw [bytesText, List.mem_flatMap]
    rintro ⟨b, -, hb⟩
    have hlt : b.toNat < 256 := b.toNat_lt
    rcases List.mem_cons.mp hb with hb | hb
    · cases hb
    · simp only [hexByte, List.mem_cons, List.not_mem_nil, or_false] at hb
      rcases hb with hb | hb
      · exact hexDigit_ne_newline true (by omega) hb.symm
      · exact hexDigit_ne_newline true (by omega) hb.symm
  · rw [barsText, List.mem_flatten]
    rintro ⟨t, ht, hn⟩
    rw [List.eq_of_mem_replicate ht] at hn
    revert hn
    decide
  · rw [List.mem_map]
    rintro ⟨b, -, hb⟩
    exact printable_ne_newline b hb

end Lines

/-- The text up to a line break is a line. -/
theorem splitOn_line {s : List Char} (hs : '\n' ∉ s) (t : List Char) :
    (s ++ '\n' :: t).splitOn '\n' = s :: t.splitOn '\n' := by
  have hno : ∀ c ∈ s, (c == '\n') = false := by
    intro c hc
    rw [beq_eq_false_iff_ne]
    rintro rfl
    exact hs hc
  rw [List.splitOn, List.splitOnP_append_cons s t (by rfl), List.splitOnP_eq_singleton hno]
  rfl

/-- Line `k` of a dump. -/
def dumpLine (data : List Byte) (k : ℕ) : List Char :=
  lineText (16 * k) ((data.drop (16 * k)).take 16) ++ ['\n']

/-- The lines of a dump from one on. -/
def dumpLines (data : List Byte) (k : ℕ) : List (List Char) :=
  (List.range' k ((data.length + 15) / 16 - k)).map (dumpLine data)

theorem linesLoop_of_le {data : List Byte} {turns ofs : ℕ} (h : data.length ≤ ofs) :
    linesLoop data turns ofs = some [] := by
  cases turns with
  | zero => rfl
  | succ turns => rw [linesLoop, if_neg (Nat.not_lt.mpr h)]

/-- **The loop over the lines** makes those of the dump. -/
theorem linesLoop_eq {data : List Byte} (hlen : data.length < 2 ^ 32) {turns k : ℕ}
    (hturns : data.length - 16 * k ≤ turns) :
    linesLoop data turns (16 * k) = some (dumpLines data k) := by
  induction turns generalizing k with
  | zero =>
      rw [linesLoop, dumpLines, show (data.length + 15) / 16 - k = 0 by omega]
      rfl
  | succ turns ih =>
      by_cases hlt : 16 * k < data.length
      · have hchunk : ((data.drop (16 * k)).take 16).length = min 16 (data.length - 16 * k) := by
          simp
        have hcount : (data.length + 15) / 16 - k = (data.length + 15) / 16 - (k + 1) + 1 := by
          omega
        have hlines : dumpLines data k = dumpLine data k :: dumpLines data (k + 1) := by
          rw [dumpLines, hcount, List.range'_succ, List.map_cons, dumpLines]
        have hrest : linesLoop data turns (16 * k + ((data.drop (16 * k)).take 16).length) =
            some (dumpLines data (k + 1)) := by
          by_cases hfull : 16 * (k + 1) ≤ data.length
          · rw [← ih (by omega), hchunk]
            congr 1
            omega
          · rw [linesLoop_of_le (by omega), dumpLines,
              show (data.length + 15) / 16 - (k + 1) = 0 by omega]
            rfl
        rw [linesLoop_succ hlt (by omega), hrest, Option.map_some, hlines, dumpLine]
      · rw [linesLoop_of_le (Nat.not_lt.mp hlt), dumpLines,
          show (data.length + 15) / 16 - k = 0 by omega]
        rfl

/-- Lines are read as they were written. -/
theorem readLines_dumpLine (data : List Byte) (n k : ℕ) :
    (((List.range' k n).map (dumpLine data)).flatten.splitOn '\n').flatMap readLine =
      (data.drop (16 * k)).take (16 * n) := by
  induction n generalizing k with
  | zero => rfl
  | succ n ih =>
      have hchunk : ((data.drop (16 * k)).take 16).length ≤ 16 := List.length_take_le _ _
      rw [List.range'_succ, List.map_cons, List.flatten_cons, dumpLine, List.append_assoc,
        List.singleton_append, splitOn_line newline_not_mem_lineText, List.flatMap_cons,
        readLine_lineText hchunk, ih, show 16 * (n + 1) = 16 + 16 * n by omega, List.take_add,
        List.drop_drop, show 16 * (k + 1) = 16 * k + 16 by omega]

/-! ## Round trips -/

section RoundTrips
variable {title : Option (List Char)} {addr : List Char} {data : List Byte}

theorem newline_not_mem_header (htitle : ∀ t, title = some t → '\n' ∉ t) (haddr : '\n' ∉ addr)
    (len : ℕ) : '\n' ∉ title.getD "  Dump data".toList ++ " at [".toList ++ addr ++
      "], len=".toList ++ Nat.toDigits 10 len := by
  simp only [List.mem_append, not_or]
  refine ⟨⟨⟨⟨?_, by decide⟩, haddr⟩, by decide⟩, ?_⟩
  · cases title with
    | none => decide
    | some t => exact htitle t rfl
  · intro hmem
    have hdigit := Nat.isDigit_of_mem_toDigits (by decide) (Nat.le_refl 10) hmem
    revert hdigit
    decide

/-- **A dump can be read back**: the lines are those of the bytes, with nothing cut, and every byte
is at its place. -/
theorem undump_hexdump (htitle : ∀ t, title = some t → '\n' ∉ t) (haddr : '\n' ∉ addr)
    (hlen : data.length < 2 ^ 32) :
    ∃ texts, hexdump title addr data = some texts ∧
      texts = header title addr data.length :: dumpLines data 0 ∧ undump texts.flatten = data := by
  have hlines : linesLoop data data.length 0 = some (dumpLines data 0) :=
    linesLoop_eq (k := 0) hlen (Nat.le_of_eq (Nat.sub_zero data.length))
  refine ⟨header title addr data.length :: dumpLines data 0, by rw [hexdump, hlines]; rfl, rfl, ?_⟩
  rw [undump, List.flatten_cons, header, List.append_assoc, List.singleton_append,
    splitOn_line (newline_not_mem_header htitle haddr _), List.tail_cons, dumpLines,
    readLines_dumpLine, Nat.mul_zero, List.drop_zero, List.take_of_length_le (by omega)]

theorem undump_hexdump_tabs :
    ∃ texts, hexdump none "0x7f00".toList [9, 65, 10] = some texts ∧
      texts = header none "0x7f00".toList 3 :: dumpLines [9, 65, 10] 0 ∧
      undump texts.flatten = [9, 65, 10] :=
  undump_hexdump (fun _ h => by cases h) (by decide) (by decide)

/-- The text of bytes with colons between them. -/
def pairsText : List Byte → List Char
  | [] => []
  | b :: data => hexByte false b ++ (if data.isEmpty then [] else [':']) ++ pairsText data

/-- The text that a loop has made so far. -/
def madeText (l : Line) (texts : List (List Char)) : List Char := texts.flatten ++ l.text

theorem hexByte_colon_length (b : Byte) (last : Bool) :
    (hexByte false b ++ if last then [] else [':']).length ≤ 3 := by
  cases last <;> simp

/-- Before a byte is written there is room for it, in the line or in a new one. -/
theorem madeText_start (s : List Char) (texts : List (List Char)) (hthree : 3 ∣ s.length) :
    ∃ s₀ texts₀, (if lineLen - 4 ≤ (Line.of s).out then (⟨[], 0⟩, texts ++ [(Line.of s).text])
        else (Line.of s, texts)) = (Line.of s₀, texts₀) ∧
      s₀.length + 3 < lineLen ∧ 3 ∣ s₀.length ∧
      madeText (.of s₀) texts₀ = madeText (.of s) texts := by
  by_cases hfull : lineLen - 4 ≤ s.length
  · refine ⟨[], texts ++ [s], if_pos hfull, by decide, Nat.dvd_zero 3, ?_⟩
    simp [madeText, Line.of]
  · refine ⟨s, texts, if_neg hfull, ?_, hthree, rfl⟩
    rw [lineLen] at hfull ⊢
    omega

/-- The loop cuts nothing, and does not show where it has started a new line. -/
theorem pairsLoop_spec {s : List Char} {texts : List (List Char)}
    (hthree : data ≠ [] → 3 ∣ s.length) :
    ∃ s' texts', pairsLoop data (.of s) texts = some (.of s', texts') ∧
      madeText (.of s') texts' = madeText (.of s) texts ++ pairsText data := by
  induction data generalizing s texts with
  | nil => exact ⟨s, texts, rfl, (List.append_nil _).symm⟩
  | cons b data ih =>
      obtain ⟨s₀, texts₀, hstart, hroom, hdvd, hmade⟩ :=
        madeText_start s texts (hthree (List.cons_ne_nil b data))
      have hle := hexByte_colon_length b data.isEmpty
      have hprint := Line.snprintf_of (s := s₀)
        (t := hexByte false b ++ if data.isEmpty then [] else [':']) (by omega)
      have hnext : data ≠ [] →
          3 ∣ (s₀ ++ (hexByte false b ++ if data.isEmpty then [] else [':'])).length := by
        intro hne
        rw [List.length_append]
        cases data with
        | nil => exact absurd rfl hne
        | cons c data => exact (Nat.dvd_add_left (Nat.dvd_refl 3)).mpr hdvd
      obtain ⟨s', texts', hloop, hmade'⟩ : ∃ s' texts',
          pairsLoop data (.of (s₀ ++ (hexByte false b ++ if data.isEmpty then [] else [':'])))
            texts₀ = some (.of s', texts') ∧ _ := ih hnext
      refine ⟨s', texts', ?_, ?_⟩
      · rw [pairsLoop, hstart]
        simp only [hprint, Option.bind_eq_bind, Option.bind_some, hloop]
      · rw [hmade', pairsText, ← hmade]
        simp [madeText, Line.of]

theorem unpair_pairsText (data : List Byte) : unpair (pairsText data ++ ['\n']) = data := by
  induction data with
  | nil => rfl
  | cons b data ih =>
      have hread := readByte_hexByte false b
      cases data with
      | nil =>
          change (match readByte (hexDigit false (b.toNat / 16))
              (hexDigit false (b.toNat % 16)) with
            | some b => b :: unpair []
            | none => []) = [b]
          rw [hread]
          rfl
      | cons c data =>
          change (match readByte (hexDigit false (b.toNat / 16))
              (hexDigit false (b.toNat % 16)) with
            | some b => b :: unpair (pairsText (c :: data) ++ ['\n'])
            | none => []) = b :: c :: data
          rw [hread, ih]

/-- What stands before the bytes. -/
def titleText (title : Option (List Char)) : List Char :=
  (title.map fun t => t ++ [':', ' ']).getD []

/-- **A dump with colons can be read back**: behind the title the text is that of the bytes, as
if it had been written in one piece. -/
theorem unpair_memdump (title : Option (List Char)) (data : List Byte) :
    ∃ texts, memdump title data = some texts ∧
      texts.flatten = titleText title ++ (pairsText data ++ ['\n']) ∧
      unpair (pairsText data ++ ['\n']) = data := by
  obtain ⟨s, texts, hloop, hmade⟩ : ∃ s texts,
      pairsLoop data (.of []) (title.map fun t => t ++ [':', ' ']).toList =
        some (.of s, texts) ∧ _ := pairsLoop_spec fun _ => Nat.dvd_zero 3
  refine ⟨_, by rw [memdump]; change (pairsLoop data (.of []) _).bind _ = _; rw [hloop]; rfl,
    ?_, unpair_pairsText data⟩
  have htext : (if 0 < (Line.of s).out then [(Line.of s).text] else []).flatten = s := by
    cases s with
    | nil => rfl
    | cons c s => simp [Line.of]
  have htitle : ((title.map fun t => t ++ [':', ' ']).toList).flatten = titleText title := by
    cases title <;> simp [titleText]
  rw [List.flatten_append, List.flatten_append, htext, ← List.append_assoc, ← htitle]
  have hflat : texts.flatten ++ s = madeText (.of s) texts := rfl
  rw [hflat, hmade]
  simp [madeText, Line.of]

end RoundTrips

end Kylin.Hexdump
