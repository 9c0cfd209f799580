import Kylin.Lib.Endian
import Kylin.Arch.Word
import Kylin.Math.Val
import Kylin.Core.ElfLayout

/-!
# The walk over the symbols of an ELF file

`kylin_elf_symbol` (`lib/core/kylin_core_module_elf.c`) maps a file and calls a hook on its
symbols.  A pointer into the mapping is its distance from the start, modulo `2 ^ 64`; a load
outside the file is a fault, as are a division by zero and a use of the string table when
none was found, and returns `none`.

The file is trusted: no offset, count or size in it is checked.  `WellFormed` says, by the
places of the fields that the walk reads, when nothing goes wrong, and `returns_iff` that
this is exactly when the walk is safe with every hook.

## Main definitions

* `peek`, `elfGetWord`, `elfGetQuad`, `elfGetQuarter` — loads.
* `symtabGet`, `symtabProcess`, `elfSymbol` — the walk.
* `Inside`, `FieldInside`, `fieldVal` — places in a file, and what is there.
* `WellFormed` — the files on which the walk is safe.

## Main results

* `elfGet_eq_some_iff` — what the accessors return, and when.
* `returns_iff` — the walk returns with every hook exactly on well-formed files.
-/

namespace Kylin.Elf

open Lib

/-! ## Loads -/

/-- The byte at a pointer. -/
def peek (file : List Byte) (p : ℕ) : Option Byte := file[p % 2 ^ 64]?

/-- The bytes from a pointer on. -/
def bytesAt (file : List Byte) (p : ℕ) : ℕ → Option (List Byte)
  | 0 => some []
  | w + 1 => do
      let b ← peek file p
      let bs ← bytesAt file (p + 1) w
      some (b :: bs)

/-- `ELFCLASS32`. -/
def elfclass32 : Byte := 1

/-- `ELFCLASS64`. -/
def elfclass64 : Byte := 2

/-- `ELFDATA2LSB`. -/
def elfdata2lsb : Byte := 1

/-- `ELFDATA2MSB`. -/
def elfdata2msb : Byte := 2

/-- The class that `e_ident` gives. -/
def classOf (b : Byte) : Option Class :=
  if b = elfclass32 then some .elf32 else if b = elfclass64 then some .elf64 else none

/-- The byte order that `e_ident` gives. -/
def orderOf (b : Byte) : Option Order :=
  if b = elfdata2msb then some .big else if b = elfdata2lsb then some .little else none

/-- The widths that the accessors read: `__elf_get_quarter`, `__elf_get_word` and
`__elf_get_quad`. -/
inductive Width
  | quarter
  | word
  | quad
  deriving DecidableEq

/-- The number of bytes. -/
def Width.bytes (c : Class) : Width → ℕ
  | .quarter => 2
  | .word => 4
  | .quad => c.addr

/-- The body of the three accessors: a member of the structure at `base`, zero for a class or
a byte order that is not known. -/
def elfGet (width : Width) (file : List Byte) (base : ℕ) (m : Member) : Option ℕ := do
  match classOf (← peek file eiClass) with
  | none => some 0
  | some c =>
      match orderOf (← peek file eiData) with
      | none => some 0
      | some o => (bytesAt file (base + elfOffset c m) (width.bytes c)).map o.decode

/-- `__elf_get_quarter`. -/
def elfGetQuarter : List Byte → ℕ → Member → Option ℕ := elfGet .quarter

/-- `__elf_get_word`. -/
def elfGetWord : List Byte → ℕ → Member → Option ℕ := elfGet .word

/-- `__elf_get_quad`, also called `__elf_get_off`, `__elf_get_addr` and `__elf_get_size`. -/
def elfGetQuad : List Byte → ℕ → Member → Option ℕ := elfGet .quad

/-- `strcmp(p, s) == 0` for a literal `s`, which is given with its NUL byte. -/
def strcmpEq (file : List Byte) (p : ℕ) : List Byte → Option Bool
  | [] => some true
  | c :: cs => do
      let b ← peek file p
      if b = c then strcmpEq file (p + 1) cs else some false

/-! ## The walk -/

section Walk
variable {σ : Type} (file : List Byte) (hook : ℕ → ℕ → σ → ℕ × σ)

/-- The loop of `__elf_symtab_get` over the entries of a symbol table; `str` is `NULL` when
there is no string table. -/
def symtabLoop (offset entsize : ℕ) (str : Option ℕ) : List ℕ → σ → Option (ℕ × σ)
  | [], data => some (Kerr.ok.code, data)
  | i :: is, data => do
      let st := offset + i * entsize
      let name ← elfGetWord file st .stName
      let value ← elfGetQuad file st .stValue
      let _ ← elfGetQuad file st .stSize
      let str' ← str
      let c ← peek file (str' + name)
      if c ≠ 0 ∧ value ≠ 0 then
        let (ret, data) := hook ((str' + name) % 2 ^ 64) value data
        if ret ≠ Kerr.ok.code then some (ret, data)
        else symtabLoop offset entsize str is data
      else symtabLoop offset entsize str is data

/-- The number of entries, as an `int`. -/
def entries (size entsize : ℕ) : ℕ := (toInt (size / entsize)).toNat

/-- `__elf_symtab_get`. -/
def symtabGet (sh : ℕ) (str : Option ℕ) (data : σ) : Option (ℕ × σ) := do
  let offset ← elfGetQuad file sh .shOffset
  let entsize ← elfGetQuad file sh .shEntsize
  let size ← elfGetQuad file sh .shSize
  let _ ← elfGetWord file sh .shName
  if entsize = 0 then none
  else symtabLoop file hook offset entsize str (List.range (entries size entsize)) data

/-- `".strtab"`. -/
def strtabName : List Byte := [46, 115, 116, 114, 116, 97, 98, 0]

/-- The first loop of `__elf_symtab_process`: the last section called `.strtab`. -/
def strtabLoop (sh shentsize shstrtab : ℕ) : List ℕ → Option ℕ → Option (Option ℕ)
  | [], strtab => some strtab
  | i :: is, strtab => do
      let name ← elfGetWord file (sh + i * shentsize) .shName
      let offset ← elfGetQuad file (sh + i * shentsize) .shOffset
      let eq ← strcmpEq file (shstrtab + name) strtabName
      strtabLoop sh shentsize shstrtab is (if eq then some offset else strtab)

/-- `SHT_SYMTAB`. -/
def shtSymtab : ℕ := 2

/-- The second loop: the symbol tables. -/
def sectionLoop (sh shentsize : ℕ) (strtab : Option ℕ) : List ℕ → σ → Option (ℕ × σ)
  | [], data => some (Kerr.ok.code, data)
  | i :: is, data => do
      let v := sh + i * shentsize
      let type ← elfGetWord file v .shType
      if type = shtSymtab then
        let (ret, data) ← symtabGet file hook v strtab data
        if ret ≠ Kerr.ok.code then some (ret, data)
        else sectionLoop sh shentsize strtab is data
      else sectionLoop sh shentsize strtab is data

/-- `__elf_symtab_process` with a hook. -/
def symtabProcess (data : σ) : Option (ℕ × σ) := do
  let shoff ← elfGetQuad file 0 .eShoff
  let shentsize ← elfGetQuarter file 0 .eShentsize
  let shnum ← elfGetQuarter file 0 .eShnum
  let shstrndx ← elfGetQuarter file 0 .eShstrndx
  let shstrtab ← elfGetQuad file (shoff + shstrndx * shentsize) .shOffset
  let strtab ← strtabLoop file shoff shentsize shstrtab (List.range shnum) none
  sectionLoop file hook shoff shentsize strtab (List.range shnum) data

/-- `kylin_elf_symbol`; the hook is given a pointer into the file and a value. -/
def elfSymbol (data : σ) : Option (ℕ × σ) := symtabProcess file hook data

end Walk

/-! ## Places in a file -/

/-- A pointer points into the file. -/
def InFile (file : List Byte) (p : ℕ) : Prop := p % 2 ^ 64 < file.length

/-- The bytes of a place lie in the file. -/
def Inside (file : List Byte) (p w : ℕ) : Prop := ∀ k, k < w → InFile file (p + k)

/-- The byte at a pointer, when it is in the file. -/
def byteAt (file : List Byte) (p : ℕ) : Byte := file.getD (p % 2 ^ 64) 0

/-- The bytes of a place. -/
def placeBytes (file : List Byte) (p w : ℕ) : List Byte :=
  (List.range w).map fun k => byteAt file (p + k)

/-- A member of the structure at `base` lies in the file, with what has to be read to find
it. -/
def FieldInside (width : Width) (file : List Byte) (base : ℕ) (m : Member) : Prop :=
  InFile file eiClass ∧ ∀ c, classOf (byteAt file eiClass) = some c →
    InFile file eiData ∧ ∀ o, orderOf (byteAt file eiData) = some o →
      Inside file (base + place c m) (width.bytes c)

/-- The value of a member. -/
def fieldVal (width : Width) (file : List Byte) (base : ℕ) (m : Member) : ℕ :=
  match classOf (byteAt file eiClass), orderOf (byteAt file eiData) with
  | some c, some o => o.decode (placeBytes file (base + place c m) (width.bytes c))
  | _, _ => 0

/-- The comparison with a literal, from a pointer on, stays in the file: it goes on only as
far as the bytes agree. -/
def CompareInside (file : List Byte) (p : ℕ) (s : List Byte) : Prop :=
  ∀ k, k < s.length → placeBytes file p k = s.take k → InFile file (p + k)

section Places
variable {file : List Byte} {p w base v : ℕ} {width : Width} {m : Member}

theorem inside_succ : Inside file p (w + 1) ↔ InFile file p ∧ Inside file (p + 1) w := by
  constructor
  · intro h
    refine ⟨h 0 (Nat.succ_pos w), fun k hk => ?_⟩
    rw [Nat.add_right_comm, Nat.add_assoc]
    exact h (k + 1) (Nat.succ_lt_succ hk)
  · intro ⟨h0, h⟩ k hk
    cases k with
    | zero => exact h0
    | succ k =>
        rw [Nat.add_comm k, ← Nat.add_assoc]
        exact h k (Nat.lt_of_succ_lt_succ hk)

theorem placeBytes_succ :
    placeBytes file p (w + 1) = byteAt file p :: placeBytes file (p + 1) w := by
  simp [placeBytes, List.range_succ_eq_map, Function.comp_def, Nat.add_assoc, Nat.add_comm 1]

theorem peek_eq_some_iff {b : Byte} :
    peek file p = some b ↔ InFile file p ∧ byteAt file p = b := by
  rw [InFile, peek, byteAt, List.getD_eq_getElem?_getD]
  constructor
  · intro h
    exact ⟨(List.getElem?_eq_some_iff.mp h).1, by rw [h, Option.getD_some]⟩
  · intro ⟨hlt, hb⟩
    rw [List.getElem?_eq_getElem hlt] at hb ⊢
    exact congrArg some hb

theorem bytesAt_eq_some_iff {bs : List Byte} :
    bytesAt file p w = some bs ↔ Inside file p w ∧ placeBytes file p w = bs := by
  induction w generalizing p bs with
  | zero => simp [bytesAt, Inside, placeBytes]
  | succ w ih =>
      simp only [bytesAt, Option.bind_eq_bind, Option.bind_eq_some_iff, peek_eq_some_iff, ih,
        inside_succ, placeBytes_succ, Option.some.injEq]
      constructor
      · rintro ⟨b, ⟨h1, rfl⟩, bs, ⟨h2, rfl⟩, rfl⟩
        exact ⟨⟨h1, h2⟩, rfl⟩
      · rintro ⟨⟨h1, h2⟩, rfl⟩
        exact ⟨_, ⟨h1, rfl⟩, _, ⟨h2, rfl⟩, rfl⟩

/-- **What the accessors return**, and when. -/
theorem elfGet_eq_some_iff :
    elfGet width file base m = some v ↔
      FieldInside width file base m ∧ fieldVal width file base m = v := by
  simp only [elfGet, Option.bind_eq_bind, Option.bind_eq_some_iff, peek_eq_some_iff, FieldInside,
    fieldVal, and_assoc, exists_and_left, exists_eq_left']
  refine and_congr_right fun _ => ?_
  cases classOf (byteAt file eiClass) with
  | none => simp
  | some c =>
      simp only [Option.bind_eq_some_iff, peek_eq_some_iff, Option.some.injEq, forall_eq',
        and_assoc, exists_and_left, exists_eq_left']
      refine and_congr_right fun _ => ?_
      cases orderOf (byteAt file eiData) with
      | none => simp
      | some o => simp [elfOffset_eq_place, bytesAt_eq_some_iff, and_assoc]

theorem compareInside_cons {c : Byte} {s : List Byte} :
    CompareInside file p (c :: s) ↔
      InFile file p ∧ (byteAt file p = c → CompareInside file (p + 1) s) := by
  constructor
  · intro h
    refine ⟨h 0 (by simp) (by simp [placeBytes]), fun hb k hk hsame => ?_⟩
    have := h (k + 1) (by simpa using hk) (by simp [placeBytes_succ, hb, hsame])
    rwa [Nat.add_comm k, ← Nat.add_assoc] at this
  · intro ⟨h0, h⟩ k hk hsame
    cases k with
    | zero => exact h0
    | succ k =>
        rw [placeBytes_succ, List.take_succ_cons, List.cons.injEq] at hsame
        rw [Nat.add_comm k, ← Nat.add_assoc]
        exact h hsame.1 k (by simpa using hk) hsame.2

theorem strcmpEq_eq_some_iff {s : List Byte} {r : Bool} :
    strcmpEq file p s = some r ↔
      CompareInside file p s ∧ (r = true ↔ placeBytes file p s.length = s) := by
  induction s generalizing p with
  | nil => cases r <;> simp [strcmpEq, CompareInside, placeBytes]
  | cons c s ih =>
      simp only [strcmpEq, Option.bind_eq_bind, Option.bind_eq_some_iff, peek_eq_some_iff,
        compareInside_cons, List.length_cons, placeBytes_succ, List.cons.injEq, and_assoc,
        exists_and_left, exists_eq_left']
      refine and_congr_right fun _ => ?_
      by_cases hb : byteAt file p = c
      · simp [hb, ih]
      · cases r <;> simp [hb]

end Places

/-! ## Well-formed files -/

section WellFormed
variable (file : List Byte)

/-- An entry of a symbol table, with the first character of its name. -/
structure SymbolInside (strtab : Option ℕ) (st : ℕ) : Prop where
  name : FieldInside .word file st .stName
  value : FieldInside .quad file st .stValue
  size : FieldInside .quad file st .stSize
  char : ∃ t, strtab = some t ∧ InFile file (t + fieldVal .word file st .stName)

/-- A symbol table: its entries have a size, and lie in the file. -/
structure SymtabInside (strtab : Option ℕ) (sh : ℕ) : Prop where
  offset : FieldInside .quad file sh .shOffset
  entsize : FieldInside .quad file sh .shEntsize
  size : FieldInside .quad file sh .shSize
  name : FieldInside .word file sh .shName
  nonzero : fieldVal .quad file sh .shEntsize ≠ 0
  symbols : ∀ i, i < entries (fieldVal .quad file sh .shSize) (fieldVal .quad file sh .shEntsize) →
    SymbolInside file strtab
      (fieldVal .quad file sh .shOffset + i * fieldVal .quad file sh .shEntsize)

/-- `e_shnum`. -/
def shnum : ℕ := fieldVal .quarter file 0 .eShnum

/-- The section header of an index. -/
def sectionAt (i : ℕ) : ℕ :=
  fieldVal .quad file 0 .eShoff + i * fieldVal .quarter file 0 .eShentsize

/-- The section with the names of the sections. -/
def shstrtab : ℕ :=
  fieldVal .quad file (sectionAt file (fieldVal .quarter file 0 .eShstrndx)) .shOffset

/-- Where the name of a section is. -/
def sectionName (i : ℕ) : ℕ := shstrtab file + fieldVal .word file (sectionAt file i) .shName

/-- The string table of a list of sections: the last one called `.strtab`. -/
def strtabOf (is : List ℕ) (strtab : Option ℕ) : Option ℕ :=
  is.foldl (fun strtab i =>
    if placeBytes file (sectionName file i) strtabName.length = strtabName then
      some (fieldVal .quad file (sectionAt file i) .shOffset)
    else strtab) strtab

/-- The string table of the file. -/
def strtab : Option ℕ := strtabOf file (List.range (shnum file)) none

/-- What the walk reads before the symbol tables: the header, and the names and offsets of
the sections. -/
structure HeadersInside : Prop where
  shoff : FieldInside .quad file 0 .eShoff
  shentsize : FieldInside .quarter file 0 .eShentsize
  shnum : FieldInside .quarter file 0 .eShnum
  shstrndx : FieldInside .quarter file 0 .eShstrndx
  names : FieldInside .quad file (sectionAt file (fieldVal .quarter file 0 .eShstrndx)) .shOffset
  sections : ∀ i ∈ List.range (Elf.shnum file),
    FieldInside .word file (sectionAt file i) .shName ∧
      FieldInside .quad file (sectionAt file i) .shOffset ∧
      CompareInside file (sectionName file i) strtabName

/-- **The files on which the walk is safe**: the fields it reads lie in the file, symbol
tables have entries of a size, and there is a string table when one has entries. -/
structure WellFormed : Prop where
  headers : HeadersInside file
  symtabs : ∀ i ∈ List.range (shnum file),
    FieldInside .word file (sectionAt file i) .shType ∧
      (fieldVal .word file (sectionAt file i) .shType = shtSymtab →
        SymtabInside file (strtab file) (sectionAt file i))

end WellFormed

section Safety
variable {σ : Type} {file : List Byte} {hook : ℕ → ℕ → σ → ℕ × σ}

/-- The loop over a symbol table returns when its entries are in the file. -/
theorem symtabLoop_isSome {offset entsize : ℕ} {str : Option ℕ} {is : List ℕ}
    (h : ∀ i ∈ is, SymbolInside file str (offset + i * entsize)) (data : σ) :
    (symtabLoop file hook offset entsize str is data).isSome := by
  induction is generalizing data with
  | nil => rfl
  | cons i is ih =>
      obtain ⟨hi, his⟩ := List.forall_mem_cons.mp h
      obtain ⟨t, rfl, hchar⟩ := hi.char
      have hname := elfGet_eq_some_iff.mpr ⟨hi.name, rfl⟩
      have hvalue := elfGet_eq_some_iff.mpr ⟨hi.value, rfl⟩
      have hsize := elfGet_eq_some_iff.mpr ⟨hi.size, rfl⟩
      have hpeek := peek_eq_some_iff.mpr ⟨hchar, rfl⟩
      simp only [symtabLoop, elfGetWord, elfGetQuad, hname, hvalue, hsize, hpeek,
        Option.bind_eq_bind, Option.bind_some]
      split
      · split
        · rfl
        · exact ih his _
      · exact ih his _

/-- A hook that never stops the walk. -/
def quiet : ℕ → ℕ → Unit → ℕ × Unit := fun _ _ _ => (Kerr.ok.code, ())

theorem symtabLoop_quiet_cons {offset entsize : ℕ} {str : Option ℕ} {i : ℕ} {is : List ℕ} :
    symtabLoop file quiet offset entsize str (i :: is) () = (do
      let name ← elfGetWord file (offset + i * entsize) .stName
      let _ ← elfGetQuad file (offset + i * entsize) .stValue
      let _ ← elfGetQuad file (offset + i * entsize) .stSize
      let str' ← str
      let _ ← peek file (str' + name)
      symtabLoop file quiet offset entsize str is ()) := by
  simp [symtabLoop, quiet]

/-- With such a hook the loop reads all entries. -/
theorem symtabLoop_quiet {offset entsize : ℕ} {str : Option ℕ} {is : List ℕ} {r : ℕ × Unit} :
    symtabLoop file quiet offset entsize str is () = some r ↔
      (∀ i ∈ is, SymbolInside file str (offset + i * entsize)) ∧ r = (Kerr.ok.code, ()) := by
  induction is with
  | nil => simp [symtabLoop, eq_comm]
  | cons i is ih =>
      rw [symtabLoop_quiet_cons]
      simp only [elfGetWord, elfGetQuad, Option.bind_eq_bind, Option.bind_eq_some_iff,
        elfGet_eq_some_iff, peek_eq_some_iff, ih, List.forall_mem_cons]
      constructor
      · rintro ⟨name, ⟨hname, rfl⟩, _, ⟨hvalue, -⟩, _, ⟨hsize, -⟩, t, rfl, _, ⟨hchar, -⟩, his, hr⟩
        exact ⟨⟨⟨hname, hvalue, hsize, t, rfl, hchar⟩, his⟩, hr⟩
      · rintro ⟨⟨hi, his⟩, hr⟩
        obtain ⟨t, rfl, hchar⟩ := hi.char
        exact ⟨_, ⟨hi.name, rfl⟩, _, ⟨hi.value, rfl⟩, _, ⟨hi.size, rfl⟩, t, rfl, _, ⟨hchar, rfl⟩,
          his, hr⟩

/-- A symbol table in the file, with any hook, -/
theorem symtabGet_isSome {sh : ℕ} {str : Option ℕ} (h : SymtabInside file str sh) (data : σ) :
    (symtabGet file hook sh str data).isSome := by
  have hoffset := elfGet_eq_some_iff.mpr ⟨h.offset, rfl⟩
  have hentsize := elfGet_eq_some_iff.mpr ⟨h.entsize, rfl⟩
  have hsize := elfGet_eq_some_iff.mpr ⟨h.size, rfl⟩
  have hname := elfGet_eq_some_iff.mpr ⟨h.name, rfl⟩
  simp only [symtabGet, elfGetWord, elfGetQuad, hoffset, hentsize, hsize, hname,
    Option.bind_eq_bind, Option.bind_some, if_neg h.nonzero]
  apply symtabLoop_isSome
  intro i hi
  exact h.symbols i (List.mem_range.mp hi)

/-- and with a hook that never stops. -/
theorem symtabGet_quiet {sh : ℕ} {str : Option ℕ} {r : ℕ × Unit} :
    symtabGet file quiet sh str () = some r ↔
      SymtabInside file str sh ∧ r = (Kerr.ok.code, ()) := by
  simp only [symtabGet, elfGetWord, elfGetQuad, Option.bind_eq_bind, Option.bind_eq_some_iff,
    elfGet_eq_some_iff, Option.ite_none_left_eq_some, symtabLoop_quiet, List.mem_range]
  constructor
  · rintro ⟨_, ⟨hoffset, rfl⟩, _, ⟨hentsize, rfl⟩, _, ⟨hsize, rfl⟩, _, ⟨hname, -⟩, hne, hsym, hr⟩
    exact ⟨⟨hoffset, hentsize, hsize, hname, hne, hsym⟩, hr⟩
  · rintro ⟨h, hr⟩
    exact ⟨_, ⟨h.offset, rfl⟩, _, ⟨h.entsize, rfl⟩, _, ⟨h.size, rfl⟩, _, ⟨h.name, rfl⟩, h.nonzero,
      h.symbols, hr⟩

/-- The search for the string table. -/
theorem strtabLoop_eq_some_iff {is : List ℕ} {strtab r : Option ℕ} :
    strtabLoop file (fieldVal .quad file 0 .eShoff) (fieldVal .quarter file 0 .eShentsize)
        (shstrtab file) is strtab = some r ↔
      (∀ i ∈ is, FieldInside .word file (sectionAt file i) .shName ∧
        FieldInside .quad file (sectionAt file i) .shOffset ∧
        CompareInside file (sectionName file i) strtabName) ∧
      strtabOf file is strtab = r := by
  induction is generalizing strtab with
  | nil => simp [strtabLoop, strtabOf]
  | cons i is ih =>
      simp only [strtabLoop, elfGetWord, elfGetQuad, Option.bind_eq_bind, Option.bind_eq_some_iff,
        elfGet_eq_some_iff, strcmpEq_eq_some_iff, ih, List.forall_mem_cons]
      have hcons : strtabOf file (i :: is) strtab =
          strtabOf file is (if placeBytes file (sectionName file i) strtabName.length = strtabName
            then some (fieldVal .quad file (sectionAt file i) .shOffset) else strtab) := rfl
      rw [hcons]
      constructor
      · rintro ⟨_, ⟨hname, rfl⟩, _, ⟨hoffset, rfl⟩, eq, ⟨hinside, heq⟩, his, hr⟩
        refine ⟨⟨⟨hname, hoffset, hinside⟩, his⟩, ?_⟩
        rw [← hr]
        exact congrArg (strtabOf file is) (if_congr heq.symm rfl rfl)
      · rintro ⟨⟨⟨hname, hoffset, hinside⟩, his⟩, hr⟩
        refine ⟨_, ⟨hname, rfl⟩, _, ⟨hoffset, rfl⟩, decide _, ⟨hinside, decide_eq_true_iff⟩, his,
          ?_⟩
        rw [← hr]
        exact congrArg (strtabOf file is) (if_congr decide_eq_true_iff rfl rfl)

/-- The loop over the sections, with any hook, -/
theorem sectionLoop_isSome {sh shentsize : ℕ} {strtab : Option ℕ} {is : List ℕ}
    (h : ∀ i ∈ is, FieldInside .word file (sh + i * shentsize) .shType ∧
      (fieldVal .word file (sh + i * shentsize) .shType = shtSymtab →
        SymtabInside file strtab (sh + i * shentsize))) (data : σ) :
    (sectionLoop file hook sh shentsize strtab is data).isSome := by
  induction is generalizing data with
  | nil => rfl
  | cons i is ih =>
      obtain ⟨⟨hi, hsym⟩, his⟩ := List.forall_mem_cons.mp h
      have htype := elfGet_eq_some_iff.mpr ⟨hi, rfl⟩
      simp only [sectionLoop, elfGetWord, htype, Option.bind_eq_bind, Option.bind_some]
      split
      · next hsymtab =>
          have hget : (symtabGet file hook (sh + i * shentsize) strtab data).isSome :=
            symtabGet_isSome (hsym hsymtab) data
          obtain ⟨r, hr⟩ := Option.isSome_iff_exists.mp hget
          simp only [hr, Option.bind_some]
          split
          · rfl
          · exact ih his _
      · exact ih his _

/-- and with a hook that never stops. -/
theorem sectionLoop_quiet {sh shentsize : ℕ} {strtab : Option ℕ} {is : List ℕ} {r : ℕ × Unit} :
    sectionLoop file quiet sh shentsize strtab is () = some r ↔
      (∀ i ∈ is, FieldInside .word file (sh + i * shentsize) .shType ∧
        (fieldVal .word file (sh + i * shentsize) .shType = shtSymtab →
          SymtabInside file strtab (sh + i * shentsize))) ∧ r = (Kerr.ok.code, ()) := by
  induction is with
  | nil => simp [sectionLoop, eq_comm]
  | cons i is ih =>
      simp only [sectionLoop, elfGetWord, Option.bind_eq_bind, Option.bind_eq_some_iff,
        elfGet_eq_some_iff, List.forall_mem_cons]
      constructor
      · rintro ⟨_, ⟨htype, rfl⟩, h⟩
        split at h
        · next hsymtab =>
            obtain ⟨r', hr', h⟩ := Option.bind_eq_some_iff.mp h
            obtain ⟨hsym, rfl⟩ := symtabGet_quiet.mp hr'
            rw [if_neg (by simp)] at h
            exact ⟨⟨⟨htype, fun _ => hsym⟩, (ih.mp h).1⟩, (ih.mp h).2⟩
        · next hother => exact ⟨⟨⟨htype, fun h' => absurd h' hother⟩, (ih.mp h).1⟩, (ih.mp h).2⟩
      · rintro ⟨⟨⟨htype, hsym⟩, his⟩, hr⟩
        refine ⟨_, ⟨htype, rfl⟩, ?_⟩
        split
        · next hsymtab =>
            rw [symtabGet_quiet.mpr ⟨hsym hsymtab, rfl⟩, Option.bind_some, if_neg (by simp)]
            exact ih.mpr ⟨his, hr⟩
        · exact ih.mpr ⟨his, hr⟩

/-- The walk comes to the loop over the sections when the headers are in the file. -/
theorem elfSymbol_eq_some_iff {data : σ} {r : ℕ × σ} :
    elfSymbol file hook data = some r ↔
      HeadersInside file ∧
        sectionLoop file hook (fieldVal .quad file 0 .eShoff)
          (fieldVal .quarter file 0 .eShentsize) (strtab file) (List.range (shnum file)) data =
            some r := by
  simp only [elfSymbol, symtabProcess, elfGetQuad, elfGetQuarter, Option.bind_eq_bind,
    Option.bind_eq_some_iff, elfGet_eq_some_iff]
  constructor
  · rintro ⟨_, ⟨hshoff, rfl⟩, _, ⟨hshentsize, rfl⟩, _, ⟨hshnum, rfl⟩, _, ⟨hshstrndx, rfl⟩, _,
      ⟨hnames, rfl⟩, _, hstrtab, hloop⟩
    obtain ⟨hsections, rfl⟩ := strtabLoop_eq_some_iff.mp hstrtab
    exact ⟨⟨hshoff, hshentsize, hshnum, hshstrndx, hnames, hsections⟩, hloop⟩
  · rintro ⟨h, hloop⟩
    exact ⟨_, ⟨h.shoff, rfl⟩, _, ⟨h.shentsize, rfl⟩, _, ⟨h.shnum, rfl⟩, _, ⟨h.shstrndx, rfl⟩, _,
      ⟨h.names, rfl⟩, _, strtabLoop_eq_some_iff.mpr ⟨h.sections, rfl⟩, hloop⟩

end Safety

/-- **When the walk is safe.**  It returns with every hook, without a load outside the file,
a division by zero or a use of a missing string table, exactly on well-formed files. -/
theorem returns_iff (file : List Byte) :
    (∀ (σ : Type) (hook : ℕ → ℕ → σ → ℕ × σ) (data : σ), (elfSymbol file hook data).isSome) ↔
      WellFormed file := by
  constructor
  · intro h
    obtain ⟨r, hr⟩ := Option.isSome_iff_exists.mp (h Unit quiet ())
    obtain ⟨hheaders, hloop⟩ := elfSymbol_eq_some_iff.mp hr
    exact ⟨hheaders, (sectionLoop_quiet.mp hloop).1⟩
  · intro h σ hook data
    have hloop : (sectionLoop file hook (fieldVal .quad file 0 .eShoff)
        (fieldVal .quarter file 0 .eShentsize) (strtab file) (List.range (shnum file))
          data).isSome := sectionLoop_isSome h.symtabs data
    obtain ⟨r, hr⟩ := Option.isSome_iff_exists.mp hloop
    exact Option.isSome_iff_exists.mpr ⟨r, elfSymbol_eq_some_iff.mpr ⟨h.headers, hr⟩⟩

/-- A file of one byte: the class is read behind its end. -/
theorem not_returns_short :
    ∃ file : List Byte, 0 < file.length ∧ file.length < 2 ^ 31 ∧ elfSymbol file quiet () = none :=
  ⟨[0x7f], by decide, by decide, rfl⟩

end Kylin.Elf
