import Kylin.Core.Elf
import Mathlib.Data.List.Forall2

/-!
# The symbols of a well-formed ELF file

What `kylin_elf_symbol` is for: the hook is called on the named symbols with a value, in the
order of the table, until it fails.  `Encodes` says when a file holds a list of symbols, in
terms of the structures of `<elf.h>` alone: it knows neither the tables of offsets nor the
accessors, and leaves open where in the file things are.

`elfSymbol_encodes` shows that class and byte order make no difference.

## Main definitions

* `Stored`, `CStringAt` — numbers and strings in a file.
* `Image`, `Encodes` — the sections and symbols of a file.
* `callHooks` — the calls that are expected.

## Main results

* `elfSymbol_encodes` — the calls that are made.
-/

namespace Kylin.Elf

open Lib

/-! ## Files -/

/-- The width of a field. -/
def widthof (s : Struct) (f : Field) : ℕ := ((s.find? fun x => x.1 = f).map Prod.snd).getD 0

/-- A field of the structure at `base` holds a number. -/
def Stored (o : Order) (file : List Byte) (base : ℕ) (s : Struct) (f : Field) (v : ℕ) : Prop :=
  v < 256 ^ widthof s f ∧ o.encode (widthof s f) v <+: file.drop (base + offsetof s f)

/-- A string, with its NUL byte. -/
def CStringAt (file : List Byte) (p : ℕ) (s : List Byte) : Prop :=
  0 ∉ s ∧ s ++ [0] <+: file.drop p

/-- The class in `e_ident`. -/
def Class.byte : Class → Byte
  | .elf32 => 1
  | .elf64 => 2

/-- The byte order in `e_ident`. -/
def dataByte : Order → Byte
  | .little => 1
  | .big => 2

/-- A section: what its header holds, and its name. -/
structure Section where
  name : List Byte
  nameOff : ℕ
  type : ℕ
  offset : ℕ
  size : ℕ
  entsize : ℕ

/-- What is in a file, and where: the section headers from `shoff` on, the indices of the
section with the names of the sections, of `.strtab` and of the symbol table, and the
offsets of the symbols' names. -/
structure Image where
  shoff : ℕ
  shstrndx : ℕ
  sections : List Section
  strndx : ℕ
  symndx : ℕ
  nameOffs : List ℕ

/-- A symbol: its name and its value. -/
abbrev Symbol := List Byte × ℕ

/-- The header of a section. -/
structure SectionStored (c : Class) (o : Order) (file : List Byte) (base : ℕ) (x : Section) :
    Prop where
  name : Stored o file base (shdr c) .shName x.nameOff
  type : Stored o file base (shdr c) .shType x.type
  offset : Stored o file base (shdr c) .shOffset x.offset
  size : Stored o file base (shdr c) .shSize x.size
  entsize : Stored o file base (shdr c) .shEntsize x.entsize

/-- An entry of the symbol table at `base`, with its name in the string table at `str`. -/
structure SymbolStored (c : Class) (o : Order) (file : List Byte) (str base nameOff : ℕ)
    (x : Symbol) : Prop where
  name : Stored o file base (sym c) .stName nameOff
  value : Stored o file base (sym c) .stValue x.2
  size : ∃ v, Stored o file base (sym c) .stSize v
  string : CStringAt file (str + nameOff) x.1

/-- **A well-formed file with a list of symbols**, of a class and in a byte order: one section
is called `.strtab`, and one is a symbol table. -/
structure Encodes (c : Class) (o : Order) (syms : List Symbol) (file : List Byte) (im : Image) :
    Prop where
  small : file.length < 2 ^ 64
  class_byte : file[eiClass]? = some c.byte
  data_byte : file[eiData]? = some (dataByte o)
  shoff : Stored o file 0 (ehdr c) .eShoff im.shoff
  shentsize : Stored o file 0 (ehdr c) .eShentsize (sizeof (shdr c))
  shnum : Stored o file 0 (ehdr c) .eShnum im.sections.length
  shstrndx : Stored o file 0 (ehdr c) .eShstrndx im.shstrndx
  headers : ∀ i x, im.sections[i]? = some x →
    SectionStored c o file (im.shoff + i * sizeof (shdr c)) x
  names : ∃ strs, im.sections[im.shstrndx]? = some strs ∧
    ∀ x ∈ im.sections, CStringAt file (strs.offset + x.nameOff) x.name
  strtab_iff : ∀ i x, im.sections[i]? = some x → (x.name ++ [0] = strtabName ↔ i = im.strndx)
  symtab_iff : ∀ i x, im.sections[i]? = some x → (x.type = shtSymtab ↔ i = im.symndx)
  few : syms.length < 2 ^ 31
  values : ∀ x ∈ syms, x.2 < 2 ^ 32
  symbols : ∃ str symtab, im.sections[im.strndx]? = some str ∧
    im.sections[im.symndx]? = some symtab ∧ symtab.entsize = sizeof (sym c) ∧
    symtab.size = syms.length * sizeof (sym c) ∧ im.nameOffs.length = syms.length ∧
    ∀ j x nameOff, syms[j]? = some x → im.nameOffs[j]? = some nameOff →
      SymbolStored c o file str.offset (symtab.offset + j * sizeof (sym c)) nameOff x

/-! ## The calls -/

section Hooks
variable {σ : Type}

/-- The calls on a list of symbols, until one fails. -/
def callHooks (hook : List Byte → ℕ → σ → ℕ × σ) : List Symbol → σ → ℕ × σ
  | [], data => (Kerr.ok.code, data)
  | x :: xs, data =>
      let (ret, data) := hook x.1 x.2 data
      if ret ≠ Kerr.ok.code then (ret, data) else callHooks hook xs data

/-- The symbols that the hook is called on. -/
def called (syms : List Symbol) : List Symbol := syms.filter fun x => x.1 ≠ [] ∧ x.2 ≠ 0

/-- A hook that reads the name it is given a pointer to. -/
def onNames (file : List Byte) (hook : List Byte → ℕ → σ → ℕ × σ) : ℕ → ℕ → σ → ℕ × σ :=
  fun p value data => hook ((file.drop p).takeWhile fun b => b ≠ 0) value data

end Hooks

/-! ## Loads from such a file -/

section Loads
variable {c : Class} {o : Order} {file : List Byte} {p base v : ℕ}

/-- Bytes that stand in the file are found there. -/
theorem place_of_prefix (hsmall : file.length < 2 ^ 64) {bs : List Byte}
    (h : bs <+: file.drop p) : Inside file p bs.length ∧ placeBytes file p bs.length = bs := by
  induction bs generalizing p with
  | nil => exact ⟨nofun, rfl⟩
  | cons b bs ih =>
      obtain ⟨rest, hrest⟩ := h
      have hget : file[p]? = some b := by
        rw [← List.head?_drop, ← hrest]
        rfl
      have hlt : p < file.length := (List.getElem?_eq_some_iff.mp hget).1
      have htail : bs <+: file.drop (p + 1) := by
        rw [← List.tail_drop, ← hrest]
        exact List.prefix_append bs rest
      obtain ⟨hin, hbytes⟩ := ih htail
      have hmod : p % 2 ^ 64 = p := Nat.mod_eq_of_lt (by omega)
      refine ⟨inside_succ.mpr ⟨?_, hin⟩, ?_⟩
      · rwa [InFile, hmod]
      · rw [List.length_cons, placeBytes_succ, hbytes, byteAt, hmod, List.getD_eq_getElem?_getD,
          hget, Option.getD_some]

/-- What an accessor returns for a field of its structure. -/
theorem Encodes.elfGet {syms : List Symbol} {im : Image} (E : Encodes c o syms file im)
    (width : Width) (m : Member) {s : Struct} {f : Field} (h : Stored o file base s f v)
    (hplace : place c m = offsetof s f) (hwidth : width.bytes c = widthof s f) :
    Elf.elfGet width file base m = some v := by
  have hclass : peek file eiClass = some c.byte := E.class_byte
  have hdata : peek file eiData = some (dataByte o) := E.data_byte
  have hclassOf : classOf c.byte = some c := by cases c <;> rfl
  have horderOf : orderOf (dataByte o) = some o := by cases o <;> rfl
  obtain ⟨hin, hbytes⟩ := place_of_prefix E.small h.2
  rw [Order.length_encode] at hin hbytes
  have hload : bytesAt file (base + elfOffset c m) (width.bytes c) =
      some (o.encode (widthof s f) v) := by
    rw [elfOffset_eq_place, hplace, hwidth]
    exact bytesAt_eq_some_iff.mpr ⟨hin, hbytes⟩
  simp only [Elf.elfGet, hclass, hdata, hclassOf, horderOf, hload, Option.bind_eq_bind,
    Option.bind_some, Option.map_some, Order.decode_encode o h.1]

end Loads

section Strings
variable {file : List Byte} {p : ℕ} {s t : List Byte}

/-- The string at a pointer is determined by the bytes there. -/
theorem string_unique (hs : 0 ∉ s) (ht : 0 ∉ t) (h : placeBytes file p (s.length + 1) = s ++ [0])
    (h' : placeBytes file p (t.length + 1) = t ++ [0]) : s = t := by
  induction s generalizing p t with
  | nil =>
      cases t with
      | nil => rfl
      | cons b t =>
          rw [placeBytes_succ] at h h'
          have hb : b = 0 := (List.cons.inj h').1.symm.trans (List.cons.inj h).1
          exact absurd (hb ▸ List.mem_cons_self) ht
  | cons a s ih =>
      cases t with
      | nil =>
          rw [placeBytes_succ] at h h'
          have ha : a = 0 := (List.cons.inj h).1.symm.trans (List.cons.inj h').1
          exact absurd (ha ▸ List.mem_cons_self) hs
      | cons b t =>
          rw [List.length_cons, placeBytes_succ] at h h'
          have hab : a = b := (List.cons.inj h).1.symm.trans (List.cons.inj h').1
          rw [hab, ih (fun hm => hs (List.mem_cons_of_mem _ hm))
            (fun hm => ht (List.mem_cons_of_mem _ hm)) (List.cons.inj h).2 (List.cons.inj h').2]

/-- A comparison does not go past the end of a string. -/
theorem compareInside_string (hs : 0 ∉ s) (ht : 0 ∉ t) (hin : Inside file p (s.length + 1))
    (h : placeBytes file p (s.length + 1) = s ++ [0]) : CompareInside file p (t ++ [0]) := by
  induction t generalizing p s with
  | nil => exact compareInside_cons.mpr ⟨(inside_succ.mp hin).1, fun _ => nofun⟩
  | cons b t ih =>
      refine compareInside_cons.mpr ⟨(inside_succ.mp hin).1, fun hb => ?_⟩
      rw [placeBytes_succ] at h
      cases s with
      | nil =>
          have hzero : b = 0 := hb.symm.trans (List.cons.inj h).1
          exact absurd (hzero ▸ List.mem_cons_self) ht
      | cons a s =>
          exact ih (fun hm => hs (List.mem_cons_of_mem _ hm))
            (fun hm => ht (List.mem_cons_of_mem _ hm)) (inside_succ.mp hin).2 (List.cons.inj h).2

end Strings

/-! ## The walk -/

section Walk
variable {c : Class} {o : Order} {syms : List Symbol} {file : List Byte} {im : Image} {σ : Type}
  {hook : List Byte → ℕ → σ → ℕ × σ}

/-- The test of a section's name. -/
theorem Encodes.strcmpEq (E : Encodes c o syms file im) {p : ℕ} {s : List Byte}
    (h : CStringAt file p s) :
    Elf.strcmpEq file p strtabName = some (decide (s ++ [0] = strtabName)) := by
  have hlit : strtabName = strtabName.dropLast ++ [0] := rfl
  have hnul : (0 : Byte) ∉ strtabName.dropLast := by decide
  obtain ⟨hin, hbytes⟩ := place_of_prefix E.small h.2
  rw [List.length_append, List.length_singleton] at hin hbytes
  refine strcmpEq_eq_some_iff.mpr ⟨?_, ?_⟩
  · rw [hlit]
    exact compareInside_string h.1 hnul hin hbytes
  · rw [decide_eq_true_iff]
    constructor
    · intro hs
      rwa [← hs, List.length_append, List.length_singleton]
    · intro hp
      rw [string_unique (t := strtabName.dropLast) h.1 hnul hbytes hp]
      rfl

/-- The string table is found. -/
theorem Encodes.strtabLoop (E : Encodes c o syms file im) {strs str : Section}
    (hnames : ∀ x ∈ im.sections, CStringAt file (strs.offset + x.nameOff) x.name)
    (hstr : im.sections[im.strndx]? = some str) {is : List ℕ}
    (his : ∀ i ∈ is, i < im.sections.length) (acc : Option ℕ) :
    Elf.strtabLoop file im.shoff (sizeof (shdr c)) strs.offset is acc =
      some (if im.strndx ∈ is then some str.offset else acc) := by
  induction is generalizing acc with
  | nil => simp [Elf.strtabLoop]
  | cons i is ih =>
      obtain ⟨hi, his⟩ := List.forall_mem_cons.mp his
      have hx := List.getElem?_eq_getElem hi
      have H := E.headers i _ hx
      have hname := E.elfGet .word .shName H.name rfl rfl
      have hoffset := E.elfGet .quad .shOffset H.offset rfl rfl
      have hcmp := E.strcmpEq (hnames _ (List.getElem_mem hi))
      have hiff := E.strtab_iff i _ hx
      simp only [Elf.strtabLoop, elfGetWord, elfGetQuad, hname, hoffset, hcmp, Option.bind_eq_bind,
        Option.bind_some, decide_eq_true_iff, hiff, ih his, List.mem_cons, Option.some.injEq]
      by_cases hi' : i = im.strndx
      · have hsame : im.sections[i] = str := by
          rw [← hi', hx] at hstr
          exact Option.some.inj hstr
        simp [hi', ← hsame]
      · simp [hi', Ne.symm hi']

/-- What the loop over a symbol table finds at an entry. -/
def SymEntry (file : List Byte) (str offset entsize i : ℕ) (x : Symbol) : Prop :=
  ∃ nameOff size, elfGetWord file (offset + i * entsize) .stName = some nameOff ∧
    elfGetQuad file (offset + i * entsize) .stValue = some x.2 ∧
    elfGetQuad file (offset + i * entsize) .stSize = some size ∧
    CStringAt file (str + nameOff) x.1

/-- The name at a pointer, and its first character. -/
theorem CStringAt.read (hsmall : file.length < 2 ^ 64) {p : ℕ} {s : List Byte}
    (h : CStringAt file p s) :
    p % 2 ^ 64 = p ∧ ((file.drop p).takeWhile fun b => b ≠ 0) = s ∧
      ∃ b, peek file p = some b ∧ (b ≠ 0 ↔ s ≠ []) := by
  obtain ⟨hin, hbytes⟩ := place_of_prefix hsmall h.2
  obtain ⟨rest, hrest⟩ := h.2
  have hlt : p < file.length := by
    by_contra hge
    rw [List.drop_of_length_le (Nat.not_lt.mp hge)] at hrest
    simp at hrest
  have hs : ∀ b ∈ s, (decide (b ≠ 0)) = true := by
    intro b hb
    rw [decide_eq_true_iff]
    rintro rfl
    exact h.1 hb
  refine ⟨Nat.mod_eq_of_lt (by omega), ?_, ?_⟩
  · rw [← hrest, List.append_assoc, List.takeWhile_append_of_pos hs]
    simp
  · rw [List.length_append, List.length_singleton] at hin hbytes
    refine ⟨byteAt file p, peek_eq_some_iff.mpr ⟨(inside_succ.mp hin).1, rfl⟩, ?_⟩
    rw [placeBytes_succ] at hbytes
    cases s with
    | nil => simp [(List.cons.inj hbytes).1]
    | cons b s =>
        rw [(List.cons.inj hbytes).1]
        exact iff_of_true (by simpa using hs b List.mem_cons_self) (by simp)

/-- **The loop over the entries makes the expected calls.** -/
theorem symtabLoop_eq (hsmall : file.length < 2 ^ 64) {str offset entsize : ℕ} {is : List ℕ}
    {xs : List Symbol} (h : List.Forall₂ (SymEntry file str offset entsize) is xs) (data : σ) :
    symtabLoop file (onNames file hook) offset entsize (some str) is data =
      some (callHooks hook (called xs) data) := by
  induction h generalizing data with
  | nil => rfl
  | @cons i x is xs hx _ ih =>
      obtain ⟨nameOff, size, hname, hvalue, hsize, hstring⟩ := hx
      obtain ⟨hmod, hread, b, hpeek, hb⟩ := hstring.read hsmall
      simp only [symtabLoop, hname, hvalue, hsize, hpeek, Option.bind_eq_bind, Option.bind_some,
        hb, hmod, ih]
      by_cases hcalled : x.1 ≠ [] ∧ x.2 ≠ 0
      · have hcons : called (x :: xs) = x :: called xs :=
          List.filter_cons_of_pos (by simpa using hcalled)
        rw [if_pos hcalled, hcons, callHooks]
        simp only [onNames, hread]
        split <;> rfl
      · have hskip : called (x :: xs) = called xs :=
          List.filter_cons_of_neg (by simpa using hcalled)
        rw [if_neg hcalled, hskip]

theorem entries_mul {n entsize : ℕ} (hpos : 0 < entsize) (hn : n < 2 ^ 31) :
    entries (n * entsize) entsize = n := by
  rw [entries, Nat.mul_div_cancel _ hpos, toInt, Nat.mod_eq_of_lt (by omega), if_pos hn]
  exact Int.toNat_natCast n

/-- The symbol table. -/
theorem Encodes.symtabGet (E : Encodes c o syms file im) {str symtab : Section}
    (hsymtab : im.sections[im.symndx]? = some symtab)
    (hentsize : symtab.entsize = sizeof (sym c))
    (hsize : symtab.size = syms.length * sizeof (sym c))
    (hlen : im.nameOffs.length = syms.length)
    (hsyms : ∀ j x nameOff, syms[j]? = some x → im.nameOffs[j]? = some nameOff →
      SymbolStored c o file str.offset (symtab.offset + j * sizeof (sym c)) nameOff x)
    (data : σ) :
    Elf.symtabGet file (onNames file hook) (im.shoff + im.symndx * sizeof (shdr c))
      (some str.offset) data = some (callHooks hook (called syms) data) := by
  have H := E.headers _ _ hsymtab
  have hpos : 0 < sizeof (sym c) := by cases c <;> decide
  have hentries : List.Forall₂ (SymEntry file str.offset symtab.offset (sizeof (sym c)))
      (List.range syms.length) syms := by
    refine List.forall₂_iff_get.mpr ⟨List.length_range, fun j h1 h2 => ?_⟩
    have hj := List.getElem?_eq_getElem h2
    have hoff := List.getElem?_eq_getElem (hlen ▸ h2 : j < im.nameOffs.length)
    have S := hsyms j _ _ hj hoff
    obtain ⟨size, hS⟩ := S.size
    rw [List.get_eq_getElem, List.get_eq_getElem, List.getElem_range]
    refine ⟨_, size, E.elfGet _ _ S.name rfl ?_, E.elfGet _ _ S.value rfl ?_,
      E.elfGet _ _ hS rfl ?_, S.string⟩
    all_goals cases c <;> rfl
  have hoffset := E.elfGet .quad .shOffset H.offset rfl rfl
  have hent := E.elfGet .quad .shEntsize H.entsize rfl rfl
  have hsz := E.elfGet .quad .shSize H.size rfl rfl
  have hname := E.elfGet .word .shName H.name rfl rfl
  rw [hentsize] at hent
  rw [hsize] at hsz
  simp only [Elf.symtabGet, elfGetQuad, elfGetWord, hoffset, hent, hsz, hname, Option.bind_eq_bind,
    Option.bind_some, if_neg hpos.ne', entries_mul hpos E.few]
  exact symtabLoop_eq E.small hentries data

/-- Sections of other types are passed over. -/
theorem Encodes.sectionLoop_others (E : Encodes c o syms file im) {strtab : Option ℕ}
    {is : List ℕ} (his : ∀ i ∈ is, i < im.sections.length ∧ i ≠ im.symndx) (data : σ) :
    sectionLoop file (onNames file hook) im.shoff (sizeof (shdr c)) strtab is data =
      some (Kerr.ok.code, data) := by
  induction is with
  | nil => rfl
  | cons i is ih =>
      obtain ⟨⟨hi, hne⟩, his⟩ := List.forall_mem_cons.mp his
      have hx := List.getElem?_eq_getElem hi
      have htype := E.elfGet .word .shType (E.headers i _ hx).type rfl rfl
      have hother : im.sections[i].type ≠ shtSymtab := mt (E.symtab_iff i _ hx).mp hne
      simp only [sectionLoop, elfGetWord, htype, Option.bind_eq_bind, Option.bind_some,
        if_neg hother]
      exact ih his

/-- The symbol table is met once. -/
theorem Encodes.sectionLoop (E : Encodes c o syms file im) {strtab : Option ℕ} {r : ℕ × σ}
    {data : σ} (hget : Elf.symtabGet file (onNames file hook)
      (im.shoff + im.symndx * sizeof (shdr c)) strtab data = some r)
    {is : List ℕ} (hnodup : is.Nodup)
    (his : ∀ i ∈ is, i < im.sections.length) (hmem : im.symndx ∈ is) :
    Elf.sectionLoop file (onNames file hook) im.shoff (sizeof (shdr c)) strtab is data =
      some r := by
  induction is with
  | nil => cases hmem
  | cons i is ih =>
      obtain ⟨hi, his⟩ := List.forall_mem_cons.mp his
      obtain ⟨hnot, hnodup⟩ := List.nodup_cons.mp hnodup
      have hx := List.getElem?_eq_getElem hi
      have htype := E.elfGet .word .shType (E.headers i _ hx).type rfl rfl
      have hiff := E.symtab_iff i _ hx
      simp only [Elf.sectionLoop, elfGetWord, htype, Option.bind_eq_bind, Option.bind_some]
      by_cases hcur : i = im.symndx
      · rw [if_pos (hiff.mpr hcur), hcur, hget, Option.bind_some]
        split
        · rfl
        · next hret =>
            rw [E.sectionLoop_others (fun j hj => ⟨his j hj, fun h => hnot (hcur ▸ h ▸ hj)⟩)]
            rw [← Classical.not_not.mp hret]
      · rw [if_neg (mt hiff.mp hcur)]
        exact ih hnodup his ((List.mem_cons.mp hmem).resolve_left (Ne.symm hcur))

/-- The walk finds both tables. -/
theorem Encodes.elfSymbol (E : Encodes c o syms file im) (data : σ) :
    Elf.elfSymbol file (onNames file hook) data = some (callHooks hook (called syms) data) := by
  obtain ⟨strs, hstrs, hnames⟩ := E.names
  obtain ⟨str, symtab, hstr, hsymtab, hentsize, hsize, hlen, hsyms⟩ := E.symbols
  have hshoff := E.elfGet .quad .eShoff E.shoff rfl rfl
  have hshentsize := E.elfGet .quarter .eShentsize E.shentsize rfl rfl
  have hshnum := E.elfGet .quarter .eShnum E.shnum rfl rfl
  have hshstrndx := E.elfGet .quarter .eShstrndx E.shstrndx rfl rfl
  have hstrtab := E.elfGet .quad .shOffset (E.headers _ _ hstrs).offset rfl rfl
  have hsections : ∀ i ∈ List.range im.sections.length, i < im.sections.length :=
    fun i hi => List.mem_range.mp hi
  have hstrlt : im.strndx < im.sections.length := (List.getElem?_eq_some_iff.mp hstr).1
  have hsymlt : im.symndx < im.sections.length := (List.getElem?_eq_some_iff.mp hsymtab).1
  simp only [Elf.elfSymbol, symtabProcess, elfGetQuad, elfGetQuarter, hshoff, hshentsize, hshnum,
    hshstrndx, hstrtab, Option.bind_eq_bind, Option.bind_some,
    E.strtabLoop hnames hstr hsections none, if_pos (List.mem_range.mpr hstrlt)]
  exact E.sectionLoop (E.symtabGet hsymtab hentsize hsize hlen hsyms data)
    List.nodup_range hsections (List.mem_range.mpr hsymlt)

/-- **The symbols of an encoded file.**  The hook is called on the symbols with a name and a
value, in their order, until it fails; so any two files with the same symbols, whatever
their classes and byte orders, give the same calls and the same result. -/
theorem elfSymbol_encodes (E : Encodes c o syms file im) (hook : List Byte → ℕ → σ → ℕ × σ)
    (data : σ) :
    elfSymbol file (onNames file hook) data = some (callHooks hook (called syms) data) ∧
      ∀ c' o' file' im', Encodes c' o' syms file' im' →
        elfSymbol file' (onNames file' hook) data = elfSymbol file (onNames file hook) data := by
  refine ⟨E.elfSymbol data, fun c' o' file' im' E' => ?_⟩
  rw [E'.elfSymbol data, E.elfSymbol data]

end Walk

/-! ## A file -/

/-- A structure in memory. -/
def structBytes (o : Order) (s : Struct) (val : Field → ℕ) : List Byte :=
  s.flatMap fun x => o.encode x.2 (val x.1)

/-- Three symbols: the second has no name, the third no value. -/
def sampleSyms : List Symbol := [([97], 7), ([], 5), ([97], 0)]

/-- The strings `".strtab"` and `"a"`. -/
def sampleStrings : List Byte := strtabName ++ [97, 0]

/-- The string table, which also has the names of the sections, and the symbol table. -/
def sampleSections (c : Class) : List Section :=
  let str := sizeof (ehdr c) + 2 * sizeof (shdr c)
  [⟨strtabName.dropLast, 0, 3, str, sampleStrings.length, 0⟩,
    ⟨[], 7, shtSymtab, str + sampleStrings.length, 3 * sizeof (sym c), sizeof (sym c)⟩]

/-- Where things are in the file. -/
def sampleImage (c : Class) : Image := ⟨sizeof (ehdr c), 0, sampleSections c, 0, 1, [8, 7, 8]⟩

/-- The header of the file. -/
def sampleHeader (c : Class) : Field → ℕ
  | .eShoff => sizeof (ehdr c)
  | .eShentsize => sizeof (shdr c)
  | .eShnum => 2
  | _ => 0

/-- The header of a section. -/
def sectionHeader (x : Section) : Field → ℕ
  | .shName => x.nameOff
  | .shType => x.type
  | .shOffset => x.offset
  | .shSize => x.size
  | .shEntsize => x.entsize
  | _ => 0

/-- An entry of the symbol table. -/
def symbolEntry (nameOff value : ℕ) : Field → ℕ
  | .stName => nameOff
  | .stValue => value
  | _ => 0

/-- The file, in a class and a byte order. -/
def sampleFile (c : Class) (o : Order) : List Byte :=
  [0x7f, 69, 76, 70, c.byte, dataByte o, 1, 0, 0, 0, 0, 0, 0, 0, 0, 0] ++
    structBytes o (ehdr c).tail (sampleHeader c) ++
    (sampleSections c).flatMap (fun x => structBytes o (shdr c) (sectionHeader x)) ++
    sampleStrings ++
    structBytes o (sym c) (symbolEntry 8 7) ++ structBytes o (sym c) (symbolEntry 7 5) ++
    structBytes o (sym c) (symbolEntry 8 0)

instance (o : Order) (file : List Byte) (base : ℕ) (s : Struct) (f : Field) (v : ℕ) :
    Decidable (Stored o file base s f v) := inferInstanceAs (Decidable (_ ∧ _))

instance (file : List Byte) (p : ℕ) (s : List Byte) : Decidable (CStringAt file p s) :=
  inferInstanceAs (Decidable (_ ∧ _))

/-- A list of two holds its two elements. -/
theorem forall_getElem?_pair {α : Type} {P : ℕ → α → Prop} {x y : α} (h0 : P 0 x) (h1 : P 1 y) :
    ∀ i z, [x, y][i]? = some z → P i z
  | 0, _, rfl => h0
  | 1, _, rfl => h1

theorem encodes_sample (c : Class) (o : Order) :
    Encodes c o sampleSyms (sampleFile c o) (sampleImage c) where
  small := by cases c <;> cases o <;> decide +kernel
  class_byte := rfl
  data_byte := rfl
  shoff := by cases c <;> cases o <;> decide +kernel
  shentsize := by cases c <;> cases o <;> decide +kernel
  shnum := by cases c <;> cases o <;> decide +kernel
  shstrndx := by cases c <;> cases o <;> decide +kernel
  headers := by
    apply forall_getElem?_pair
    all_goals constructor <;> cases c <;> cases o <;> decide +kernel
  names := ⟨_, rfl, by cases c <;> cases o <;> decide +kernel⟩
  strtab_iff := forall_getElem?_pair (by cases c <;> decide) (by cases c <;> decide)
  symtab_iff := forall_getElem?_pair (by cases c <;> decide) (by cases c <;> decide)
  few := by decide
  values := by decide
  symbols := by
    refine ⟨_, _, rfl, rfl, rfl, rfl, rfl, ?_⟩
    rintro (_ | _ | _ | j) x nameOff hx hoff
    case succ.succ.succ => cases hx
    all_goals
      cases hx
      cases hoff
      constructor
      case size => exact ⟨0, by cases c <;> cases o <;> decide +kernel⟩
      all_goals cases c <;> cases o <;> decide +kernel

/-- A hook that keeps its calls. -/
def record (name : List Byte) (value : ℕ) (calls : List Symbol) : ℕ × List Symbol :=
  (Kerr.ok.code, calls ++ [(name, value)])

/-- The symbol with a name and a value, from a little-endian 32-bit file; a big-endian 64-bit
file gives the same. -/
theorem elfSymbol_sample :
    elfSymbol (sampleFile .elf32 .little) (onNames (sampleFile .elf32 .little) record) [] =
        some (Kerr.ok.code, [([97], 7)]) ∧
      elfSymbol (sampleFile .elf64 .big) (onNames (sampleFile .elf64 .big) record) [] =
        elfSymbol (sampleFile .elf32 .little) (onNames (sampleFile .elf32 .little) record) [] := by
  obtain ⟨hcalls, hsame⟩ := elfSymbol_encodes (encodes_sample .elf32 .little) record []
  exact ⟨hcalls, hsame .elf64 .big _ _ (encodes_sample .elf64 .big)⟩

end Kylin.Elf
