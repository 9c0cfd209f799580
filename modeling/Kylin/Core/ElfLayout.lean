import Mathlib.Algebra.Ring.Nat
import Mathlib.Data.List.Basic
import Mathlib.Tactic.Common

/-!
# The structures of an ELF file

`lib/core/kylin_core_module_elf.c` finds the members of a file through two tables of
offsets, `elf32_offsets` and `elf64_offsets`, indexed by the enumeration `elf_member_t`.  The
entries are offsets in the structures of `<elf.h>`, which are lists of fields with their
widths here.

## Main definitions

* `Class` — the two classes; `Field` and the structures `ehdr`, `shdr`, `sym` and so on.
* `Member`, `elf32Offsets`, `elf64Offsets` — the enumeration and the tables.
* `place` — where a member should be.

## Main results

* `elfOffset_eq_place` — every entry of both tables is in its place.
-/

namespace Kylin.Elf

/-- `ELFCLASS32` and `ELFCLASS64`. -/
inductive Class
  | elf32
  | elf64
  deriving DecidableEq, Repr

/-- The width of addresses, offsets and sizes. -/
def Class.addr : Class → ℕ
  | .elf32 => 4
  | .elf64 => 8

/-- The fields of the structures. -/
inductive Field
  | dTag | dUn
  | eIdent | eType | eMachine | eVersion | eEntry | ePhoff | eShoff | eFlags | eEhsize
  | ePhentsize | ePhnum | eShentsize | eShnum | eShstrndx
  | nNamesz | nDescsz | nType
  | pType | pOffset | pVaddr | pPaddr | pFilesz | pMemsz | pFlags | pAlign
  | shName | shType | shFlags | shAddr | shOffset | shSize | shLink | shInfo | shAddralign
  | shEntsize
  | stName | stValue | stSize | stInfo | stOther | stShndx
  | rOffset | rInfo | rAddend
  deriving DecidableEq, Repr

/-- A structure: its fields in order, with their widths in bytes. -/
abbrev Struct := List (Field × ℕ)

/-- `offsetof`. -/
def offsetof (s : Struct) (f : Field) : ℕ := ((s.takeWhile fun x => x.1 ≠ f).map Prod.snd).sum

/-- `sizeof`. -/
def sizeof (s : Struct) : ℕ := (s.map Prod.snd).sum

section Structs
variable (c : Class)

/-- `Elf32_Dyn`, `Elf64_Dyn`. -/
def dyn : Struct := [(.dTag, c.addr), (.dUn, c.addr)]

/-- `Elf32_Ehdr`, `Elf64_Ehdr`. -/
def ehdr : Struct :=
  [(.eIdent, 16), (.eType, 2), (.eMachine, 2), (.eVersion, 4), (.eEntry, c.addr),
    (.ePhoff, c.addr), (.eShoff, c.addr), (.eFlags, 4), (.eEhsize, 2), (.ePhentsize, 2),
    (.ePhnum, 2), (.eShentsize, 2), (.eShnum, 2), (.eShstrndx, 2)]

/-- `Elf_Note`. -/
def note : Struct := [(.nNamesz, 4), (.nDescsz, 4), (.nType, 4)]

/-- `Elf32_Phdr`, `Elf64_Phdr`. -/
def phdr : Struct :=
  match c with
  | .elf32 => [(.pType, 4), (.pOffset, 4), (.pVaddr, 4), (.pPaddr, 4), (.pFilesz, 4),
      (.pMemsz, 4), (.pFlags, 4), (.pAlign, 4)]
  | .elf64 => [(.pType, 4), (.pFlags, 4), (.pOffset, 8), (.pVaddr, 8), (.pPaddr, 8),
      (.pFilesz, 8), (.pMemsz, 8), (.pAlign, 8)]

/-- `Elf32_Shdr`, `Elf64_Shdr`. -/
def shdr : Struct :=
  [(.shName, 4), (.shType, 4), (.shFlags, c.addr), (.shAddr, c.addr), (.shOffset, c.addr),
    (.shSize, c.addr), (.shLink, 4), (.shInfo, 4), (.shAddralign, c.addr), (.shEntsize, c.addr)]

/-- `Elf32_Sym`, `Elf64_Sym`. -/
def sym : Struct :=
  match c with
  | .elf32 => [(.stName, 4), (.stValue, 4), (.stSize, 4), (.stInfo, 1), (.stOther, 1),
      (.stShndx, 2)]
  | .elf64 => [(.stName, 4), (.stInfo, 1), (.stOther, 1), (.stShndx, 2), (.stValue, 8),
      (.stSize, 8)]

/-- `Elf32_Rel`, `Elf64_Rel`. -/
def rel : Struct := [(.rOffset, c.addr), (.rInfo, c.addr)]

/-- `Elf32_Rela`, `Elf64_Rela`. -/
def rela : Struct := [(.rOffset, c.addr), (.rInfo, c.addr), (.rAddend, c.addr)]

end Structs

/-- `EI_CLASS`. -/
def eiClass : ℕ := 4

/-- `EI_DATA`. -/
def eiData : ℕ := 5

/-- `EI_OSABI`. -/
def eiOsabi : ℕ := 7

/-- `elf_member_t`, which starts at one. -/
inductive Member
  | dTag | dPtr | dVal
  | eClass | eData | eOsabi | eType | eMachine | eVersion | eEntry
  | ePhoff | eShoff | eFlags | eEhsize | ePhentsize | ePhnum | eShentsize
  | eShnum | eShstrndx
  | nNamesz | nDescsz | nType
  | pType | pOffset | pVaddr | pPaddr | pFilesz | pMemsz | pFlags
  | pAlign
  | shName | shType | shFlags | shAddr | shOffset | shSize | shLink
  | shInfo | shAddralign | shEntsize
  | stName | stValue | stSize | stInfo | stShndx
  | rOffset | rInfo
  | raOffset | raInfo | raAddend
  deriving DecidableEq, Repr

/-- The value of an enumerator. -/
def Member.code (m : Member) : ℕ := m.ctorIdx + 1

/-- `elf32_offsets`. -/
def elf32Offsets : List ℕ :=
  [0,
    offsetof (dyn .elf32) .dTag, offsetof (dyn .elf32) .dUn,
    offsetof (dyn .elf32) .dUn,
    offsetof (ehdr .elf32) .eIdent + eiClass,
    offsetof (ehdr .elf32) .eIdent + eiData,
    offsetof (ehdr .elf32) .eIdent + eiOsabi,
    offsetof (ehdr .elf32) .eType, offsetof (ehdr .elf32) .eMachine,
    offsetof (ehdr .elf32) .eVersion, offsetof (ehdr .elf32) .eEntry,
    offsetof (ehdr .elf32) .ePhoff, offsetof (ehdr .elf32) .eShoff,
    offsetof (ehdr .elf32) .eFlags, offsetof (ehdr .elf32) .eEhsize,
    offsetof (ehdr .elf32) .ePhentsize, offsetof (ehdr .elf32) .ePhnum,
    offsetof (ehdr .elf32) .eShentsize, offsetof (ehdr .elf32) .eShnum,
    offsetof (ehdr .elf32) .eShstrndx,
    offsetof note .nNamesz, offsetof note .nDescsz,
    offsetof note .nType,
    offsetof (phdr .elf32) .pType, offsetof (phdr .elf32) .pOffset,
    offsetof (phdr .elf32) .pVaddr, offsetof (phdr .elf32) .pPaddr,
    offsetof (phdr .elf32) .pFilesz, offsetof (phdr .elf32) .pMemsz,
    offsetof (phdr .elf32) .pFlags, offsetof (phdr .elf32) .pAlign,
    offsetof (shdr .elf32) .shName, offsetof (shdr .elf32) .shType,
    offsetof (shdr .elf32) .shFlags, offsetof (shdr .elf32) .shAddr,
    offsetof (shdr .elf32) .shOffset, offsetof (shdr .elf32) .shSize,
    offsetof (shdr .elf32) .shLink, offsetof (shdr .elf32) .shInfo,
    offsetof (shdr .elf32) .shAddralign, offsetof (shdr .elf32) .shEntsize,
    offsetof (sym .elf32) .stName, offsetof (sym .elf32) .stValue,
    offsetof (sym .elf32) .stSize, offsetof (sym .elf32) .stInfo,
    offsetof (sym .elf32) .stShndx,
    offsetof (rel .elf32) .rOffset, offsetof (rel .elf32) .rInfo,
    offsetof (rela .elf32) .rOffset, offsetof (rela .elf32) .rInfo,
    offsetof (rela .elf32) .rAddend]

/-- `elf64_offsets`; the identification is taken from `Elf32_Ehdr`. -/
def elf64Offsets : List ℕ :=
  [0,
    offsetof (dyn .elf64) .dTag, offsetof (dyn .elf64) .dUn,
    offsetof (dyn .elf64) .dUn,
    offsetof (ehdr .elf32) .eIdent + eiClass,
    offsetof (ehdr .elf32) .eIdent + eiData,
    offsetof (ehdr .elf32) .eIdent + eiOsabi,
    offsetof (ehdr .elf64) .eType, offsetof (ehdr .elf64) .eMachine,
    offsetof (ehdr .elf64) .eVersion, offsetof (ehdr .elf64) .eEntry,
    offsetof (ehdr .elf64) .ePhoff, offsetof (ehdr .elf64) .eShoff,
    offsetof (ehdr .elf64) .eFlags, offsetof (ehdr .elf64) .eEhsize,
    offsetof (ehdr .elf64) .ePhentsize, offsetof (ehdr .elf64) .ePhnum,
    offsetof (ehdr .elf64) .eShentsize, offsetof (ehdr .elf64) .eShnum,
    offsetof (ehdr .elf64) .eShstrndx,
    offsetof note .nNamesz, offsetof note .nDescsz,
    offsetof note .nType,
    offsetof (phdr .elf64) .pType, offsetof (phdr .elf64) .pOffset,
    offsetof (phdr .elf64) .pVaddr, offsetof (phdr .elf64) .pPaddr,
    offsetof (phdr .elf64) .pFilesz, offsetof (phdr .elf64) .pMemsz,
    offsetof (phdr .elf64) .pFlags, offsetof (phdr .elf64) .pAlign,
    offsetof (shdr .elf64) .shName, offsetof (shdr .elf64) .shType,
    offsetof (shdr .elf64) .shFlags, offsetof (shdr .elf64) .shAddr,
    offsetof (shdr .elf64) .shOffset, offsetof (shdr .elf64) .shSize,
    offsetof (shdr .elf64) .shLink, offsetof (shdr .elf64) .shInfo,
    offsetof (shdr .elf64) .shAddralign, offsetof (shdr .elf64) .shEntsize,
    offsetof (sym .elf64) .stName, offsetof (sym .elf64) .stValue,
    offsetof (sym .elf64) .stSize, offsetof (sym .elf64) .stInfo,
    offsetof (sym .elf64) .stShndx,
    offsetof (rel .elf64) .rOffset, offsetof (rel .elf64) .rInfo,
    offsetof (rela .elf64) .rOffset, offsetof (rela .elf64) .rInfo,
    offsetof (rela .elf64) .rAddend]

/-- An entry of the table of a class. -/
def elfOffset (c : Class) (m : Member) : ℕ :=
  match c with
  | .elf32 => elf32Offsets.getD m.code 0
  | .elf64 => elf64Offsets.getD m.code 0

/-- **Where a member should be**: the offset of its field in its structure. -/
def place (c : Class) : Member → ℕ
  | .dTag => offsetof (dyn c) .dTag
  | .dPtr | .dVal => offsetof (dyn c) .dUn
  | .eClass => offsetof (ehdr c) .eIdent + eiClass
  | .eData => offsetof (ehdr c) .eIdent + eiData
  | .eOsabi => offsetof (ehdr c) .eIdent + eiOsabi
  | .eType => offsetof (ehdr c) .eType
  | .eMachine => offsetof (ehdr c) .eMachine
  | .eVersion => offsetof (ehdr c) .eVersion
  | .eEntry => offsetof (ehdr c) .eEntry
  | .ePhoff => offsetof (ehdr c) .ePhoff
  | .eShoff => offsetof (ehdr c) .eShoff
  | .eFlags => offsetof (ehdr c) .eFlags
  | .eEhsize => offsetof (ehdr c) .eEhsize
  | .ePhentsize => offsetof (ehdr c) .ePhentsize
  | .ePhnum => offsetof (ehdr c) .ePhnum
  | .eShentsize => offsetof (ehdr c) .eShentsize
  | .eShnum => offsetof (ehdr c) .eShnum
  | .eShstrndx => offsetof (ehdr c) .eShstrndx
  | .nNamesz => offsetof note .nNamesz
  | .nDescsz => offsetof note .nDescsz
  | .nType => offsetof note .nType
  | .pType => offsetof (phdr c) .pType
  | .pOffset => offsetof (phdr c) .pOffset
  | .pVaddr => offsetof (phdr c) .pVaddr
  | .pPaddr => offsetof (phdr c) .pPaddr
  | .pFilesz => offsetof (phdr c) .pFilesz
  | .pMemsz => offsetof (phdr c) .pMemsz
  | .pFlags => offsetof (phdr c) .pFlags
  | .pAlign => offsetof (phdr c) .pAlign
  | .shName => offsetof (shdr c) .shName
  | .shType => offsetof (shdr c) .shType
  | .shFlags => offsetof (shdr c) .shFlags
  | .shAddr => offsetof (shdr c) .shAddr
  | .shOffset => offsetof (shdr c) .shOffset
  | .shSize => offsetof (shdr c) .shSize
  | .shLink => offsetof (shdr c) .shLink
  | .shInfo => offsetof (shdr c) .shInfo
  | .shAddralign => offsetof (shdr c) .shAddralign
  | .shEntsize => offsetof (shdr c) .shEntsize
  | .stName => offsetof (sym c) .stName
  | .stValue => offsetof (sym c) .stValue
  | .stSize => offsetof (sym c) .stSize
  | .stInfo => offsetof (sym c) .stInfo
  | .stShndx => offsetof (sym c) .stShndx
  | .rOffset => offsetof (rel c) .rOffset
  | .rInfo => offsetof (rel c) .rInfo
  | .raOffset => offsetof (rela c) .rOffset
  | .raInfo => offsetof (rela c) .rInfo
  | .raAddend => offsetof (rela c) .rAddend

/-- **The tables are right**: every entry, in both classes, is in its place. -/
theorem elfOffset_eq_place (c : Class) (m : Member) : elfOffset c m = place c m := by
  cases c <;> cases m <;> rfl

example : place .elf32 .shEntsize = 36 ∧ place .elf64 .shEntsize = 56 := by decide

example : sizeof (ehdr .elf64) = 64 ∧ sizeof (shdr .elf64) = 64 ∧ sizeof (sym .elf64) = 24 := by
  decide

end Kylin.Elf
