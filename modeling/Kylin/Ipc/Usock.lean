import Mathlib.Data.Nat.Digits.Defs
import Kylin.Arch.Word
import Kylin.Lib.Buffer

/-!
# The usock PDU

A request and its response share one layout (`lib/core/ipc/usock/kylin_usock.h`): a
packed header of twelve bytes, then `hdr.len` bytes of payload.

```
  byte   0        1     2 3   4 5 6 7   8 9 10 11   12 ...
         version  type  len   cmd       err         data
```

The machine is little-endian, and both ends run on it, so a field is the number
its bytes spell from the lowest.

## Main definitions

* `leDecode`, `leEncode` — a field and its bytes.
* `UsockPduHdr` — the fields; `UsockPduHdr.bytes` lays them out, `hdrOf` reads them back.
* `hdrSize`, `payloadMax`, `pduSize` — the sizes the code computes with.

## Main result

* `hdrOf_bytes` — a header survives being laid out and read back.
-/

namespace Kylin.Usock

open Lib

/-- `sizeof(usock_pdu_hdr_t)`.  The payload is a flexible array, so this is
`sizeof(usock_pdu_t)` too. -/
def hdrSize : ℕ := 12

/-- `KYLIN_USOCK_PDU_PAYLOAD_MAX`. -/
def payloadMax : ℕ := 65535

/-- The block `__server_accept` allocates for a PDU. -/
def pduSize : ℕ := hdrSize + payloadMax

/-! ## Fields -/

/-- The number that bytes spell, lowest first. -/
def leDecode (bs : List Byte) : ℕ := Nat.ofDigits 256 (bs.map UInt8.toNat)

/-- The `w` lowest bytes of a number, lowest first. -/
def leEncode (w n : ℕ) : List Byte := (List.range w).map fun i => UInt8.ofNat (n / 256 ^ i)

@[simp] theorem length_leEncode (w n : ℕ) : (leEncode w n).length = w := by simp [leEncode]

/-- Fields of one width that differ in a byte differ as numbers. -/
theorem leDecode_injective {bs cs : List Byte} (hlen : bs.length = cs.length)
    (h : leDecode bs = leDecode cs) : bs = cs := by
  have hlt : ∀ ds : List Byte, ∀ d ∈ ds.map UInt8.toNat, d < 256 := by
    intro ds d hd
    rcases List.mem_map.mp hd with ⟨b, -, rfl⟩
    exact b.toNat_lt
  have hmap := Nat.ofDigits_inj_of_len_eq (by decide) (by simpa using hlen) (hlt bs) (hlt cs) h
  exact List.map_injective_iff.mpr (fun _ _ => UInt8.toNat_inj.mp) hmap

theorem leEncode_succ (w n : ℕ) : leEncode (w + 1) n = UInt8.ofNat n :: leEncode w (n / 256) := by
  simp [leEncode, List.range_succ_eq_map, Function.comp_def, Nat.pow_succ', Nat.div_div_eq_div_mul]

/-- Decoding gives back what was encoded, as far as the width goes. -/
theorem leDecode_leEncode (w n : ℕ) : leDecode (leEncode w n) = n % 256 ^ w := by
  induction w generalizing n with
  | zero => simp [leEncode, leDecode, Nat.mod_one]
  | succ w ih =>
      have hbyte : (UInt8.ofNat n).toNat = n % 256 := UInt8.toNat_ofNat'
      rw [leEncode_succ, leDecode, List.map_cons, Nat.ofDigits_cons, hbyte, Nat.pow_succ',
        Nat.mod_mul]
      exact congrArg (n % 256 + 256 * ·) (ih (n / 256))

/-! ## Header -/

/-- `usock_pdu_hdr_t`.  `err` is the 32 bits of the `int`. -/
structure UsockPduHdr where
  version : ℕ
  type : ℕ
  len : ℕ
  cmd : ℕ
  err : ℕ
  deriving Repr, DecidableEq

/-- The packed header in memory. -/
def UsockPduHdr.bytes (hdr : UsockPduHdr) : List Byte :=
  leEncode 1 hdr.version ++ leEncode 1 hdr.type ++ leEncode 2 hdr.len ++ leEncode 4 hdr.cmd ++
    leEncode 4 hdr.err

/-- The header that twelve bytes hold. -/
def hdrOf (bs : List Byte) : UsockPduHdr where
  version := leDecode (bs.take 1)
  type := leDecode ((bs.drop 1).take 1)
  len := leDecode ((bs.drop 2).take 2)
  cmd := leDecode ((bs.drop 4).take 4)
  err := leDecode ((bs.drop 8).take 4)

/-- The fields fit their widths. -/
structure UsockPduHdr.Fits (hdr : UsockPduHdr) : Prop where
  version : hdr.version < 2 ^ 8
  type : hdr.type < 2 ^ 8
  len : hdr.len < 2 ^ 16
  cmd : hdr.cmd < 2 ^ 32
  err : hdr.err < 2 ^ 32

/-- **Round trip.**  A header whose fields fit is read back as it was laid out. -/
theorem hdrOf_bytes {hdr : UsockPduHdr} (h : hdr.Fits) : hdrOf hdr.bytes = hdr := by
  have field : ∀ {w n : ℕ}, n < 256 ^ w → leDecode (leEncode w n) = n := by
    intro w n hn
    rw [leDecode_leEncode, Nat.mod_eq_of_lt hn]
  have hversion : hdr.bytes.take 1 = leEncode 1 hdr.version := rfl
  have htype : (hdr.bytes.drop 1).take 1 = leEncode 1 hdr.type := rfl
  have hlen : (hdr.bytes.drop 2).take 2 = leEncode 2 hdr.len := rfl
  have hcmd : (hdr.bytes.drop 4).take 4 = leEncode 4 hdr.cmd := rfl
  have herr : (hdr.bytes.drop 8).take 4 = leEncode 4 hdr.err := rfl
  rw [hdrOf, hversion, htype, hlen, hcmd, herr, field h.version, field h.type, field h.len,
    field h.cmd, field h.err]

@[simp] theorem UsockPduHdr.length_bytes (hdr : UsockPduHdr) : hdr.bytes.length = hdrSize := by
  simp [UsockPduHdr.bytes, hdrSize]

end Kylin.Usock
