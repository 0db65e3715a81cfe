import RamLink.Lib.Slice
import RamLink.Lib.Socket

/-!
# RamLink.Wire

The RML1 wire format: the 17-byte header `!4sBQI` (magic, operation, offset or lease id, length),
the `!QQQ` payload of a BORROW reply, and the operation codes.

`struct` raises on a value that does not fit its field, so packing is fallible;
`unpackHeader_header` is the round trip for the values that fit.
-/

namespace RamLink

open Lib

def magic : Bytes := [82, 77, 76, 49]

def opInfo : Nat := 1
def opRead : Nat := 2
def opWrite : Nat := 3
def opPing : Nat := 4
def opBlockInfo : Nat := 5
def opBlockRead : Nat := 6
def opBlockWrite : Nat := 7
def opBorrow : Nat := 8
def opRelease : Nat := 9
def opKeepalive : Nat := 10

def sectorSize : Nat := 512
def maxBlock : Nat := 1024 * 1024
def leaseSeconds : Nat := 120

def headerSize : Nat := 17
def leaseReplySize : Nat := 24

/-- The bytes of a header whose fields fit. -/
def header (op offset length : Nat) : Bytes :=
  magic ++ toBE 1 op ++ toBE 8 offset ++ toBE 4 length

/-- `HEADER.pack(MAGIC, op, offset, length)`. -/
def packHeader (op offset length : Nat) : Except Exc Bytes :=
  if op < 256 ^ 1 ∧ offset < 256 ^ 8 ∧ length < 256 ^ 4 then .ok (header op offset length)
  else .error .structError

/-- The fields of a received header. -/
structure Header where
  magic : Bytes
  op : Nat
  offset : Nat
  length : Nat
deriving DecidableEq, Repr

/-- `HEADER.unpack` of 17 bytes. -/
def unpackHeader (b : Bytes) : Header where
  magic := sub b 0 4
  op := ofBE (sub b 4 1)
  offset := ofBE (sub b 5 8)
  length := ofBE (sub b 13 4)

/-- `LEASE_REPLY.pack(lease_id, offset, length)`. -/
def packLeaseReply (leaseId offset length : Nat) : Except Exc Bytes :=
  if leaseId < 256 ^ 8 ∧ offset < 256 ^ 8 ∧ length < 256 ^ 8 then
    .ok (toBE 8 leaseId ++ toBE 8 offset ++ toBE 8 length)
  else .error .structError

/-- `LEASE_REPLY.unpack` of 24 bytes: lease id, offset, length. -/
def unpackLeaseReply (b : Bytes) : Nat × Nat × Nat :=
  (ofBE (sub b 0 8), ofBE (sub b 8 8), ofBE (sub b 16 8))

@[simp] theorem length_header (op offset length : Nat) :
    (header op offset length).length = headerSize := by
  simp [header, magic, headerSize]

theorem packHeader_ok {op offset length : Nat} {b : Bytes} (h : packHeader op offset length = .ok b) :
    b = header op offset length ∧ op < 256 ^ 1 ∧ offset < 256 ^ 8 ∧ length < 256 ^ 4 := by
  simp only [packHeader] at h
  split at h
  · rename_i hf; cases h; exact ⟨rfl, hf⟩
  · cases h

/-- The first four parts of a list of known lengths, read back by position. -/
theorem sub_of_append {p q r : Bytes} {a n : Nat} (hp : p.length = a) (hq : q.length = n) :
    sub (p ++ q ++ r) a n = q := by
  subst hp hq
  simp [sub]

theorem unpackHeader_header {op offset length : Nat} (ho : op < 256 ^ 1) (hf : offset < 256 ^ 8)
    (hl : length < 256 ^ 4) :
    unpackHeader (header op offset length) = ⟨magic, op, offset, length⟩ := by
  have h0 : sub (header op offset length) 0 4 = magic := by
    have := sub_of_append (p := []) (q := magic) (r := toBE 1 op ++ toBE 8 offset ++ toBE 4 length)
      (a := 0) (n := 4) rfl rfl
    simpa [header] using this
  have h1 : sub (header op offset length) 4 1 = toBE 1 op := by
    have := sub_of_append (p := magic) (q := toBE 1 op) (r := toBE 8 offset ++ toBE 4 length)
      (a := 4) (n := 1) rfl (by simp)
    simpa [header] using this
  have h2 : sub (header op offset length) 5 8 = toBE 8 offset := by
    have := sub_of_append (p := magic ++ toBE 1 op) (q := toBE 8 offset) (r := toBE 4 length)
      (a := 5) (n := 8) (by simp [magic]) (by simp)
    simpa [header] using this
  have h3 : sub (header op offset length) 13 4 = toBE 4 length := by
    have := sub_of_append (p := magic ++ toBE 1 op ++ toBE 8 offset) (q := toBE 4 length) (r := [])
      (a := 13) (n := 4) (by simp [magic]) (by simp)
    simpa [header] using this
  simp only [unpackHeader, h0, h1, h2, h3, ofBE_toBE ho, ofBE_toBE hf, ofBE_toBE hl]

end RamLink
