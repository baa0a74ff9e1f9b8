import Mathlib.Logic.Function.Basic

/-!
# Bytes in memory

Physical memory by address, the loads of little-endian words, `memcpy` and `memmove` (`lib.c`) and
the members of the ELF structures (`elf.h`) that the loaders read.
-/

namespace SchedOS

/-- Memory. Addresses wrap like the pointers do. -/
abbrev Memory := UInt32 → UInt8

/-- `*(uint16_t *) a`. -/
def load16 (mem : Memory) (a : UInt32) : UInt16 := (mem a).toUInt16 ||| (mem (a + 1)).toUInt16 <<< 8

/-- `*(uint32_t *) a`. -/
def load32 (mem : Memory) (a : UInt32) : UInt32 :=
  (load16 mem a).toUInt32 ||| (load16 mem (a + 2)).toUInt32 <<< 16

/-- `*(uint16_t *) a = w`. -/
def store16 (mem : Memory) (a : UInt32) (w : UInt16) : Memory :=
  Function.update (Function.update mem a w.toUInt8) (a + 1) (w >>> 8).toUInt8

/-- The loop of `memcpy`, with that many bytes left. -/
def memcpy (mem : Memory) (d s : UInt32) : Nat → Memory
  | 0 => mem
  | n + 1 => memcpy (Function.update mem d (mem s)) (d + 1) (s + 1) n

/-- The loop of `memmove` that runs down, with that many bytes left. -/
def memmoveDown (mem : Memory) (d s : UInt32) : Nat → Memory
  | 0 => mem
  | n + 1 => memmoveDown (Function.update mem (d - 1) (mem (s - 1))) (d - 1) (s - 1) n

/-- `memmove`. Its other loop is the one of `memcpy`. -/
def memmove (mem : Memory) (dst src n : UInt32) : Memory :=
  if src < dst ∧ src + n > dst then memmoveDown mem (dst + n) (src + n) n.toNat
  else memcpy mem dst src n.toNat

/-- `while (end_va < memsz) *((uint8_t *) end_va++) = 0`, with that many passes left. -/
def clearBss (mem : Memory) (endVa : UInt32) : Nat → Memory
  | 0 => mem
  | n + 1 => clearBss (Function.update mem endVa 0) (endVa + 1) n

/-! ## ELF -/

abbrev ELF_MAGIC : UInt32 := 0x464C457F
abbrev ELF_PROG_LOAD : UInt32 := 1

/-- `struct Elf`. -/
structure Elf where
  eMagic : UInt32
  eEntry : UInt32
  ePhoff : UInt32
  ePhnum : UInt16
deriving DecidableEq, Repr

/-- The `struct Elf` at an address. -/
def elfAt (mem : Memory) (a : UInt32) : Elf where
  eMagic := load32 mem a
  eEntry := load32 mem (a + 24)
  ePhoff := load32 mem (a + 28)
  ePhnum := load16 mem (a + 44)

/-- `struct Proghdr`. -/
structure Proghdr where
  pType : UInt32
  pOffset : UInt32
  pVa : UInt32
  pFilesz : UInt32
  pMemsz : UInt32
deriving DecidableEq, Repr

/-- The `struct Proghdr` at an address. -/
def proghdrAt (mem : Memory) (a : UInt32) : Proghdr where
  pType := load32 mem a
  pOffset := load32 mem (a + 4)
  pVa := load32 mem (a + 8)
  pFilesz := load32 mem (a + 16)
  pMemsz := load32 mem (a + 20)

/-- `sizeof(struct Proghdr)`. -/
abbrev PROGHDR_SIZE : UInt32 := 32

end SchedOS
