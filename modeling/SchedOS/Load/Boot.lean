import SchedOS.Lib.Block
import SchedOS.Lib.Loop
import SchedOS.Load.Memory

/-!
# The boot loader (`schedos-boot.c`)

`bootmain` reads the first page of the kernel's file, and then each of its segments, from the boot
disk. The disk is its bytes, and `readsect` brings a sector into the memory; what it does with the
ports of the disk's controller is in `Load/Ide.lean`, where `bootmain` is refined down to them.
-/

namespace SchedOS

abbrev SECTORSIZE : UInt32 := 512

/-- `ELFHDR`: scratch space. -/
abbrev ELFHDR : UInt32 := 0x10000

/-- `readsect`: the sector's bytes at `dst`. -/
def readsect (disk : Nat → UInt8) (mem : Memory) (dst sect : UInt32) : Memory :=
  Block.write mem dst 512 fun i => disk (512 * sect.toNat + i)

/-- A pass of the loop of `readseg` over the sectors. -/
def readPass (disk : Nat → UInt8) (endVa : UInt32) (st : Memory × UInt32 × UInt32) :
    (Memory × UInt32 × UInt32) ⊕ Memory :=
  let (mem, va, sect) := st
  if va < endVa then .inl (readsect disk mem va sect, va + SECTORSIZE, sect + 1) else .inr mem

/-- `readseg` with at most `fuel` passes of its first loop. -/
def readseg (disk : Nat → UInt8) (fuel : Nat) (mem : Memory) (va filesz memsz sect : UInt32) :
    Option Memory :=
  let endVa := va + filesz
  let memsz := memsz + va
  let va := va &&& ~~~(SECTORSIZE - 1)
  (Loop.run (readPass disk endVa) fuel (mem, va, sect)).map fun mem =>
    clearBss mem endVa (memsz.toNat - endVa.toNat)

/-- A pass of the loop of `bootmain` over the program headers, `ph` being the next one. -/
def bootPass (disk : Nat → UInt8) (fuel : Nat) (eph : UInt32) (st : Memory × UInt32) :
    (Memory × UInt32) ⊕ Option Memory :=
  let (mem, ph) := st
  if ph < eph then
    let h := proghdrAt mem ph
    match readseg disk fuel mem h.pVa h.pFilesz h.pMemsz (1 + h.pOffset / SECTORSIZE) with
    | some mem => .inl (mem, ph + PROGHDR_SIZE)
    | none => .inr none
  else .inr (some mem)

/-- How `bootmain` is left: it returns, or jumps to the kernel. -/
inductive BootExit
  | returned (mem : Memory)
  | jump (mem : Memory) (eEntry : UInt32)

/-- `bootmain` with at most `fuel` passes of each loop. -/
def bootmain (disk : Nat → UInt8) (fuel : Nat) (mem : Memory) : Option BootExit := do
  let mem ← readseg disk fuel mem ELFHDR 4096 4096 1
  if (elfAt mem ELFHDR).eMagic ≠ ELF_MAGIC then return .returned mem
  let ph := ELFHDR + (elfAt mem ELFHDR).ePhoff
  let eph := ph + PROGHDR_SIZE * (elfAt mem ELFHDR).ePhnum.toUInt32
  let mem ← (Loop.run (bootPass disk fuel eph) fuel (mem, ph)).join
  return .jump mem (elfAt mem ELFHDR).eEntry

end SchedOS
