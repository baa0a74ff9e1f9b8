import SchedOS.Lib.Loop
import SchedOS.Load.Memory

/-!
# The program loader (`schedos-loader.c`)

`program_loader` copies the segments of one of the four images that are linked into the kernel. The
image is part of the memory that it changes, so the headers are read anew in every pass of its loop.
`entry_point` points into `proc_array`, an object of its own: what is stored there is returned.
-/

namespace SchedOS

abbrev PAGESIZE : UInt32 := 4096

/-- `copyseg`. -/
def copyseg (mem : Memory) (dst src filesz memsz : UInt32) : Memory :=
  let va := dst
  let endVa := va + filesz
  let memsz := memsz + va
  let va := va &&& ~~~(PAGESIZE - 1)
  let mem := memcpy mem va src (endVa - va).toNat
  clearBss mem endVa (memsz.toNat - endVa.toNat)

/-- A pass of the loop over the program headers, `ph` being the next one. -/
def loaderPass (elfHeader eph : UInt32) (st : Memory × UInt32) : (Memory × UInt32) ⊕ Memory :=
  let (mem, ph) := st
  if ph < eph then
    let h := proghdrAt mem ph
    if h.pType = ELF_PROG_LOAD then
      .inl (copyseg mem h.pVa (elfHeader + h.pOffset) h.pFilesz h.pMemsz, ph + PROGHDR_SIZE)
    else .inl (mem, ph + PROGHDR_SIZE)
  else .inr mem

/-- How `program_loader` is left: it stores the entry point and returns, or `loader_panic` spins. -/
inductive LoaderExit
  | done (mem : Memory) (entryPoint : UInt32)
  | panic (mem : Memory)

/-- `loader_panic` up to its loop: `'!' | 0x700` on the screen. -/
def loaderPanic (mem : Memory) : LoaderExit := .panic (store16 mem 0xB8000 (0x21 ||| 0x700))

/-- `sizeof(ramimages) / sizeof(ramimages[0])`. -/
abbrev nprograms : Nat := 4

/-- `program_loader` with at most `fuel` passes of its loop, `ramimages` being where the images
begin. -/
def programLoader (ramimages : Fin nprograms → UInt32) (fuel : Nat) (programId : Int)
    (mem : Memory) : Option LoaderExit :=
  if h : programId < 0 ∨ programId ≥ nprograms then some (loaderPanic mem)
  else
    let elfHeader := ramimages ⟨programId.toNat, by omega⟩
    if (elfAt mem elfHeader).eMagic ≠ ELF_MAGIC then some (loaderPanic mem)
    else
      let ph := elfHeader + (elfAt mem elfHeader).ePhoff
      let eph := ph + PROGHDR_SIZE * (elfAt mem elfHeader).ePhnum.toUInt32
      (Loop.run (loaderPass elfHeader eph) fuel (mem, ph)).map fun mem =>
        .done mem (elfAt mem elfHeader).eEntry

end SchedOS
