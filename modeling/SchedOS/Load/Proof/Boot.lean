import SchedOS.Load.Boot
import SchedOS.Load.Proof.Memory

/-!
# The kernel that `bootmain` loads

`readseg` is two block writes, whole sectors and then zeros (`Fits.readseg_eq`). The headers are read
from the scratch page, which no segment reaches (`KernelFile.bootMem_header`). A byte of a segment is
the one of the file unless a later segment whose sectors it lies in has brought another
(`KernelFile.loads_iff`).
-/

namespace SchedOS

/-! ## `readseg` -/

/-- The beginning of the sector of an address. -/
def sector (va : UInt32) : UInt32 := va &&& ~~~(SECTORSIZE - 1)

theorem toNat_sector (va : UInt32) : (sector va).toNat = va.toNat / 512 * 512 := by
  have hmask : (~~~(SECTORSIZE - 1)).toNat = 2 ^ 32 - 2 ^ 9 := by decide
  unfold sector
  rw [UInt32.toNat_and, hmask]
  exact and_mask va.toNat_lt (by decide)

/-- The number of sectors of `filesz` bytes at `va`. -/
def nsects (va filesz : UInt32) : Nat :=
  (va.toNat + filesz.toNat + 511) / 512 - va.toNat / 512

theorem nsects_mul (va filesz : UInt32) : 512 * nsects va filesz + va.toNat / 512 * 512 =
    (va.toNat + filesz.toNat + 511) / 512 * 512 := by
  unfold nsects
  omega

/-- The memory after `i` sectors. -/
def sectorsMem (disk : Nat → UInt8) (mem : Memory) (va sect : UInt32) (i : Nat) : Memory :=
  Block.write mem (sector va) (512 * i) fun k => disk (512 * sect.toNat + k)

/-- The memory after `readseg`. -/
def readsegMem (disk : Nat → UInt8) (mem : Memory) (va filesz memsz sect : UInt32) : Memory :=
  Block.write (sectorsMem disk mem va sect (nsects va filesz)) (va + filesz)
    (memsz.toNat - filesz.toNat) fun _ => 0

/-- A segment whose addresses and whose sectors do not wrap. -/
structure Fits (va filesz memsz sect : UInt32) : Prop where
  le : filesz ≤ memsz
  noWrap : va.toNat + memsz.toNat < 2 ^ 32
  rounded : (va.toNat + filesz.toNat + 511) / 512 * 512 < 2 ^ 32
  sectors : sect.toNat + nsects va filesz ≤ 2 ^ 32

section
variable {disk : Nat → UInt8} {mem m : Memory} {va filesz memsz sect x : UInt32} {fuel : Nat}
  (h : Fits va filesz memsz sect)
include h

theorem Fits.toNat_end : (va + filesz).toNat = va.toNat + filesz.toNat :=
  SchedOS.toNat_end h.le h.noWrap

theorem Fits.readPass_read {i : Nat} (hi : i < nsects va filesz) :
    readPass disk (va + filesz)
        (sectorsMem disk mem va sect i, sector va + UInt32.ofNat (512 * i), sect + UInt32.ofNat i) =
      .inl (sectorsMem disk mem va sect (i + 1), sector va + UInt32.ofNat (512 * (i + 1)),
        sect + UInt32.ofNat (i + 1)) := by
  have hcount := nsects_mul va filesz
  have hroom : va.toNat / 512 * 512 + 512 * i < va.toNat + filesz.toNat := by omega
  have hround := h.rounded
  have hsectors := h.sectors
  have hva : (sector va + UInt32.ofNat (512 * i)).toNat = va.toNat / 512 * 512 + 512 * i := by
    rw [UInt32.toNat_add, toNat_sector, UInt32.toNat_ofNat']
    omega
  have hsect : (sect + UInt32.ofNat i).toNat = sect.toNat + i := by
    rw [UInt32.toNat_add, UInt32.toNat_ofNat']
    omega
  have hlt : sector va + UInt32.ofNat (512 * i) < va + filesz := by
    rw [UInt32.lt_iff_toNat_lt, hva, h.toNat_end]
    exact hroom
  have hread : readsect disk (sectorsMem disk mem va sect i) (sector va + UInt32.ofNat (512 * i))
      (sect + UInt32.ofNat i) = sectorsMem disk mem va sect (i + 1) := by
    unfold readsect sectorsMem
    rw [hsect, Nat.mul_succ, ← Block.write_append (by omega)]
    refine Block.write_congr fun k _ => congrArg disk ?_
    omega
  unfold readPass
  dsimp only
  rw [if_pos hlt, hread, UInt32.add_assoc, UInt32.add_assoc, Nat.mul_succ, UInt32.ofNat_add,
    UInt32.ofNat_add]
  rfl

theorem Fits.readPass_end :
    readPass disk (va + filesz) (sectorsMem disk mem va sect (nsects va filesz),
      sector va + UInt32.ofNat (512 * nsects va filesz), sect + UInt32.ofNat (nsects va filesz)) =
        .inr (sectorsMem disk mem va sect (nsects va filesz)) := by
  have hround := h.rounded
  have hcount := nsects_mul va filesz
  have hge : ¬ sector va + UInt32.ofNat (512 * nsects va filesz) < va + filesz := by
    rw [UInt32.lt_iff_toNat_lt, h.toNat_end, UInt32.toNat_add, toNat_sector, UInt32.toNat_ofNat']
    omega
  exact if_neg hge

/-- `readseg` ends after a pass more than there are sectors. -/
theorem Fits.readseg_eq (hfuel : nsects va filesz < fuel) :
    readseg disk fuel mem va filesz memsz sect =
      some (readsegMem disk mem va filesz memsz sect) := by
  have hrun : Loop.run (readPass disk (va + filesz)) (nsects va filesz + 1)
      (sectorsMem disk mem va sect 0, sector va + UInt32.ofNat (512 * 0), sect + UInt32.ofNat 0) =
        some (sectorsMem disk mem va sect (nsects va filesz)) :=
    Loop.run_count (s := fun i => (sectorsMem disk mem va sect i,
      sector va + UInt32.ofNat (512 * i), sect + UInt32.ofNat i))
      (fun i hi => h.readPass_read hi) h.readPass_end (Nat.zero_add _)
  have hzero : sectorsMem disk mem va sect 0 = mem := Block.write_zero
  rw [hzero, show UInt32.ofNat (512 * 0) = 0 from rfl, UInt32.add_zero, UInt32.add_zero] at hrun
  unfold readseg
  dsimp only
  rw [show va &&& ~~~(SECTORSIZE - 1) = sector va from rfl, Loop.run_mono hrun hfuel,
    Option.map_some, clearBss_end h.le h.noWrap]
  rfl

/-- With fewer passes `readseg` gives nothing else. -/
theorem Fits.readseg_unique (hr : readseg disk fuel mem va filesz memsz sect = some m) :
    m = readsegMem disk mem va filesz memsz sect := by
  have hall : readseg disk (max fuel (nsects va filesz + 1)) mem va filesz memsz sect =
      some (readsegMem disk mem va filesz memsz sect) :=
    h.readseg_eq (Nat.lt_of_lt_of_le (Nat.lt_succ_self _) (Nat.le_max_right _ _))
  obtain ⟨mem', hmem', rfl⟩ := Option.map_eq_some_iff.1 hr
  unfold readseg at hall
  dsimp only at hall
  rw [Loop.run_mono hmem' (Nat.le_max_left _ _), Option.map_some] at hall
  exact Option.some.inj hall

theorem Fits.readsegMem_bss (h1 : va.toNat + filesz.toNat ≤ x.toNat)
    (h2 : x.toNat < va.toNat + memsz.toNat) : readsegMem disk mem va filesz memsz sect x = 0 := by
  have hfilesz := UInt32.le_iff_toNat_le.1 h.le
  have hmemsz := h.noWrap
  have hend := h.toNat_end
  unfold readsegMem
  rw [Block.write_at (by omega) (by omega) (by omega)]

theorem Fits.readsegMem_read (h1 : va.toNat / 512 * 512 ≤ x.toNat)
    (h2 : x.toNat < (va.toNat + filesz.toNat + 511) / 512 * 512)
    (h3 : ¬ (va.toNat + filesz.toNat ≤ x.toNat ∧ x.toNat < va.toNat + memsz.toNat)) :
    readsegMem disk mem va filesz memsz sect x =
      disk (512 * sect.toNat + (x.toNat - va.toNat / 512 * 512)) := by
  have hfilesz := UInt32.le_iff_toNat_le.1 h.le
  have hmemsz := h.noWrap
  have hround := h.rounded
  have hend := h.toNat_end
  have hcount := nsects_mul va filesz
  have hsector := toNat_sector va
  unfold readsegMem sectorsMem
  rw [Block.write_outside (by omega) (by omega), Block.write_at (by omega) (by omega) (by omega),
    hsector]

theorem Fits.readsegMem_outside
    (h1 : ¬ (va.toNat / 512 * 512 ≤ x.toNat ∧
      x.toNat < (va.toNat + filesz.toNat + 511) / 512 * 512))
    (h2 : ¬ (va.toNat + filesz.toNat ≤ x.toNat ∧ x.toNat < va.toNat + memsz.toNat)) :
    readsegMem disk mem va filesz memsz sect x = mem x := by
  have hfilesz := UInt32.le_iff_toNat_le.1 h.le
  have hmemsz := h.noWrap
  have hround := h.rounded
  have hend := h.toNat_end
  have hcount := nsects_mul va filesz
  have hsector := toNat_sector va
  unfold readsegMem sectorsMem
  rw [Block.write_outside (by omega) (by omega), Block.write_outside (by omega) (by omega)]

end

/-! ## One segment -/

theorem toNat_firstSector (off : UInt32) : (1 + off / SECTORSIZE).toNat = 1 + off.toNat / 512 := by
  have hlt := off.toNat_lt
  rw [UInt32.toNat_add, UInt32.toNat_div, show (1 : UInt32).toNat = 1 from rfl,
    show SECTORSIZE.toNat = 512 from rfl]
  omega

/-- A byte of a segment that begins at the same place in its sector as in the file. -/
theorem Fits.segment_byte {disk : Nat → UInt8} {mem : Memory} {va filesz memsz off : UInt32}
    (h : Fits va filesz memsz (1 + off / SECTORSIZE)) (halign : va.toNat % 512 = off.toNat % 512)
    {k : Nat} (hk : k < memsz.toNat) :
    readsegMem disk mem va filesz memsz (1 + off / SECTORSIZE) (va + UInt32.ofNat k) =
      if k < filesz.toNat then disk (512 + off.toNat + k) else 0 := by
  have hwrap := h.noWrap
  have hbyte : (va + UInt32.ofNat k).toNat = va.toNat + k := by
    rw [UInt32.toNat_add, UInt32.toNat_ofNat']
    omega
  split
  · rw [h.readsegMem_read (by omega) (by omega) (by omega), toNat_firstSector, hbyte]
    congr 1
    omega
  · exact h.readsegMem_bss (by omega) (by omega)

/-- `readseg` ends with the segment in memory, and has changed nothing beside its sectors. -/
def ReadsegLoads (disk : Nat → UInt8) (mem : Memory) (va filesz memsz off : UInt32) : Prop :=
  ∃ fuel final, readseg disk fuel mem va filesz memsz (1 + off / SECTORSIZE) = some final ∧
    (∀ k, k < memsz.toNat → final (va + UInt32.ofNat k) =
      if k < filesz.toNat then disk (512 + off.toNat + k) else 0) ∧
    ∀ x : UInt32, x.toNat < va.toNat / 512 * 512 ∨
        max (va.toNat + memsz.toNat) ((va.toNat + filesz.toNat + 511) / 512 * 512) ≤ x.toNat →
      final x = mem x

/-- **`readseg` loads one segment.** -/
theorem readseg_loads (disk : Nat → UInt8) (mem : Memory) (va filesz memsz off : UInt32)
    (hle : filesz ≤ memsz) (halign : va.toNat % 512 = off.toNat % 512)
    (hfit : va.toNat + memsz.toNat ≤ 2 ^ 32 - 512) :
    ReadsegLoads disk mem va filesz memsz off := by
  have hle' := UInt32.le_iff_toNat_le.1 hle
  have hoff := off.toNat_lt
  have hcount := nsects_mul va filesz
  have h : Fits va filesz memsz (1 + off / SECTORSIZE) := by
    refine ⟨hle, by omega, by omega, ?_⟩
    rw [toNat_firstSector]
    omega
  refine ⟨_, _, h.readseg_eq (Nat.lt_succ_self _), fun k hk => h.segment_byte halign hk,
    fun x hx => h.readsegMem_outside ?_ ?_⟩
  · omega
  · omega

/-- Two bytes and a bss of three, from the middle of a sector on. -/
theorem readseg_loads_unaligned :
    ReadsegLoads (fun i => UInt8.ofNat i) (fun _ => 0xFF) 0x1001FF 2 5 511 :=
  readseg_loads _ _ _ _ _ _ (by decide) (by decide) (by decide)

/-! ## Kernel files -/

/-- The bytes of a file, from `ELFHDR` on. -/
def fileMem (file : List UInt8) : Memory := fun x => file.getD (x - ELFHDR).toNat 0

/-- The ELF header of a file. -/
def header (file : List UInt8) : Elf := elfAt (fileMem file) ELFHDR

/-- Program header `j` of a file. -/
def segment (file : List UInt8) (j : Nat) : Proghdr := phdr (fileMem file) ELFHDR j

/-- The addresses of a segment. -/
def Proghdr.Range (h : Proghdr) (x : UInt32) : Prop :=
  h.pVa.toNat ≤ x.toNat ∧ x.toNat < h.pVa.toNat + h.pMemsz.toNat

/-- The addresses of the sectors that are read for it. -/
def Proghdr.Sectors (h : Proghdr) (x : UInt32) : Prop :=
  h.pVa.toNat / 512 * 512 ≤ x.toNat ∧
    x.toNat < (h.pVa.toNat + h.pFilesz.toNat + 511) / 512 * 512

/-- A kernel that the boot loader can load. -/
structure KernelFile (file : List UInt8) : Prop where
  magic : (header file).eMagic = ELF_MAGIC
  table : (header file).ePhoff.toNat + 32 * (header file).ePhnum.toNat ≤ 4096
  tableInFile : (header file).ePhoff.toNat + 32 * (header file).ePhnum.toNat ≤ file.length
  ascending : ∀ i j, i < j → j < (header file).ePhnum.toNat →
    (segment file i).pVa ≤ (segment file j).pVa
  disjoint : ∀ i j, i < (header file).ePhnum.toNat → j < (header file).ePhnum.toNat → i ≠ j →
    ∀ x, (segment file i).Range x → ¬ (segment file j).Range x
  filesz : ∀ j, j < (header file).ePhnum.toNat → (segment file j).pFilesz ≤ (segment file j).pMemsz
  offset : ∀ j, j < (header file).ePhnum.toNat →
    (segment file j).pOffset.toNat + (segment file j).pFilesz.toNat ≤ file.length
  aligned : ∀ j, j < (header file).ePhnum.toNat →
    (segment file j).pVa.toNat % 512 = (segment file j).pOffset.toNat % 512
  noWrap : ∀ j, j < (header file).ePhnum.toNat →
    (segment file j).pVa.toNat + (segment file j).pMemsz.toNat < 2 ^ 32
  noWrapSectors : ∀ j, j < (header file).ePhnum.toNat →
    ((segment file j).pVa.toNat + (segment file j).pFilesz.toNat + 511) / 512 * 512 < 2 ^ 32
  /-- The boot sector. The boot loader's stack, below `0x7C00`, is not part of the modelled memory. -/
  bootloader : ∀ j, j < (header file).ePhnum.toNat → ∀ x,
    (segment file j).Range x ∨ (segment file j).Sectors x →
      ¬ (0x7C00 ≤ x.toNat ∧ x.toNat < 0x7C00 + 512)
  scratch : ∀ j, j < (header file).ePhnum.toNat → ∀ x,
    (segment file j).Range x ∨ (segment file j).Sectors x →
      ¬ (0x10000 ≤ x.toNat ∧ x.toNat < 0x10000 + 4096)

/-- The file is on the disk from sector 1 on, zeros filling its last sector and the first page. -/
def OnDisk (disk : Nat → UInt8) (file : List UInt8) : Prop :=
  ∀ k, k < 4096 ∨ k < (file.length + 511) / 512 * 512 → disk (512 + k) = file.getD k 0

/-! ## The loop over the headers -/

/-- The memory after the first page. -/
def firstPage (disk : Nat → UInt8) (mem : Memory) : Memory :=
  readsegMem disk mem ELFHDR 4096 4096 1

/-- The memory when the loop comes to program header `j`. -/
def bootMem (disk : Nat → UInt8) (file : List UInt8) (mem : Memory) : Nat → Memory
  | 0 => firstPage disk mem
  | j + 1 => readsegMem disk (bootMem disk file mem j) (segment file j).pVa
      (segment file j).pFilesz (segment file j).pMemsz (1 + (segment file j).pOffset / SECTORSIZE)

theorem fits_firstPage : Fits ELFHDR 4096 4096 1 := by constructor <;> decide

section
variable {disk : Nat → UInt8} {file : List UInt8} {mem : Memory}

theorem KernelFile.fits (h : KernelFile file) {j : Nat} (hj : j < (header file).ePhnum.toNat) :
    Fits (segment file j).pVa (segment file j).pFilesz (segment file j).pMemsz
      (1 + (segment file j).pOffset / SECTORSIZE) := by
  refine ⟨h.filesz j hj, h.noWrap j hj, h.noWrapSectors j hj, ?_⟩
  have hoff := (segment file j).pOffset.toNat_lt
  have hround := h.noWrapSectors j hj
  have hcount := nsects_mul (segment file j).pVa (segment file j).pFilesz
  rw [toNat_firstSector]
  omega

/-- The first page holds the beginning of the file. -/
theorem OnDisk.firstPage (hd : OnDisk disk file) :
    Agree (firstPage disk mem) (fileMem file) ELFHDR 4096 := by
  intro x hx
  have hx' : 0x10000 ≤ x.toNat ∧ x.toNat < 0x10000 + 4096 := (Block.mem_iff (by decide)).1 hx
  have hindex : (x - ELFHDR).toNat = x.toNat - 0x10000 := UInt32.toNat_sub_of_le x _ hx'.1
  have hread : SchedOS.firstPage disk mem x = disk (512 + (x.toNat - 0x10000)) :=
    fits_firstPage.readsegMem_read hx'.1 hx'.2 fun hb => Nat.lt_irrefl _ (Nat.lt_of_le_of_lt hb.1 hb.2)
  rw [hread, ← hindex]
  exact hd _ (.inl hx)

section
variable (mem) (h : KernelFile file) (hd : OnDisk disk file)
include h hd

/-- The headers stay in the scratch page. -/
theorem KernelFile.bootMem_agree {j : Nat} (hj : j ≤ (header file).ePhnum.toNat) :
    Agree (bootMem disk file mem j) (fileMem file) ELFHDR 4096 := by
  induction j with
  | zero => exact hd.firstPage
  | succ j ih =>
    intro x hx
    have hx' : 0x10000 ≤ x.toNat ∧ x.toNat < 0x10000 + 4096 := (Block.mem_iff (by decide)).1 hx
    rw [← ih (Nat.le_of_lt hj) x hx, bootMem]
    exact (h.fits hj).readsegMem_outside (fun hs => h.scratch j hj x (.inr hs) hx') fun hb =>
      h.scratch j hj x (.inl ⟨Nat.le_trans (Nat.le_add_right _ _) hb.1, hb.2⟩) hx'

theorem KernelFile.bootMem_elf {j : Nat} (hj : j ≤ (header file).ePhnum.toNat) :
    elfAt (bootMem disk file mem j) ELFHDR = header file := by
  have hall := (h.bootMem_agree mem hd hj).sub (k := 0) (l := 52) (by decide) (by decide)
  rw [UInt32.add_zero] at hall
  exact hall.elfAt

theorem KernelFile.bootMem_header {j : Nat} (hj : j < (header file).ePhnum.toNat) :
    proghdrAt (bootMem disk file mem j) (phAddr (fileMem file) ELFHDR j) = segment file j := by
  have htable := h.table
  have hindex : ((header file).ePhoff + PROGHDR_SIZE * UInt32.ofNat j).toNat =
      (header file).ePhoff.toNat + 32 * j := by
    rw [UInt32.toNat_add, UInt32.toNat_mul, UInt32.toNat_ofNat',
      show PROGHDR_SIZE.toNat = 32 from rfl]
    omega
  have hall := (h.bootMem_agree mem hd (Nat.le_of_lt hj)).sub
    (k := (header file).ePhoff + PROGHDR_SIZE * UInt32.ofNat j) (l := 32) (by omega) (by decide)
  rw [← UInt32.add_assoc] at hall
  exact hall.proghdrAt

/-- A pass loads the next segment, if the loop of `readseg` may run long enough. -/
theorem KernelFile.bootPass_eq {j : Nat} (hj : j < (header file).ePhnum.toNat) (fuel : Nat) :
    bootPass disk fuel (phAddr (fileMem file) ELFHDR (header file).ePhnum.toNat)
        (bootMem disk file mem j, phAddr (fileMem file) ELFHDR j) =
      match readseg disk fuel (bootMem disk file mem j) (segment file j).pVa
        (segment file j).pFilesz (segment file j).pMemsz
          (1 + (segment file j).pOffset / SECTORSIZE) with
      | some _ => .inl (bootMem disk file mem (j + 1), phAddr (fileMem file) ELFHDR (j + 1))
      | none => .inr none := by
  have htable := h.table
  have hlt : phAddr (fileMem file) ELFHDR j <
      phAddr (fileMem file) ELFHDR (header file).ePhnum.toNat := phAddr_lt (by
    show 0x10000 + (header file).ePhoff.toNat + 32 * (header file).ePhnum.toNat < 2 ^ 32
    omega) hj
  unfold bootPass
  dsimp only
  rw [if_pos hlt, h.bootMem_header mem hd hj]
  cases hr : readseg disk fuel (bootMem disk file mem j) (segment file j).pVa
    (segment file j).pFilesz (segment file j).pMemsz (1 + (segment file j).pOffset / SECTORSIZE) with
  | none => rfl
  | some m =>
    rw [(h.fits hj).readseg_unique hr]
    dsimp only
    rw [phAddr_succ]
    rfl

omit h hd in
theorem bootPass_end (fuel : Nat) (eph : UInt32) : bootPass disk fuel eph (mem, eph) = .inr (some mem) :=
  if_neg (UInt32.lt_irrefl _)

theorem KernelFile.run_bootPass {fuel : Nat} (hfuel : 2 ^ 23 ≤ fuel) :
    Loop.run (bootPass disk fuel (phAddr (fileMem file) ELFHDR (header file).ePhnum.toNat))
      fuel (bootMem disk file mem 0, phAddr (fileMem file) ELFHDR 0) =
        some (some (bootMem disk file mem (header file).ePhnum.toNat)) := by
  have hn := (header file).ePhnum.toNat_lt
  have hrun : Loop.run (bootPass disk fuel (phAddr (fileMem file) ELFHDR
      (header file).ePhnum.toNat)) ((header file).ePhnum.toNat + 1)
        (bootMem disk file mem 0, phAddr (fileMem file) ELFHDR 0) =
          some (some (bootMem disk file mem (header file).ePhnum.toNat)) := by
    refine Loop.run_count
      (s := fun j => (bootMem disk file mem j, phAddr (fileMem file) ELFHDR j)) (fun j hj => ?_)
        (bootPass_end _ _ _) (Nat.zero_add _)
    have hround := h.noWrapSectors j hj
    have hcount := nsects_mul (segment file j).pVa (segment file j).pFilesz
    rw [h.bootPass_eq mem hd hj, (h.fits hj).readseg_eq (by omega)]
  exact Loop.run_mono hrun (by omega)

theorem KernelFile.run_unique {fuel fuel' : Nat} {m : Memory}
    (hr : Loop.run (bootPass disk fuel (phAddr (fileMem file) ELFHDR (header file).ePhnum.toNat))
      fuel' (bootMem disk file mem 0, phAddr (fileMem file) ELFHDR 0) = some (some m)) :
    m = bootMem disk file mem (header file).ePhnum.toNat := by
  refine Loop.run_inv (I := fun st => ∃ j, j ≤ (header file).ePhnum.toNat ∧
      st = (bootMem disk file mem j, phAddr (fileMem file) ELFHDR j))
    (Q := fun r => ∀ m, r = some m → m = bootMem disk file mem (header file).ePhnum.toNat)
    ?_ ?_ ⟨0, Nat.zero_le _, rfl⟩ hr m rfl
  · rintro _ s' ⟨j, hj, rfl⟩ hpass
    rcases Nat.lt_or_eq_of_le hj with hlt | rfl
    · rw [h.bootPass_eq mem hd hlt] at hpass
      split at hpass
      · cases hpass
        exact ⟨j + 1, hlt, rfl⟩
      · cases hpass
    · rw [bootPass_end] at hpass
      cases hpass
  · rintro _ r ⟨j, hj, rfl⟩ hpass m rfl
    rcases Nat.lt_or_eq_of_le hj with hlt | rfl
    · rw [h.bootPass_eq mem hd hlt] at hpass
      split at hpass <;> cases hpass
    · rw [bootPass_end] at hpass
      cases hpass
      rfl

/-- `bootmain` once it has the first page. -/
theorem KernelFile.bootmain_eq {fuel : Nat}
    (hpage : readseg disk fuel mem ELFHDR 4096 4096 1 = some (bootMem disk file mem 0)) :
    bootmain disk fuel mem =
      (Loop.run (bootPass disk fuel (phAddr (fileMem file) ELFHDR (header file).ePhnum.toNat)) fuel
        (bootMem disk file mem 0, phAddr (fileMem file) ELFHDR 0)).join.map
          fun m => .jump m (elfAt m ELFHDR).eEntry := by
  have helf := h.bootMem_elf mem hd (Nat.zero_le _)
  have hend : ELFHDR + (header file).ePhoff + PROGHDR_SIZE * (header file).ePhnum.toUInt32 =
      phAddr (fileMem file) ELFHDR (header file).ePhnum.toNat := phAddr_end
  have hzero : phAddr (fileMem file) ELFHDR 0 = ELFHDR + (header file).ePhoff := phAddr_zero
  unfold bootmain
  rw [hpage, hzero, Option.map_eq_bind]
  simp only [Option.bind_eq_bind, Option.bind_some, helf, h.magic, ne_eq, not_true_eq_false,
    if_false, hend]
  rfl

/-- `bootmain` jumps to the kernel, with the memory after the last pass. -/
theorem KernelFile.bootmain_iff {exit : BootExit} : (∃ fuel, bootmain disk fuel mem = some exit) ↔
    exit = .jump (bootMem disk file mem (header file).ePhnum.toNat) (header file).eEntry := by
  have helf := h.bootMem_elf mem hd (Nat.le_refl _)
  constructor
  · rintro ⟨fuel, hf⟩
    cases hpage : readseg disk fuel mem ELFHDR 4096 4096 1 with
    | none =>
      unfold bootmain at hf
      rw [hpage] at hf
      cases hf
    | some m =>
      rw [fits_firstPage.readseg_unique hpage] at hpage
      rw [h.bootmain_eq mem hd hpage] at hf
      obtain ⟨m, hm, rfl⟩ := Option.map_eq_some_iff.1 hf
      cases h.run_unique mem hd (Option.join_eq_some_iff.1 hm)
      rw [helf]
  · rintro rfl
    obtain ⟨fuel, hfuel⟩ : ∃ fuel, 2 ^ 23 ≤ fuel := ⟨2 ^ 23, Nat.le_refl _⟩
    have hsects : nsects ELFHDR 4096 = 8 := by decide
    have hpage : readseg disk fuel mem ELFHDR 4096 4096 1 = some (bootMem disk file mem 0) :=
      fits_firstPage.readseg_eq (by omega)
    refine ⟨fuel, ?_⟩
    rw [h.bootmain_eq mem hd hpage, h.run_bootPass mem hd hfuel, Option.join_some, Option.map_some, helf]

end

end

/-! ## What the segments hold -/

/-- Byte `k` of a segment: the one of the file, and zero from `p_filesz` on. -/
def segByte (file : List UInt8) (h : Proghdr) (k : Nat) : UInt8 :=
  if k < h.pFilesz.toNat then file.getD (h.pOffset.toNat + k) 0 else 0

/-- What the sectors of a segment bring to an address. -/
def sectorByte (file : List UInt8) (h : Proghdr) (x : UInt32) : UInt8 :=
  file.getD (h.pOffset.toNat / 512 * 512 + (x.toNat - h.pVa.toNat / 512 * 512)) 0

/-- `bootmain` jumps to the kernel with the segments in memory. -/
def BootLoads (disk : Nat → UInt8) (file : List UInt8) (mem : Memory) : Prop :=
  ∃ fuel final, bootmain disk fuel mem = some (.jump final (header file).eEntry) ∧
    ∀ i, i < (header file).ePhnum.toNat → ∀ k, k < (segment file i).pMemsz.toNat →
      final ((segment file i).pVa + UInt32.ofNat k) = segByte file (segment file i) k

/-- Wherever later sectors come over a byte of a segment, the last of them bring that byte. -/
def Undisturbed (file : List UInt8) : Prop :=
  ∀ i, i < (header file).ePhnum.toNat → ∀ k, k < (segment file i).pMemsz.toNat →
    ∀ j, i < j → j < (header file).ePhnum.toNat →
      (segment file j).Sectors ((segment file i).pVa + UInt32.ofNat k) →
      (∀ l, j < l → l < (header file).ePhnum.toNat →
        ¬ (segment file l).Sectors ((segment file i).pVa + UInt32.ofNat k)) →
      sectorByte file (segment file j) ((segment file i).pVa + UInt32.ofNat k) =
        segByte file (segment file i) k

section
variable {disk : Nat → UInt8} {file : List UInt8} {mem : Memory} (h : KernelFile file)
include h

theorem KernelFile.toNat_byte {i k : Nat} (hi : i < (header file).ePhnum.toNat)
    (hk : k < (segment file i).pMemsz.toNat) :
    ((segment file i).pVa + UInt32.ofNat k).toNat = (segment file i).pVa.toNat + k := by
  have hwrap := h.noWrap i hi
  rw [UInt32.toNat_add, UInt32.toNat_ofNat']
  omega

theorem KernelFile.bootMem_read (hd : OnDisk disk file) {j : Nat}
    (hj : j < (header file).ePhnum.toNat) {x : UInt32} (hx : (segment file j).Sectors x)
    (hbss : ¬ ((segment file j).pVa.toNat + (segment file j).pFilesz.toNat ≤ x.toNat ∧
      (segment file j).Range x)) :
    bootMem disk file mem (j + 1) x = sectorByte file (segment file j) x := by
  obtain ⟨h1, h2⟩ := hx
  have hoff := h.offset j hj
  have halign := h.aligned j hj
  rw [bootMem, (h.fits hj).readsegMem_read h1 h2 fun hb =>
    hbss ⟨hb.1, Nat.le_trans (Nat.le_add_right _ _) hb.1, hb.2⟩, toNat_firstSector, sectorByte,
    ← hd _ (.inr (by omega))]
  congr 1
  omega

theorem KernelFile.bootMem_keeps {j : Nat} (hj : j < (header file).ePhnum.toNat) {x : UInt32}
    (hx : ¬ (segment file j).Sectors x) (hrange : ¬ (segment file j).Range x) :
    bootMem disk file mem (j + 1) x = bootMem disk file mem j x :=
  (h.fits hj).readsegMem_outside hx fun hb =>
    hrange ⟨Nat.le_trans (Nat.le_add_right _ _) hb.1, hb.2⟩

/-- A segment is complete when it has been read. -/
theorem KernelFile.bootMem_own (hd : OnDisk disk file) {i k : Nat}
    (hi : i < (header file).ePhnum.toNat) (hk : k < (segment file i).pMemsz.toNat) :
    bootMem disk file mem (i + 1) ((segment file i).pVa + UInt32.ofNat k) =
      segByte file (segment file i) k := by
  have hoff := h.offset i hi
  rw [bootMem, (h.fits hi).segment_byte (h.aligned i hi) hk, segByte]
  split
  · rw [Nat.add_assoc]
    exact hd _ (.inr (by omega))
  · rfl

/-- A byte of a segment stays exactly if the last sectors that come over it bring it. -/
theorem KernelFile.byte_iff (hd : OnDisk disk file) {i k : Nat}
    (hi : i < (header file).ePhnum.toNat) (hk : k < (segment file i).pMemsz.toNat) :
    bootMem disk file mem (header file).ePhnum.toNat ((segment file i).pVa + UInt32.ofNat k) =
        segByte file (segment file i) k ↔
      ∀ j, i < j → j < (header file).ePhnum.toNat →
        (segment file j).Sectors ((segment file i).pVa + UInt32.ofNat k) →
        (∀ l, j < l → l < (header file).ePhnum.toNat →
          ¬ (segment file l).Sectors ((segment file i).pVa + UInt32.ofNat k)) →
        sectorByte file (segment file j) ((segment file i).pVa + UInt32.ofNat k) =
          segByte file (segment file i) k := by
  have hbyte := h.toNat_byte hi hk
  have hrange : ∀ j, i + 1 ≤ j → j < (header file).ePhnum.toNat →
      ¬ (segment file j).Range ((segment file i).pVa + UInt32.ofNat k) := fun j h1 h2 =>
    h.disjoint i j hi h2 (by omega) _ (by unfold Proghdr.Range; omega)
  exact Block.last_write (v := fun j =>
      bootMem disk file mem j ((segment file i).pVa + UInt32.ofNat k))
    (g := fun j => sectorByte file (segment file j) ((segment file i).pVa + UInt32.ofNat k))
    hi (h.bootMem_own hd hi hk)
    (fun j h1 h2 hp => h.bootMem_read hd h2 hp fun hb => hrange j h1 h2 hb.2)
    fun j h1 h2 hp => h.bootMem_keeps h2 hp (hrange j h1 h2)

/-- The kernel is loaded exactly if no segment is disturbed. -/
theorem KernelFile.loads_iff (mem : Memory) (hd : OnDisk disk file) : BootLoads disk file mem ↔ Undisturbed file := by
  constructor
  · rintro ⟨fuel, final, hf, hbytes⟩ i hi k hk
    cases (h.bootmain_iff mem hd).1 ⟨fuel, hf⟩
    exact (h.byte_iff hd hi hk).1 (hbytes i hi k hk)
  · intro hu
    obtain ⟨fuel, hf⟩ := (h.bootmain_iff mem hd).2 rfl
    exact ⟨fuel, _, hf, fun i hi k hk => (h.byte_iff hd hi hk).2 (hu i hi k hk)⟩

end

end SchedOS
