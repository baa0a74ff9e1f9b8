import SchedOS.Lib.Tape
import SchedOS.Load.Proof.Boot
import SchedOS.Load.Proof.Layout

/-!
# From the disk image to memory

`mkbootdisk` puts the kernel where `bootmain` looks for it (`onDisk_of_mkbootdisk`), so the kernel
comes to memory as it is in its file, unless segments share sectors (`mkbootdisk_bootmain`).
-/

namespace SchedOS

/-- The disk with the image on it holds the kernel's file from sector 1 on. -/
theorem onDisk_of_mkbootdisk {files : Files} {writes : List WriteResult} {boot kernel : String}
    {bytes file : List UInt8} (hboot : files boot = some bytes) (hlen : bytes.length ≤ 510)
    (hkernel : files kernel = some file) (hname : skipto kernel = none) {d : Disk}
    (h : mkbootdisk files writes [boot, kernel] = .ok d) {disk : Nat → UInt8}
    (hdisk : Tape.Holds id disk d.output) : OnDisk disk file := by
  obtain ⟨n, hout, htotal⟩ := mkbootdisk_image hboot hlen hkernel hname h
  intro k hk
  have hpadded := length_padding file
  have hlength : d.output.length = 512 + (file ++ padding file).length + n := by
    rw [hout, List.length_append, List.length_append, length_bootSector hlen, List.length_replicate]
  have hat : d.output[512 + k]? = some (file.getD k 0) := by
    rw [hout, List.append_assoc, List.getElem?_append_right (by
      rw [length_bootSector hlen]
      exact Nat.le_add_right _ _), length_bootSector hlen, Nat.add_sub_cancel_left,
      List.append_assoc, padding, List.replicate_append_replicate]
    rw [List.getD_eq_getElem?_getD]
    rcases Nat.lt_or_ge k file.length with hlt | hge
    · rw [List.getElem?_append_left hlt, List.getElem?_eq_getElem hlt]
      rfl
    · rw [List.getElem?_append_right hge, List.getElem?_eq_none hge, List.getElem?_replicate,
        if_pos (by omega)]
      rfl
  exact hdisk _ _ hat

/-- **From the disk image to memory**: the image of a boot sector and a kernel can be written, and
when it has been, `bootmain` puts the segments in memory as they are in the file, exactly if no
segment is disturbed by the sectors of later ones; so it does if these reach no byte of it. -/
theorem mkbootdisk_bootmain (files : Files) (boot kernel : String) (bytes file : List UInt8)
    (hboot : files boot = some bytes) (hlen : bytes.length ≤ 510)
    (hkernel : files kernel = some file) (hname : skipto kernel = none) (h : KernelFile file) :
    (∃ writes d, mkbootdisk files writes [boot, kernel] = .ok d) ∧
    ∀ writes d, mkbootdisk files writes [boot, kernel] = .ok d →
      ∀ disk, Tape.Holds id disk d.output → ∀ mem,
        (BootLoads disk file mem ↔ Undisturbed file) ∧
        ((∀ i j, i < j → j < (header file).ePhnum.toNat → ∀ x, (segment file i).Range x →
            ¬ (segment file j).Sectors x) → BootLoads disk file mem) := by
  refine ⟨mkbootdisk_completes hboot hlen hkernel hname, fun writes d hd disk hdisk mem => ?_⟩
  have hloads := h.loads_iff mem (onDisk_of_mkbootdisk hboot hlen hkernel hname hd hdisk)
  refine ⟨hloads, fun hapart => hloads.2 fun i hi k hk j hij hj hs _ => ?_⟩
  have hbyte := h.toNat_byte hi hk
  exact absurd hs (hapart i j hij hj _ (by unfold Proghdr.Range; omega))

/-! ## Two segments of one byte -/

/-- The bytes of a program header of a segment of one byte. -/
def oneByteProghdr (offset va : List UInt8) : List UInt8 :=
  [1, 0, 0, 0] ++ offset ++ va ++ List.replicate 4 0 ++ [1, 0, 0, 0] ++ [1, 0, 0, 0] ++
    List.replicate 8 0

/-- A kernel with byte 0 for `0x100000` and byte 513 for `0x100001 + 256 * b`. -/
def twoBytesKernel (b : UInt8) : List UInt8 :=
  [0x7F, 0x45, 0x4C, 0x46] ++ List.replicate 20 0 ++ [0, 0, 0x10, 0] ++ [52, 0, 0, 0] ++
    List.replicate 12 0 ++ [2, 0] ++ List.replicate 6 0 ++
  oneByteProghdr [0, 0, 0, 0] [0, 0, 0x10, 0] ++ oneByteProghdr [1, 2, 0, 0] [1, b, 0x10, 0] ++
  List.replicate 397 0 ++ [0xFF]

theorem twoBytes_header : ∀ b : UInt8, b = 0 ∨ b = 2 →
    header (twoBytesKernel b) = ⟨ELF_MAGIC, 0x100000, 52, 2⟩ ∧
    segment (twoBytesKernel b) 0 = ⟨ELF_PROG_LOAD, 0, 0x100000, 1, 1⟩ ∧
    segment (twoBytesKernel b) 1 = ⟨ELF_PROG_LOAD, 513, 0x100001 + 256 * b.toUInt32, 1, 1⟩ := by
  rintro b (rfl | rfl) <;> decide +kernel

section
variable {b : UInt8} (hb : b = 0 ∨ b = 2)
include hb

theorem twoBytes_va : (0x100001 + 256 * b.toUInt32).toNat = 0x100001 ∨
    (0x100001 + 256 * b.toUInt32).toNat = 0x100201 := by
  rcases hb with rfl | rfl
  · exact .inl rfl
  · exact .inr rfl

/-- What holds of its two segments holds of all of them. -/
theorem twoBytes_segment {p : Proghdr → Prop} (h0 : p ⟨ELF_PROG_LOAD, 0, 0x100000, 1, 1⟩)
    (h1 : p ⟨ELF_PROG_LOAD, 513, 0x100001 + 256 * b.toUInt32, 1, 1⟩) (j : Nat)
    (hj : j < (header (twoBytesKernel b)).ePhnum.toNat) : p (segment (twoBytesKernel b) j) := by
  obtain ⟨hheader, hs0, hs1⟩ := twoBytes_header b hb
  have hj2 : j < 2 := by rwa [hheader] at hj
  rcases Nat.lt_succ_iff_lt_or_eq.1 hj2 with hlt | rfl
  · rw [Nat.lt_one_iff.1 hlt, hs0]
    exact h0
  · rw [hs1]
    exact h1

theorem twoBytes_above (j : Nat) (hj : j < (header (twoBytesKernel b)).ePhnum.toNat) (x : UInt32)
    (hx : (segment (twoBytesKernel b) j).Range x ∨ (segment (twoBytesKernel b) j).Sectors x) :
    0x100000 ≤ x.toNat := by
  have hva := twoBytes_va hb
  revert x
  refine twoBytes_segment hb (p := fun h => ∀ x, h.Range x ∨ h.Sectors x → 0x100000 ≤ x.toNat)
    ?_ ?_ j hj
  · rintro x (hx | hx)
    · exact hx.1
    · exact hx.1
  · rintro x (hx | hx)
    · have hlow : (0x100001 + 256 * b.toUInt32).toNat ≤ x.toNat := hx.1
      omega
    · have hlow : (0x100001 + 256 * b.toUInt32).toNat / 512 * 512 ≤ x.toNat := hx.1
      omega

theorem twoBytes_kernelFile : KernelFile (twoBytesKernel b) := by
  obtain ⟨hheader, hs0, hs1⟩ := twoBytes_header b hb
  have hlength : (twoBytesKernel b).length = 514 := by
    rcases hb with rfl | rfl <;> decide +kernel
  have hva := twoBytes_va hb
  have hfirst : ∀ i j, i < j → j < (header (twoBytesKernel b)).ePhnum.toNat → i = 0 ∧ j = 1 := by
    intro i j hij hj
    have hj2 : j < 2 := by rwa [hheader] at hj
    omega
  have hapart : ∀ x, (segment (twoBytesKernel b) 0).Range x →
      ¬ (segment (twoBytesKernel b) 1).Range x := by
    intro x hx hx'
    rw [hs0] at hx
    rw [hs1] at hx'
    have hhigh : x.toNat < 0x100000 + 1 := hx.2
    have hlow : (0x100001 + 256 * b.toUInt32).toNat ≤ x.toNat := hx'.1
    omega
  constructor
  · rw [hheader]
  · rw [hheader]
    decide
  · rw [hheader, hlength]
    decide
  · intro i j hij hj
    obtain ⟨rfl, rfl⟩ := hfirst i j hij hj
    rw [hs0, hs1, UInt32.le_iff_toNat_le]
    show 0x100000 ≤ (0x100001 + 256 * b.toUInt32).toNat
    omega
  · intro i j hi hj hij x hx hx'
    rcases Nat.lt_or_gt_of_ne hij with hlt | hlt
    · obtain ⟨rfl, rfl⟩ := hfirst i j hlt hj
      exact hapart x hx hx'
    · obtain ⟨rfl, rfl⟩ := hfirst j i hlt hi
      exact hapart x hx' hx
  · exact twoBytes_segment hb (p := fun h => h.pFilesz ≤ h.pMemsz) (UInt32.le_refl 1)
      (UInt32.le_refl 1)
  · rw [hlength]
    refine twoBytes_segment hb (p := fun h => h.pOffset.toNat + h.pFilesz.toNat ≤ 514) (by decide) ?_
    exact Nat.le_refl 514
  · refine twoBytes_segment hb (p := fun h => h.pVa.toNat % 512 = h.pOffset.toNat % 512) rfl ?_
    show (0x100001 + 256 * b.toUInt32).toNat % 512 = 513 % 512
    omega
  · refine twoBytes_segment hb (p := fun h => h.pVa.toNat + h.pMemsz.toNat < 2 ^ 32) (by decide) ?_
    show (0x100001 + 256 * b.toUInt32).toNat + 1 < 2 ^ 32
    omega
  · refine twoBytes_segment hb
      (p := fun h => (h.pVa.toNat + h.pFilesz.toNat + 511) / 512 * 512 < 2 ^ 32) (by decide) ?_
    show ((0x100001 + 256 * b.toUInt32).toNat + 1 + 511) / 512 * 512 < 2 ^ 32
    omega
  · intro j hj x hx hin
    have hlow := twoBytes_above hb j hj x hx
    omega
  · intro j hj x hx hin
    have hlow := twoBytes_above hb j hj x hx
    omega

end

/-- The files that a kernel is made into an image from, with an empty boot sector. -/
def bootFiles (kernel : List UInt8) : Files :=
  fun name => if name = "schedos-kern" then some kernel else some []

theorem bootFiles_boot (kernel : List UInt8) : bootFiles kernel "bootsector" = some [] := rfl

theorem bootFiles_kernel (kernel : List UInt8) : bootFiles kernel "schedos-kern" = some kernel := rfl

theorem twoBytes_loads : ∃ writes d,
    mkbootdisk (bootFiles (twoBytesKernel 2)) writes ["bootsector", "schedos-kern"] = .ok d ∧
      ∀ disk, Tape.Holds id disk d.output → ∀ mem, BootLoads disk (twoBytesKernel 2) mem := by
  obtain ⟨⟨writes, d, hd⟩, hloads⟩ := mkbootdisk_bootmain (bootFiles (twoBytesKernel 2)) "bootsector"
    "schedos-kern" [] (twoBytesKernel 2) (bootFiles_boot _) (by decide) (bootFiles_kernel _)
      (by decide) (twoBytes_kernelFile (.inr rfl))
  obtain ⟨hheader, hs0, hs1⟩ := twoBytes_header 2 (.inr rfl)
  refine ⟨writes, d, hd, fun disk hdisk mem => (hloads writes d hd disk hdisk mem).2 ?_⟩
  intro i j hij hj x hx hx'
  have hj2 : j < 2 := by rwa [hheader] at hj
  obtain ⟨rfl, rfl⟩ : i = 0 ∧ j = 1 := by omega
  rw [hs0] at hx
  rw [hs1] at hx'
  have hhigh : x.toNat < 0x100000 + 1 := hx.2
  have hlow : 0x100201 / 512 * 512 ≤ x.toNat := hx'.1
  omega

/-- The sector of the byte for `0x100001` comes over the one at `0x100000`. -/
theorem sectors_overlap : ¬ ∀ (files : Files) (boot kernel : String) (bytes file : List UInt8)
    (writes : List WriteResult) (d : Disk) (disk : Nat → UInt8) (mem : Memory),
    files boot = some bytes → bytes.length ≤ 510 → files kernel = some file →
    skipto kernel = none → KernelFile file → mkbootdisk files writes [boot, kernel] = .ok d →
    Tape.Holds id disk d.output → BootLoads disk file mem := by
  intro hclaim
  have hfile := twoBytes_kernelFile (b := 0) (.inl rfl)
  obtain ⟨hheader, hs0, hs1⟩ := twoBytes_header 0 (.inl rfl)
  obtain ⟨writes, d, hd⟩ : ∃ writes d, mkbootdisk (bootFiles (twoBytesKernel 0)) writes
      ["bootsector", "schedos-kern"] = .ok d :=
    mkbootdisk_completes (bootFiles_boot _) (by decide) (bootFiles_kernel _) (by decide)
  have hdisk : Tape.Holds id (fun i => d.output.getD i 0) d.output := by
    intro i x hx
    show d.output.getD i 0 = x
    rw [List.getD_eq_getElem?_getD, hx, Option.getD_some]
  have hloads := hclaim _ "bootsector" "schedos-kern" [] (twoBytesKernel 0) writes d _ (fun _ => 0)
    (bootFiles_boot _) (by decide) (bootFiles_kernel _) (by decide) hfile hd hdisk
  have hu := (hfile.loads_iff _ (onDisk_of_mkbootdisk (bootFiles_boot _) (by decide)
    (bootFiles_kernel _) (by decide) hd hdisk)).1 hloads
  have hbyte := hu 0 (by rw [hheader]; decide) 0 (by rw [hs0]; decide) 1 (by decide)
    (by rw [hheader]; decide) (by rw [hs0, hs1]; unfold Proghdr.Sectors; decide)
    fun l h1 h2 => by
      rw [hheader] at h2
      have hl : l < 2 := h2
      omega
  rw [hs0, hs1] at hbyte
  exact absurd hbyte (by decide +kernel)

end SchedOS
