import SchedOS.Load.Loader
import SchedOS.Load.Proof.Memory

/-!
# The segments that `program_loader` places

The copies of `copyseg` are block writes (`copyseg_eq`): from the page boundary below `p_va` on it
stores the bytes at `p_offset`, so the data of a segment that begins inside a page come from
`p_va % 4096` bytes further on in the source (`fetched`). The image is never changed, so the headers
are the ones it began with (`Loadable.loaderMem_succ`), no pass writes into another segment
(`Loadable.loaderMem_keeps`), and a segment is placed exactly if its bytes are found there
(`Loadable.placed_iff`, `program_loader_iff`).
-/

namespace SchedOS

/-! ## `copyseg` -/

/-- The beginning of the page of an address. -/
def page (va : UInt32) : UInt32 := va &&& ~~~(PAGESIZE - 1)

theorem toNat_page (va : UInt32) : (page va).toNat = va.toNat / 4096 * 4096 := by
  have hmask : (~~~(PAGESIZE - 1)).toNat = 2 ^ 32 - 2 ^ 12 := by decide
  unfold page
  rw [UInt32.toNat_and, hmask]
  exact and_mask va.toNat_lt (by decide)

section
variable {mem : Memory} {va src filesz memsz x : UInt32} (hle : filesz ≤ memsz)
  (hfit : va.toNat + memsz.toNat < 2 ^ 32)
include hle hfit

/-- `copyseg` is two block writes: the data from the page boundary on, then the zeros. -/
theorem copyseg_eq : copyseg mem va src filesz memsz =
    Block.write (Block.write mem (page va) (va.toNat % 4096 + filesz.toNat)
      (Block.copied mem src (page va - src).toNat)) (va + filesz)
        (memsz.toNat - filesz.toNat) fun _ => 0 := by
  have hle' := UInt32.le_iff_toNat_le.1 hle
  have hpage := toNat_page va
  have hend := toNat_end hle hfit
  have hdata : (va + filesz - page va).toNat = va.toNat % 4096 + filesz.toNat := by
    rw [UInt32.toNat_sub_of_le _ _ (UInt32.le_iff_toNat_le.2 (by omega))]
    omega
  unfold copyseg
  dsimp only
  rw [show va &&& ~~~(PAGESIZE - 1) = page va from rfl, hdata, memcpy_eq _ _ _ (by omega),
    clearBss_end hle hfit]

theorem copyseg_data (h1 : va.toNat / 4096 * 4096 ≤ x.toNat)
    (h2 : x.toNat < va.toNat + filesz.toNat) : copyseg mem va src filesz memsz x =
      Block.copied mem src (page va - src).toNat (x.toNat - va.toNat / 4096 * 4096) := by
  have hle' := UInt32.le_iff_toNat_le.1 hle
  have hpage := toNat_page va
  have hend := toNat_end hle hfit
  rw [copyseg_eq hle hfit, Block.write_outside (by omega) (by omega),
    Block.write_at (by omega) (by omega) (by omega), hpage]

theorem copyseg_bss (h1 : va.toNat + filesz.toNat ≤ x.toNat)
    (h2 : x.toNat < va.toNat + memsz.toNat) : copyseg mem va src filesz memsz x = 0 := by
  have hle' := UInt32.le_iff_toNat_le.1 hle
  have hend := toNat_end hle hfit
  rw [copyseg_eq hle hfit, Block.write_at (by omega) (by omega) (by omega)]

theorem copyseg_outside
    (h : ¬ (va.toNat / 4096 * 4096 ≤ x.toNat ∧ x.toNat < va.toNat + memsz.toNat)) :
    copyseg mem va src filesz memsz x = mem x := by
  have hle' := UInt32.le_iff_toNat_le.1 hle
  have hpage := toNat_page va
  have hend := toNat_end hle hfit
  rw [copyseg_eq hle hfit, Block.write_outside (by omega) (by omega),
    Block.write_outside (by omega) (by omega)]

end

/-! ## Images -/

/-- Program header `j` is one of a loadable segment. -/
def IsLoad (mem : Memory) (b : UInt32) (j : Nat) : Prop :=
  j < (elfAt mem b).ePhnum.toNat ∧ (phdr mem b j).pType = ELF_PROG_LOAD

/-- The destination of a segment, from the page boundary below it on. -/
def Proghdr.Dest (h : Proghdr) (x : UInt32) : Prop :=
  h.pVa.toNat / 4096 * 4096 ≤ x.toNat ∧ x.toNat < h.pVa.toNat + h.pMemsz.toNat

/-- The bytes of an image. -/
def InImage (b : UInt32) (size : Nat) (x : UInt32) : Prop :=
  b.toNat ≤ x.toNat ∧ x.toNat < b.toNat + size

/-- The image of `size` bytes at `b` can be loaded. -/
structure Loadable (mem : Memory) (b : UInt32) (size : Nat) : Prop where
  magic : (elfAt mem b).eMagic = ELF_MAGIC
  fits : b.toNat + size < 2 ^ 32
  elf : 52 ≤ size
  table : (elfAt mem b).ePhoff.toNat + 32 * (elfAt mem b).ePhnum.toNat ≤ size
  filesz : ∀ j, IsLoad mem b j → (phdr mem b j).pFilesz ≤ (phdr mem b j).pMemsz
  offset : ∀ j, IsLoad mem b j →
    (phdr mem b j).pOffset.toNat + (phdr mem b j).pFilesz.toNat ≤ size
  aligned : ∀ j, IsLoad mem b j →
    (phdr mem b j).pVa.toNat % 4096 = (phdr mem b j).pOffset.toNat % 4096
  noWrap : ∀ j, IsLoad mem b j → (phdr mem b j).pVa.toNat + (phdr mem b j).pMemsz.toNat < 2 ^ 32
  disjoint : ∀ i j, IsLoad mem b i → IsLoad mem b j → i ≠ j →
    ∀ x, (phdr mem b i).Dest x → ¬ (phdr mem b j).Dest x
  image : ∀ j, IsLoad mem b j → ∀ x, (phdr mem b j).Dest x → ¬ InImage b size x

/-! ## The loop over the headers -/

/-- What a pass does with the program header at `ph`. -/
def loadHeader (elfHeader : UInt32) (mem : Memory) (ph : UInt32) : Memory :=
  let h := proghdrAt mem ph
  if h.pType = ELF_PROG_LOAD then
    copyseg mem h.pVa (elfHeader + h.pOffset) h.pFilesz h.pMemsz
  else mem

theorem loaderPass_eq (elfHeader eph : UInt32) (mem : Memory) (ph : UInt32) :
    loaderPass elfHeader eph (mem, ph) =
      if ph < eph then .inl (loadHeader elfHeader mem ph, ph + PROGHDR_SIZE) else .inr mem := by
  unfold loaderPass loadHeader
  dsimp only
  split
  · split <;> rfl
  · rfl

/-- The memory when the loop comes to program header `j`. -/
def loaderMem (mem : Memory) (b : UInt32) : Nat → Memory
  | 0 => mem
  | j + 1 => loadHeader b (loaderMem mem b j) (phAddr mem b j)

section
variable {mem : Memory} {b : UInt32} {size : Nat} (h : Loadable mem b size)
include h

theorem Loadable.toNat_phAddr {j : Nat} (hj : j ≤ (elfAt mem b).ePhnum.toNat) :
    (phAddr mem b j).toNat = b.toNat + (elfAt mem b).ePhoff.toNat + 32 * j := by
  have := h.fits
  have := h.table
  exact SchedOS.toNat_phAddr (by omega)

/-- A header is read from the image. -/
theorem Loadable.proghdrAt_eq {m : Memory} (hm : ∀ x, InImage b size x → m x = mem x) {j : Nat}
    (hj : j < (elfAt mem b).ePhnum.toNat) : proghdrAt m (phAddr mem b j) = phdr mem b j := by
  have hfits := h.fits
  have htable := h.table
  have haddr := h.toNat_phAddr (Nat.le_of_lt hj)
  refine Agree.proghdrAt fun x hx => hm x ?_
  rw [Block.mem_iff (by omega)] at hx
  unfold InImage
  omega

/-- A segment is placed off the image. -/
theorem Loadable.copyseg_outside {j : Nat} (hj : IsLoad mem b j) {x : UInt32}
    (hx : ¬ (phdr mem b j).Dest x) (m : Memory) (src : UInt32) :
    copyseg m (phdr mem b j).pVa src (phdr mem b j).pFilesz (phdr mem b j).pMemsz x = m x :=
  SchedOS.copyseg_outside (h.filesz j hj) (h.noWrap j hj) hx

/-- The image is left alone. -/
theorem Loadable.loaderMem_image {j : Nat} (hj : j ≤ (elfAt mem b).ePhnum.toNat) {x : UInt32}
    (hx : InImage b size x) : loaderMem mem b j x = mem x := by
  induction j generalizing x with
  | zero => rfl
  | succ j ih =>
    have ih : ∀ x, InImage b size x → loaderMem mem b j x = mem x :=
      fun x hx => ih (Nat.le_of_lt hj) hx
    rw [loaderMem, loadHeader, h.proghdrAt_eq ih hj]
    split
    · rename_i hload
      have hl : IsLoad mem b j := ⟨hj, hload⟩
      rw [h.copyseg_outside hl fun hd => h.image j hl x hd hx]
      exact ih x hx
    · exact ih x hx

theorem Loadable.loaderMem_succ {j : Nat} (hj : j < (elfAt mem b).ePhnum.toNat) :
    loaderMem mem b (j + 1) =
      if (phdr mem b j).pType = ELF_PROG_LOAD then
        copyseg (loaderMem mem b j) (phdr mem b j).pVa (b + (phdr mem b j).pOffset)
          (phdr mem b j).pFilesz (phdr mem b j).pMemsz
      else loaderMem mem b j := by
  rw [loaderMem, loadHeader, h.proghdrAt_eq (fun x hx => h.loaderMem_image (Nat.le_of_lt hj) hx) hj]

/-- A pass changes nothing but the destination of a loadable segment. -/
theorem Loadable.loaderMem_keeps {i j : Nat} (hij : i ≤ j) (hj : j ≤ (elfAt mem b).ePhnum.toNat)
    {x : UInt32} (hx : ∀ k, i ≤ k → k < j → IsLoad mem b k → ¬ (phdr mem b k).Dest x) :
    loaderMem mem b j x = loaderMem mem b i x := by
  induction j, hij using Nat.le_induction with
  | base => rfl
  | succ j hij ih =>
    rw [← ih (Nat.le_of_lt hj) fun k h1 h2 => hx k h1 (Nat.lt_succ_of_lt h2), h.loaderMem_succ hj]
    split
    · rename_i hload
      have hl : IsLoad mem b j := ⟨hj, hload⟩
      exact h.copyseg_outside hl (hx j hij (Nat.lt_succ_self j) hl) _ _
    · rfl

/-- The loop comes to its end. -/
theorem Loadable.run_loaderPass :
    Loop.run (loaderPass b (phAddr mem b (elfAt mem b).ePhnum.toNat)) ((elfAt mem b).ePhnum.toNat + 1)
      (mem, phAddr mem b 0) = some (loaderMem mem b (elfAt mem b).ePhnum.toNat) := by
  have hfits := h.fits
  have htable := h.table
  refine Loop.run_count (s := fun j => (loaderMem mem b j, phAddr mem b j)) (fun j hj => ?_) ?_
    (Nat.zero_add _)
  · rw [loaderPass_eq, if_pos (phAddr_lt (by omega) hj), phAddr_succ, loaderMem]
  · rw [loaderPass_eq, if_neg (UInt32.lt_irrefl _)]

/-! ## What the segments hold -/

/-- Byte `k` of the data of a segment, as `copyseg` finds it: `p_va % 4096` bytes further on. -/
def fetched (m : Memory) (b : UInt32) (h : Proghdr) (k : Nat) : UInt8 :=
  Block.copied m (b + h.pOffset) (page h.pVa - (b + h.pOffset)).toNat (h.pVa.toNat % 4096 + k)

/-- The bytes that `copyseg` finds for a segment are its own. -/
def InStep (m : Memory) (b : UInt32) (h : Proghdr) : Prop :=
  ∀ k, k < h.pFilesz.toNat → fetched m b h k = m (b + h.pOffset + UInt32.ofNat k)

/-- The segment is in memory: its bytes of the image, then zeros. -/
def Placed (mem : Memory) (b : UInt32) (h : Proghdr) (final : Memory) : Prop :=
  ∀ k, k < h.pMemsz.toNat → final (h.pVa + UInt32.ofNat k) =
    if k < h.pFilesz.toNat then mem (b + h.pOffset + UInt32.ofNat k) else 0

/-- The bytes behind the beginning of a segment in the image. -/
theorem Loadable.inImage {j i : Nat} (hi : (phdr mem b j).pOffset.toNat + i < size) :
    InImage b size (b + (phdr mem b j).pOffset + UInt32.ofNat i) := by
  have hfits := h.fits
  unfold InImage
  rw [UInt32.toNat_add, UInt32.toNat_add, UInt32.toNat_ofNat_of_lt' (by show i < 2 ^ 32; omega)]
  omega

/-- The bytes of a segment at the end. -/
theorem Loadable.last_byte {j k : Nat} (hj : IsLoad mem b j)
    (hk : k < (phdr mem b j).pMemsz.toNat) :
    loaderMem mem b (elfAt mem b).ePhnum.toNat ((phdr mem b j).pVa + UInt32.ofNat k) =
      if k < (phdr mem b j).pFilesz.toNat then fetched (loaderMem mem b j) b (phdr mem b j) k
      else 0 := by
  have hwrap := h.noWrap j hj
  have hk' : ((phdr mem b j).pVa + UInt32.ofNat k).toNat = (phdr mem b j).pVa.toNat + k := by
    rw [UInt32.toNat_add, UInt32.toNat_ofNat_of_lt' (by show k < 2 ^ 32; omega)]
    omega
  have hdest : (phdr mem b j).Dest ((phdr mem b j).pVa + UInt32.ofNat k) := by
    unfold Proghdr.Dest
    omega
  -- no later pass writes there
  rw [h.loaderMem_keeps hj.1 (Nat.le_refl _) fun i h1 h2 hi hd =>
    h.disjoint i j hi hj (by omega) _ hd hdest, h.loaderMem_succ hj.1, if_pos hj.2]
  split
  · rw [copyseg_data (h.filesz j hj) hwrap (by omega) (by omega), hk', fetched]
    congr 1
    omega
  · exact copyseg_bss (h.filesz j hj) hwrap (by omega) (by omega)

/-- A segment is placed exactly if `copyseg` finds its bytes. -/
theorem Loadable.placed_iff {j : Nat} (hj : IsLoad mem b j) :
    Placed mem b (phdr mem b j) (loaderMem mem b (elfAt mem b).ePhnum.toNat) ↔
      InStep (loaderMem mem b j) b (phdr mem b j) := by
  have hfilesz := UInt32.le_iff_toNat_le.1 (h.filesz j hj)
  have himage : ∀ k, k < (phdr mem b j).pFilesz.toNat →
      loaderMem mem b j (b + (phdr mem b j).pOffset + UInt32.ofNat k) =
        mem (b + (phdr mem b j).pOffset + UInt32.ofNat k) :=
    fun k hk => h.loaderMem_image (Nat.le_of_lt hj.1)
      (h.inImage (Nat.lt_of_lt_of_le (Nat.add_lt_add_left hk _) (h.offset j hj)))
  constructor
  · intro hp k hk
    have hbyte := hp k (Nat.lt_of_lt_of_le hk hfilesz)
    rw [h.last_byte hj (Nat.lt_of_lt_of_le hk hfilesz), if_pos hk, if_pos hk] at hbyte
    rw [himage k hk, hbyte]
  · intro hs k hk
    rw [h.last_byte hj hk]
    split
    · rename_i hk'
      rw [hs k hk', himage k hk']
    · rfl

/-- As long as the source is in the image, `copyseg` does not come to what it has written. -/
theorem Loadable.fetched_eq {j k : Nat} (hj : IsLoad mem b j)
    (hk : k < (phdr mem b j).pFilesz.toNat)
    (hin : (phdr mem b j).pOffset.toNat + ((phdr mem b j).pVa.toNat % 4096 + k) < size)
    (m : Memory) : fetched m b (phdr mem b j) k =
      m (b + (phdr mem b j).pOffset + UInt32.ofNat ((phdr mem b j).pVa.toNat % 4096 + k)) := by
  have hfilesz := UInt32.le_iff_toNat_le.1 (h.filesz j hj)
  have hpage := toNat_page (phdr mem b j).pVa
  have hdist : (phdr mem b j).pVa.toNat % 4096 + k <
      (page (phdr mem b j).pVa - (b + (phdr mem b j).pOffset)).toNat := by
    apply Nat.lt_of_not_le
    intro hle
    refine h.image j hj (page (phdr mem b j).pVa) ?_ ?_
    · unfold Proghdr.Dest
      omega
    · have hsrc := h.inImage (Nat.lt_of_le_of_lt (Nat.add_le_add_left hle _) hin)
      rwa [UInt32.ofNat_toNat, UInt32.add_comm, UInt32.sub_add_cancel] at hsrc
  unfold fetched Block.copied
  rw [Nat.mod_eq_of_lt hdist]

/-- A segment that begins on a page boundary is in step. -/
theorem Loadable.inStep_of_aligned {j : Nat} (hj : IsLoad mem b j)
    (h0 : (phdr mem b j).pVa.toNat % 4096 = 0) (m : Memory) : InStep m b (phdr mem b j) := by
  intro k hk
  have hoff := h.offset j hj
  rw [h.fetched_eq hj hk (by omega), h0, Nat.zero_add]

/-- The condition in the bytes of the image. -/
theorem Loadable.inStep_iff {j : Nat} (hj : IsLoad mem b j)
    (hin : (phdr mem b j).pOffset.toNat + (phdr mem b j).pVa.toNat % 4096 +
      (phdr mem b j).pFilesz.toNat ≤ size) :
    InStep (loaderMem mem b j) b (phdr mem b j) ↔ ∀ k, k < (phdr mem b j).pFilesz.toNat →
      mem (b + (phdr mem b j).pOffset + UInt32.ofNat ((phdr mem b j).pVa.toNat % 4096 + k)) =
        mem (b + (phdr mem b j).pOffset + UInt32.ofNat k) := by
  refine forall_congr' fun k => forall_congr' fun hk => ?_
  rw [h.fetched_eq hj hk (by omega),
    h.loaderMem_image (Nat.le_of_lt hj.1) (h.inImage (j := j) (i := k) (by omega)),
    h.loaderMem_image (Nat.le_of_lt hj.1) (h.inImage (j := j)
      (i := (phdr mem b j).pVa.toNat % 4096 + k) (by omega))]

/-- The bytes of the image's header are never changed. -/
theorem Loadable.elfAt_loaderMem : elfAt (loaderMem mem b (elfAt mem b).ePhnum.toNat) b = elfAt mem b := by
  have hfits := h.fits
  have helf := h.elf
  refine Agree.elfAt fun x hx => h.loaderMem_image (Nat.le_refl _) ?_
  rw [Block.mem_iff (by omega)] at hx
  unfold InImage
  omega

/-- `program_loader` comes to its end, with the memory after the last pass. -/
theorem Loadable.programLoader_iff (ramimages : Fin nprograms → UInt32)
    (programId : Fin nprograms) (hb : ramimages programId = b) {exit : LoaderExit} :
    (∃ fuel, programLoader ramimages fuel programId.val mem = some exit) ↔
      exit = .done (loaderMem mem b (elfAt mem b).ePhnum.toNat) (elfAt mem b).eEntry := by
  have hid : ¬ ((programId.val : Int) < 0 ∨ (programId.val : Int) ≥ nprograms) := by omega
  have hrun := h.run_loaderPass
  have hprog : ∀ fuel, programLoader ramimages fuel programId.val mem =
      (Loop.run (loaderPass b (phAddr mem b (elfAt mem b).ePhnum.toNat)) fuel
        (mem, phAddr mem b 0)).map fun mem => .done mem (elfAt mem b).eEntry := by
    intro fuel
    unfold programLoader
    rw [dif_neg hid]
    simp only [Int.toNat_natCast, Fin.eta, hb, h.magic, ne_eq, not_true_eq_false, if_false,
      phAddr_end, phAddr_zero]
  constructor
  · rintro ⟨fuel, hf⟩
    rw [hprog] at hf
    obtain ⟨final, hfinal, rfl⟩ := Option.map_eq_some_iff.1 hf
    rw [Loop.run_unique hrun hfinal, h.elfAt_loaderMem]
  · rintro rfl
    refine ⟨(elfAt mem b).ePhnum.toNat + 1, ?_⟩
    rw [hprog, hrun, Option.map_some, h.elfAt_loaderMem]

end

/-- The bytes of the program header of a segment. -/
def loadProghdr (offset va : List UInt8) (filesz memsz : UInt8) : List UInt8 :=
  [1, 0, 0, 0] ++ offset ++ va ++ List.replicate 4 0 ++ [filesz, 0, 0, 0] ++ [memsz, 0, 0, 0] ++
    List.replicate 8 0

end SchedOS
