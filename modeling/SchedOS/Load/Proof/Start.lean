import Mathlib.Tactic.FinCases
import SchedOS.Lib.Refine
import SchedOS.Load.Proof.Loader
import SchedOS.Load.Start

/-!
# The four programs in memory

The images are never written over and no program is loaded over another (`Images`), so every program
is loaded as if it were the only one: its headers are the ones it began with (`Images.of_agree`),
and what has been placed stays (`Images.loadAll_keeps`). The processes that `start()` runs are then
the ones of `startKernel`, with the entry points of the images (`startLoop_gives`).
-/

namespace SchedOS

open Bounded

/-- The images can be loaded, each off all of them and off the other programs. -/
structure Images (ramimages : Fin nprograms → UInt32) (size : Fin nprograms → Nat) (mem : Memory) :
    Prop where
  loadable : ∀ p, Loadable mem (ramimages p) (size p)
  images : ∀ p q j, IsLoad mem (ramimages p) j → ∀ x, (phdr mem (ramimages p) j).Dest x →
    ¬ InImage (ramimages q) (size q) x
  apart : ∀ p q i j, p ≠ q → IsLoad mem (ramimages p) i → IsLoad mem (ramimages q) j →
    ∀ x, (phdr mem (ramimages p) i).Dest x → ¬ (phdr mem (ramimages q) j).Dest x

/-! ## An image that has not been written over -/

section
variable {mem m : Memory} {b : UInt32} {size : Nat} (h : Loadable mem b size)
  (hm : ∀ x, InImage b size x → m x = mem x)
include h hm

theorem Loadable.elfAt_eq : elfAt m b = elfAt mem b := by
  have hfits := h.fits
  have helf := h.elf
  refine Agree.elfAt fun x hx => hm x ?_
  rw [Block.mem_iff (by omega)] at hx
  unfold InImage
  omega

theorem Loadable.phAddr_eq (j : Nat) : phAddr m b j = phAddr mem b j := by
  unfold phAddr
  rw [h.elfAt_eq hm]

theorem Loadable.phdr_eq {j : Nat} (hj : j < (elfAt mem b).ePhnum.toNat) :
    phdr m b j = phdr mem b j := by
  rw [← h.proghdrAt_eq hm hj, ← h.phAddr_eq hm]
  rfl

theorem Loadable.isLoad_iff {j : Nat} : IsLoad m b j ↔ IsLoad mem b j := by
  unfold IsLoad
  rw [h.elfAt_eq hm]
  refine and_congr_right fun hj => ?_
  rw [h.phdr_eq hm hj]

theorem Loadable.of_agree : Loadable m b size := by
  have hload : ∀ {j}, IsLoad m b j → IsLoad mem b j ∧ phdr m b j = phdr mem b j := by
    intro j hj
    have hj' := (h.isLoad_iff hm).1 hj
    exact ⟨hj', h.phdr_eq hm hj'.1⟩
  constructor
  · rw [h.elfAt_eq hm]
    exact h.magic
  · exact h.fits
  · exact h.elf
  · rw [h.elfAt_eq hm]
    exact h.table
  · intro j hj
    rw [(hload hj).2]
    exact h.filesz j (hload hj).1
  · intro j hj
    rw [(hload hj).2]
    exact h.offset j (hload hj).1
  · intro j hj
    rw [(hload hj).2]
    exact h.aligned j (hload hj).1
  · intro j hj
    rw [(hload hj).2]
    exact h.noWrap j (hload hj).1
  · intro i j hi hj hij
    rw [(hload hi).2, (hload hj).2]
    exact h.disjoint i j (hload hi).1 (hload hj).1 hij
  · intro j hj
    rw [(hload hj).2]
    exact h.image j (hload hj).1

end

theorem placed_congr {mem mem' final final' : Memory} {b : UInt32} {h : Proghdr}
    (hmem : ∀ k, k < h.pFilesz.toNat →
      mem (b + h.pOffset + UInt32.ofNat k) = mem' (b + h.pOffset + UInt32.ofNat k))
    (hfinal : ∀ k, k < h.pMemsz.toNat →
      final (h.pVa + UInt32.ofNat k) = final' (h.pVa + UInt32.ofNat k)) :
    Placed mem b h final ↔ Placed mem' b h final' := by
  refine forall_congr' fun k => forall_congr' fun hk => ?_
  rw [hfinal k hk]
  by_cases hdata : k < h.pFilesz.toNat
  · rw [if_pos hdata, if_pos hdata, hmem k hdata]
  · rw [if_neg hdata, if_neg hdata]

theorem Proghdr.dest_byte {h : Proghdr} (hwrap : h.pVa.toNat + h.pMemsz.toNat < 2 ^ 32) {k : Nat}
    (hk : k < h.pMemsz.toNat) : h.Dest (h.pVa + UInt32.ofNat k) := by
  unfold Proghdr.Dest
  rw [UInt32.toNat_add, UInt32.toNat_ofNat']
  omega

/-! ## One program after the other -/

/-- The memory after `program_loader` has loaded program `p`. -/
def loadProgram (ramimages : Fin nprograms → UInt32) (mem : Memory) (p : Fin nprograms) : Memory :=
  loaderMem mem (ramimages p) (elfAt mem (ramimages p)).ePhnum.toNat

section
variable {ramimages : Fin nprograms → UInt32} {size : Fin nprograms → Nat} {mem m : Memory}

theorem Images.of_agree (h : Images ramimages size mem)
    (hm : ∀ p x, InImage (ramimages p) (size p) x → m x = mem x) : Images ramimages size m := by
  have hload : ∀ {p j}, IsLoad m (ramimages p) j →
      IsLoad mem (ramimages p) j ∧ phdr m (ramimages p) j = phdr mem (ramimages p) j := by
    intro p j hj
    have hj' := ((h.loadable p).isLoad_iff (hm p)).1 hj
    exact ⟨hj', (h.loadable p).phdr_eq (hm p) hj'.1⟩
  constructor
  · exact fun p => (h.loadable p).of_agree (hm p)
  · intro p q j hj
    rw [(hload hj).2]
    exact h.images p q j (hload hj).1
  · intro p q i j hpq hi hj
    rw [(hload hi).2, (hload hj).2]
    exact h.apart p q i j hpq (hload hi).1 (hload hj).1

/-- A program is loaded off everything else. -/
theorem Images.loadProgram_keeps (h : Images ramimages size mem) (p : Fin nprograms) {x : UInt32}
    (hx : ∀ j, IsLoad mem (ramimages p) j → ¬ (phdr mem (ramimages p) j).Dest x) :
    loadProgram ramimages mem p x = mem x :=
  (h.loadable p).loaderMem_keeps (Nat.zero_le _) (Nat.le_refl _) fun j _ _ hj => hx j hj

theorem Images.loadProgram_image (h : Images ramimages size mem) (p q : Fin nprograms) (x : UInt32)
    (hx : InImage (ramimages q) (size q) x) : loadProgram ramimages mem p x = mem x :=
  h.loadProgram_keeps p fun j hj hd => h.images p q j hj x hd hx

/-- The images stay as they are. -/
theorem Images.loadAll_image (h : Images ramimages size mem) (ps : List (Fin nprograms))
    (q : Fin nprograms) (x : UInt32) (hx : InImage (ramimages q) (size q) x) :
    ps.foldl (loadProgram ramimages) mem x = mem x := by
  induction ps generalizing mem with
  | nil => rfl
  | cons p ps ih =>
    rw [List.foldl_cons, ih (h.of_agree (h.loadProgram_image p))]
    exact h.loadProgram_image p q x hx

/-- Off the programs that are loaded nothing changes. -/
theorem Images.loadAll_keeps (h : Images ramimages size mem) (ps : List (Fin nprograms))
    {x : UInt32} (hx : ∀ p ∈ ps, ∀ j, IsLoad mem (ramimages p) j →
      ¬ (phdr mem (ramimages p) j).Dest x) : ps.foldl (loadProgram ramimages) mem x = mem x := by
  induction ps generalizing mem with
  | nil => rfl
  | cons p ps ih =>
    have himage := h.loadProgram_image p
    rw [List.foldl_cons, ih (h.of_agree himage), h.loadProgram_keeps p (hx p List.mem_cons_self)]
    intro q hq j hj
    have hj' := ((h.loadable q).isLoad_iff (himage q)).1 hj
    rw [(h.loadable q).phdr_eq (himage q) hj'.1]
    exact hx q (List.mem_cons_of_mem _ hq) j hj'

/-- A segment of a program that is loaded in its turn is placed exactly if `copyseg` finds its bytes
then. -/
theorem Images.placed_iff (h : Images ramimages size mem) {ps qs : List (Fin nprograms)}
    {p : Fin nprograms} (hp : p ∉ qs) {j : Nat} (hj : IsLoad mem (ramimages p) j) :
    Placed mem (ramimages p) (phdr mem (ramimages p) j)
        ((ps ++ p :: qs).foldl (loadProgram ramimages) mem) ↔
      InStep (loaderMem (ps.foldl (loadProgram ramimages) mem) (ramimages p) j) (ramimages p)
        (phdr mem (ramimages p) j) := by
  have himage := h.loadAll_image ps
  have hm := h.of_agree himage
  have hj' := ((h.loadable p).isLoad_iff (himage p)).2 hj
  have hph := (h.loadable p).phdr_eq (himage p) hj.1
  have hlater := hm.of_agree (hm.loadProgram_image p)
  have hiff := (hm.loadable p).placed_iff hj'
  have hoff := (h.loadable p).offset j hj
  have hwrap := (h.loadable p).noWrap j hj
  rw [hph] at hiff
  rw [← hiff, List.foldl_append, List.foldl_cons]
  refine placed_congr (fun k hk => (himage p _ ((h.loadable p).inImage (by omega))).symm)
    fun k hk => hlater.loadAll_keeps qs fun q hq i hi hd => ?_
  -- the programs after it are other ones
  have hne : p ≠ q := fun he => hp (he ▸ hq)
  have hi' := ((hm.loadable q).isLoad_iff (hm.loadProgram_image p q)).1 hi
  rw [(hm.loadable q).phdr_eq (hm.loadProgram_image p q) hi'.1] at hd
  refine hm.apart p q j i hne hj' hi' _ ?_ hd
  rw [hph]
  exact Proghdr.dest_byte hwrap hk

/-- The condition in the bytes of the image, while `copyseg` stays in it. -/
theorem Images.placed_iff_bytes (h : Images ramimages size mem) {ps qs : List (Fin nprograms)}
    {p : Fin nprograms} (hp : p ∉ qs) {j : Nat} (hj : IsLoad mem (ramimages p) j)
    (hin : (phdr mem (ramimages p) j).pOffset.toNat + (phdr mem (ramimages p) j).pVa.toNat % 4096 +
      (phdr mem (ramimages p) j).pFilesz.toNat ≤ size p) :
    Placed mem (ramimages p) (phdr mem (ramimages p) j)
        ((ps ++ p :: qs).foldl (loadProgram ramimages) mem) ↔
      ∀ k, k < (phdr mem (ramimages p) j).pFilesz.toNat →
        mem (ramimages p + (phdr mem (ramimages p) j).pOffset +
            UInt32.ofNat ((phdr mem (ramimages p) j).pVa.toNat % 4096 + k)) =
          mem (ramimages p + (phdr mem (ramimages p) j).pOffset + UInt32.ofNat k) := by
  have himage := h.loadAll_image ps
  have hj' := ((h.loadable p).isLoad_iff (himage p)).2 hj
  have hph := (h.loadable p).phdr_eq (himage p) hj.1
  have hiff := ((h.of_agree himage).loadable p).inStep_iff hj'
  rw [hph] at hiff
  rw [h.placed_iff hp hj, hiff hin]
  refine forall_congr' fun k => forall_congr' fun hk => ?_
  rw [himage p _ ((h.loadable p).inImage (j := j) (i := k) (by omega)),
    himage p _ ((h.loadable p).inImage (j := j)
      (i := (phdr mem (ramimages p) j).pVa.toNat % 4096 + k) (by omega))]

theorem Images.placed_of_aligned (h : Images ramimages size mem) {ps qs : List (Fin nprograms)}
    {p : Fin nprograms} (hp : p ∉ qs) {j : Nat} (hj : IsLoad mem (ramimages p) j)
    (h0 : (phdr mem (ramimages p) j).pVa.toNat % 4096 = 0) :
    Placed mem (ramimages p) (phdr mem (ramimages p) j)
      ((ps ++ p :: qs).foldl (loadProgram ramimages) mem) := by
  have himage := h.loadAll_image ps
  have hj' := ((h.loadable p).isLoad_iff (himage p)).2 hj
  have hph := (h.loadable p).phdr_eq (himage p) hj.1
  rw [h.placed_iff hp hj, ← hph]
  rw [← hph] at h0
  exact ((h.of_agree himage).loadable p).inStep_of_aligned hj' h0 _

/-! ## The processes -/

/-- The process of a program. -/
def pidOf (p : Fin nprograms) : Pid := ⟨p.val + 1, Nat.succ_lt_succ p.isLt⟩

/-- The descriptors after the pass for program `p`. -/
def setUp (entry : Fin nprograms → UInt32) (procArray : ProcArray) (p : Fin nprograms) : ProcArray :=
  Function.update procArray (pidOf p) (setUpProc (procArray (pidOf p)) (pidOf p) (entry p))

theorem programLoader_mono {programId : Int} {n k : Nat} {exit : LoaderExit}
    (h : programLoader ramimages n programId mem = some exit) (hnk : n ≤ k) :
    programLoader ramimages k programId mem = some exit := by
  unfold programLoader at h ⊢
  split at h
  · rename_i hid
    rw [dif_pos hid]
    exact h
  · rename_i hid
    rw [dif_neg hid]
    dsimp only at h ⊢
    split at h
    · rename_i hmagic
      rw [if_pos hmagic]
      exact h
    · rename_i hmagic
      obtain ⟨final, hfinal, rfl⟩ := Option.map_eq_some_iff.1 h
      rw [if_neg hmagic, Loop.run_mono hfinal hnk]
      rfl

theorem Images.programLoader_gives (h : Images ramimages size mem) (p : Fin nprograms) :
    Gives (fun fuel => programLoader ramimages fuel ((pidOf p).val - 1) mem)
      (.done (loadProgram ramimages mem p) (elfAt mem (ramimages p)).eEntry) := by
  have hid : ((pidOf p).val : Int) - 1 = p.val := by
    show ((p.val + 1 : Nat) : Int) - 1 = p.val
    omega
  rw [hid]
  exact Gives.of_mono (fun n k exit hn hnk => programLoader_mono hn hnk) fun exit =>
    (h.loadable p).programLoader_iff ramimages p rfl

/-- The loop comes to its end with every program loaded. -/
theorem Images.startLoop_gives (h : Images ramimages size mem) {entry : Fin nprograms → UInt32}
    (hentry : ∀ p, (elfAt mem (ramimages p)).eEntry = entry p) (ps : List (Fin nprograms))
    (procArray : ProcArray) :
    Gives (fun fuel => startLoop ramimages fuel (ps.map pidOf) procArray mem)
      (.ready (ps.foldl (setUp entry) procArray) (ps.foldl (loadProgram ramimages) mem)) := by
  induction ps generalizing mem procArray with
  | nil => exact Gives.pure _
  | cons p ps ih =>
    have himage := h.loadProgram_image p
    refine (h.programLoader_gives p).bind ?_
    dsimp only
    rw [hentry p]
    refine ih (h.of_agree himage) (fun q => ?_) (setUp entry procArray p)
    rw [(h.loadable q).elfAt_eq (himage q)]
    exact hentry q

end

/-- The descriptors are those of `startKernel`. -/
theorem setUp_startKernel (alg : Int) (boot : Boot) :
    [0, 1, 2, 3].foldl (setUp fun p => boot.entryPoint p.val) emptyProc =
      (startKernel alg boot).procArray := by
  funext i
  fin_cases i <;> rfl

/-- **`start()` loads the programs**: if the images can be loaded and are apart, the loop ends, and
only so, with the processes of `startKernel` and nothing but the programs changed; while `copyseg`
stays in the images, every segment is placed exactly if it finds the bytes of each there, and so is
one that begins on a page boundary. -/
theorem start_loads (ramimages : Fin nprograms → UInt32) (size : Fin nprograms → Nat) (mem : Memory)
    (h : Images ramimages size mem) (alg : Int) (boot : Boot)
    (hboot : ∀ p : Fin nprograms, boot.entryPoint p.val = (elfAt mem (ramimages p)).eEntry) :
    ∃ final,
      (∀ exit, (∃ fuel, startPrograms ramimages fuel mem = some exit) ↔
        exit = .ready (startKernel alg boot).procArray final) ∧
      (∀ x, (∀ p j, IsLoad mem (ramimages p) j → ¬ (phdr mem (ramimages p) j).Dest x) →
        final x = mem x) ∧
      (∀ p j, IsLoad mem (ramimages p) j →
        (phdr mem (ramimages p) j).pOffset.toNat + (phdr mem (ramimages p) j).pVa.toNat % 4096 +
          (phdr mem (ramimages p) j).pFilesz.toNat ≤ size p →
        (Placed mem (ramimages p) (phdr mem (ramimages p) j) final ↔
          ∀ k, k < (phdr mem (ramimages p) j).pFilesz.toNat →
            mem (ramimages p + (phdr mem (ramimages p) j).pOffset +
                UInt32.ofNat ((phdr mem (ramimages p) j).pVa.toNat % 4096 + k)) =
              mem (ramimages p + (phdr mem (ramimages p) j).pOffset + UInt32.ofNat k))) ∧
      ∀ p j, IsLoad mem (ramimages p) j → (phdr mem (ramimages p) j).pVa.toNat % 4096 = 0 →
        Placed mem (ramimages p) (phdr mem (ramimages p) j) final := by
  have hgives := h.startLoop_gives (fun p => (hboot p).symm) [0, 1, 2, 3] emptyProc
  rw [setUp_startKernel alg boot] at hgives
  have hturn : ∀ p : Fin nprograms, ∃ ps qs, [0, 1, 2, 3] = ps ++ p :: qs ∧ p ∉ qs := by
    intro p
    obtain ⟨ps, qs, hsplit⟩ := List.append_of_mem (List.mem_finRange p)
    have hnodup := List.nodup_finRange nprograms
    rw [hsplit] at hnodup
    exact ⟨ps, qs, hsplit, (List.nodup_cons.1 (List.nodup_append.1 hnodup).2.1).1⟩
  refine ⟨_, fun exit => hgives.iff, fun x hx => h.loadAll_keeps _ fun p _ j hj => hx p j hj,
    fun p j hj hin => ?_, fun p j hj h0 => ?_⟩
  · obtain ⟨ps, qs, hsplit, hp⟩ := hturn p
    rw [hsplit]
    exact h.placed_iff_bytes hp hj hin
  · obtain ⟨ps, qs, hsplit, hp⟩ := hturn p
    rw [hsplit]
    exact h.placed_of_aligned hp hj h0

/-! ## Four programs of one byte -/

/-- An image with one segment, of its first byte, for `0x200000 + 0x100000 * p`. -/
def programImage (p : Nat) : List UInt8 :=
  [0x7F, 0x45, 0x4C, 0x46] ++ List.replicate 20 0 ++ [0, 0, 0x20 + 0x10 * p.toUInt8, 0] ++
    [52, 0, 0, 0] ++ List.replicate 12 0 ++ [1, 0] ++ List.replicate 6 0 ++
  loadProghdr [0, 0, 0, 0] [0, 0, 0x20 + 0x10 * p.toUInt8, 0] 1 1

/-- The images, a page from each other. -/
def fourImages (p : Fin nprograms) : UInt32 := 0x100000 + 0x1000 * p.val.toUInt32

def fourMem : Memory :=
  fun x => (programImage (x.toNat / 0x1000 % nprograms)).getD (x.toNat % 0x1000) 0

theorem four_elf : ∀ p : Fin nprograms,
    elfAt fourMem (fourImages p) = ⟨ELF_MAGIC, 0x200000 + 0x100000 * p.val.toUInt32, 52, 1⟩ ∧
    phdr fourMem (fourImages p) 0 =
      ⟨ELF_PROG_LOAD, 0, 0x200000 + 0x100000 * p.val.toUInt32, 1, 1⟩ := by
  decide +kernel

theorem four_addresses : ∀ p : Fin nprograms,
    (fourImages p).toNat = 0x100000 + 0x1000 * p.val ∧
    (0x200000 + 0x100000 * p.val.toUInt32).toNat = 0x200000 + 0x100000 * p.val ∧ p.val < 4 := by
  decide

theorem four_isLoad {p : Fin nprograms} {j : Nat} (hj : IsLoad fourMem (fourImages p) j) : j = 0 := by
  have hlt := hj.1
  rw [(four_elf p).1] at hlt
  exact Nat.lt_one_iff.1 hlt

theorem four_dest {p : Fin nprograms} {j : Nat} (hj : IsLoad fourMem (fourImages p) j) {x : UInt32}
    (hx : (phdr fourMem (fourImages p) j).Dest x) : x.toNat = 0x200000 + 0x100000 * p.val := by
  rw [four_isLoad hj, (four_elf p).2] at hx
  have hva := (four_addresses p).2.1
  have hlow : (0x200000 + 0x100000 * p.val.toUInt32).toNat / 4096 * 4096 ≤ x.toNat := hx.1
  have hhigh : x.toNat < (0x200000 + 0x100000 * p.val.toUInt32).toNat + 1 := hx.2
  omega

theorem four_apart {p q : Fin nprograms} {j : Nat} (hj : IsLoad fourMem (fourImages p) j) {x : UInt32}
    (hx : (phdr fourMem (fourImages p) j).Dest x) : ¬ InImage (fourImages q) 84 x := by
  intro hin
  have hd := four_dest hj hx
  obtain ⟨hb, -, hq⟩ := four_addresses q
  have hhigh : x.toNat < (fourImages q).toNat + 84 := hin.2
  omega

theorem four_images : Images fourImages (fun _ => 84) fourMem := by
  constructor
  · intro p
    obtain ⟨helf, hph⟩ := four_elf p
    obtain ⟨hb, hva, hp⟩ := four_addresses p
    constructor
    · rw [helf]
    · omega
    · decide
    · rw [helf]
      exact Nat.le_refl 84
    · intro j hj
      rw [four_isLoad hj, hph]
      exact UInt32.le_refl 1
    · intro j hj
      rw [four_isLoad hj, hph]
      show 0 + 1 ≤ 84
      omega
    · intro j hj
      rw [four_isLoad hj, hph]
      show (0x200000 + 0x100000 * p.val.toUInt32).toNat % 4096 = 0
      omega
    · intro j hj
      rw [four_isLoad hj, hph]
      show (0x200000 + 0x100000 * p.val.toUInt32).toNat + 1 < 2 ^ 32
      omega
    · intro i j hi hj hij
      exact absurd ((four_isLoad hi).trans (four_isLoad hj).symm) hij
    · exact fun j hj x hx => four_apart hj hx
  · exact fun p q j hj x hx => four_apart hj hx
  · intro p q i j hpq hi hj x hx hx'
    have hp := four_dest hi hx
    have hq := four_dest hj hx'
    exact hpq (Fin.ext (by omega))

/-- The last of the four programs is in memory. -/
theorem four_loads : ∃ final,
    (∃ fuel, startPrograms fourImages fuel fourMem = some (.ready
      (startKernel 0 ⟨fun k => 0x200000 + 0x100000 * k.toUInt32, fun _ => 0⟩).procArray final)) ∧
    final 0x500000 = 0x7F := by
  obtain ⟨final, hends, -, -, hplaced⟩ := start_loads fourImages (fun _ => 84) fourMem four_images 0
    ⟨fun k => 0x200000 + 0x100000 * k.toUInt32, fun _ => 0⟩ fun p => by rw [(four_elf p).1]
  have hload : IsLoad fourMem (fourImages 3) 0 := by
    unfold IsLoad
    rw [(four_elf 3).1, (four_elf 3).2]
    decide
  refine ⟨final, (hends _).2 rfl, ?_⟩
  have hbyte := hplaced 3 0 hload (by rw [(four_elf 3).2]; decide) 0 (by rw [(four_elf 3).2]; decide)
  rw [(four_elf 3).2] at hbyte
  have hfirst : fourMem (fourImages 3 + 0 + UInt32.ofNat 0) = 0x7F := by decide +kernel
  exact hbyte.trans ((if_pos (by decide)).trans hfirst)

end SchedOS
