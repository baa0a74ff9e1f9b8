import Mathlib.Data.Nat.Bitwise
import SchedOS.Lib.Refine
import SchedOS.Load.Ide
import SchedOS.Load.Proof.BootDisk

/-!
# `bootmain` down to the ports

A request leaves the controller with one sector to transfer, from whatever state it is in between
two transfers (`request_gives`), and `insl` takes that sector (`insl_eq`). So `readsect` is the copy
of a sector (`Ide.readsect_gives`): the bits 0 to 27 of its number are the sector on the disk, bit 28
is the disk (`Ata.bytes`). What a loader with the controller does is then what the one that copies
does, pass by pass (`Ide.readseg_refines`, `Ide.bootmain_refines`).
-/

namespace SchedOS

open Bounded

/-! ## Waiting -/

theorem inb_status (c : Ide) : c.inb 0x1F7 = ({ c with busy := c.busy - 1 }, c.status) := rfl

theorem waitPass_busy {c : Ide} (h : c.busy ≠ 0) :
    waitPass c = .inl { c with busy := c.busy - 1 } := by
  have hstatus : c.status = 0x80 := if_pos h
  unfold waitPass
  rw [inb_status, hstatus]
  rfl

theorem waitPass_ready {c : Ide} (h : c.busy = 0) : waitPass c = .inr c := by
  have hready : { c with busy := c.busy - 1 } = c := by
    cases c
    cases h
    rfl
  have hstatus : c.status &&& 0xC0 = 0x40 := by
    unfold Ide.status
    rw [if_neg (not_not_intro h)]
    split <;> rfl
  unfold waitPass
  rw [inb_status, hready]
  exact if_neg (not_not_intro hstatus)

theorem run_waitPass (c : Ide) : Loop.run waitPass (c.busy + 1) c = some { c with busy := 0 } := by
  obtain ⟨n, hn⟩ : ∃ n, n = c.busy := ⟨_, rfl⟩
  rw [← hn]
  induction n generalizing c with
  | zero =>
    rw [Loop.run_succ_inr (waitPass_ready hn.symm)]
    cases c
    cases hn
    rfl
  | succ n ih =>
    rw [Loop.run_succ_inl (waitPass_busy (by omega)), ih _ (by dsimp only; omega)]

theorem waitdisk_gives (c : Ide) : Gives (fun fuel => waitdisk fuel c) { c with busy := 0 } where
  enough := ⟨c.busy + 1, fun _ hm => Loop.run_mono (run_waitPass c) hm⟩
  only := fun _ _ h => Loop.run_unique (run_waitPass c) h

/-! ## The registers -/

theorem and_two_pow_ne_zero (y : UInt8) (i : Nat) (hi : i < 8) :
    y &&& UInt8.ofNat (2 ^ i) ≠ 0 ↔ y.toNat.testBit i = true := by
  have hpow : 2 ^ i < 256 := Nat.pow_lt_pow_right (by decide) hi
  rw [ne_eq, ← UInt8.toNat_inj, UInt8.toNat_and, UInt8.toNat_ofNat_of_lt' hpow, Nat.and_two_pow]
  cases y.toNat.testBit i <;> simp

section
variable (sect : UInt32)

/-- Register 6 as `readsect` writes it. -/
def deviceOf : UInt8 := ((sect >>> 24) ||| 0xE0).toUInt8

theorem toNat_deviceOf : (deviceOf sect).toNat = sect.toNat / 2 ^ 24 ||| 0xE0 := by
  have hlt := sect.toNat_lt
  have hor : sect.toNat / 2 ^ 24 ||| 0xE0 < 2 ^ 8 := Nat.or_lt_two_pow (by omega) (by decide)
  have hshift : (sect >>> 24).toNat = sect.toNat / 2 ^ 24 := by
    rw [UInt32.toNat_shiftRight]
    exact Nat.shiftRight_eq_div_pow _ _
  unfold deviceOf
  rw [UInt32.toNat_toUInt8, UInt32.toNat_or, hshift]
  exact Nat.mod_eq_of_lt hor

theorem deviceOf_lba : deviceOf sect &&& 0x40 ≠ 0 := by
  refine (and_two_pow_ne_zero _ 6 (by decide)).2 ?_
  rw [toNat_deviceOf, Nat.testBit_or]
  exact Bool.or_true _

theorem deviceOf_slave : deviceOf sect &&& 0x10 ≠ 0 ↔ sect.toNat.testBit 28 = true := by
  refine (and_two_pow_ne_zero _ 4 (by decide)).trans ?_
  have hbit : (0xE0 : Nat).testBit 4 = false := by decide
  rw [toNat_deviceOf, Nat.testBit_or, hbit, Bool.or_false, ← Nat.shiftRight_eq_div_pow,
    Nat.testBit_shiftRight]

theorem deviceOf_low : (deviceOf sect &&& 0x0F).toNat = sect.toNat / 2 ^ 24 % 16 := by
  have hmask : (0x0F : UInt8).toNat = 2 ^ 4 - 1 := rfl
  have hhigh : 0xE0 % 2 ^ 4 = 0 := rfl
  rw [UInt8.toNat_and, toNat_deviceOf, hmask, Nat.and_two_pow_sub_one_eq_mod, Nat.or_mod_two_pow,
    hhigh, Nat.or_zero]

/-- The controller with the registers that `readsect` writes. -/
def Ide.addressed (c : Ide) : Ide :=
  { c with
    count := 1, lba0 := sect.toUInt8, lba1 := (sect >>> 8).toUInt8
    lba2 := (sect >>> 16).toUInt8, device := deviceOf sect }

theorem Ide.lba_addressed (c : Ide) : (c.addressed sect).lba = sect.toNat % 2 ^ 28 := by
  have h1 : (sect >>> 8).toUInt8.toNat = sect.toNat / 2 ^ 8 % 2 ^ 8 := by
    rw [UInt32.toNat_toUInt8, UInt32.toNat_shiftRight]
    exact congrArg (· % 2 ^ 8) (Nat.shiftRight_eq_div_pow _ _)
  have h2 : (sect >>> 16).toUInt8.toNat = sect.toNat / 2 ^ 16 % 2 ^ 8 := by
    rw [UInt32.toNat_toUInt8, UInt32.toNat_shiftRight]
    exact congrArg (· % 2 ^ 8) (Nat.shiftRight_eq_div_pow _ _)
  unfold Ide.lba Ide.addressed
  dsimp only
  rw [deviceOf_low, h1, h2, UInt32.toNat_toUInt8]
  omega

end

/-! ## `readsect` -/

section
variable (ata : Ata)

/-- What `readsect` finds: bit 28 of the number of a sector selects the disk. -/
def Ata.bytes (k : Nat) : UInt8 :=
  ata.disk ((k / 512).testBit 28) (512 * (k / 512 % 2 ^ 28) + k % 512)

theorem Ata.bytes_sector (sect : UInt32) {i : Nat} (hi : i < 512) :
    ata.bytes (512 * sect.toNat + i) =
      ata.disk (sect.toNat.testBit 28) (512 * (sect.toNat % 2 ^ 28) + i) := by
  unfold Ata.bytes
  rw [Nat.mul_add_div (by decide), Nat.mul_add_mod, Nat.div_eq_of_lt hi, Nat.mod_eq_of_lt hi,
    Nat.add_zero]

/-- The sectors below `2 ^ 28` are those of the first disk. -/
theorem Ata.bytes_first {k : Nat} (hk : k < 2 ^ 37) : ata.bytes k = ata.disk false k := by
  have hsect : k / 512 < 2 ^ 28 := by omega
  unfold Ata.bytes
  rw [Nat.testBit_lt_two_pow hsect, Nat.mod_eq_of_lt hsect, Nat.div_add_mod]

/-- The controller when the sector can be taken. -/
def Ide.requested (c : Ide) (sect : UInt32) : Ide :=
  { c.addressed sect with
    busy := 0, slave := sect.toNat.testBit 28, next := 512 * (sect.toNat % 2 ^ 28), rest := 512
    sectors := c.sectors + 1 }

theorem Ide.command_addressed {c : Ide} (hrest : c.rest = 0) (sect : UInt32) :
    (c.addressed sect).command ata 0x20 =
      { c.requested sect with busy := ata.delay c.sectors } := by
  have hslave : decide ((c.addressed sect).device &&& 0x10 ≠ 0) = sect.toNat.testBit 28 := by
    rw [Bool.eq_iff_iff, decide_eq_true_eq]
    exact deviceOf_slave sect
  unfold Ide.command
  rw [if_pos ⟨rfl, hrest, deviceOf_lba sect⟩, Ide.lba_addressed, hslave]
  rfl

/-- The writes, the controller not being busy. -/
theorem Ide.outb_request {c : Ide} (hbusy : c.busy = 0) (sect : UInt32) :
    (((((c.outb ata 0x1F2 1).outb ata 0x1F3 sect.toUInt8).outb ata 0x1F4
      (sect >>> 8).toUInt8).outb ata 0x1F5 (sect >>> 16).toUInt8).outb ata 0x1F6
      ((sect >>> 24) ||| 0xE0).toUInt8).outb ata 0x1F7 0x20 =
        (c.addressed sect).command ata 0x20 := by
  cases c
  cases hbusy
  rfl

theorem request_gives {c : Ide} (hrest : c.rest = 0) (sect : UInt32) :
    Gives (fun fuel => c.request ata fuel sect) (c.requested sect) := by
  have hlast : Gives (fun fuel => waitdisk fuel
      { c.requested sect with busy := ata.delay c.sectors }) (c.requested sect) :=
    waitdisk_gives _
  refine (waitdisk_gives c).bind ?_
  dsimp only
  rw [Ide.outb_request ata rfl]
  have hcommand := Ide.command_addressed ata (c := { c with busy := 0 }) hrest sect
  rw [hcommand]
  exact hlast

/-- The four bytes of a word in memory. -/
theorem store32_write (mem : Memory) (a : UInt32) (f : Nat → UInt8) :
    store32 mem a ((f 0).toUInt32 ||| (f 1).toUInt32 <<< 8 ||| (f 2).toUInt32 <<< 16 |||
      (f 3).toUInt32 <<< 24) = Block.write mem a 4 f := by
  obtain ⟨w, hw⟩ : ∃ w, w = (f 0).toUInt32 ||| (f 1).toUInt32 <<< 8 ||| (f 2).toUInt32 <<< 16 |||
    (f 3).toUInt32 <<< 24 := ⟨_, rfl⟩
  have h0 : w.toUInt16.toUInt8 = f 0 := by
    apply UInt8.toBitVec_inj.1
    simp [hw]
  have h1 : (w.toUInt16 >>> 8).toUInt8 = f 1 := by
    apply UInt8.toBitVec_inj.1
    apply BitVec.eq_of_getLsbD_eq
    intro i hi
    simp [hw, hi]
    grind
  have h2 : (w >>> 16).toUInt16.toUInt8 = f 2 := by
    apply UInt8.toBitVec_inj.1
    apply BitVec.eq_of_getLsbD_eq
    intro i hi
    simp [hw, hi]
    grind
  have h3 : ((w >>> 16).toUInt16 >>> 8).toUInt8 = f 3 := by
    apply UInt8.toBitVec_inj.1
    apply BitVec.eq_of_getLsbD_eq
    intro i hi
    simp [hw, hi]
    grind
  have ha2 : a + 2 = a + 1 + 1 := by grind
  rw [← hw]
  unfold store32 store16
  rw [h0, h1, h2, h3, ha2, ← Block.write_succ (by decide), ← Block.write_succ (by decide),
    ← Block.write_succ (by decide), ← Block.write_succ (by decide), Block.write_zero]

/-- A word of the sector, the last one too. -/
theorem Ide.inl_eq {c : Ide} {n : Nat} (hbusy : c.busy = 0) (hrest : c.rest = 4 * (n + 1))
    (hn : n < 128) : c.inl ata 0x1F0 =
      ({ c with next := c.next + 4, rest := 4 * n },
        (c.byte ata 0).toUInt32 ||| (c.byte ata 1).toUInt32 <<< 8 |||
          (c.byte ata 2).toUInt32 <<< 16 ||| (c.byte ata 3).toUInt32 <<< 24) := by
  have hleft : c.rest - 4 = 4 * n := by omega
  unfold Ide.inl
  rw [if_pos ⟨rfl, hbusy, by omega⟩, hleft]
  dsimp only
  rw [if_neg (by omega)]

/-- `insl` takes what is left of the sector. -/
theorem Ide.insl_eq {n : Nat} (hn : n ≤ 128) {c : Ide} (hbusy : c.busy = 0)
    (hrest : c.rest = 4 * n) (mem : Memory) (addr : UInt32) :
    c.insl ata 0x1F0 mem addr n =
      ({ c with next := c.next + 4 * n, rest := 0 }, Block.write mem addr (4 * n) (c.byte ata)) := by
  induction n generalizing c mem addr with
  | zero =>
    rw [Nat.mul_zero, Block.write_zero]
    cases c
    cases hrest
    rfl
  | succ n ih =>
    have hsplit : (fun i => c.byte ata (4 + i)) =
        ({ c with next := c.next + 4, rest := 4 * n } : Ide).byte ata :=
      funext fun i => congrArg (ata.disk c.slave) (Nat.add_assoc _ _ _).symm
    have hwrite := @Block.write_append _ mem addr 4 (c.byte ata) (4 * n) (by omega)
    have hcount : 4 * (n + 1) = 4 + 4 * n := Nat.mul_succ _ _ |>.trans (Nat.add_comm _ _)
    have hothers := ih (by omega) (c := { c with next := c.next + 4, rest := 4 * n }) hbusy rfl
      (Block.write mem addr 4 (c.byte ata)) (addr + 4)
    rw [Ide.insl, Ide.inl_eq ata hbusy hrest (by omega)]
    dsimp only
    rw [store32_write, hothers, ← hsplit, hcount, ← hwrite]
    dsimp only
    rw [Nat.add_assoc]
    rfl

/-- `readsect` is the copy of a sector, and leaves the controller between two transfers. -/
theorem Ide.readsect_gives {c : Ide} (hrest : c.rest = 0) (mem : Memory) (dst sect : UInt32) :
    Gives (fun fuel => c.readsect ata fuel mem dst sect)
      ({ c.requested sect with next := 512 * (sect.toNat % 2 ^ 28) + 512, rest := 0 },
        SchedOS.readsect ata.bytes mem dst sect) := by
  have htake := Ide.insl_eq ata (Nat.le_refl 128) (c := c.requested sect) rfl rfl mem dst
  have hbytes : Block.write mem dst (4 * 128) ((c.requested sect).byte ata) =
      SchedOS.readsect ata.bytes mem dst sect :=
    Block.write_congr fun i hi => (Ata.bytes_sector ata sect hi).symm
  rw [hbytes] at htake
  have hcount : (SECTORSIZE / 4).toNat = 128 := by decide
  refine (request_gives ata hrest sect).bind ?_
  rw [hcount, htake]
  exact Gives.pure _

/-- **`readsect` transfers a sector**: from any controller between two transfers, however long the
disks take, it ends with that sector at `dst`, nothing else changed, and the controller between two
transfers again. -/
theorem readsect_transfers (c : Ide) (hrest : c.rest = 0) (mem : Memory) (dst sect : UInt32) :
    ∃ c' final, c'.rest = 0 ∧
      (∃ n, ∀ fuel, n ≤ fuel → c.readsect ata fuel mem dst sect = some (c', final)) ∧
      (∀ fuel r, c.readsect ata fuel mem dst sect = some r → r = (c', final)) ∧
      (∀ i, i < 512 → final (dst + UInt32.ofNat i) =
        ata.disk (sect.toNat.testBit 28) (512 * (sect.toNat % 2 ^ 28) + i)) ∧
      ∀ x, (∀ i, i < 512 → x ≠ dst + UInt32.ofNat i) → final x = mem x := by
  have hgives := Ide.readsect_gives ata hrest mem dst sect
  refine ⟨_, _, rfl, hgives.enough, hgives.only, fun i hi => ?_, fun x hx => ?_⟩
  · have hindex : (dst + UInt32.ofNat i - dst).toNat = i := by
      rw [UInt32.add_comm, UInt32.add_sub_cancel,
        UInt32.toNat_ofNat_of_lt' (Nat.lt_trans hi (by decide))]
    unfold SchedOS.readsect
    rw [Block.write_of_lt (by omega), hindex]
    exact Ata.bytes_sector ata sect hi
  · refine Block.write_of_le (Nat.le_of_not_lt fun hlt => hx _ hlt ?_)
    rw [UInt32.ofNat_toNat, UInt32.add_comm, UInt32.sub_add_cancel]

/-- A sector whose number has bit 28, taken from the other disk. -/
theorem readsect_transfers_slave : ∃ c' final,
    (∃ n, ∀ fuel, n ≤ fuel →
      (⟨0, 0, 0, 0, 0, 7, false, 0, 0, 0⟩ : Ide).readsect ⟨fun b i => if b then UInt8.ofNat i else 0,
        fun _ => 5⟩ fuel (fun _ => 0) 0x10000 0x10000001 = some (c', final)) ∧
    final 0x10003 = 3 := by
  obtain ⟨c', final, -, hends, -, hbytes, -⟩ := readsect_transfers
    ⟨fun b i => if b then UInt8.ofNat i else 0, fun _ => 5⟩ ⟨0, 0, 0, 0, 0, 7, false, 0, 0, 0⟩ rfl
      (fun _ => 0) 0x10000 0x10000001
  exact ⟨c', final, hends, hbytes 3 (by decide)⟩

end

/-! ## `bootmain` -/

/-- The same, with the controller between two transfers. -/
def Between {α : Type} (s : Ide × α) (t : α) : Prop := s.1.rest = 0 ∧ s.2 = t

section
variable (ata : Ata)

theorem Ide.readPass_refines (endVa : UInt32) (s : Ide × Memory × UInt32 × UInt32)
    (t : Memory × UInt32 × UInt32) (h : Between s t) :
    Refines (fun n => outcome (Ide.readPass ata endVa n s))
      (fun _ => outcome (always (SchedOS.readPass ata.bytes endVa) t)) (Sum.LiftRel Between Between) := by
  obtain ⟨c, mem, va, sect⟩ := s
  obtain ⟨hrest, rfl⟩ := h
  by_cases hlt : va < endVa
  · have hpass : (fun n => outcome (Ide.readPass ata endVa n (c, mem, va, sect))) = fun n =>
        (c.readsect ata n mem va sect).bind fun r => some (.inl (r.1, r.2, va + SECTORSIZE, sect + 1)) := by
      funext n
      unfold Ide.readPass
      dsimp only
      rw [if_pos hlt]
      cases c.readsect ata n mem va sect <;> rfl
    have hcopy : SchedOS.readPass ata.bytes endVa (mem, va, sect) =
        .inl (SchedOS.readsect ata.bytes mem va sect, va + SECTORSIZE, sect + 1) := if_pos hlt
    unfold always
    dsimp only
    rw [hpass, hcopy]
    exact ((Ide.readsect_gives ata hrest mem va sect).bind (Gives.pure _)).refines (.inl ⟨rfl, rfl⟩)
  · have hpass : ∀ n, Ide.readPass ata endVa n (c, mem, va, sect) = .inr (some (c, mem)) :=
      fun n => if_neg hlt
    have hcopy : SchedOS.readPass ata.bytes endVa (mem, va, sect) = .inr mem := if_neg hlt
    unfold always
    dsimp only
    simp only [hpass, hcopy]
    exact Refines.pure (.inr ⟨hrest, rfl⟩)

/-- `readseg` reads what the copying one does. -/
theorem Ide.readseg_refines {c : Ide} (hrest : c.rest = 0) (mem : Memory)
    (va filesz memsz sect : UInt32) :
    Refines (fun fuel => c.readseg ata fuel mem va filesz memsz sect)
      (fun fuel => SchedOS.readseg ata.bytes fuel mem va filesz memsz sect) Between := by
  have hloop : Refines
      (loop (fun n => Ide.readPass ata (va + filesz) n) (c, mem, va &&& ~~~(SECTORSIZE - 1), sect))
      (loop (fun _ => always (SchedOS.readPass ata.bytes (va + filesz)))
        (mem, va &&& ~~~(SECTORSIZE - 1), sect)) Between :=
    Refines.loop (Ide.readPass_refines ata (va + filesz)) ⟨hrest, rfl⟩
  have hbss : (fun fuel => SchedOS.readseg ata.bytes fuel mem va filesz memsz sect) = fun fuel =>
      (loop (fun _ => always (SchedOS.readPass ata.bytes (va + filesz)))
        (mem, va &&& ~~~(SECTORSIZE - 1), sect) fuel).bind fun mem =>
          some (clearBss mem (va + filesz) ((memsz + va).toNat - (va + filesz).toNat)) := by
    funext fuel
    unfold loop SchedOS.readseg
    rw [run_always, Option.map_eq_bind]
    rfl
  rw [hbss]
  refine hloop.bind ?_
  rintro ⟨c, mem⟩ _ ⟨hrest, rfl⟩
  exact Refines.pure ⟨hrest, rfl⟩

theorem Ide.bootPass_refines (eph : UInt32) (s : Ide × Memory × UInt32) (t : Memory × UInt32)
    (h : Between s t) :
    Refines (fun n => outcome (Ide.bootPass ata eph n s))
      (fun n => outcome (SchedOS.bootPass ata.bytes n eph t)) (Sum.LiftRel Between Between) := by
  obtain ⟨c, mem, ph⟩ := s
  obtain ⟨hrest, rfl⟩ := h
  by_cases hlt : ph < eph
  · obtain ⟨h, hh⟩ : ∃ h, h = proghdrAt mem ph := ⟨_, rfl⟩
    have hpass : (fun n => outcome (Ide.bootPass ata eph n (c, mem, ph))) = fun n =>
        (c.readseg ata n mem h.pVa h.pFilesz h.pMemsz (1 + h.pOffset / SECTORSIZE)).bind
          fun r => some (.inl (r.1, r.2, ph + PROGHDR_SIZE)) := by
      funext n
      unfold Ide.bootPass
      dsimp only
      rw [if_pos hlt, ← hh]
      cases c.readseg ata n mem h.pVa h.pFilesz h.pMemsz (1 + h.pOffset / SECTORSIZE) <;> rfl
    have hcopy : (fun n => outcome (SchedOS.bootPass ata.bytes n eph (mem, ph))) = fun n =>
        (SchedOS.readseg ata.bytes n mem h.pVa h.pFilesz h.pMemsz
          (1 + h.pOffset / SECTORSIZE)).bind fun mem => some (.inl (mem, ph + PROGHDR_SIZE)) := by
      funext n
      unfold SchedOS.bootPass
      dsimp only
      rw [if_pos hlt, ← hh]
      cases SchedOS.readseg ata.bytes n mem h.pVa h.pFilesz h.pMemsz
        (1 + h.pOffset / SECTORSIZE) <;> rfl
    rw [hpass, hcopy]
    refine (Ide.readseg_refines ata hrest mem _ _ _ _).bind ?_
    rintro ⟨c, mem⟩ _ ⟨hrest, rfl⟩
    exact Refines.pure (.inl ⟨hrest, rfl⟩)
  · have hpass : ∀ n, Ide.bootPass ata eph n (c, mem, ph) = .inr (some (c, mem)) :=
      fun n => if_neg hlt
    have hcopy : ∀ n, SchedOS.bootPass ata.bytes n eph (mem, ph) = .inr (some mem) :=
      fun n => if_neg hlt
    simp only [hpass, hcopy]
    exact Refines.pure (.inr ⟨hrest, rfl⟩)

/-- `bootmain` ends as the copying one does. -/
theorem Ide.bootmain_refines {c : Ide} (hrest : c.rest = 0) (mem : Memory) :
    Refines (fun fuel => c.bootmain ata fuel mem)
      (fun fuel => SchedOS.bootmain ata.bytes fuel mem) Between := by
  refine (Ide.readseg_refines ata hrest mem ELFHDR 4096 4096 1).bind ?_
  rintro ⟨c, mem⟩ _ ⟨hrest, rfl⟩
  dsimp only
  split
  · exact Refines.pure ⟨hrest, rfl⟩
  · refine Refines.bind (Refines.loop (Ide.bootPass_refines ata _) ⟨hrest, rfl⟩) ?_
    rintro ⟨c, mem⟩ _ ⟨hrest, rfl⟩
    exact Refines.pure ⟨hrest, rfl⟩

theorem Ide.bootmain_iff {c : Ide} (hrest : c.rest = 0) (mem : Memory) (exit : BootExit) :
    (∃ fuel c', c.bootmain ata fuel mem = some (c', exit)) ↔
      ∃ fuel, SchedOS.bootmain ata.bytes fuel mem = some exit := by
  have hrefines := Ide.bootmain_refines ata hrest mem
  constructor
  · rintro ⟨fuel, c', h⟩
    obtain ⟨_, hcopy, -, rfl⟩ := hrefines.sound fuel _ h
    exact ⟨fuel, hcopy⟩
  · rintro ⟨fuel, h⟩
    obtain ⟨⟨c', _⟩, ⟨-, rfl⟩, n, hn⟩ := hrefines.complete fuel exit h
    exact ⟨n, c', hn n (Nat.le_refl n)⟩

/-- `bootmain` jumps to the kernel with the segments in memory. -/
def Ide.Loads (c : Ide) (file : List UInt8) (mem : Memory) : Prop :=
  ∃ fuel c' final, c.bootmain ata fuel mem = some (c', .jump final (header file).eEntry) ∧
    ∀ i, i < (header file).ePhnum.toNat → ∀ k, k < (segment file i).pMemsz.toNat →
      final ((segment file i).pVa + UInt32.ofNat k) = segByte file (segment file i) k

theorem Ide.loads_iff {c : Ide} (hrest : c.rest = 0) (file : List UInt8) (mem : Memory) :
    c.Loads ata file mem ↔ BootLoads ata.bytes file mem := by
  constructor
  · rintro ⟨fuel, c', final, hf, hbytes⟩
    obtain ⟨fuel, hf⟩ := (Ide.bootmain_iff ata hrest mem _).1 ⟨fuel, c', hf⟩
    exact ⟨fuel, final, hf, hbytes⟩
  · rintro ⟨fuel, final, hf, hbytes⟩
    obtain ⟨fuel, c', hf⟩ := (Ide.bootmain_iff ata hrest mem _).2 ⟨fuel, hf⟩
    exact ⟨fuel, c', final, hf, hbytes⟩

theorem OnDisk.bytes {file : List UInt8} (h : OnDisk (ata.disk false) file)
    (hlen : file.length + 512 ≤ 2 ^ 37) : OnDisk ata.bytes file := by
  intro k hk
  rw [Ata.bytes_first ata (by omega)]
  exact h k hk

/-- **Booting down to the ports**: from any controller between two transfers, however long the disks
take, `bootmain` ends as the one that copies sectors does, whatever the disks and the memory hold;
from a kernel on the first disk it jumps, with the segments in memory exactly if none is disturbed.
-/
theorem bootmain_transfers (c : Ide) (hrest : c.rest = 0) (mem : Memory) :
    (∀ exit, (∃ fuel c', c.bootmain ata fuel mem = some (c', exit)) ↔
      ∃ fuel, SchedOS.bootmain ata.bytes fuel mem = some exit) ∧
    ∀ file, KernelFile file → OnDisk (ata.disk false) file → file.length + 512 ≤ 2 ^ 37 →
      (c.Loads ata file mem ↔ Undisturbed file) :=
  ⟨Ide.bootmain_iff ata hrest mem, fun file h hd hlen =>
    (Ide.loads_iff ata hrest file mem).trans (h.loads_iff mem (hd.bytes ata hlen))⟩

end

theorem twoBytes_undisturbed : Undisturbed (twoBytesKernel 2) := by
  obtain ⟨hheader, hs0, hs1⟩ := twoBytes_header 2 (.inr rfl)
  intro i hi k hk j hij hj hs _
  have hbyte := (twoBytes_kernelFile (.inr rfl)).toNat_byte hi hk
  have hj2 : j < 2 := by rwa [hheader] at hj
  obtain ⟨rfl, rfl⟩ : i = 0 ∧ j = 1 := by omega
  rw [hs0] at hk hbyte hs
  rw [hs1] at hs
  have hk1 : k < 1 := hk
  have hva : (0x100000 + UInt32.ofNat k).toNat = 0x100000 + k := hbyte
  have hlow : 0x100201 / 512 * 512 ≤ (0x100000 + UInt32.ofNat k).toNat := hs.1
  omega

/-- The kernel on the first disk, which takes longer for every sector. -/
def twoBytesAta : Ata where
  disk _ i := (twoBytesKernel 2).getD (i - 512) 0
  delay n := n

theorem twoBytes_onDisk : OnDisk (twoBytesAta.disk false) (twoBytesKernel 2) := by
  intro k _
  unfold twoBytesAta
  dsimp only
  rw [Nat.add_sub_cancel_left]

theorem twoBytes_transfers :
    (⟨0, 0, 0, 0, 0, 7, false, 0, 0, 0⟩ : Ide).Loads twoBytesAta (twoBytesKernel 2) fun _ => 0 := by
  have hlength : (twoBytesKernel 2).length = 514 := by decide +kernel
  have hfits : (twoBytesKernel 2).length + 512 ≤ 2 ^ 37 := by omega
  exact ((bootmain_transfers twoBytesAta ⟨0, 0, 0, 0, 0, 7, false, 0, 0, 0⟩ rfl fun _ => 0).2 _
    (twoBytes_kernelFile (.inr rfl)) twoBytes_onDisk hfits).2 twoBytes_undisturbed

end SchedOS
