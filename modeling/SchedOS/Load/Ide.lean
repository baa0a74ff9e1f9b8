import SchedOS.Load.Boot

/-!
# The disk's controller (`schedos-boot.c`)

`bootmain` again, down to the ports: `readsect` programs the controller of the IDE disks and takes
the sector from its data port. The two disks and the times that they take are `Ata`.

Assumed of the controller: while it is busy it takes no write, and bit 7 of its status is set,
otherwise bit 6; command `0x20` makes the disk that bit 4 of register 6 selects transfer as many
sectors as register 2 says, from the sector that the registers 3 to 6 say (bit 6 of register 6 is
set: not by cylinder, head and sector); it is busy before each of the sectors.
-/

namespace SchedOS

/-- The bytes of the two disks, and how often the status is read in vain before a sector. -/
structure Ata where
  disk : Bool → Nat → UInt8
  delay : Nat → Nat

/-- The controller. -/
structure Ide where
  /-- Registers 2 to 6. -/
  count : UInt8
  lba0 : UInt8
  lba1 : UInt8
  lba2 : UInt8
  device : UInt8
  /-- How often the status will still be read in vain. -/
  busy : Nat
  /-- The transfer: its disk, its next byte and how many bytes are left. -/
  slave : Bool
  next : Nat
  rest : Nat
  /-- The sectors so far. -/
  sectors : Nat

/-- The sector that the registers say. -/
def Ide.lba (c : Ide) : Nat :=
  c.lba0.toNat + 2 ^ 8 * c.lba1.toNat + 2 ^ 16 * c.lba2.toNat + 2 ^ 24 * (c.device &&& 0x0F).toNat

/-- Busy for the next sector. -/
def Ide.seek (ata : Ata) (c : Ide) : Ide :=
  { c with busy := ata.delay c.sectors, sectors := c.sectors + 1 }

/-- A command; the others than `0x20` are not modelled, nor a command during a transfer. -/
def Ide.command (ata : Ata) (c : Ide) (cmd : UInt8) : Ide :=
  if cmd = 0x20 ∧ c.rest = 0 ∧ c.device &&& 0x40 ≠ 0 then
    { c with
      slave := c.device &&& 0x10 ≠ 0
      next := 512 * c.lba
      rest := 512 * if c.count = 0 then 256 else c.count.toNat }.seek ata
  else c

def Ide.outb (ata : Ata) (c : Ide) (port : UInt16) (data : UInt8) : Ide :=
  if c.busy ≠ 0 then c
  else if port = 0x1F2 then { c with count := data }
  else if port = 0x1F3 then { c with lba0 := data }
  else if port = 0x1F4 then { c with lba1 := data }
  else if port = 0x1F5 then { c with lba2 := data }
  else if port = 0x1F6 then { c with device := data }
  else if port = 0x1F7 then c.command ata data
  else c

/-- The status. Bit 3 says that there is data to take. -/
def Ide.status (c : Ide) : UInt8 :=
  if c.busy ≠ 0 then 0x80 else if c.rest ≠ 0 then 0x48 else 0x40

/-- `inb`; no other port is read. -/
def Ide.inb (c : Ide) (port : UInt16) : Ide × UInt8 :=
  if port = 0x1F7 then ({ c with busy := c.busy - 1 }, c.status) else (c, 0xFF)

/-- Byte `i` of the rest of the transfer. -/
def Ide.byte (ata : Ata) (c : Ide) (i : Nat) : UInt8 := ata.disk c.slave (c.next + i)

/-- `inl` of the data port. -/
def Ide.inl (ata : Ata) (c : Ide) (port : UInt16) : Ide × UInt32 :=
  if port = 0x1F0 ∧ c.busy = 0 ∧ 4 ≤ c.rest then
    let data := (c.byte ata 0).toUInt32 ||| (c.byte ata 1).toUInt32 <<< 8 |||
      (c.byte ata 2).toUInt32 <<< 16 ||| (c.byte ata 3).toUInt32 <<< 24
    let c := { c with next := c.next + 4, rest := c.rest - 4 }
    -- between two sectors
    (if c.rest ≠ 0 ∧ c.rest % 512 = 0 then c.seek ata else c, data)
  else (c, 0xFFFFFFFF)

/-! ## The boot loader -/

/-- `*(uint32_t *) a = w`. -/
def store32 (mem : Memory) (a : UInt32) (w : UInt32) : Memory :=
  store16 (store16 mem a w.toUInt16) (a + 2) (w >>> 16).toUInt16

/-- `insl`, with that many words left. -/
def Ide.insl (ata : Ata) (c : Ide) (port : UInt16) (mem : Memory) (addr : UInt32) :
    Nat → Ide × Memory
  | 0 => (c, mem)
  | cnt + 1 =>
    let (c, data) := c.inl ata port
    insl ata c port (store32 mem addr data) (addr + 4) cnt

/-- A pass of `while ((inb(0x1F7) & 0xC0) != 0x40)`. -/
def waitPass (c : Ide) : Ide ⊕ Ide :=
  let (c, status) := c.inb 0x1F7
  if status &&& 0xC0 ≠ 0x40 then .inl c else .inr c

/-- `waitdisk` with at most `fuel` passes of its loop. -/
def waitdisk (fuel : Nat) (c : Ide) : Option Ide := Loop.run waitPass fuel c

/-- `readsect` up to `insl`. -/
def Ide.request (ata : Ata) (fuel : Nat) (c : Ide) (sect : UInt32) : Option Ide := do
  let c ← waitdisk fuel c
  let c := c.outb ata 0x1F2 1
  let c := c.outb ata 0x1F3 sect.toUInt8
  let c := c.outb ata 0x1F4 (sect >>> 8).toUInt8
  let c := c.outb ata 0x1F5 (sect >>> 16).toUInt8
  let c := c.outb ata 0x1F6 ((sect >>> 24) ||| 0xE0).toUInt8
  let c := c.outb ata 0x1F7 0x20
  waitdisk fuel c

/-- `readsect`. -/
def Ide.readsect (ata : Ata) (fuel : Nat) (c : Ide) (mem : Memory) (dst sect : UInt32) :
    Option (Ide × Memory) := do
  let c ← c.request ata fuel sect
  return c.insl ata 0x1F0 mem dst (SECTORSIZE / 4).toNat

/-- A pass of the loop of `readseg` over the sectors. -/
def Ide.readPass (ata : Ata) (endVa : UInt32) (fuel : Nat) (st : Ide × Memory × UInt32 × UInt32) :
    (Ide × Memory × UInt32 × UInt32) ⊕ Option (Ide × Memory) :=
  let (c, mem, va, sect) := st
  if va < endVa then
    match c.readsect ata fuel mem va sect with
    | some (c, mem) => .inl (c, mem, va + SECTORSIZE, sect + 1)
    | none => .inr none
  else .inr (some (c, mem))

/-- `readseg`. -/
def Ide.readseg (ata : Ata) (fuel : Nat) (c : Ide) (mem : Memory) (va filesz memsz sect : UInt32) :
    Option (Ide × Memory) := do
  let endVa := va + filesz
  let memsz := memsz + va
  let va := va &&& ~~~(SECTORSIZE - 1)
  let (c, mem) ← (Loop.run (Ide.readPass ata endVa fuel) fuel (c, mem, va, sect)).join
  return (c, clearBss mem endVa (memsz.toNat - endVa.toNat))

/-- A pass of the loop of `bootmain` over the program headers, `ph` being the next one. -/
def Ide.bootPass (ata : Ata) (eph : UInt32) (fuel : Nat) (st : Ide × Memory × UInt32) :
    (Ide × Memory × UInt32) ⊕ Option (Ide × Memory) :=
  let (c, mem, ph) := st
  if ph < eph then
    let h := proghdrAt mem ph
    match c.readseg ata fuel mem h.pVa h.pFilesz h.pMemsz (1 + h.pOffset / SECTORSIZE) with
    | some (c, mem) => .inl (c, mem, ph + PROGHDR_SIZE)
    | none => .inr none
  else .inr (some (c, mem))

/-- `bootmain`. -/
def Ide.bootmain (ata : Ata) (fuel : Nat) (c : Ide) (mem : Memory) : Option (Ide × BootExit) := do
  let (c, mem) ← c.readseg ata fuel mem ELFHDR 4096 4096 1
  if (elfAt mem ELFHDR).eMagic ≠ ELF_MAGIC then return (c, .returned mem)
  let ph := ELFHDR + (elfAt mem ELFHDR).ePhoff
  let eph := ph + PROGHDR_SIZE * (elfAt mem ELFHDR).ePhnum.toUInt32
  let (c, mem) ← (Loop.run (Ide.bootPass ata eph fuel) fuel (c, mem, ph)).join
  return (c, .jump mem (elfAt mem ELFHDR).eEntry)

end SchedOS
