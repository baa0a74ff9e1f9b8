/-!
# Making the boot disk (`mkbootdisk.c`)

`mkbootdisk` writes the boot sector and the files after it to the standard output. The files are the
bytes that `fread` finds under a name, in pieces of 4096 bytes. What the calls of `write` return is a
list: the program waits at a call whose result is not on it.
-/

namespace SchedOS

/-- What a call of `write` returns: -1 with `EINTR` or with another `errno`, or the number of bytes
it has written, of those that it was given. -/
inductive WriteResult
  | eintr
  | error
  | wrote (w : Nat)
deriving DecidableEq, Repr

/-- The output: the results of the `write`s to come, the bytes written so far, and `curoff`. -/
structure Disk where
  writes : List WriteResult
  output : List UInt8
  curoff : Nat
deriving DecidableEq, Repr

/-- Where the program ends early: it calls `usage`, for the reason that it prints, or waits for a
`write`. -/
inductive Stop
  | noArguments
  | fopencheck (name : String)
  /-- "boot block too large". -/
  | bootBlockTooLarge (name : String) (n : Nat)
  /-- "can't skip to sector". -/
  | cantSkip (skiptoSector nsectors : UInt32)
  /-- "more data than allowed in partition!" -/
  | partition
  /-- `perror("write")`. -/
  | write
  /-- "write hit end of file". -/
  | endOfFile
  | waiting
deriving DecidableEq, Repr

/-- The results of a function: it returns, or the program ends early, with that output. -/
abbrev Made (α : Type) := Except (Stop × Disk) α

/-! ## `diskwrite` -/

abbrev maxoff : Nat := 0

/-- The loop of `diskwrite`, `data` being what is left to write. -/
def writeLoop (output : List UInt8) (curoff : Nat) : List WriteResult → List UInt8 → Made Disk
  | writes, [] => .ok ⟨writes, output, curoff⟩
  | [], _ :: _ => .error (.waiting, ⟨[], output, curoff⟩)
  | .error :: writes, _ :: _ => .error (.write, ⟨writes, output, curoff⟩)
  | .eintr :: writes, b :: data => writeLoop output curoff writes (b :: data)
  | .wrote 0 :: writes, _ :: _ => .error (.endOfFile, ⟨writes, output, curoff⟩)
  | .wrote (w + 1) :: writes, b :: data =>
    let written := (b :: data).take (w + 1)
    writeLoop (output ++ written) (curoff + written.length) writes ((b :: data).drop (w + 1))

/-- `diskwrite`. -/
def diskwrite (d : Disk) (data : List UInt8) : Made Disk :=
  if maxoff ≠ 0 ∧ d.curoff + data.length > maxoff then .error (.partition, d)
  else writeLoop d.output d.curoff d.writes data

/-! ## The arguments -/

/-- The value of a digit in a base. -/
def digit (base : Nat) (c : Char) : Option Nat :=
  let v := if c.isDigit then c.toNat - 48 else if c.isLower then c.toNat - 87
    else if c.isUpper then c.toNat - 55 else base
  if v < base then some v else none

/-- The number that `n` and the digits at the beginning of a string are, and what follows them. -/
def digits (base n : Nat) : List Char → Nat × List Char
  | [] => (n, [])
  | c :: cs =>
    match digit base c with
    | some v => digits base (n * base + v) cs
    | none => (n, c :: cs)

abbrev ULONG_MAX : Nat := 0xFFFFFFFFFFFFFFFF

/-- `strtoul(s, &str, 0)` for a string that begins with a digit: the number, and `str`. -/
def strtoul (s : List Char) : Nat × List Char :=
  let (n, str) :=
    match s with
    | '0' :: x :: h :: cs =>
      if (x = 'x' ∨ x = 'X') ∧ (digit 16 h).isSome then digits 16 0 (h :: cs) else digits 8 0 s
    | '0' :: _ => digits 8 0 s
    | _ => digits 10 0 s
  (min n ULONG_MAX, str)

/-- The sector that an argument like "@X" says to skip to. -/
def skipto (arg : String) : Option Nat :=
  match arg.toList with
  | '@' :: c :: cs =>
    let (skiptoSector, str) := strtoul (c :: cs)
    if c.isDigit ∧ str = [] then some skiptoSector else none
  | _ => none

example : ["@10", "@010", "@0x1F", "@", "@08", "@0x", "@1a", "kernel"].map skipto =
    [some 10, some 8, some 31, none, none, none, none, none] := by decide

/-! ## `main` -/

def zerobuf : List UInt8 := List.replicate 512 0

/-- `while (nsectors < …) { diskwrite(zerobuf, 512); nsectors++; }`, with that many passes left. -/
def zeroSectors (d : Disk) (nsectors : Nat) : Nat → Made (Disk × Nat)
  | 0 => .ok (d, nsectors)
  | n + 1 => do
    let d ← diskwrite d zerobuf
    zeroSectors d (nsectors + 1) n

/-- The loop that writes a file, `rest` being what is left of it. -/
def writeFile (d : Disk) (pos : Nat) (rest : List UInt8) : Made (Disk × Nat) :=
  let buf := rest.take 4096
  if 0 < buf.length then do
    let d ← diskwrite d buf
    writeFile d (pos + buf.length) (rest.drop 4096)
  else .ok (d, pos)
termination_by rest.length
decreasing_by
  have hbuf : 0 < (rest.take 4096).length := by assumption
  rw [List.length_take] at hbuf
  rw [List.length_drop]
  omega

/-- The files that can be opened. -/
abbrev Files := String → Option (List UInt8)

/-- The boot sector. -/
def writeBoot (files : Files) (d : Disk) (name : String) : Made Disk :=
  match files name with
  | none => .error (.fopencheck name, d)
  | some bytes =>
    let buf := bytes.take 4096
    if buf.length > 510 then .error (.bootBlockTooLarge name buf.length, d)
    else diskwrite d (buf ++ List.replicate (510 - buf.length) 0 ++ [0x55, 0xAA])

/-- A pass of the loop over the arguments after it. -/
def writeArg (files : Files) (st : Disk × Nat) (arg : String) : Made (Disk × Nat) :=
  let (d, nsectors) := st
  match skipto arg with
  | some skiptoSector =>
    if nsectors > skiptoSector then
      .error (.cantSkip (UInt32.ofNat skiptoSector) (UInt32.ofNat nsectors), d)
    else zeroSectors d nsectors (skiptoSector - nsectors)
  | none =>
    match files arg with
    | none => .error (.fopencheck arg, d)
    | some bytes => do
      let (d, pos) ← writeFile d 0 bytes
      if pos % 512 ≠ 0 then
        let d ← diskwrite d (zerobuf.take (512 - pos % 512))
        return (d, nsectors + (pos + (512 - pos % 512)) / 512)
      else return (d, nsectors + pos / 512)

/-- `main`, the arguments being those after the program's name. -/
def mkbootdisk (files : Files) (writes : List WriteResult) (argv : List String) : Made Disk :=
  let d : Disk := ⟨writes, [], 0⟩
  match argv with
  | [] => .error (.noArguments, d)
  | boot :: args => do
    let d ← writeBoot files d boot
    let (d, nsectors) ← args.foldlM (writeArg files) (d, 1)
    let (d, _) ← zeroSectors d nsectors (1024 - nsectors)
    return d

end SchedOS
