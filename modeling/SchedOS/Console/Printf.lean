import SchedOS.Kern.Types
import SchedOS.Lib.Loop
import SchedOS.Load.Memory

/-!
# Printing to the console (`lib.c`)

`console_putc` and `console_vprintf`, with `strlen`, `strnlen` and `fill_numbuf`. The format is an
object of its own, its bytes before the NUL, and `format` an index into it; the arguments are the
words that `va_arg` takes one after the other. `numbuf` and the strings are in memory, the cells of
the screen are not: no string lies on the screen.
-/

namespace SchedOS

/-- The value of an `int` expression: it wraps to 32 bits. -/
def int (x : Int) : Int := (x + 0x80000000) % 0x100000000 - 0x80000000

/-- The bytes of a string. -/
def bytesOf (s : String) : List UInt8 := s.toList.map Char.toUInt8

/-! ## `console_putc` -/

/-- The screen: what has been stored to its cells, in order, and `cursor`. -/
structure Screen where
  stores : List (UInt32 × UInt16)
  cursor : UInt32
deriving DecidableEq, Repr

/-- `*cursor++ = c`. -/
def Screen.store (s : Screen) (c : UInt32) : Screen :=
  { stores := s.stores ++ [(s.cursor, c.toUInt16)], cursor := s.cursor + 2 }

/-- The cells after the stores. -/
def Screen.cells (s : Screen) (cells : UInt32 → UInt16) : UInt32 → UInt16 :=
  s.stores.foldl (fun cells w => Function.update cells w.1 w.2) cells

/-- `for (; pos != 80; pos++) *cursor++ = ' ' | color`, with that many passes left. -/
def fillRow (s : Screen) (color : UInt32) : Nat → Screen
  | 0 => s
  | n + 1 => fillRow (s.store (' '.toUInt8.toUInt32 ||| color)) color n

def consolePutc (s : Screen) (c : UInt8) (color : UInt32) : Screen :=
  let s := if s.cursor ≥ CONSOLE_END then { s with cursor := CONSOLE_BEGIN } else s
  if c = '\n'.toUInt8 then
    let pos := ((int (s.cursor - CONSOLE_BEGIN).toNat).tdiv 2).tmod 80
    fillRow s color (80 - pos).toNat
  else s.store (c.toUInt32 ||| color)

/-! ## Strings and `fill_numbuf` -/

/-- Why a function does not return. -/
inductive Fault
  /-- It reads the format behind its NUL. -/
  | overrun
  /-- `va_arg` behind the last argument. -/
  | noArgument
  /-- A loop does not end. -/
  | endless
deriving DecidableEq, Repr

/-- A pass of `for (n = 0; *s != '\0'; ++s) ++n`. -/
def strlenPass (mem : Memory) : UInt32 × Nat → (UInt32 × Nat) ⊕ Nat
  | (s, n) => if mem s ≠ 0 then .inl (s + 1, n + 1) else .inr n

/-- `strlen`. In `2 ^ 32` passes it has read all of memory. -/
def strlen (mem : Memory) (s : UInt32) : Except Fault Nat :=
  match Loop.run (strlenPass mem) 0x100000000 (s, 0) with
  | some n => .ok n
  | none => .error .endless

/-- `strnlen`, for the `maxlen - n` bytes left. -/
def strnlen (mem : Memory) (s : UInt32) : Nat → Nat
  | 0 => 0
  | k + 1 => if mem s ≠ 0 then strnlen mem (s + 1) k + 1 else 0

def upperDigits : List UInt8 := bytesOf "0123456789ABCDEF"

def lowerDigits : List UInt8 := bytesOf "0123456789abcdef"

/-- A pass of `do … while (val != 0)`: memory, `numbuf_end` and `val`. -/
def fillDigit (base : UInt32) (digits : List UInt8) :
    Memory × UInt32 × UInt32 → (Memory × UInt32 × UInt32) ⊕ (Memory × UInt32)
  | (mem, numbufEnd, val) =>
    let mem := Function.update mem (numbufEnd - 1) (digits.getD (val % base).toNat 0)
    let val := val / base
    if val ≠ 0 then .inl (mem, numbufEnd - 1, val) else .inr (mem, numbufEnd - 1)

/-- `fill_numbuf`. A `val` that can be divided down to 0 is so in 32 passes. -/
def fillNumbuf (mem : Memory) (numbufEnd val base : UInt32) (digits : List UInt8)
    (precision : Int) : Except Fault (Memory × UInt32) :=
  let mem := Function.update mem (numbufEnd - 1) 0
  if precision ≠ 0 ∨ val ≠ 0 then
    match Loop.run (fillDigit base digits) 32 (mem, numbufEnd - 1, val) with
    | some r => .ok r
    | none => .error .endless
  else .ok (mem, numbufEnd - 1)

/-! ## The directives of `console_vprintf` -/

abbrev FLAG_ZERO : Nat := 1 <<< 1
abbrev FLAG_LEFTJUSTIFY : Nat := 1 <<< 2
abbrev FLAG_SPACEPOSITIVE : Nat := 1 <<< 3
abbrev FLAG_PLUSPOSITIVE : Nat := 1 <<< 4

def flagChars : List UInt8 := bytesOf "#0- +"

abbrev NUMBUFSIZ : UInt32 := 20

/-- The format from an index on, up to its NUL. Behind the NUL there is nothing to read. -/
def formatFrom (format : List UInt8) (i : Nat) : Except Fault (List UInt8) :=
  if i ≤ format.length then .ok (format.drop i) else .error .overrun

def vaArg : List UInt32 → Except Fault (UInt32 × List UInt32)
  | [] => .error .noArgument
  | x :: args => .ok (x, args)

/-- The loop over the flags, from `i` on, where the format goes on with a list: `flags` and
`format`. -/
def processFlags (flags i : Nat) : List UInt8 → Nat × Nat
  | [] => (flags, i)
  | c :: rest =>
    let flagc := flagChars.idxOf c
    if c = 0 ∨ flagc = flagChars.length then (flags, i)
    else processFlags (flags ||| 1 <<< flagc) (i + 1) rest

/-- `for (…; *format >= '0' && *format <= '9'; ) n = 10 * n + *format++ - '0'`. -/
def processDigits (n : Int) (i : Nat) : List UInt8 → Int × Nat
  | [] => (n, i)
  | c :: rest =>
    if '0'.toUInt8 ≤ c ∧ c ≤ '9'.toUInt8 then
      processDigits (int (10 * n + c.toNat - '0'.toNat)) (i + 1) rest
    else (n, i)

/-- A number whose first digit is at least `low`, or a `*`: its value, `format` and the arguments
left. -/
def processCount (low : Char) (format : List UInt8) (i : Nat) (args : List UInt32) :
    Except Fault (Int × Nat × List UInt32) := do
  let rest ← formatFrom format i
  let c := rest.headD 0
  if low.toUInt8 ≤ c ∧ c ≤ '9'.toUInt8 then
    let (n, i) := processDigits 0 i rest
    return (n, i, args)
  else if c = '*'.toUInt8 then
    let (n, args) ← vaArg args
    return (int n.toNat, i + 1, args)
  else return (-1, i, args)

/-- "process width". -/
def processWidth (format : List UInt8) (i : Nat) (args : List UInt32) :
    Except Fault (Int × Nat × List UInt32) := processCount '1' format i args

/-- "process precision". -/
def processPrecision (format : List UInt8) (i : Nat) (args : List UInt32) :
    Except Fault (Int × Nat × List UInt32) := do
  let rest ← formatFrom format i
  if rest.headD 0 = '.'.toUInt8 then
    let (precision, i, args) ← processCount '0' format (i + 1) args
    return (if precision < 0 then 0 else precision, i, args)
  else return (-1, i, args)

/-- The variables after "process main conversion character". -/
structure Conversion where
  data : UInt32
  negative : Bool
  numeric : Bool
  mem : Memory
  args : List UInt32
  i : Nat

/-- The cases `'d'`, `'u'`, `'x'` and `'X'`, which print `val x` for the argument `x`. -/
def convertNumber (numbuf : UInt32) (precision : Int) (mem : Memory) (args : List UInt32) (i : Nat)
    (val : UInt32 → UInt32) (base : UInt32) (digits : List UInt8) (negative : UInt32 → Bool) :
    Except Fault Conversion := do
  let (x, args) ← vaArg args
  let (mem, data) ← fillNumbuf mem (numbuf + NUMBUFSIZ) (val x) base digits precision
  return { data, negative := negative x, numeric := true, mem, args, i }

/-- `numbuf[0] = c; numbuf[1] = '\0'`. -/
def charNumbuf (mem : Memory) (numbuf : UInt32) (c : UInt8) : Memory :=
  Function.update (Function.update mem numbuf c) (numbuf + 1) 0

/-- `switch (*format)`, but for its case `'C'`. -/
def convert (numbuf : UInt32) (precision : Int) (mem : Memory) (args : List UInt32) (i : Nat)
    (c : UInt8) : Except Fault Conversion :=
  if c = 'd'.toUInt8 then
    convertNumber numbuf precision mem args i (fun x => if int x.toNat > 0 then x else -x) 10
      upperDigits fun x => int x.toNat < 0
  else if c = 'u'.toUInt8 then
    convertNumber numbuf precision mem args i (fun x => x) 10 upperDigits fun _ => false
  else if c = 'x'.toUInt8 then
    convertNumber numbuf precision mem args i (fun x => x) 16 lowerDigits fun _ => false
  else if c = 'X'.toUInt8 then
    convertNumber numbuf precision mem args i (fun x => x) 16 upperDigits fun _ => false
  else if c = 's'.toUInt8 then do
    let (data, args) ← vaArg args
    return { data, negative := false, numeric := false, mem, args, i }
  else if c = 'c'.toUInt8 then do
    let (x, args) ← vaArg args
    return { data := numbuf, negative := false, numeric := false,
             mem := charNumbuf mem numbuf x.toUInt8, args, i }
  else
    .ok { data := numbuf, negative := false, numeric := false,
          mem := charNumbuf mem numbuf (if c ≠ 0 then c else '%'.toUInt8), args,
          i := if c = 0 then i - 1 else i }

/-! ## What a directive prints -/

section
variable {σ : Type} (putc : σ → UInt8 → UInt32 → σ)

/-- A loop that prints one character, with that many passes left. -/
def putTimes (c : UInt8) (color : UInt32) (s : σ) : Nat → σ
  | 0 => s
  | n + 1 => putTimes c color (putc s c color) n

/-- `for (; len > 0; ++data, --len)`, with that many passes left. -/
def putData (mem : Memory) (color : UInt32) (s : σ) (data : UInt32) : Nat → σ
  | 0 => s
  | n + 1 => putData mem color (putc s (mem data) color) (data + 1) n

/-- `len`, as `size_t`. -/
def textLength (mem : Memory) (data : UInt32) (precision : Int) : Except Fault Nat :=
  if precision ≥ 0 then .ok (strnlen mem data precision.toNat) else strlen mem data

/-- The character before a number, 0 for none. -/
def signChar (flags : Nat) (numeric negative : Bool) : UInt8 :=
  if numeric && negative then '-'.toUInt8
  else if flags &&& FLAG_PLUSPOSITIVE ≠ 0 then '+'.toUInt8
  else if flags &&& FLAG_SPACEPOSITIVE ≠ 0 then ' '.toUInt8
  else 0

/-- `!!negative`. -/
def isSign (negative : UInt8) : Int := if negative ≠ 0 then 1 else 0

/-- `zeros`. -/
def countZeros (flags : Nat) (width precision : Int) (numeric : Bool) (negative : UInt8)
    (len : Int) : Int :=
  if numeric ∧ precision > len then int (precision - len)
  else if flags &&& (FLAG_ZERO ||| FLAG_LEFTJUSTIFY) = FLAG_ZERO ∧ numeric ∧ precision < 0 ∧
      int (len + isSign negative) < width then
    int (width - len - isSign negative)
  else 0

/-- What a pass prints, for `len`. -/
def printField (flags : Nat) (width precision : Int) (v : Conversion) (color : UInt32) (s : σ)
    (len : Int) : σ :=
  let negative := signChar flags v.numeric v.negative
  let zeros := countZeros flags width precision v.numeric negative len
  let width := int (width - (len + zeros + isSign negative))
  let s := if flags &&& FLAG_LEFTJUSTIFY ≠ 0 then s
    else putTimes putc ' '.toUInt8 color s width.toNat
  let width := if flags &&& FLAG_LEFTJUSTIFY ≠ 0 then width else min width 0
  let s := if negative ≠ 0 then putc s negative color else s
  let s := putTimes putc '0'.toUInt8 color s zeros.toNat
  let s := putData putc v.mem color s v.data len.toNat
  putTimes putc ' '.toUInt8 color s width.toNat

/-- The rest of a pass. -/
def putField (flags : Nat) (width precision : Int) (v : Conversion) (color : UInt32) (s : σ) :
    Except Fault σ := do
  let len ← textLength v.mem v.data precision
  return printField putc flags width precision v color s (int len)

/-! ## `console_vprintf` -/

/-- The parameters and `numbuf`, in memory, between two passes. -/
structure Printer (σ : Type) where
  screen : σ
  color : UInt32
  mem : Memory
  args : List UInt32
  i : Nat

variable (format : List UInt8) (numbuf : UInt32)

/-- A pass for a directive, up to `done`. -/
def directive (st : Printer σ) : Except Fault (Printer σ) := do
  let rest ← formatFrom format (st.i + 1)
  let (flags, i) := processFlags 0 (st.i + 1) rest
  let (width, i, args) ← processWidth format i st.args
  let (precision, i, args) ← processPrecision format i args
  let rest ← formatFrom format i
  let c := rest.headD 0
  if c = 'C'.toUInt8 then
    let (color, args) ← vaArg args
    return { st with color, args, i }
  else
    let v ← convert numbuf precision st.mem args i c
    let screen ← putField putc flags width precision v st.color st.screen
    return { st with screen, mem := v.mem, args := v.args, i := v.i }

/-- A pass of the loop over the format. -/
def vprintfPass (st : Printer σ) : Printer σ ⊕ Except Fault (Printer σ) :=
  match formatFrom format st.i with
  | .error e => .inr (.error e)
  | .ok rest =>
    let c := rest.headD 0
    if c = 0 then .inr (.ok st)
    else if c ≠ '%'.toUInt8 then
      .inl { st with screen := putc st.screen c st.color, i := st.i + 1 }
    else
      match directive putc format numbuf st with
      | .error e => .inr (.error e)
      | .ok st => .inl { st with i := st.i + 1 }

/-- `console_vprintf` with some function for `console_putc`, in at most `n` passes. -/
def vprintf (n : Nat) (st : Printer σ) : Except Fault (Printer σ) :=
  (Loop.run (vprintfPass putc format numbuf) n st).getD (.error .endless)

end

/-- `console_vprintf`, from a memory with `numbuf` in it. -/
def consoleVprintf (n : Nat) (mem : Memory) (numbuf : UInt32) (cursor color : UInt32)
    (format : List UInt8) (args : List UInt32) : Except Fault (Printer Screen) :=
  vprintf consolePutc format numbuf n
    { screen := { stores := [], cursor }, color, mem, args, i := 0 }

end SchedOS
