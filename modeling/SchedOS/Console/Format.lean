import SchedOS.Console.Printf
import SchedOS.Lib.Numeral

/-!
# Formats

What a format says: it is read as characters and directives (`parse`), each of them takes so many
arguments (`Item.vargs`), and these have to be there, the strings with a NUL outside of `numbuf`
(`Matches`). A directive is cut off where the format ends; its conversion character is 0 then. What
the parts of a format are spelled with is all of it, up to its NUL (`parse_spell`).
-/

namespace SchedOS

/-- How a width or a precision is given. -/
inductive Count
  | absent
  | number (ds : List UInt8)
  | star
deriving DecidableEq, Repr

/-- What follows a `%`. -/
structure Directive where
  flags : List UInt8
  width : Count
  /-- What follows the '.', if there is one. -/
  precision : Option Count
  conv : UInt8
deriving DecidableEq, Repr

inductive Item
  | plain (c : UInt8)
  | directive (d : Directive)
deriving DecidableEq, Repr

/-! ## Parsing -/

def isFlag (c : UInt8) : Bool := flagChars.contains c

def isDigit (c : UInt8) : Bool := '0'.toUInt8 ≤ c ∧ c ≤ '9'.toUInt8

def parseCount (low : Char) (rest : List UInt8) : Count × List UInt8 :=
  if low.toUInt8 ≤ rest.headD 0 ∧ rest.headD 0 ≤ '9'.toUInt8 then
    (.number (rest.takeWhile isDigit), rest.dropWhile isDigit)
  else if rest.headD 0 = '*'.toUInt8 then (.star, rest.tail)
  else (.absent, rest)

def parsePrecision (rest : List UInt8) : Option Count × List UInt8 :=
  if rest.headD 0 = '.'.toUInt8 then
    (some (parseCount '0' rest.tail).1, (parseCount '0' rest.tail).2)
  else (none, rest)

/-- The directive, and what is left of the format. -/
def parseDirective (rest : List UInt8) : Directive × List UInt8 :=
  let width := parseCount '1' (rest.dropWhile isFlag)
  let precision := parsePrecision width.2
  let conv := precision.2.headD 0
  (⟨rest.takeWhile isFlag, width.1, precision.1, conv⟩,
    if conv = 0 then precision.2 else precision.2.tail)

def Count.spell : Count → List UInt8
  | .absent => []
  | .number ds => ds
  | .star => ['*'.toUInt8]

def spellPrecision : Option Count → List UInt8
  | none => []
  | some c => '.'.toUInt8 :: c.spell

/-- The directive as it stands in the format. -/
def Directive.spell (d : Directive) : List UInt8 :=
  d.flags ++ d.width.spell ++ spellPrecision d.precision ++ if d.conv = 0 then [] else [d.conv]

theorem cons_tail_of_headD {rest : List UInt8} {c : UInt8} (h : rest.headD 0 = c) (hc : c ≠ 0) :
    rest = c :: rest.tail := by
  cases rest with
  | nil => exact absurd h.symm hc
  | cons a rest => rw [show a = c from h, List.tail_cons]

theorem parseCount_spell (low : Char) (rest : List UInt8) :
    rest = (parseCount low rest).1.spell ++ (parseCount low rest).2 := by
  unfold parseCount
  split
  · exact List.takeWhile_append_dropWhile.symm
  · split
    · rename_i hstar
      exact cons_tail_of_headD hstar (by decide)
    · rfl

theorem parsePrecision_spell (rest : List UInt8) :
    rest = spellPrecision (parsePrecision rest).1 ++ (parsePrecision rest).2 := by
  unfold parsePrecision
  split
  · rename_i hdot
    rw [spellPrecision, List.cons_append, ← parseCount_spell]
    exact cons_tail_of_headD hdot (by decide)
  · rfl

/-- Nothing of the format is skipped. -/
theorem parseDirective_spell (rest : List UInt8) :
    rest = (parseDirective rest).1.spell ++ (parseDirective rest).2 := by
  have hconv : ∀ r : List UInt8, r = (if r.headD 0 = 0 then [] else [r.headD 0]) ++
      if r.headD 0 = 0 then r else r.tail := by
    intro r
    split
    · rfl
    · rename_i hr
      exact cons_tail_of_headD rfl hr
  unfold parseDirective Directive.spell
  dsimp only
  rw [List.append_assoc, ← hconv, List.append_assoc, List.append_assoc, ← parsePrecision_spell,
    ← parseCount_spell, List.takeWhile_append_dropWhile]

theorem length_parseDirective (rest : List UInt8) : (parseDirective rest).2.length ≤ rest.length := by
  have hlength := congrArg List.length (parseDirective_spell rest)
  rw [List.length_append] at hlength
  omega

/-- The parts of a format, up to its NUL. -/
def parse : List UInt8 → List Item
  | [] => []
  | c :: rest =>
    if c = 0 then []
    else if c ≠ '%'.toUInt8 then .plain c :: parse rest
    else .directive (parseDirective rest).1 :: parse (parseDirective rest).2
termination_by rest => rest.length
decreasing_by
  · exact Nat.lt_succ_self _
  · exact Nat.lt_succ_of_le (length_parseDirective rest)

def Item.spell : Item → List UInt8
  | .plain c => [c]
  | .directive d => '%'.toUInt8 :: d.spell

/-- The parts of a format are all of it. -/
theorem parse_spell (format : List UInt8) (h0 : 0 ∉ format) :
    (parse format).flatMap Item.spell = format := by
  induction format using parse.induct with
  | case1 =>
    rw [parse]
    rfl
  | case2 rest => exact absurd List.mem_cons_self h0
  | case3 c rest hc hplain ih =>
    have hrest : 0 ∉ rest := fun h => h0 (List.mem_cons_of_mem _ h)
    rw [parse, if_neg hc, if_pos hplain, List.flatMap_cons, ih hrest]
    rfl
  | case4 c rest hc hdirective ih =>
    obtain rfl : c = '%'.toUInt8 := not_not.1 hdirective
    have hspell := parseDirective_spell rest
    have hrest : 0 ∉ (parseDirective rest).2 := by
      intro h
      refine h0 (List.mem_cons_of_mem _ ?_)
      rw [hspell]
      exact List.mem_append_right _ h
    rw [parse, if_neg hc, if_neg hdirective, List.flatMap_cons, ih hrest, Item.spell, List.cons_append,
      ← hspell]

/-! ## Arguments -/

/-- The number that digits are. -/
def decimal (ds : List UInt8) : Int := ds.foldl (fun n c => 10 * n + c.toNat - '0'.toNat) 0

/-- The arguments that a count takes. -/
def Count.stars : Count → Nat
  | .star => 1
  | _ => 0

/-- The value of a count, which takes the first argument if it is a `*`. -/
def Count.value (args : List UInt32) : Count → Int
  | .absent => -1
  | .number ds => decimal ds
  | .star => int (args.headD 0).toNat

def takesArg (conv : UInt8) : Bool := (bytesOf "duxXscC").contains conv

namespace Directive

variable (d : Directive) (args : List UInt32)

def stars : Nat := d.width.stars + (d.precision.elim 0 Count.stars)

/-- One argument for each `*` and one for a conversion that prints or sets something. -/
def vargs : Nat := d.stars + if takesArg d.conv then 1 else 0

/-- The width as `int`, -1 for none. -/
def widthOf : Int := int (d.width.value args)

/-- The precision as `int`, -1 for none. It is at least 0 if there is a '.'. -/
def precisionOf : Int :=
  d.precision.elim (-1) fun c => max 0 (int (c.value (args.drop d.width.stars)))

/-- The argument of the conversion. -/
def arg : UInt32 := (args.drop d.stars).headD 0

end Directive

def Item.vargs : Item → Nat
  | .plain _ => 0
  | .directive d => d.vargs

/-- The arguments that a format takes. -/
def vargsOf (items : List Item) : Nat := (items.map Item.vargs).sum

/-- A NUL behind the beginning of a string, outside of `numbuf`. -/
def Terminated (mem : Memory) (numbuf s : UInt32) : Prop :=
  ∃ n, n < 2 ^ 32 ∧ mem (s + UInt32.ofNat n) = 0 ∧
    NUMBUFSIZ.toNat ≤ (s + UInt32.ofNat n - numbuf).toNat

/-- The arguments match the format: there are enough of them, and the strings that are printed up to
their NUL have one. -/
def Matches (mem : Memory) (numbuf : UInt32) : List Item → List UInt32 → Prop
  | [], _ => True
  | .plain _ :: items, args => Matches mem numbuf items args
  | .directive d :: items, args => d.vargs ≤ args.length ∧
      (d.conv = 's'.toUInt8 → d.precision = none → Terminated mem numbuf (d.arg args)) ∧
      Matches mem numbuf items (args.drop d.vargs)

/-! ## Texts -/

/-- The text of a number, by a table of digits. -/
def numeralText (base : Nat) (table : List UInt8) (n : Nat) : List UInt8 :=
  (Numeral.digits base n).map (table.getD · 0)

/-- The text of a number for a precision: 0 has none for precision 0. -/
def numberText (base : Nat) (table : List UInt8) (precision : Int) (n : Nat) : List UInt8 :=
  if n = 0 ∧ precision = 0 then [] else numeralText base table n

/-- A string with its NUL. -/
def StringAt (mem : Memory) (a : UInt32) (text : List UInt8) : Prop :=
  ∀ i, i ≤ text.length → mem (a + UInt32.ofNat i) = text.getD i 0

/-- The base and the digits of the conversions that print numbers. -/
def radix (conv : UInt8) : Option (UInt32 × List UInt8) :=
  if conv = 'd'.toUInt8 ∨ conv = 'u'.toUInt8 then some (10, upperDigits)
  else if conv = 'x'.toUInt8 then some (16, lowerDigits)
  else if conv = 'X'.toUInt8 then some (16, upperDigits)
  else none

/-- The number that is printed of an argument, without its sign. -/
def magnitude (conv : UInt8) (x : UInt32) : Nat :=
  if conv = 'd'.toUInt8 then (int x.toNat).natAbs else x.toNat

def isNegative (conv : UInt8) (x : UInt32) : Bool := conv = 'd'.toUInt8 ∧ int x.toNat < 0

/-- What is printed of a string: up to its NUL, or more than the precision. -/
structure Prints (mem : Memory) (s : UInt32) (precision : Int) (text : List UInt8) : Prop where
  reads : ∀ i, i < text.length → mem (s + UInt32.ofNat i) = text.getD i 0
  noNul : 0 ∉ text
  stop : mem (s + UInt32.ofNat text.length) = 0 ∨ 0 ≤ precision ∧ precision ≤ text.length

/-- A character as a string. -/
def charText (c : UInt8) : List UInt8 := if c = 0 then [] else [c]

/-- The text that an argument is converted to. -/
def Directive.Text (d : Directive) (mem : Memory) (args : List UInt32) (text : List UInt8) : Prop :=
  match radix d.conv with
  | some (base, table) =>
    text = numberText base.toNat table (d.precisionOf args) (magnitude d.conv (d.arg args))
  | none =>
    if d.conv = 's'.toUInt8 then Prints mem (d.arg args) (d.precisionOf args) text
    else if d.conv = 'c'.toUInt8 then text = charText (d.arg args).toUInt8
    else text = charText (if d.conv = 0 then '%'.toUInt8 else d.conv)

/-! ## Fields -/

/-- The parts of a field around the first `len` characters of a text. -/
structure Field where
  left : Nat
  sign : List UInt8
  zeros : Nat
  len : Nat
  right : Nat

def Field.chars (f : Field) (text : List UInt8) : List UInt8 :=
  List.replicate f.left ' '.toUInt8 ++ f.sign ++ List.replicate f.zeros '0'.toUInt8 ++
    text.take f.len ++ List.replicate f.right ' '.toUInt8

end SchedOS
