import Mathlib.Data.List.TakeWhile
import SchedOS.Console.Proof.Render

/-!
# The grammar of formats

The parts of a format and what they are spelled with determine each other (`format_grammar`): each
loop stops where the part ends if the next character does not belong to it (`Count.Takes`,
`Directive.Canonical`), so a list of parts is read back from its spelling, whatever comes behind it
(`parse_spell_append`). So a format can be split between two of its parts, and printed in two calls
(`consoleVprintf_append`).
-/

namespace SchedOS

/-! ## Lists -/

section
variable {p : UInt8 → Bool}

theorem takeWhile_of_headD {rest : List UInt8} (h : p (rest.headD 0) = false) :
    rest.takeWhile p = [] := by
  cases rest with
  | nil => rfl
  | cons c rest => exact List.takeWhile_cons_of_neg (Bool.eq_false_iff.1 h)

theorem dropWhile_of_headD {rest : List UInt8} (h : p (rest.headD 0) = false) :
    rest.dropWhile p = rest := by
  cases rest with
  | nil => rfl
  | cons c rest => exact List.dropWhile_cons_of_neg (Bool.eq_false_iff.1 h)

theorem headD_dropWhile (h0 : p 0 = false) (rest : List UInt8) :
    p ((rest.dropWhile p).headD 0) = false := by
  induction rest with
  | nil => exact h0
  | cons c rest ih =>
    cases hc : p c with
    | true => rwa [List.dropWhile_cons_of_pos hc]
    | false => simp [hc]

end

/-! ## Counts -/

/-- The first digits of a count. -/
def Begins (low : Char) (c : UInt8) : Prop := low.toUInt8 ≤ c ∧ c ≤ '9'.toUInt8

/-- A count as it is read: a number begins with one of its first digits. -/
def Count.Canonical (low : Char) : Count → Prop
  | .number ds => Begins low (ds.headD 0) ∧ ∀ c ∈ ds, isDigit c = true
  | _ => True

/-- The count would go on with `c`. -/
def Count.Takes (low : Char) (c : UInt8) : Count → Prop
  | .absent => Begins low c ∨ c = '*'.toUInt8
  | .number _ => isDigit c = true
  | .star => False

section
variable {low : Char} (hlow : '0'.toUInt8 ≤ low.toUInt8)
include hlow

theorem not_begins {c : UInt8} (h : c < '0'.toUInt8) : ¬ Begins low c := fun hc =>
  UInt8.not_le.2 h (UInt8.le_trans hlow hc.1)

theorem isDigit_of_begins {c : UInt8} (h : Begins low c) : isDigit c = true :=
  isDigit_iff.2 ⟨UInt8.le_trans hlow h.1, h.2⟩

theorem parseCount_of_spell {count : Count} (h : count.Canonical low) {rest : List UInt8}
    (hrest : ¬ count.Takes low (rest.headD 0)) :
    parseCount low (count.spell ++ rest) = (count, rest) := by
  unfold parseCount
  cases count with
  | absent =>
    have hfirst : ¬ (low.toUInt8 ≤ rest.headD 0 ∧ rest.headD 0 ≤ '9'.toUInt8) :=
      fun hb => hrest (.inl hb)
    exact (if_neg hfirst).trans (if_neg fun hstar => hrest (.inr hstar))
  | number ds =>
    obtain ⟨hfirst, hdigits⟩ := h
    have hstop : isDigit (rest.headD 0) = false := Bool.eq_false_iff.2 hrest
    have hhead : ((Count.number ds).spell ++ rest).headD 0 = ds.headD 0 := by
      cases ds with
      | nil => exact absurd hfirst (not_begins hlow (by decide))
      | cons d ds => rfl
    rw [hhead]
    refine (if_pos hfirst).trans ?_
    unfold Count.spell
    rw [List.takeWhile_append_of_pos hdigits, List.dropWhile_append_of_pos hdigits,
      takeWhile_of_headD hstop, dropWhile_of_headD hstop, List.append_nil]
  | star =>
    have hstar : ¬ Begins low '*'.toUInt8 := not_begins hlow (by decide)
    exact (if_neg hstar).trans (if_pos rfl)

theorem parseCount_canonical (rest : List UInt8) : (parseCount low rest).1.Canonical low ∧
    ¬ (parseCount low rest).1.Takes low ((parseCount low rest).2.headD 0) := by
  unfold parseCount
  split
  · rename_i hfirst
    have hdigit := isDigit_of_begins hlow hfirst
    refine ⟨⟨?_, fun c hc => List.mem_takeWhile_imp hc⟩, ?_⟩
    · cases rest with
      | nil => exact hfirst
      | cons c rest =>
        rw [List.takeWhile_cons_of_pos (show isDigit c = true from hdigit)]
        exact hfirst
    · exact Bool.eq_false_iff.1 (headD_dropWhile (p := isDigit) (by decide) rest)
  · rename_i hfirst
    split
    · exact ⟨trivial, id⟩
    · rename_i hstar
      exact ⟨trivial, fun h => h.elim hfirst hstar⟩

end

/-! ## Directives -/

/-- A directive as it is read: no part of it goes on with the next one. -/
structure Directive.Canonical (d : Directive) : Prop where
  flags : ∀ c ∈ d.flags, isFlag c = true
  width : d.width.Canonical '1'
  precision : ∀ c, d.precision = some c → c.Canonical '0' ∧ ¬ c.Takes '0' d.conv
  conv : d.precision = none → d.conv ≠ '.'.toUInt8 ∧ ¬ d.width.Takes '1' d.conv ∧
    (d.width = .absent → isFlag d.conv = false)

theorem parsePrecision_of_spell {precision : Option Count} {rest : List UInt8}
    (hsome : ∀ c, precision = some c → c.Canonical '0' ∧ ¬ c.Takes '0' (rest.headD 0))
    (hnone : precision = none → rest.headD 0 ≠ '.'.toUInt8) :
    parsePrecision (spellPrecision precision ++ rest) = (precision, rest) := by
  unfold parsePrecision
  cases precision with
  | none => exact if_neg (hnone rfl)
  | some c =>
    obtain ⟨hc, hstop⟩ := hsome c rfl
    have hcount := parseCount_of_spell (UInt8.le_refl _) hc hstop
    show (if '.'.toUInt8 = '.'.toUInt8 then (some (parseCount '0' (c.spell ++ rest)).1,
      (parseCount '0' (c.spell ++ rest)).2) else _) = _
    rw [if_pos rfl, hcount]

theorem isFlag_zero : isFlag 0 = false := by decide

theorem isFlag_of_begins {c : UInt8} (h : Begins '1' c) : isFlag c = false := by
  refine Bool.eq_false_iff.2 fun hflag => ?_
  have hmem : c = '#'.toUInt8 ∨ c = '0'.toUInt8 ∨ c = '-'.toUInt8 ∨ c = ' '.toUInt8 ∨
      c = '+'.toUInt8 := by
    simpa [flagChars, bytesOf] using isFlag_iff.1 hflag
  rcases hmem with rfl | rfl | rfl | rfl | rfl
  · exact absurd h.1 (by decide)
  · exact absurd h.1 (by decide)
  · exact absurd h.1 (by decide)
  · exact absurd h.1 (by decide)
  · exact absurd h.1 (by decide)

/-- What follows the width. -/
theorem headD_spellPrecision (precision : Option Count) (rest : List UInt8) :
    (spellPrecision precision ++ rest).headD 0 =
      if precision = none then rest.headD 0 else '.'.toUInt8 := by
  cases precision with
  | none => rfl
  | some c => rfl

theorem Count.not_takes_dot (count : Count) : ¬ count.Takes '1' '.'.toUInt8 := by
  cases count with
  | absent =>
    rintro (h | h)
    · exact absurd h.1 (by decide)
    · exact absurd h (by decide)
  | number ds => exact Bool.eq_false_iff.1 (by decide)
  | star => exact id

/-- A directive is read back from its spelling. -/
theorem parseDirective_of_spell {d : Directive} (h : d.Canonical) {rest : List UInt8}
    (hrest : d.conv = 0 → rest.headD 0 = 0) : parseDirective (d.spell ++ rest) = (d, rest) := by
  obtain ⟨flags, width, precision, conv⟩ := d
  obtain ⟨hflags, hwidth, hprecision, hconv⟩ := h
  dsimp only at hflags hwidth hprecision hconv hrest
  obtain ⟨tail, htail⟩ : ∃ tail, tail = (if conv = 0 then [] else [conv]) ++ rest := ⟨_, rfl⟩
  have hhead : tail.headD 0 = conv := by
    rw [htail]
    split
    · rename_i h0
      rw [List.nil_append, hrest h0, h0]
    · rfl
  have hspell : Directive.spell ⟨flags, width, precision, conv⟩ ++ rest =
      flags ++ (width.spell ++ (spellPrecision precision ++ tail)) := by
    unfold Directive.spell
    rw [htail]
    simp only [List.append_assoc]
  have hnext := headD_spellPrecision precision tail
  rw [hhead] at hnext
  have hafter : ¬ width.Takes '1' ((spellPrecision precision ++ tail).headD 0) := by
    rw [hnext]
    split
    · rename_i hnone
      exact (hconv hnone).2.1
    · exact width.not_takes_dot
  have hnoflag : isFlag ((width.spell ++ (spellPrecision precision ++ tail)).headD 0) = false := by
    cases width with
    | absent =>
      show isFlag ((spellPrecision precision ++ tail).headD 0) = false
      rw [hnext]
      split
      · rename_i hnone
        exact (hconv hnone).2.2 rfl
      · decide
    | number ds =>
      cases ds with
      | nil => exact absurd hwidth.1 (not_begins (by decide) (by decide))
      | cons c ds => exact isFlag_of_begins hwidth.1
    | star => exact (by decide : isFlag '*'.toUInt8 = false)
  have hflagsRead : (flags ++ (width.spell ++ (spellPrecision precision ++ tail))).takeWhile isFlag =
      flags := by
    rw [List.takeWhile_append_of_pos hflags, takeWhile_of_headD hnoflag, List.append_nil]
  have hflagsLeft : (flags ++ (width.spell ++ (spellPrecision precision ++ tail))).dropWhile isFlag =
      width.spell ++ (spellPrecision precision ++ tail) := by
    rw [List.dropWhile_append_of_pos hflags, dropWhile_of_headD hnoflag]
  have hcount := parseCount_of_spell (by decide) hwidth hafter
  have hdot : parsePrecision (spellPrecision precision ++ tail) = (precision, tail) := by
    refine parsePrecision_of_spell (by rwa [hhead]) fun hnone => ?_
    rw [hhead]
    exact (hconv hnone).1
  unfold parseDirective
  dsimp only
  rw [hspell, hflagsRead, hflagsLeft, hcount, hdot, hhead, htail]
  by_cases h0 : conv = 0
  · rw [if_pos h0, if_pos h0, List.nil_append]
  · rw [if_neg h0, if_neg h0]
    rfl

theorem parsePrecision_canonical (rest : List UInt8) :
    (∀ c, (parsePrecision rest).1 = some c →
      c.Canonical '0' ∧ ¬ c.Takes '0' ((parsePrecision rest).2.headD 0)) ∧
    ((parsePrecision rest).1 = none →
      rest.headD 0 ≠ '.'.toUInt8 ∧ (parsePrecision rest).2 = rest) := by
  unfold parsePrecision
  split
  · refine ⟨fun c hc => ?_, nofun⟩
    cases hc
    exact parseCount_canonical (UInt8.le_refl _) _
  · rename_i hdot
    exact ⟨nofun, fun _ => ⟨hdot, rfl⟩⟩

theorem parseCount_absent {low : Char} {rest : List UInt8} (h : (parseCount low rest).1 = .absent) :
    (parseCount low rest).2 = rest := by
  unfold parseCount at h ⊢
  split
  · rename_i hfirst
    rw [if_pos hfirst] at h
    cases h
  · rename_i hfirst
    rw [if_neg hfirst] at h
    split
    · rename_i hstar
      rw [if_pos hstar] at h
      cases h
    · rfl

/-- Every directive that is read is a canonical one. -/
theorem parseDirective_canonical (rest : List UInt8) : (parseDirective rest).1.Canonical where
  flags c hc := List.mem_takeWhile_imp hc
  width := (parseCount_canonical (by decide) _).1
  precision c hc := (parsePrecision_canonical _).1 c hc
  conv hnone := by
    obtain ⟨hdot, hrest⟩ := (parsePrecision_canonical (parseCount '1' (rest.dropWhile isFlag)).2).2 hnone
    have hconv : (parseDirective rest).1.conv =
        (parseCount '1' (rest.dropWhile isFlag)).2.headD 0 := by
      show (parsePrecision _).2.headD 0 = _
      rw [hrest]
    rw [hconv]
    refine ⟨hdot, (parseCount_canonical (by decide) _).2, fun habsent => ?_⟩
    rw [parseCount_absent habsent]
    exact headD_dropWhile isFlag_zero rest

/-- A directive is cut off at the end of the format only. -/
theorem parseDirective_cutOff {rest : List UInt8} (h : (parseDirective rest).1.conv = 0) :
    (parseDirective rest).2.headD 0 = 0 := by
  have hconv : (parsePrecision (parseCount '1' (rest.dropWhile isFlag)).2).2.headD 0 = 0 := h
  unfold parseDirective
  dsimp only
  rw [if_pos hconv, hconv]

theorem Count.spell_noNul {low : Char} {count : Count} (h : count.Canonical low) :
    (0 : UInt8) ∉ count.spell := by
  cases count with
  | absent => exact List.not_mem_nil
  | number ds => exact fun h0 => absurd (h.2 0 h0) (by decide)
  | star => decide

theorem Directive.spell_noNul {d : Directive} (h : d.Canonical) : (0 : UInt8) ∉ d.spell := by
  have hflags : (0 : UInt8) ∉ d.flags := fun h0 =>
    absurd (h.flags 0 h0) (Bool.eq_false_iff.1 isFlag_zero)
  have hprecision : (0 : UInt8) ∉ spellPrecision d.precision := by
    cases hp : d.precision with
    | none => exact List.not_mem_nil
    | some c =>
      have hc := Count.spell_noNul (h.precision c hp).1
      exact fun h0 => (List.mem_cons.1 h0).elim (by decide) hc
  have hconv : (0 : UInt8) ∉ (if d.conv = 0 then [] else [d.conv]) := by
    split
    · exact List.not_mem_nil
    · rename_i hne
      simpa using Ne.symm hne
  unfold Directive.spell
  simp only [List.mem_append, not_or]
  exact ⟨⟨⟨hflags, Count.spell_noNul h.width⟩, hprecision⟩, hconv⟩

/-! ## Formats -/

/-- The parts of a format as they are read: only the last one can be cut off. -/
def Canonical : List Item → Prop
  | [] => True
  | .plain c :: items => c ≠ 0 ∧ c ≠ '%'.toUInt8 ∧ Canonical items
  | .directive d :: items => d.Canonical ∧ (d.conv = 0 → items = []) ∧ Canonical items

theorem canonical_parse (format : List UInt8) : Canonical (parse format) := by
  induction format using parse.induct with
  | case1 =>
    rw [parse]
    trivial
  | case2 rest =>
    rw [parse, if_pos rfl]
    trivial
  | case3 c rest hc hplain ih =>
    rw [parse_plain rest hc hplain]
    exact ⟨hc, hplain, ih⟩
  | case4 c rest hc hdirective ih =>
    obtain rfl : c = '%'.toUInt8 := not_not.1 hdirective
    rw [parse_directive]
    exact ⟨parseDirective_canonical rest, fun h0 => parse_end (parseDirective_cutOff h0), ih⟩

/-- The parts are read back from their spelling, whatever comes behind them. -/
theorem parse_spell_append {items : List Item} (h : Canonical items) {rest : List UInt8}
    (hrest : rest.headD 0 = 0 ∨ ∀ d, .directive d ∈ items → d.conv ≠ 0) :
    parse (items.flatMap Item.spell ++ rest) = items ++ parse rest := by
  induction items with
  | nil => rfl
  | cons item items ih =>
    have hitems : rest.headD 0 = 0 ∨ ∀ d, .directive d ∈ items → d.conv ≠ 0 :=
      hrest.imp_right fun hall d hd => hall d (List.mem_cons_of_mem _ hd)
    rw [List.flatMap_cons, List.append_assoc]
    cases item with
    | plain c =>
      obtain ⟨h0, hc, hcanonical⟩ := h
      show parse (c :: (items.flatMap Item.spell ++ rest)) = _
      rw [parse_plain _ h0 hc, ih hcanonical hitems]
      rfl
    | directive d =>
      obtain ⟨hd, hlast, hcanonical⟩ := h
      have hnext : d.conv = 0 → (items.flatMap Item.spell ++ rest).headD 0 = 0 := by
        intro h0
        rw [hlast h0]
        exact hrest.resolve_right fun hall => hall d List.mem_cons_self h0
      show parse ('%'.toUInt8 :: (d.spell ++ (items.flatMap Item.spell ++ rest))) = _
      rw [parse_directive, parseDirective_of_spell hd hnext, ih hcanonical hitems]
      rfl

theorem spell_noNul {items : List Item} (h : Canonical items) :
    (0 : UInt8) ∉ items.flatMap Item.spell := by
  induction items with
  | nil => exact List.not_mem_nil
  | cons item items ih =>
    rw [List.flatMap_cons, List.mem_append, not_or]
    cases item with
    | plain c => exact ⟨by simpa [Item.spell] using h.1.symm, ih h.2.2⟩
    | directive d =>
      have hd := Directive.spell_noNul h.1
      exact ⟨fun h0 => (List.mem_cons.1 h0).elim (by decide) hd, ih h.2.2⟩

/-- **The grammar of formats**: reading a format and spelling its parts are inverse to each other.
Every format without a NUL is the spelling of its parts, which are canonical, and every list of
canonical parts is what is read of its spelling, which is without a NUL. -/
theorem format_grammar :
    (∀ format : List UInt8, 0 ∉ format →
      Canonical (parse format) ∧ (parse format).flatMap Item.spell = format) ∧
    ∀ items : List Item, Canonical items →
      0 ∉ items.flatMap Item.spell ∧ parse (items.flatMap Item.spell) = items := by
  refine ⟨fun format h0 => ⟨canonical_parse format, parse_spell format h0⟩,
    fun items h => ⟨spell_noNul h, ?_⟩⟩
  have hparse : parse (items.flatMap Item.spell ++ []) = items ++ parse [] :=
    parse_spell_append h (.inl rfl)
  have hnil : parse [] = [] := parse_end rfl
  rwa [List.append_nil, hnil, List.append_nil] at hparse

/-- "%-5.*d!". -/
def paddedFormat : List UInt8 := bytesOf "%-5.*d!"

/-- Its parts. -/
def paddedItems : List Item :=
  [.directive ⟨bytesOf "-", .number (bytesOf "5"), some .star, 'd'.toUInt8⟩, .plain '!'.toUInt8]

theorem padded_grammar : parse paddedFormat = paddedItems ∧
    (parse paddedFormat).flatMap Item.spell = paddedFormat := by
  obtain ⟨hformat, hitems⟩ := format_grammar
  have hcanonical : Canonical paddedItems := by
    refine ⟨⟨by decide +kernel, ⟨⟨by decide, by decide⟩, by decide +kernel⟩, ?_, nofun⟩, nofun,
      by decide, by decide, trivial⟩
    rintro c ⟨⟩
    exact ⟨trivial, id⟩
  have hspell : paddedItems.flatMap Item.spell = paddedFormat := by decide
  have hparse := (hitems paddedItems hcanonical).2
  rw [hspell] at hparse
  exact ⟨hparse, (hformat paddedFormat (by decide)).2⟩

/-! ## Two calls -/

/-- Stores before those of a screen. -/
def Screen.prepend (ws : List (UInt32 × UInt16)) (s : Screen) : Screen :=
  { s with stores := ws ++ s.stores }

section
variable (ws : List (UInt32 × UInt16)) (s : Screen)

theorem Screen.store_prepend (c : UInt32) : (s.prepend ws).store c = (s.store c).prepend ws := by
  simp [Screen.store, Screen.prepend]

theorem fillRow_prepend (color : UInt32) (n : Nat) :
    fillRow (s.prepend ws) color n = (fillRow s color n).prepend ws := by
  induction n generalizing s with
  | zero => rfl
  | succ n ih =>
    unfold fillRow
    rw [Screen.store_prepend, ih]

/-- What is stored does not depend on the stores before. -/
theorem consolePutc_prepend (c : UInt8) (color : UInt32) :
    consolePutc (s.prepend ws) c color = (consolePutc s c color).prepend ws := by
  have hwrap : (if (s.prepend ws).cursor ≥ CONSOLE_END then
      { s.prepend ws with cursor := CONSOLE_BEGIN } else s.prepend ws : Screen) =
        (if s.cursor ≥ CONSOLE_END then { s with cursor := CONSOLE_BEGIN } else s : Screen).prepend
          ws := by
    show (if s.cursor ≥ CONSOLE_END then _ else _) = _
    split <;> rfl
  unfold consolePutc
  dsimp only
  rw [hwrap]
  split
  · exact fillRow_prepend ws _ color _
  · exact Screen.store_prepend ws _ _

theorem play_prepend (emitted : Log) :
    play consolePutc (s.prepend ws) emitted = (play consolePutc s emitted).prepend ws := by
  induction emitted generalizing s with
  | nil => rfl
  | cons e emitted ih =>
    show play consolePutc (consolePutc (s.prepend ws) e.1 e.2) emitted = _
    rw [consolePutc_prepend, ih]
    rfl

end

theorem Printable.append {mem : Memory} {numbuf : UInt32} {str : UInt32 → List UInt8}
    {items items' : List Item} {args : List UInt32}
    (h : Printable mem numbuf str (items ++ items') args) :
    Printable mem numbuf str items args ∧
      Printable mem numbuf str items' (args.drop (vargsOf items)) := by
  induction items generalizing args with
  | nil => exact ⟨trivial, h⟩
  | cons item items ih =>
    rw [vargsOf_cons, ← List.drop_drop]
    cases item with
    | plain c => exact ih h
    | directive d =>
      obtain ⟨hargs, hstring, hfits, hrest⟩ := h
      exact ⟨⟨hargs, hstring, hfits, (ih hrest).1⟩, (ih hrest).2⟩

theorem colorAfter_append (items items' : List Item) (args : List UInt32) (color : UInt32) :
    colorAfter (items ++ items') args color =
      colorAfter items' (args.drop (vargsOf items)) (colorAfter items args color) := by
  induction items generalizing args color with
  | nil => rfl
  | cons item items ih =>
    rw [vargsOf_cons, ← List.drop_drop]
    cases item with
    | plain c => exact ih args color
    | directive d => exact ih _ _

theorem vargsOf_append (items items' : List Item) :
    vargsOf (items ++ items') = vargsOf items + vargsOf items' := by
  simp [vargsOf]

/-- **A format in two calls**: a format split between two of its parts prints in one call what its
halves print in two, the second one with the arguments, the color, the cursor and the memory that
the first one leaves. -/
theorem consoleVprintf_append (mem : Memory) (numbuf cursor color : UInt32) (args : List UInt32)
    (str : UInt32 → List UInt8) (items : List Item) (format : List UInt8) (hitems : Canonical items)
    (hclosed : ∀ d, .directive d ∈ items → d.conv ≠ 0)
    (h : Printable mem numbuf str (items ++ parse format) args) (n : Nat)
    (hn : (items.flatMap Item.spell ++ format).length < n) :
    ∃ st st1 st2,
      consoleVprintf n mem numbuf cursor color (items.flatMap Item.spell ++ format) args = .ok st ∧
      consoleVprintf n mem numbuf cursor color (items.flatMap Item.spell) args = .ok st1 ∧
      consoleVprintf n st1.mem numbuf st1.screen.cursor st1.color format st1.args = .ok st2 ∧
      st.screen.stores = st1.screen.stores ++ st2.screen.stores ∧
      st.screen.cursor = st2.screen.cursor ∧ st.args = st2.args ∧ st.color = st2.color := by
  rw [List.length_append] at hn
  have hnil : parse [] = [] := parse_end rfl
  have hfirst : parse (items.flatMap Item.spell) = items := by
    have hparse : parse (items.flatMap Item.spell ++ []) = items ++ parse [] :=
      parse_spell_append hitems (.inl rfl)
    rwa [List.append_nil, hnil, List.append_nil] at hparse
  have hboth : parse (items.flatMap Item.spell ++ format) = items ++ parse format :=
    parse_spell_append hitems (.inr hclosed)
  obtain ⟨h1, h2⟩ := h.append
  rw [← hfirst] at h1
  rw [← hboth] at h
  obtain ⟨st, hargs, hcolor, -, hrun⟩ := vprintf_render color (n := n) h
    (by rw [List.length_append]; exact hn)
  obtain ⟨st1, hargs1, hcolor1, hmem1, hrun1⟩ := vprintf_render color (n := n) h1
    (by omega)
  rw [hfirst] at hargs1 hcolor1 hrun1
  have h2 := h2.congr hmem1
  rw [← hargs1] at h2
  obtain ⟨st2, hargs2, hcolor2, -, hrun2⟩ := vprintf_render st1.color (n := n) h2
    (by omega)
  rw [hboth] at hargs hcolor hrun
  refine ⟨_, _, _, hrun consolePutc _, hrun1 consolePutc _, hrun2 consolePutc _, ?_⟩
  have hplay : ∀ emitted emitted' : Log,
      play consolePutc ⟨[], cursor⟩ (emitted ++ emitted') =
        (play consolePutc ⟨[], (play consolePutc ⟨[], cursor⟩ emitted).cursor⟩ emitted').prepend
          (play consolePutc ⟨[], cursor⟩ emitted).stores := by
    intro emitted emitted'
    rw [play_append, ← play_prepend]
    congr 1
    simp [Screen.prepend]
  have hcolors : st.color = st2.color := by
    rw [hcolor, hcolor2, colorAfter_append, ← hargs1, ← hcolor1]
  have hargs3 : st.args = st2.args := by
    rw [hargs, hargs2, hargs1, List.drop_drop, vargsOf_append]
  have hscreen : play consolePutc ⟨[], cursor⟩ (render str (items ++ parse format) args color) =
      (play consolePutc ⟨[], (play consolePutc ⟨[], cursor⟩ (render str items args color)).cursor⟩
        (render str (parse format) st1.args st1.color)).prepend
        (play consolePutc ⟨[], cursor⟩ (render str items args color)).stores := by
    rw [render_append, hplay, ← hargs1, ← hcolor1]
  exact ⟨congrArg Screen.stores hscreen, (congrArg Screen.cursor hscreen).trans rfl, hargs3, hcolors⟩

/-- "%Ca" and then "b", in the color that "%C" sets. -/
theorem consoleVprintf_append_color : ∃ st st1 st2,
    consoleVprintf 5 (fun _ => 0) 0x1000 CONSOLE_BEGIN 0x700 (bytesOf "%Cab") [0x100] = .ok st ∧
    consoleVprintf 5 (fun _ => 0) 0x1000 CONSOLE_BEGIN 0x700 (bytesOf "%Ca") [0x100] = .ok st1 ∧
    consoleVprintf 5 st1.mem 0x1000 st1.screen.cursor st1.color (bytesOf "b") st1.args = .ok st2 ∧
    st.screen.stores = st1.screen.stores ++ st2.screen.stores ∧
    st.screen.cursor = st2.screen.cursor ∧ st.args = st2.args ∧ st.color = st2.color := by
  have hb : parse (bytesOf "b") = [.plain 'b'.toUInt8] := by
    show parse ('b'.toUInt8 :: []) = _
    rw [parse_plain _ (by decide) (by decide), parse_end rfl]
  have hcanonical : (⟨[], .absent, none, 'C'.toUInt8⟩ : Directive).Canonical := by
    refine ⟨nofun, trivial, nofun, fun _ => ⟨by decide, ?_, fun _ => by decide⟩⟩
    rintro (h | h)
    · exact absurd h.2 (by decide)
    · exact absurd h (by decide)
  refine consoleVprintf_append _ _ _ _ _ (fun _ => [])
    [.directive ⟨[], .absent, none, 'C'.toUInt8⟩, .plain 'a'.toUInt8] (bytesOf "b")
    ⟨hcanonical, fun h => absurd h (by decide), by decide, by decide, trivial⟩ ?_ ?_ 5 (by decide)
  · intro d hd
    obtain rfl : d = ⟨[], .absent, none, 'C'.toUInt8⟩ := by simpa using hd
    decide
  · rw [hb]
    exact ⟨by decide, fun h => absurd h (by decide), fun h => absurd rfl h, trivial⟩

end SchedOS
