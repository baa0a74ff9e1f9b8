import SchedOS.Console.Proof.Cells
import SchedOS.Console.Proof.FieldLaw

/-!
# What a format means

`render` is the meaning of a format: its characters in the color set last and, for each directive,
the field of its argument's text, laid out in exact arithmetic. `console_vprintf` prints it if the
arguments are there, no `int` overflows and no string is in `numbuf` (`Printable`): pass by pass, the
rest of the format has the meaning that is left (`run_render`).
-/

namespace SchedOS

/-! ## The meaning -/

/-- The text of a directive's argument, `str` being the strings by their addresses. -/
def Directive.textOf (d : Directive) (str : UInt32 → List UInt8) (args : List UInt32) : List UInt8 :=
  match radix d.conv with
  | some (base, table) =>
    numberText base.toNat table (d.precisionValue args) (magnitude d.conv (d.arg args))
  | none =>
    if d.conv = 's'.toUInt8 then str (d.arg args)
    else if d.conv = 'c'.toUInt8 then charText (d.arg args).toUInt8
    else charText (if d.conv = 0 then '%'.toUInt8 else d.conv)

/-- The characters of a directive that prints some. -/
def Directive.render (d : Directive) (str : UInt32 → List UInt8) (args : List UInt32) : List UInt8 :=
  (d.layout args (d.textOf str args)).chars (d.textOf str args)

/-- The characters of a format, each with its color. -/
def render (str : UInt32 → List UInt8) : List Item → List UInt32 → UInt32 → Log
  | [], _, _ => []
  | .plain c :: items, args, color => (c, color) :: render str items args color
  | .directive d :: items, args, color =>
    if d.conv = 'C'.toUInt8 then render str items (args.drop d.vargs) (d.arg args)
    else (d.render str args).map (fun c => (c, color)) ++
      render str items (args.drop d.vargs) color

/-- The color after a format. -/
def colorAfter : List Item → List UInt32 → UInt32 → UInt32
  | [], _, color => color
  | .plain _ :: items, args, color => colorAfter items args color
  | .directive d :: items, args, color =>
    colorAfter items (args.drop d.vargs) (if d.conv = 'C'.toUInt8 then d.arg args else color)

/-- Two formats one after the other. -/
theorem render_append (str : UInt32 → List UInt8) (items items' : List Item) (args : List UInt32)
    (color : UInt32) : render str (items ++ items') args color = render str items args color ++
      render str items' (args.drop (vargsOf items)) (colorAfter items args color) := by
  induction items generalizing args color with
  | nil => rfl
  | cons item items ih =>
    rw [vargsOf_cons, ← List.drop_drop]
    cases item with
    | plain c =>
      simp only [List.cons_append, render, colorAfter, ih, Item.vargs, List.drop_zero]
    | directive d =>
      simp only [List.cons_append, render, colorAfter, ih, Item.vargs]
      split
      · rfl
      · rw [List.append_assoc]

/-! ## What the arguments have to be -/

/-- The string at an address as far as it is printed, outside of `numbuf`. -/
structure StringArg (mem : Memory) (numbuf s : UInt32) (precision : Int) (text : List UInt8) :
    Prop where
  reads : ∀ i, i < text.length → mem (s + UInt32.ofNat i) = text.getD i 0 ∧
    NUMBUFSIZ.toNat ≤ (s + UInt32.ofNat i - numbuf).toNat
  noNul : 0 ∉ text
  stop : (mem (s + UInt32.ofNat text.length) = 0 ∧
      NUMBUFSIZ.toNat ≤ (s + UInt32.ofNat text.length - numbuf).toNat) ∨
    0 ≤ precision ∧ precision ≤ text.length

/-- The arguments can be printed: there are enough of them, the strings are outside of `numbuf` and
no `int` overflows. -/
def Printable (mem : Memory) (numbuf : UInt32) (str : UInt32 → List UInt8) :
    List Item → List UInt32 → Prop
  | [], _ => True
  | .plain _ :: items, args => Printable mem numbuf str items args
  | .directive d :: items, args => d.vargs ≤ args.length ∧
      (d.conv = 's'.toUInt8 →
        StringArg mem numbuf (d.arg args) (d.precisionValue args) (str (d.arg args))) ∧
      (d.conv ≠ 'C'.toUInt8 → d.NoOverflow args (d.textOf str args)) ∧
      Printable mem numbuf str items (args.drop d.vargs)

section
variable {mem mem' : Memory} {numbuf : UInt32} {str : UInt32 → List UInt8}

theorem StringArg.prints {s : UInt32} {precision : Int} {text : List UInt8}
    (h : StringArg mem numbuf s precision text) : Prints mem s precision text :=
  ⟨fun i hi => (h.reads i hi).1, h.noNul, h.stop.imp_left And.left⟩

theorem StringArg.congr (hmem : ∀ x, NUMBUFSIZ.toNat ≤ (x - numbuf).toNat → mem' x = mem x)
    {s : UInt32} {precision : Int} {text : List UInt8} (h : StringArg mem numbuf s precision text) :
    StringArg mem' numbuf s precision text := by
  refine ⟨fun i hi => ?_, h.noNul, h.stop.imp_left fun hstop => ?_⟩
  · obtain ⟨hread, hout⟩ := h.reads i hi
    exact ⟨(hmem _ hout).trans hread, hout⟩
  · exact ⟨(hmem _ hstop.2).trans hstop.1, hstop.2⟩

theorem Printable.congr (hmem : ∀ x, NUMBUFSIZ.toNat ≤ (x - numbuf).toNat → mem' x = mem x)
    {items : List Item} {args : List UInt32} (h : Printable mem numbuf str items args) :
    Printable mem' numbuf str items args := by
  induction items generalizing args with
  | nil => trivial
  | cons item items ih =>
    cases item with
    | plain c => exact ih h
    | directive d =>
      obtain ⟨hargs, hstring, hfits, hrest⟩ := h
      exact ⟨hargs, fun hs => (hstring hs).congr hmem, hfits, ih hrest⟩

/-- The argument is converted to the text that it means. -/
theorem Directive.text_textOf {d : Directive} {args : List UInt32}
    (hstring : d.conv = 's'.toUInt8 →
      StringArg mem numbuf (d.arg args) (d.precisionValue args) (str (d.arg args)))
    (hfits : d.NoOverflow args (d.textOf str args)) : d.Text mem args (d.textOf str args) := by
  have hprecision := hfits.precisionOf_eq
  unfold Directive.Text Directive.textOf
  rw [hprecision]
  cases hradix : radix d.conv with
  | some r => rfl
  | none =>
    dsimp only
    by_cases hs : d.conv = 's'.toUInt8
    · simp only [if_pos hs]
      exact (hstring hs).prints
    · simp only [if_neg hs]
      by_cases hc : d.conv = 'c'.toUInt8
      · simp only [if_pos hc]
      · simp only [if_neg hc]

end

/-! ## The code -/

/-- From `st` on the loop prints `emitted` with every `console_putc`, and leaves `args` and `color`,
and memory outside of `numbuf` as it was. -/
def RunsTo (format : List UInt8) (numbuf : UInt32) (n : Nat) (st : Printer Unit) (emitted : Log)
    (args : List UInt32) (color : UInt32) : Prop :=
  ∃ st' : Printer Unit, st'.args = args ∧ st'.color = color ∧
    (∀ x, NUMBUFSIZ.toNat ≤ (x - numbuf).toNat → st'.mem x = st.mem x) ∧
    ∀ {σ : Type} (putc : σ → UInt8 → UInt32 → σ) (s : σ),
      Loop.run (vprintfPass putc format numbuf) n (st.on s) =
        some (.ok (st'.on (play putc s emitted)))

section
variable {format : List UInt8} {numbuf : UInt32} {str : UInt32 → List UInt8} {n : Nat}

theorem RunsTo.cons {rest : List UInt8} {st st1 : Printer Unit} {k : Nat} (cs : Log) {emitted : Log}
    {args : List UInt32} {color : UInt32} (hpassed : Passed format rest numbuf st st1 k)
    (hpass : ∀ {σ : Type} (putc : σ → UInt8 → UInt32 → σ) (s : σ),
      vprintfPass putc format numbuf (st.on s) = .inl (st1.on (play putc s cs)))
    (h : RunsTo format numbuf n st1 emitted args color) :
    RunsTo format numbuf (n + 1) st (cs ++ emitted) args color := by
  obtain ⟨st', hargs, hcolor, hmem, hrun⟩ := h
  refine ⟨st', hargs, hcolor, fun x hx => (hmem x hx).trans (hpassed.outside x hx),
    fun putc s => ?_⟩
  rw [Loop.run_succ_inl (hpass putc s), hrun, play_append]

/-- The loop prints what is left of the format. -/
theorem run_render {rest : List UInt8} {st : Printer Unit} (hat : At format st.i rest)
    (hn : rest.length < n) (h : Printable st.mem numbuf str (parse rest) st.args) :
    RunsTo format numbuf n st (render str (parse rest) st.args st.color)
      (st.args.drop (vargsOf (parse rest))) (colorAfter (parse rest) st.args st.color) := by
  induction n generalizing rest st with
  | zero => exact absurd hn (Nat.not_lt_zero _)
  | succ n ih =>
    by_cases h0 : rest.headD 0 = 0
    · rw [parse_end h0]
      exact ⟨st, rfl, rfl, fun _ _ => rfl, fun putc s => Loop.run_succ_inr (pass_end hat h0 putc s)⟩
    · -- the rest of the format after a pass
      have next : ∀ {rest' : List UInt8} {st1 : Printer Unit} {k : Nat}, rest'.length < n →
          Printable st.mem numbuf str (parse rest') (st.args.drop k) →
          Passed format rest' numbuf st st1 k →
          RunsTo format numbuf n st1 (render str (parse rest') (st.args.drop k) st1.color)
            (st.args.drop (k + vargsOf (parse rest')))
            (colorAfter (parse rest') (st.args.drop k) st1.color) := by
        intro rest' st1 k hlen hrest hpassed
        have hargs := hpassed.args
        rw [← List.drop_drop, ← hargs]
        rw [← hargs] at hrest
        exact ih hpassed.at_rest hlen (hrest.congr hpassed.outside)
      cases rest with
      | nil => exact absurd rfl h0
      | cons c rest =>
        rw [List.length_cons] at hn
        by_cases hc : c = '%'.toUInt8
        · subst hc
          have hlen := length_parseDirective rest
          rw [parse_directive] at h ⊢
          obtain ⟨hargs, hstring, hfits, hrest⟩ := h
          rw [vargsOf_cons, render, colorAfter]
          by_cases hC : (parseDirective rest).1.conv = 'C'.toUInt8
          · obtain ⟨st1, hpassed, hcolor, hpass⟩ := pass_color numbuf hat hC hargs
            have hrun := next (by omega) hrest hpassed
            rw [hcolor] at hrun
            rw [if_pos hC, if_pos hC]
            exact .cons [] hpassed hpass hrun
          · have htext := Directive.text_textOf hstring (hfits hC)
            obtain ⟨st1, hpassed, hcolor, hpass⟩ := pass_field numbuf hat hC hargs htext
            have hrun := next (by omega) hrest hpassed
            rw [hcolor] at hrun
            rw [if_neg hC, if_neg hC]
            refine .cons _ hpassed (fun putc s => ?_) hrun
            rw [hpass, (hfits hC).field_eq_layout, putAll_eq_play]
            rfl
        · have h0 : c ≠ 0 := h0
          rw [parse_plain rest h0 hc] at h ⊢
          obtain ⟨st1, hpassed, hcolor, hpass⟩ := pass_plain numbuf hat h0 hc
          have hrest : Printable st.mem numbuf str (parse rest) (st.args.drop 0) := h
          have hrun := next (by omega) hrest hpassed
          rw [hcolor] at hrun
          rw [vargsOf_cons, render, colorAfter]
          exact .cons [(c, st.color)] hpassed hpass hrun

/-- What a whole call does, with every `console_putc`. -/
theorem vprintf_render {mem : Memory} (color : UInt32) {args : List UInt32}
    (h : Printable mem numbuf str (parse format) args) (hn : format.length < n) :
    ∃ st' : Printer Unit, st'.args = args.drop (vargsOf (parse format)) ∧
      st'.color = colorAfter (parse format) args color ∧
      (∀ x, NUMBUFSIZ.toNat ≤ (x - numbuf).toNat → st'.mem x = mem x) ∧
      ∀ {σ : Type} (putc : σ → UInt8 → UInt32 → σ) (s : σ),
        vprintf putc format numbuf n { screen := s, color, mem, args, i := 0 } =
          .ok (st'.on (play putc s (render str (parse format) args color))) := by
  obtain ⟨st', hargs, hcolor, hmem, hrun⟩ := @run_render format numbuf str n format
    ⟨(), color, mem, args, 0⟩ (At.start format) hn h
  refine ⟨st', hargs, hcolor, hmem, fun putc s => ?_⟩
  have hloop := hrun putc s
  unfold vprintf
  rw [show ({ screen := s, color, mem, args, i := 0 } : Printer _) =
    (⟨(), color, mem, args, 0⟩ : Printer Unit).on s from rfl, hloop]
  rfl

end

/-- **`console_vprintf` prints what the format means**: from a cursor on the screen or at its end it
stores the rendering of the format to consecutive cells of the screen, wherever the format is cut
off and whatever its directives are, and it has taken the arguments of the format. -/
theorem consoleVprintf_renders (mem : Memory) (numbuf color : UInt32) (format : List UInt8)
    (args : List UInt32) (str : UInt32 → List UInt8)
    (h : Printable mem numbuf str (parse format) args) (k : Nat) (hk : k ≤ CONSOLE_CELLS) (n : Nat)
    (hn : format.length < n) :
    ∃ st q, consoleVprintf n mem numbuf (cell k) color format args = .ok st ∧
      vprintf logPutc format numbuf n { screen := [], color, mem, args, i := 0 } =
        .ok { st with screen := render str (parse format) args color } ∧
      st.args = args.drop (vargsOf (parse format)) ∧ q ≤ CONSOLE_CELLS ∧
      st.screen.Holds k (typedAll k (render str (parse format) args color)) q := by
  obtain ⟨st', hargs, -, -, hrun⟩ := vprintf_render color h hn
  have hstart : ({ stores := [], cursor := cell k } : Screen).Holds k [] k := ⟨rfl, rfl, rfl⟩
  obtain ⟨q, hq, hholds⟩ := play_holds hstart hk (render str (parse format) args color)
  rw [List.nil_append, List.length_nil, Nat.add_zero] at hholds
  refine ⟨_, q, hrun consolePutc _, ?_, hargs, hq, hholds⟩
  rw [hrun, play_logPutc]
  rfl

/-- "%s%+4d" of a string and 42. -/
theorem consoleVprintf_renders_signed : ∃ st q,
    consoleVprintf 7 (Function.update (fun _ => 0) 0x2000 'x'.toUInt8) 0x1000 (cell 0) 0x700
      (bytesOf "%s%+4d") [0x2000, 42] = .ok st ∧
      st.screen.Holds 0 (typedAll 0 ((bytesOf "x +42").map fun c => (c, 0x700))) q := by
  have hs : parseDirective (bytesOf "s%+4d") = (⟨[], .absent, none, 's'.toUInt8⟩, bytesOf "%+4d") := by
    decide
  have hd : parseDirective (bytesOf "+4d") =
      (⟨bytesOf "+", .number (bytesOf "4"), none, 'd'.toUInt8⟩, []) := by decide
  have hparse : parse (bytesOf "%s%+4d") = [.directive ⟨[], .absent, none, 's'.toUInt8⟩,
      .directive ⟨bytesOf "+", .number (bytesOf "4"), none, 'd'.toUInt8⟩] := by
    show parse ('%'.toUInt8 :: bytesOf "s%+4d") = _
    rw [parse_directive, hs]
    show _ :: parse ('%'.toUInt8 :: bytesOf "+4d") = _
    rw [parse_directive, hd, parse_end rfl]
  have hprintable : Printable (Function.update (fun _ => 0) 0x2000 'x'.toUInt8) 0x1000
      (fun _ => bytesOf "x") (parse (bytesOf "%s%+4d")) [0x2000, 42] := by
    rw [hparse]
    refine ⟨by decide, fun _ => ⟨by decide, by decide, .inl ⟨by decide, by decide⟩⟩, fun _ => ?_,
      by decide, fun h => absurd h (by decide), fun _ => ?_, trivial⟩
    · exact ⟨by decide, nofun, by decide, by decide⟩
    · exact ⟨by decide, nofun, by decide, by decide⟩
  obtain ⟨st, q, hst, -, -, -, hholds⟩ := consoleVprintf_renders _ _ 0x700 _ _ _ hprintable 0
    (Nat.zero_le _) 7 (by decide)
  have hrender : render (fun _ => bytesOf "x") (parse (bytesOf "%s%+4d")) [0x2000, 42] 0x700 =
      (bytesOf "x +42").map fun c => (c, 0x700) := by
    rw [hparse]
    decide
  rw [hrender] at hholds
  exact ⟨st, q, hst, hholds⟩

end SchedOS
