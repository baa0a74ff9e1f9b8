import SchedOS.Console.Proof.Field

/-!
# Runs of `console_vprintf`

A pass takes the first part of what is left of the format, and leaves the rest of it and of the
arguments, which match it too (`Matches.congr`). So the loop ends after at most one pass more than
the format has characters, at the NUL (`runs_of_matches`, `consoleVprintf_ends`), although a directive that
the NUL cuts off steps back in the format.
-/

namespace SchedOS

/-! ## Arguments that match -/

section
variable {mem mem' : Memory} {numbuf : UInt32}

theorem Matches.congr (hmem : ∀ x, NUMBUFSIZ.toNat ≤ (x - numbuf).toNat → mem' x = mem x)
    {items : List Item} {args : List UInt32} (h : Matches mem numbuf items args) :
    Matches mem' numbuf items args := by
  induction items generalizing args with
  | nil => trivial
  | cons item items ih =>
    cases item with
    | plain c => exact ih h
    | directive d =>
      obtain ⟨hargs, hstring, hrest⟩ := h
      refine ⟨hargs, fun hs hp => ?_, ih hrest⟩
      obtain ⟨n, hn, hnul, houtside⟩ := hstring hs hp
      exact ⟨n, hn, (hmem _ houtside).trans hnul, houtside⟩

theorem Directive.precisionOf_nonneg {d : Directive} (h : d.precision ≠ none) (args : List UInt32) :
    0 ≤ d.precisionOf args := by
  obtain ⟨c, hc⟩ := Option.ne_none_iff_exists'.1 h
  unfold Directive.precisionOf
  rw [hc]
  exact le_max_left _ _

/-- Matching arguments are converted to a text. -/
theorem Directive.exists_text {d : Directive} {args : List UInt32}
    (h : d.conv = 's'.toUInt8 → d.precision = none → Terminated mem numbuf (d.arg args)) :
    ∃ text, d.Text mem args text := by
  unfold Directive.Text
  cases radix d.conv with
  | some r => exact ⟨_, rfl⟩
  | none =>
    dsimp only
    by_cases hs : d.conv = 's'.toUInt8
    · simp only [if_pos hs]
      by_cases hp : d.precision = none
      · obtain ⟨n, -, hnul, -⟩ := h hs hp
        exact exists_prints _ n (.inl hnul)
      · have hnonneg := d.precisionOf_nonneg hp args
        exact exists_prints _ (d.precisionOf args).toNat (.inr ⟨hnonneg, by omega⟩)
    · simp only [if_neg hs]
      by_cases hc : d.conv = 'c'.toUInt8
      · simp only [if_pos hc]
        exact ⟨_, rfl⟩
      · simp only [if_neg hc]
        exact ⟨_, rfl⟩

end

/-! ## The parts of a format -/

theorem parse_end {rest : List UInt8} (h : rest.headD 0 = 0) : parse rest = [] := by
  cases rest with
  | nil => rw [parse]
  | cons c rest => rw [parse, if_pos (show c = 0 from h)]

theorem parse_plain {c : UInt8} (rest : List UInt8) (h0 : c ≠ 0) (hc : c ≠ '%'.toUInt8) :
    parse (c :: rest) = .plain c :: parse rest := by
  rw [parse, if_neg h0, if_pos hc]

theorem parse_directive (rest : List UInt8) : parse ('%'.toUInt8 :: rest) =
    .directive (parseDirective rest).1 :: parse (parseDirective rest).2 := by
  rw [parse, if_neg (by decide), if_neg (not_not.2 rfl)]

theorem vargsOf_cons (item : Item) (items : List Item) :
    vargsOf (item :: items) = item.vargs + vargsOf items := List.sum_cons

/-! ## The loop -/

/-- Characters with their colors, one after the other. -/
def play {σ : Type} (putc : σ → UInt8 → UInt32 → σ) (s : σ) (emitted : List (UInt8 × UInt32)) : σ :=
  emitted.foldl (fun s e => putc s e.1 e.2) s

theorem play_append {σ : Type} (putc : σ → UInt8 → UInt32 → σ) (s : σ)
    (emitted emitted' : List (UInt8 × UInt32)) :
    play putc s (emitted ++ emitted') = play putc (play putc s emitted) emitted' := List.foldl_append

theorem putAll_eq_play {σ : Type} (putc : σ → UInt8 → UInt32 → σ) (color : UInt32) (s : σ)
    (cs : List UInt8) : putAll putc color s cs = play putc s (cs.map fun c => (c, color)) := by
  unfold putAll play
  rw [List.foldl_map]

/-- What a `console_putc` notes: characters and colors. -/
abbrev Log := List (UInt8 × UInt32)

def logPutc (log : Log) (c : UInt8) (color : UInt32) : Log := log ++ [(c, color)]

theorem play_logPutc (log emitted : Log) : play logPutc log emitted = log ++ emitted := by
  induction emitted generalizing log with
  | nil => exact (List.append_nil log).symm
  | cons e emitted ih =>
    rw [List.append_cons]
    exact ih _

/-- From `st` on, where `rest` is left of the format, the loop ends in `n` passes. It takes the
arguments of `rest` and prints the same characters with every `console_putc`. -/
def Runs (format : List UInt8) (numbuf : UInt32) (n : Nat) (rest : List UInt8) (st : Printer Unit) :
    Prop :=
  vargsOf (parse rest) ≤ st.args.length ∧
    ∃ (emitted : List (UInt8 × UInt32)) (st' : Printer Unit),
      st'.args = st.args.drop (vargsOf (parse rest)) ∧
      ∀ {σ : Type} (putc : σ → UInt8 → UInt32 → σ) (s : σ),
        Loop.run (vprintfPass putc format numbuf) n (st.on s) =
          some (.ok (st'.on (play putc s emitted)))

section
variable {format : List UInt8} {numbuf : UInt32} {n : Nat}

/-- A pass for the first part of the format, and a run for the rest. -/
theorem Runs.cons {rest rest' : List UInt8} {item : Item} {st st1 : Printer Unit}
    (cs : List (UInt8 × UInt32)) (hparse : parse rest = item :: parse rest')
    (hitem : item.vargs ≤ st.args.length) (hpassed : Passed format rest' numbuf st st1 item.vargs)
    (hpass : ∀ {σ : Type} (putc : σ → UInt8 → UInt32 → σ) (s : σ),
      vprintfPass putc format numbuf (st.on s) = .inl (st1.on (play putc s cs)))
    (h : Runs format numbuf n rest' st1) : Runs format numbuf (n + 1) rest st := by
  obtain ⟨hargs, emitted, st', hst', hrun⟩ := h
  rw [hpassed.args] at hargs hst'
  rw [List.length_drop] at hargs
  unfold Runs
  rw [hparse, vargsOf_cons]
  refine ⟨by omega, cs ++ emitted, st', by rw [hst', List.drop_drop], fun putc s => ?_⟩
  rw [Loop.run_succ_inl (hpass putc s), hrun, play_append]

theorem runs_of_matches {rest : List UInt8} {st : Printer Unit} (hat : At format st.i rest)
    (hn : rest.length < n) (h : Matches st.mem numbuf (parse rest) st.args) :
    Runs format numbuf n rest st := by
  induction n generalizing rest st with
  | zero => exact absurd hn (Nat.not_lt_zero _)
  | succ n ih =>
    by_cases h0 : rest.headD 0 = 0
    · unfold Runs
      rw [parse_end h0]
      exact ⟨Nat.zero_le _, [], st, rfl, fun putc s => Loop.run_succ_inr (pass_end hat h0 putc s)⟩
    · -- what is left after a pass, and its arguments
      have next : ∀ {rest' : List UInt8} {st1 : Printer Unit} {k : Nat}, rest'.length < n →
          Matches st.mem numbuf (parse rest') (st.args.drop k) →
          Passed format rest' numbuf st st1 k → Runs format numbuf n rest' st1 := by
        intro rest' st1 k hlen hrest hpassed
        refine ih hpassed.at_rest hlen ?_
        rw [hpassed.args]
        exact hrest.congr hpassed.outside
      cases rest with
      | nil => exact absurd rfl h0
      | cons c rest =>
        rw [List.length_cons] at hn
        by_cases hc : c = '%'.toUInt8
        · subst hc
          have hlen := length_parseDirective rest
          rw [parse_directive] at h
          obtain ⟨hargs, hstring, hrest⟩ := h
          by_cases hC : (parseDirective rest).1.conv = 'C'.toUInt8
          · obtain ⟨st1, hpassed, -, hpass⟩ := pass_color numbuf hat hC hargs
            exact .cons [] (parse_directive rest) hargs hpassed hpass
              (next (by omega) hrest hpassed)
          · obtain ⟨text, htext⟩ := Directive.exists_text hstring
            obtain ⟨st1, hpassed, -, hpass⟩ := pass_field numbuf hat hC hargs htext
            refine .cons ((((parseDirective rest).1.field st.args text).chars text).map fun c =>
              (c, st.color)) (parse_directive rest) hargs hpassed (fun putc s => ?_)
              (next (by omega) hrest hpassed)
            rw [hpass, putAll_eq_play]
        · have h0 : c ≠ 0 := h0
          rw [parse_plain rest h0 hc] at h
          have hrest : Matches st.mem numbuf (parse rest) (st.args.drop 0) := h
          obtain ⟨st1, hpassed, -, hpass⟩ := pass_plain numbuf hat h0 hc
          refine .cons [(c, st.color)] (parse_plain rest h0 hc) (Nat.zero_le _) hpassed
            (fun putc s => ?_) (next (by omega) hrest hpassed)
          exact hpass putc s

end

/-! ## `console_vprintf` -/

/-- A call that ends has put characters on the screen one after the other. -/
theorem vprintf_plays {mem : Memory} {numbuf : UInt32} (color : UInt32) {format : List UInt8}
    {args : List UInt32} (h : Matches mem numbuf (parse format) args) {n : Nat}
    (hn : format.length < n) :
    vargsOf (parse format) ≤ args.length ∧
      ∃ (emitted : List (UInt8 × UInt32)) (st' : Printer Unit),
        st'.args = args.drop (vargsOf (parse format)) ∧
        ∀ {σ : Type} (putc : σ → UInt8 → UInt32 → σ) (s : σ),
          vprintf putc format numbuf n { screen := s, color, mem, args, i := 0 } =
            .ok (st'.on (play putc s emitted)) := by
  obtain ⟨hargs, emitted, st', hst', hrun⟩ := @runs_of_matches format numbuf n format
    ⟨(), color, mem, args, 0⟩ (At.start format) hn h
  refine ⟨hargs, emitted, st', hst', fun putc s => ?_⟩
  have hloop := hrun putc s
  unfold vprintf
  rw [show ({ screen := s, color, mem, args, i := 0 } : Printer _) =
    (⟨(), color, mem, args, 0⟩ : Printer Unit).on s from rfl, hloop]
  rfl

/-- **Malformed formats**: with arguments that match the format, however its directives are cut off,
`console_vprintf` ends without reading behind the NUL, and it has taken one argument for each `*` and
each of the conversions that have one. -/
theorem consoleVprintf_ends (mem : Memory) (numbuf cursor color : UInt32) (format : List UInt8)
    (args : List UInt32) (h : Matches mem numbuf (parse format) args) (n : Nat)
    (hn : format.length < n) :
    ∃ st, consoleVprintf n mem numbuf cursor color format args = .ok st ∧
      st.args = args.drop (vargsOf (parse format)) ∧
      st.args.length + vargsOf (parse format) = args.length := by
  obtain ⟨hargs, emitted, st', hst', hrun⟩ := vprintf_plays color h hn
  refine ⟨_, hrun consolePutc _, hst', ?_⟩
  show st'.args.length + _ = _
  rw [hst', List.length_drop, Nat.sub_add_cancel hargs]

/-- "%-*" takes the width and prints the '%' that is cut off. -/
theorem consoleVprintf_ends_cutOff : parse (bytesOf "%-*") =
      [.directive { flags := bytesOf "-", width := .star, precision := none, conv := 0 }] ∧
    ∃ st, consoleVprintf 4 (fun _ => 0) 0x1000 CONSOLE_BEGIN 0x700 (bytesOf "%-*") [3] = .ok st ∧
      st.args = [] := by
  have hparse : parse (bytesOf "%-*") =
      [.directive { flags := bytesOf "-", width := .star, precision := none, conv := 0 }] := by
    show parse ('%'.toUInt8 :: bytesOf "-*") = _
    rw [parse_directive, parse_end (by decide)]
    decide
  refine ⟨hparse, ?_⟩
  obtain ⟨st, hrun, hargs, -⟩ := consoleVprintf_ends (fun _ => 0) 0x1000 CONSOLE_BEGIN 0x700
    (bytesOf "%-*") [3] (by rw [hparse]; exact ⟨by decide, fun h => absurd h (by decide), trivial⟩) 4
    (by decide)
  exact ⟨st, hrun, by rw [hargs, hparse]; rfl⟩

end SchedOS
