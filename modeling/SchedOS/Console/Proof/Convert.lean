import SchedOS.Console.Proof.Numbuf
import SchedOS.Console.Proof.Parse

/-!
# Converting an argument

`strlen` and `strnlen` measure what is printed of a string (`strnlen_eq`, `strlen_eq`), and there is
such a text if the string has a NUL or a precision is given (`exists_prints`). Every conversion
leaves its text in memory for them and changes nothing outside of `numbuf` (`convert_eq`).
-/

namespace SchedOS

/-! ## Strings -/

section
variable {mem : Memory} {s : UInt32} {text : List UInt8}

theorem ofNat_succ (s : UInt32) (i : Nat) : s + UInt32.ofNat (i + 1) = s + 1 + UInt32.ofNat i := by
  rw [UInt32.ofNat_add, show UInt32.ofNat 1 = 1 from rfl]
  grind

theorem add_ofNat_zero (s : UInt32) : s + UInt32.ofNat 0 = s := UInt32.add_zero s

theorem reads_cons {c : UInt8}
    (h : ∀ i, i < (c :: text).length → mem (s + UInt32.ofNat i) = (c :: text).getD i 0) :
    mem s = c ∧ ∀ i, i < text.length → mem (s + 1 + UInt32.ofNat i) = text.getD i 0 := by
  constructor
  · have hzero := h 0 (Nat.succ_pos _)
    rwa [add_ofNat_zero] at hzero
  · intro i hi
    rw [← ofNat_succ]
    exact h (i + 1) (Nat.succ_lt_succ hi)

theorem strnlen_eq (hreads : ∀ i, i < text.length → mem (s + UInt32.ofNat i) = text.getD i 0)
    (hnul : 0 ∉ text) {k : Nat} (hstop : mem (s + UInt32.ofNat text.length) = 0 ∨ k ≤ text.length) :
    strnlen mem s k = min text.length k := by
  induction k generalizing s text with
  | zero => exact (Nat.min_zero _).symm
  | succ k ih =>
    unfold strnlen
    cases text with
    | nil =>
      have hzero : mem s = 0 := by
        rcases hstop with hzero | hle
        · rwa [List.length_nil, add_ofNat_zero] at hzero
        · exact absurd hle (Nat.not_succ_le_zero k)
      rw [if_neg (not_not.2 hzero), List.length_nil, Nat.zero_min]
    | cons c text =>
      obtain ⟨hc, hrest⟩ := reads_cons hreads
      have hne : mem s ≠ 0 := by
        rw [hc]
        exact fun h0 => hnul (h0 ▸ List.mem_cons_self)
      rw [if_pos hne, ih hrest (fun h0 => hnul (List.mem_cons_of_mem _ h0)) (by
        rw [← ofNat_succ]
        exact hstop.imp_right Nat.le_of_succ_le_succ), List.length_cons, Nat.succ_min_succ]

/-- The passes of `strlen`. -/
theorem strlen_run (hreads : ∀ i, i < text.length → mem (s + UInt32.ofNat i) = text.getD i 0)
    (hnul : 0 ∉ text) (hstop : mem (s + UInt32.ofNat text.length) = 0) {n : Nat}
    (hn : text.length < n) (m : Nat) :
    Loop.run (strlenPass mem) n (s, m) = some (m + text.length) := by
  induction text generalizing s n m with
  | nil =>
    obtain ⟨n, rfl⟩ : ∃ k, n = k + 1 := ⟨n - 1, by rw [List.length_nil] at hn; omega⟩
    rw [List.length_nil, add_ofNat_zero] at hstop
    exact Loop.run_succ_inr (if_neg (not_not.2 hstop))
  | cons c text ih =>
    rw [List.length_cons] at hn
    obtain ⟨n, rfl⟩ : ∃ k, n = k + 1 := ⟨n - 1, by omega⟩
    obtain ⟨hc, hrest⟩ := reads_cons hreads
    have hne : mem s ≠ 0 := by
      rw [hc]
      exact fun h0 => hnul (h0 ▸ List.mem_cons_self)
    have hpass : strlenPass mem (s, m) = .inl (s + 1, m + 1) := if_pos hne
    rw [Loop.run_succ_inl hpass, ih hrest (fun h0 => hnul (List.mem_cons_of_mem _ h0)) (by
      rwa [← ofNat_succ]) (by omega), List.length_cons]
    congr 1
    omega

/-- A text without a NUL is not longer than memory. -/
theorem length_lt_of_reads (hreads : ∀ i, i < text.length → mem (s + UInt32.ofNat i) = text.getD i 0)
    (hnul : 0 ∉ text) (hstop : mem (s + UInt32.ofNat text.length) = 0) : text.length < 2 ^ 32 := by
  by_contra hge
  have hmod : text.length % 2 ^ 32 < text.length := by omega
  have haddr : UInt32.ofNat (text.length % 2 ^ 32) = UInt32.ofNat text.length := by
    apply UInt32.toNat_inj.1
    rw [UInt32.toNat_ofNat', UInt32.toNat_ofNat', Nat.mod_mod]
  have hread := hreads _ hmod
  rw [haddr, hstop, List.getD_eq_getElem?_getD, List.getElem?_eq_getElem hmod] at hread
  exact hnul (hread ▸ List.getElem_mem hmod)

theorem strlen_eq (hreads : ∀ i, i < text.length → mem (s + UInt32.ofNat i) = text.getD i 0)
    (hnul : 0 ∉ text) (hstop : mem (s + UInt32.ofNat text.length) = 0) :
    strlen mem s = .ok text.length := by
  have hlen : text.length < 0x100000000 := length_lt_of_reads hreads hnul hstop
  unfold strlen
  rw [strlen_run hreads hnul hstop hlen 0, Nat.zero_add]

/-- There is something to print if a NUL comes or the precision ends it. -/
theorem exists_prints (precision : Int) (n : Nat)
    (h : mem (s + UInt32.ofNat n) = 0 ∨ 0 ≤ precision ∧ precision ≤ n) :
    ∃ text, Prints mem s precision text := by
  induction n generalizing s precision with
  | zero => exact ⟨[], fun i hi => absurd hi (Nat.not_lt_zero i), List.not_mem_nil, h⟩
  | succ n ih =>
    by_cases hzero : mem s = 0
    · exact ⟨[], fun i hi => absurd hi (Nat.not_lt_zero i), List.not_mem_nil,
        .inl (by rwa [List.length_nil, add_ofNat_zero])⟩
    · by_cases hp : precision = 0
      · exact ⟨[], fun i hi => absurd hi (Nat.not_lt_zero i), List.not_mem_nil,
          .inr ⟨by omega, by rw [List.length_nil]; omega⟩⟩
      · obtain ⟨text, htext⟩ := ih (s := s + 1) (precision - 1) (by
          rw [← ofNat_succ]
          exact h.imp_right fun h => ⟨by omega, by omega⟩)
        refine ⟨mem s :: text, ?_, ?_, ?_⟩
        · intro i hi
          cases i with
          | zero => exact congrArg mem (add_ofNat_zero s)
          | succ i =>
            rw [ofNat_succ]
            exact htext.reads i (Nat.lt_of_succ_lt_succ hi)
        · intro h0
          rcases List.mem_cons.1 h0 with h0 | h0
          · exact hzero h0.symm
          · exact htext.noNul h0
        · rw [List.length_cons, ofNat_succ]
          exact htext.stop.imp_right fun h => ⟨by omega, by omega⟩

theorem StringAt.prints (h : StringAt mem s text) (hnul : 0 ∉ text) (precision : Int) :
    Prints mem s precision text := by
  refine ⟨fun i hi => h i (Nat.le_of_lt hi), hnul, .inl ?_⟩
  rw [h _ (Nat.le_refl _), List.getD_eq_getElem?_getD, List.getElem?_eq_none (Nat.le_refl _)]
  rfl

end

/-! ## The cases of the `switch` -/

/-- `x > 0 ? x : -x`. -/
theorem toNat_abs (x : UInt32) :
    (if int x.toNat > 0 then x else -x).toNat = (int x.toNat).natAbs := by
  have hx : x.toNat < 0x100000000 := x.toNat_lt
  unfold int
  split
  · omega
  · rw [UInt32.toNat_neg, show UInt32.size = 0x100000000 from rfl]
    omega

section
variable {numbuf : UInt32} {precision : Int} {mem : Memory} {args : List UInt32} {i : Nat}
  {base : UInt32} {table : List UInt8} {conv : UInt8}

/-- The variables after a number `n` has been put into `numbuf`. -/
def numberConversion (numbuf : UInt32) (mem : Memory) (args : List UInt32) (i : Nat)
    (text : List UInt8) (negative : Bool) : Conversion where
  data := textStart (numbuf + NUMBUFSIZ) (text ++ [0])
  negative := negative
  numeric := true
  mem := putText mem (numbuf + NUMBUFSIZ) (text ++ [0])
  args := args
  i := i

theorem convertNumber_eq (hb : 1 < base.toNat) {x : UInt32} {val : UInt32 → UInt32}
    {negative : UInt32 → Bool} {n : Nat} {b : Bool} (hval : (val x).toNat = n)
    (hnegative : negative x = b) :
    convertNumber numbuf precision mem (x :: args) i val base table negative =
      .ok (numberConversion numbuf mem args i (numberText base.toNat table precision n) b) := by
  show (fillNumbuf mem (numbuf + NUMBUFSIZ) (val x) base table precision >>= _) = _
  rw [fillNumbuf_eq hb, hval, ← hnegative]
  rfl

theorem radix_cases (h : radix conv = some (base, table)) :
    (conv = 'd'.toUInt8 ∧ base = 10 ∧ table = upperDigits) ∨
    (conv = 'u'.toUInt8 ∧ base = 10 ∧ table = upperDigits) ∨
    (conv = 'x'.toUInt8 ∧ base = 16 ∧ table = lowerDigits) ∨
    (conv = 'X'.toUInt8 ∧ base = 16 ∧ table = upperDigits) := by
  unfold radix at h
  split at h
  · rename_i hconv
    cases h
    exact hconv.elim (fun h => .inl ⟨h, rfl, rfl⟩) fun h => .inr (.inl ⟨h, rfl, rfl⟩)
  · split at h
    · rename_i hconv
      cases h
      exact .inr (.inr (.inl ⟨hconv, rfl, rfl⟩))
    · split at h
      · rename_i hconv
        cases h
        exact .inr (.inr (.inr ⟨hconv, rfl, rfl⟩))
      · cases h

/-- A conversion that prints a number. -/
theorem convert_number (h : radix conv = some (base, table)) (x : UInt32) :
    convert numbuf precision mem (x :: args) i conv =
      .ok (numberConversion numbuf mem args i
        (numberText base.toNat table precision (magnitude conv x)) (isNegative conv x)) := by
  obtain ⟨rfl, rfl, rfl⟩ | ⟨rfl, rfl, rfl⟩ | ⟨rfl, rfl, rfl⟩ | ⟨rfl, rfl, rfl⟩ := radix_cases h
  · unfold convert
    rw [if_pos rfl]
    exact convertNumber_eq (by decide) (toNat_abs x) (by simp [isNegative])
  · unfold convert
    rw [if_neg (by decide), if_pos rfl]
    exact convertNumber_eq (by decide) rfl rfl
  · unfold convert
    rw [if_neg (by decide), if_neg (by decide), if_pos rfl]
    exact convertNumber_eq (by decide) rfl rfl
  · unfold convert
    rw [if_neg (by decide), if_neg (by decide), if_neg (by decide), if_pos rfl]
    exact convertNumber_eq (by decide) rfl rfl

/-- What every conversion of a number relies on. -/
theorem radix_spec (h : radix conv = some (base, table)) :
    10 ≤ base.toNat ∧ base.toNat ≤ table.length ∧ table.Nodup ∧ 0 ∉ table ∧ takesArg conv = true := by
  obtain ⟨rfl, rfl, rfl⟩ | ⟨rfl, rfl, rfl⟩ | ⟨rfl, rfl, rfl⟩ | ⟨rfl, rfl, rfl⟩ := radix_cases h <;>
    decide

theorem takesArg_iff : takesArg conv = true ↔ conv = 'd'.toUInt8 ∨ conv = 'u'.toUInt8 ∨
    conv = 'x'.toUInt8 ∨ conv = 'X'.toUInt8 ∨ conv = 's'.toUInt8 ∨ conv = 'c'.toUInt8 ∨
    conv = 'C'.toUInt8 := by
  unfold takesArg
  rw [List.contains_iff_mem, show bytesOf "duxXscC" = ['d'.toUInt8, 'u'.toUInt8, 'x'.toUInt8,
    'X'.toUInt8, 's'.toUInt8, 'c'.toUInt8, 'C'.toUInt8] by decide]
  simp only [List.mem_cons, List.not_mem_nil, or_false]

theorem convert_string (x : UInt32) : convert numbuf precision mem (x :: args) i 's'.toUInt8 =
    .ok { data := x, negative := false, numeric := false, mem, args, i } := by
  unfold convert
  rw [if_neg (by decide), if_neg (by decide), if_neg (by decide), if_neg (by decide), if_pos rfl]
  rfl

theorem convert_char (x : UInt32) : convert numbuf precision mem (x :: args) i 'c'.toUInt8 =
    .ok { data := numbuf, negative := false, numeric := false,
          mem := charNumbuf mem numbuf x.toUInt8, args, i } := by
  unfold convert
  rw [if_neg (by decide), if_neg (by decide), if_neg (by decide), if_neg (by decide),
    if_neg (by decide), if_pos rfl]
  rfl

/-- The `default` case. -/
theorem convert_default (h : takesArg conv = false) : convert numbuf precision mem args i conv =
    .ok { data := numbuf, negative := false, numeric := false,
          mem := charNumbuf mem numbuf (if conv = 0 then '%'.toUInt8 else conv), args,
          i := if conv = 0 then i - 1 else i } := by
  have hne : ∀ c, takesArg c = true → conv ≠ c := by
    rintro c hc rfl
    exact absurd hc (by rw [h]; exact Bool.false_ne_true)
  unfold convert
  rw [if_neg (hne _ (by decide)), if_neg (hne _ (by decide)), if_neg (hne _ (by decide)),
    if_neg (hne _ (by decide)), if_neg (hne _ (by decide)), if_neg (hne _ (by decide)), ite_not]

theorem charNumbuf_prints (mem : Memory) (numbuf : UInt32) (c : UInt8) (precision : Int) :
    Prints (charNumbuf mem numbuf c) numbuf precision (charText c) := by
  have hne : numbuf ≠ numbuf + 1 := by
    intro h
    have hsub := congrArg (· - numbuf) h
    simp only [UInt32.sub_self, UInt32.add_comm numbuf, UInt32.add_sub_cancel] at hsub
    exact absurd hsub (by decide)
  have hfirst : charNumbuf mem numbuf c numbuf = c := by
    unfold charNumbuf
    rw [Function.update_of_ne hne, Function.update_self]
  unfold charText
  split
  · rename_i hc
    refine ⟨fun i hi => absurd hi (Nat.not_lt_zero i), List.not_mem_nil, .inl ?_⟩
    rw [List.length_nil, add_ofNat_zero, hfirst, hc]
  · rename_i hc
    refine ⟨fun i hi => ?_, fun h0 => hc (List.mem_singleton.1 h0).symm, .inl ?_⟩
    · rw [Nat.lt_one_iff.1 hi, add_ofNat_zero, hfirst]
      rfl
    · exact Function.update_self _ _ _

theorem charNumbuf_outside {numbuf x : UInt32} (mem : Memory) (c : UInt8)
    (hx : NUMBUFSIZ.toNat ≤ (x - numbuf).toNat) : charNumbuf mem numbuf c x = mem x := by
  have hsize : NUMBUFSIZ.toNat = 20 := rfl
  have hne0 : x ≠ numbuf := by
    rintro rfl
    rw [UInt32.sub_self, show (0 : UInt32).toNat = 0 from rfl] at hx
    omega
  have hne1 : x ≠ numbuf + 1 := by
    rintro rfl
    rw [UInt32.add_comm, UInt32.add_sub_cancel, show (1 : UInt32).toNat = 1 from rfl] at hx
    omega
  unfold charNumbuf
  rw [Function.update_of_ne hne1, Function.update_of_ne hne0]

theorem magnitude_lt (conv : UInt8) (x : UInt32) : magnitude conv x < 2 ^ 32 := by
  have hx := int_bounds x.toNat
  have hx' := x.toNat_lt
  unfold magnitude
  split <;> omega

theorem numberText_noNul (h : radix conv = some (base, table)) (precision : Int) (n : Nat) :
    0 ∉ numberText base.toNat table precision n := by
  obtain ⟨hb, htable, -, h0, -⟩ := radix_spec h
  unfold numberText
  split
  · exact List.not_mem_nil
  · exact fun hmem => h0 (List.mem_of_mem_take (mem_numeralText (by omega) htable hmem))

/-- The digits of a number fit into `numbuf`. -/
theorem length_numberText_ten (h : radix conv = some (base, table)) (precision : Int) (x : UInt32) :
    (numberText base.toNat table precision (magnitude conv x)).length ≤ 10 := by
  have hb := (radix_spec h).1
  refine length_numberText_le table (by omega) ?_ precision
  exact Nat.lt_of_lt_of_le (Nat.lt_trans (magnitude_lt conv x) (by decide)) (Nat.pow_le_pow_left hb 10)

end

/-! ## Every conversion -/

/-- What a conversion leaves for the field: its text, with nothing else changed. -/
structure Converted (d : Directive) (mem : Memory) (numbuf : UInt32) (as : List UInt32) (k : Nat)
    (text : List UInt8) (v : Conversion) : Prop where
  args : v.args = as.drop d.vargs
  i : v.i = if d.conv = 0 then k - 1 else k
  numeric : v.numeric = (radix d.conv).isSome
  negative : v.negative = isNegative d.conv (d.arg as)
  outside : ∀ x, NUMBUFSIZ.toNat ≤ (x - numbuf).toNat → v.mem x = mem x
  prints : Prints v.mem v.data (d.precisionOf as) text

section
variable {d : Directive} {mem : Memory} {args : List UInt32}

theorem Directive.drop_stars (harg : takesArg d.conv = true) (hargs : d.vargs ≤ args.length) :
    args.drop d.stars = d.arg args :: args.drop d.vargs := by
  unfold Directive.vargs at hargs ⊢
  rw [if_pos harg] at hargs ⊢
  unfold Directive.arg
  rw [List.drop_eq_getElem_cons (by omega)]
  rfl

theorem isNegative_of_radix {conv : UInt8} (h : radix conv = none) (x : UInt32) :
    isNegative conv x = false := by
  unfold isNegative
  refine decide_eq_false fun hd => ?_
  rw [hd.1] at h
  cases h

/-- The conversions of the `default` case. -/
theorem takesArg_of_radix {conv : UInt8} (h : radix conv = none) (hs : conv ≠ 's'.toUInt8)
    (hc : conv ≠ 'c'.toUInt8) (hC : conv ≠ 'C'.toUInt8) : takesArg conv = false := by
  have hnumber : ∀ c, (radix c).isSome = true → conv ≠ c := by
    rintro c hc rfl
    rw [h] at hc
    cases hc
  refine Bool.eq_false_iff.2 fun harg => ?_
  rcases takesArg_iff.1 harg with h | h | h | h | h | h | h
  · exact hnumber _ (by decide) h
  · exact hnumber _ (by decide) h
  · exact hnumber _ (by decide) h
  · exact hnumber _ (by decide) h
  · exact hs h
  · exact hc h
  · exact hC h

/-- What the conversions that put one character into `numbuf` leave. -/
theorem converted_charNumbuf (numbuf : UInt32) {i k : Nat} {as : List UInt32}
    (hradix : radix d.conv = none) (hargs : as = args.drop d.vargs)
    (hi : k = if d.conv = 0 then i - 1 else i) (c : UInt8) :
    Converted d mem numbuf args i (charText c)
      { data := numbuf, negative := false, numeric := false, mem := charNumbuf mem numbuf c,
        args := as, i := k } where
  args := hargs
  i := hi
  numeric := by rw [hradix]; rfl
  negative := (isNegative_of_radix hradix _).symm
  outside _ hx := charNumbuf_outside mem c hx
  prints := charNumbuf_prints mem numbuf c _

section
variable (numbuf : UInt32) (i : Nat)

theorem convert_eq_default (hradix : radix d.conv = none) (harg : takesArg d.conv = false) :
    ∃ v, convert numbuf (d.precisionOf args) mem (args.drop d.stars) i d.conv = .ok v ∧
      Converted d mem numbuf args i (charText (if d.conv = 0 then '%'.toUInt8 else d.conv)) v := by
  have hvargs : d.vargs = d.stars := by
    unfold Directive.vargs
    rw [harg]
    rfl
  rw [convert_default harg]
  exact ⟨_, rfl, converted_charNumbuf numbuf hradix (by rw [hvargs]) rfl _⟩

variable (hargs : d.vargs ≤ args.length)
include hargs

theorem convert_eq_number {base : UInt32} {table : List UInt8}
    (hradix : radix d.conv = some (base, table)) :
    ∃ v, convert numbuf (d.precisionOf args) mem (args.drop d.stars) i d.conv = .ok v ∧
      Converted d mem numbuf args i
        (numberText base.toNat table (d.precisionOf args) (magnitude d.conv (d.arg args))) v := by
  have harg := (radix_spec hradix).2.2.2.2
  have hlen := length_numberText_ten hradix (d.precisionOf args) (d.arg args)
  have hfit : (numberText base.toNat table (d.precisionOf args)
      (magnitude d.conv (d.arg args)) ++ [0]).length ≤ NUMBUFSIZ.toNat := by
    rw [List.length_append]
    exact Nat.le_trans (Nat.succ_le_succ hlen) (by decide)
  have hne : d.conv ≠ 0 := by
    intro h0
    rw [h0] at harg
    exact absurd harg (by decide)
  rw [Directive.drop_stars harg hargs, convert_number hradix]
  refine ⟨_, rfl, rfl, (if_neg hne).symm, by rw [hradix]; rfl, rfl,
    fun x hx => putText_outside hfit hx, ?_⟩
  exact (putText_string (by omega)).prints (numberText_noNul hradix _ _) _

theorem convert_eq_string (hs : d.conv = 's'.toUInt8) {text : List UInt8}
    (htext : Prints mem (d.arg args) (d.precisionOf args) text) :
    ∃ v, convert numbuf (d.precisionOf args) mem (args.drop d.stars) i d.conv = .ok v ∧
      Converted d mem numbuf args i text v := by
  have hradix : radix d.conv = none := by rw [hs]; decide
  rw [Directive.drop_stars (by rw [hs]; decide) hargs, hs, convert_string]
  exact ⟨_, rfl, rfl, (if_neg (by rw [hs]; decide)).symm, by rw [hradix]; rfl,
    (isNegative_of_radix hradix _).symm, fun _ _ => rfl, htext⟩

theorem convert_eq_char (hc : d.conv = 'c'.toUInt8) :
    ∃ v, convert numbuf (d.precisionOf args) mem (args.drop d.stars) i d.conv = .ok v ∧
      Converted d mem numbuf args i (charText (d.arg args).toUInt8) v := by
  rw [Directive.drop_stars (by rw [hc]; decide) hargs, hc, convert_char]
  exact ⟨_, rfl, converted_charNumbuf numbuf (by rw [hc]; decide) rfl
    (if_neg (by rw [hc]; decide)).symm _⟩

theorem convert_eq (hC : d.conv ≠ 'C'.toUInt8) {text : List UInt8} (htext : d.Text mem args text) :
    ∃ v, convert numbuf (d.precisionOf args) mem (args.drop d.stars) i d.conv = .ok v ∧
      Converted d mem numbuf args i text v := by
  unfold Directive.Text at htext
  cases hradix : radix d.conv with
  | some r =>
    rw [hradix] at htext
    rw [htext]
    exact convert_eq_number numbuf i hargs hradix
  | none =>
    rw [hradix] at htext
    dsimp only at htext
    by_cases hs : d.conv = 's'.toUInt8
    · rw [if_pos hs] at htext
      exact convert_eq_string numbuf i hargs hs htext
    · rw [if_neg hs] at htext
      by_cases hc : d.conv = 'c'.toUInt8
      · rw [if_pos hc] at htext
        rw [htext]
        exact convert_eq_char numbuf i hargs hc
      · rw [if_neg hc] at htext
        rw [htext]
        exact convert_eq_default numbuf i hradix (takesArg_of_radix hradix hs hc hC)

end

end

end SchedOS
