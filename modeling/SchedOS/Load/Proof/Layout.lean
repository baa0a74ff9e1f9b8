import SchedOS.Load.Proof.Mkbootdisk

/-!
# The layout of the disk image

`layout` says what the boot file and the arguments put on the disk, without a count of sectors:
where a sector begins is read off the bytes so far. The loop over the arguments keeps `nsectors` in
step with it (`Aligned`, `foldlM_writeArg_ok`), and comes to an end (`foldlM_writeArg_lasts`); so
the output is `image` (`mkbootdisk_ok`, `mkbootdisk_lasts`).
-/

namespace SchedOS

/-- An argument's bytes behind those of the ones before it. -/
def putArg (files : Files) (out : List UInt8) (arg : String) : Option (List UInt8) :=
  (argBytes files (out.length / 512) arg).map (out ++ ·)

/-- The boot sector and what the arguments put behind it; none if one cannot be opened or skips
back. -/
def layout (files : Files) (bytes : List UInt8) (args : List String) : Option (List UInt8) :=
  args.foldlM (putArg files) (bootSector bytes)

/-- Filled out to 1024 sectors. -/
def image (out : List UInt8) : List UInt8 := out ++ List.replicate (512 * 1024 - out.length) 0

/-- `main` up to the head of its loop, after the arguments `pre`. -/
def mainLoop (files : Files) (writes : List WriteResult) (boot : String) (pre : List String) :
    Made (Disk × Nat) :=
  writeBoot files ⟨writes, [], 0⟩ boot >>= fun d => pre.foldlM (writeArg files) (d, 1)

/-- `nsectors` counts the sectors of the output. -/
def Aligned (d : Disk) (nsectors : Nat) : Prop := 512 * nsectors = d.output.length

theorem Disk.Wrote.aligned {d d' : Disk} {nsectors : Nat} {data : List UInt8} (h : Aligned d nsectors)
    (hw : d.Wrote d' data) {n : Nat} (hn : data.length = 512 * n) : Aligned d' (nsectors + n) := by
  unfold Aligned at h ⊢
  rw [hw.output, List.length_append]
  omega

section
variable {files : Files} {writes : List WriteResult} {boot : String} {bytes : List UInt8}

theorem mkbootdisk_eq (files : Files) (writes : List WriteResult) (boot : String)
    (args : List String) : mkbootdisk files writes (boot :: args) =
      (mainLoop files writes boot args >>= fun st =>
        zeroSectors st.1 st.2 (1024 - st.2) >>= fun st => .ok st.1) := by
  unfold mkbootdisk mainLoop
  dsimp only
  cases writeBoot files ⟨writes, [], 0⟩ boot with
  | error e => rfl
  | ok d => rfl

theorem mainLoop_append (files : Files) (writes : List WriteResult) (boot : String)
    (pre post : List String) : mainLoop files writes boot (pre ++ post) =
      (mainLoop files writes boot pre >>= fun st => post.foldlM (writeArg files) st) := by
  unfold mainLoop
  cases writeBoot files ⟨writes, [], 0⟩ boot with
  | error e => rfl
  | ok d => exact List.foldlM_append

/-! ## What the arguments put on the disk -/

theorem layout_append (files : Files) (bytes : List UInt8) (pre post : List String) :
    layout files bytes (pre ++ post) =
      (layout files bytes pre).bind fun out => post.foldlM (putArg files) out := by
  unfold layout
  rw [List.foldlM_append]
  rfl

theorem putArg_cases {out out' : List UInt8} {arg : String} (h : putArg files out arg = some out') :
    ∃ data, argBytes files (out.length / 512) arg = some data ∧ out' = out ++ data := by
  obtain ⟨data, hdata, rfl⟩ := Option.map_eq_some_iff.1 h
  exact ⟨data, hdata, rfl⟩

theorem foldlM_putArg {args : List String} {out out' : List UInt8}
    (h : args.foldlM (putArg files) out = some out') (hout : 512 ∣ out.length) :
    512 ∣ out'.length ∧ ∃ data, out' = out ++ data := by
  induction args generalizing out with
  | nil =>
    cases h
    exact ⟨hout, [], (List.append_nil _).symm⟩
  | cons arg args ih =>
    rw [List.foldlM_cons] at h
    obtain ⟨out1, hput, hrest⟩ := Option.bind_eq_some_iff.1 h
    obtain ⟨data, hdata, rfl⟩ := putArg_cases hput
    have hlen := length_argBytes hdata
    obtain ⟨hdvd, data', rfl⟩ := ih hrest (by
      rw [List.length_append]
      exact Nat.dvd_add hout ⟨_, hlen.symm⟩)
    exact ⟨hdvd, data ++ data', by rw [List.append_assoc]⟩

theorem dvd_bootSector (hlen : bytes.length ≤ 510) : 512 ∣ (bootSector bytes).length :=
  ⟨1, length_bootSector hlen⟩

theorem layout_dvd (hlen : bytes.length ≤ 510) {args : List String} {out : List UInt8}
    (h : layout files bytes args = some out) : 512 ∣ out.length :=
  (foldlM_putArg h (dvd_bootSector hlen)).1

/-- The bytes of an argument stand behind those of the arguments before it. -/
theorem layout_split (hlen : bytes.length ≤ 510) {pre post : List String} {arg : String}
    {out : List UInt8} (h : layout files bytes (pre ++ arg :: post) = some out) :
    ∃ before data after, layout files bytes pre = some before ∧ 512 ∣ before.length ∧
      argBytes files (before.length / 512) arg = some data ∧ out = before ++ data ++ after := by
  rw [layout_append] at h
  obtain ⟨before, hbefore, h⟩ := Option.bind_eq_some_iff.1 h
  rw [List.foldlM_cons] at h
  obtain ⟨out1, hput, hrest⟩ := Option.bind_eq_some_iff.1 h
  obtain ⟨data, hdata, rfl⟩ := putArg_cases hput
  have hdvd := layout_dvd hlen hbefore
  obtain ⟨-, after, rfl⟩ := foldlM_putArg hrest (by
    rw [List.length_append]
    exact Nat.dvd_add hdvd ⟨_, (length_argBytes hdata).symm⟩)
  exact ⟨before, data, after, hbefore, hdvd, hdata, rfl⟩

/-- A skip leaves zeros up to its sector. -/
theorem layout_skip (hlen : bytes.length ≤ 510) {pre : List String} {arg : String} {x : Nat}
    (hx : skipto arg = some x) {out : List UInt8} (h : layout files bytes (pre ++ [arg]) = some out) :
    out.length = 512 * x ∧ ∃ before, layout files bytes pre = some before ∧
      out = before ++ List.replicate (512 * x - before.length) 0 := by
  have hout := h
  rw [layout_append] at h
  obtain ⟨before, hbefore, h⟩ := Option.bind_eq_some_iff.1 h
  rw [List.foldlM_cons] at h
  obtain ⟨out1, hput, hnil⟩ := Option.bind_eq_some_iff.1 h
  cases hnil
  obtain ⟨data, hdata, rfl⟩ := putArg_cases hput
  obtain ⟨n, hn⟩ := layout_dvd hlen hbefore
  rw [hn, Nat.mul_div_cancel_left _ (by decide)] at hdata
  obtain ⟨x', hx', hle, rfl⟩ | ⟨file, hfile, -, -⟩ := argBytes_cases hdata
  · cases hx.symm.trans hx'
    rw [List.length_append, List.length_replicate]
    refine ⟨by omega, before, hbefore, ?_⟩
    rw [hn, ← Nat.mul_sub]
  · cases hx.symm.trans hfile

theorem length_image {out : List UInt8} (h : 512 ∣ out.length) :
    (image out).length = 512 * max 1024 (out.length / 512) := by
  unfold image
  rw [List.length_append, List.length_replicate]
  omega

/-! ## What `main` writes -/

/-- An argument that is written has bytes. -/
theorem writeArg_argBytes {d : Disk} {nsectors : Nat} {arg : String} {st : Disk × Nat}
    (h : writeArg files (d, nsectors) arg = .ok st) :
    ∃ data, argBytes files nsectors arg = some data := by
  cases hx : skipto arg with
  | some x =>
    by_cases hle : nsectors ≤ x
    · exact ⟨_, argBytes_skip hx hle⟩
    · unfold writeArg at h
      rw [hx] at h
      dsimp only at h
      rw [if_pos (Nat.lt_of_not_le hle)] at h
      cases h
  | none =>
    cases hfile : files arg with
    | some file => exact ⟨_, argBytes_file hx hfile⟩
    | none =>
      unfold writeArg at h
      dsimp only at h
      rw [hx, hfile] at h
      cases h

theorem foldlM_writeArg_ok {args : List String} {d d' : Disk} {nsectors nsectors' : Nat}
    (hd : Aligned d nsectors) (h : args.foldlM (writeArg files) (d, nsectors) = .ok (d', nsectors')) :
    args.foldlM (putArg files) d.output = some d'.output ∧ Aligned d' nsectors' := by
  induction args generalizing d nsectors with
  | nil =>
    cases h
    exact ⟨rfl, hd⟩
  | cons arg args ih =>
    rw [List.foldlM_cons] at h
    obtain ⟨⟨d1, n1⟩, hd1, hrest⟩ := Made.bind_ok h
    obtain ⟨data, hdata⟩ := writeArg_argBytes hd1
    obtain ⟨hwrote, rfl⟩ := writeArg_ok hdata hd1
    obtain ⟨hput, halign⟩ := ih (hwrote.aligned hd (length_argBytes hdata).symm) hrest
    refine ⟨?_, halign⟩
    have hn : d.output.length / 512 = nsectors := by
      unfold Aligned at hd
      omega
    rw [List.foldlM_cons, putArg, hn, hdata, Option.map_some, ← hwrote.output]
    exact hput

theorem mainLoop_ok (hboot : files boot = some bytes) (hlen : bytes.length ≤ 510) {pre : List String}
    {d : Disk} {nsectors : Nat} (h : mainLoop files writes boot pre = .ok (d, nsectors)) :
    layout files bytes pre = some d.output ∧ Aligned d nsectors := by
  obtain ⟨d1, hd1, hrest⟩ := Made.bind_ok h
  rw [writeBoot_eq hboot hlen] at hd1
  have hout := (diskwrite_ok hd1).output
  rw [List.nil_append] at hout
  have halign : Aligned d1 1 := by
    unfold Aligned
    rw [hout, length_bootSector hlen]
  have hall := foldlM_writeArg_ok halign hrest
  rwa [hout] at hall

/-- What has been written at the end. -/
theorem mkbootdisk_ok (hboot : files boot = some bytes) (hlen : bytes.length ≤ 510)
    {args : List String} {d : Disk} (h : mkbootdisk files writes (boot :: args) = .ok d) :
    ∃ out, layout files bytes args = some out ∧ d.output = image out := by
  rw [mkbootdisk_eq] at h
  obtain ⟨⟨d1, n⟩, hd1, hrest⟩ := Made.bind_ok h
  obtain ⟨⟨d2, n2⟩, hd2, hend⟩ := Made.bind_ok hrest
  cases hend
  obtain ⟨hlayout, halign⟩ := mainLoop_ok hboot hlen hd1
  refine ⟨_, hlayout, ?_⟩
  unfold Aligned at halign
  rw [(zeroSectors_ok hd2).1.output, image, ← halign, ← Nat.mul_sub]

theorem foldlM_writeArg_lasts {args : List String} {out out' : List UInt8}
    (hout : 512 ∣ out.length) (h : args.foldlM (putArg files) out = some out') :
    Lasts (out'.length - out.length)
      (fun d => args.foldlM (writeArg files) (d, out.length / 512))
      fun d => (d, out'.length / 512) := by
  induction args generalizing out with
  | nil =>
    cases h
    rw [Nat.sub_self]
    exact .pure _
  | cons arg args ih =>
    rw [List.foldlM_cons] at h
    obtain ⟨out1, hput, hrest⟩ := Option.bind_eq_some_iff.1 h
    obtain ⟨data, hdata, rfl⟩ := putArg_cases hput
    have hlen := length_argBytes hdata
    have hdvd : 512 ∣ (out ++ data).length := by
      rw [List.length_append]
      exact Nat.dvd_add hout ⟨_, hlen.symm⟩
    obtain ⟨-, data', rfl⟩ := foldlM_putArg hrest hdvd
    have hnext := ih hdvd hrest
    rw [show (out ++ data).length / 512 = out.length / 512 + data.length / 512 by
      rw [List.length_append]; omega] at hnext
    have hall := (writeArg_lasts hdata).bind (k := args.foldlM (writeArg files)) hnext
    rw [show data.length + ((out ++ data ++ data').length - (out ++ data).length) =
      (out ++ data ++ data').length - out.length by simp only [List.length_append]; omega] at hall
    exact hall

/-- Calls of `write` with which `main` returns. -/
theorem mkbootdisk_lasts (hboot : files boot = some bytes) (hlen : bytes.length ≤ 510)
    {args : List String} {out : List UInt8} (h : layout files bytes args = some out)
    (hw : ShortWrites writes) (hn : (image out).length ≤ progress writes) :
    ∃ d, mkbootdisk files writes (boot :: args) = .ok d := by
  have hsector := length_bootSector hlen
  have hargs := foldlM_writeArg_lasts (dvd_bootSector hlen) h
  obtain ⟨hdvd, data, rfl⟩ := foldlM_putArg h (dvd_bootSector hlen)
  rw [hsector, Nat.div_self (by decide)] at hargs
  have hboot1 : Lasts 512 (writeBoot files · boot) fun d => d := by
    rw [show (writeBoot files · boot) = (diskwrite · (bootSector bytes)) from
      funext fun d => writeBoot_eq hboot hlen d, ← hsector]
    exact diskwrite_lasts _
  have hend := (zeroSectors_lasts ((bootSector bytes ++ data).length / 512)
    (1024 - (bootSector bytes ++ data).length / 512)).bind (.pure fun d => d)
    (k := fun st => .ok st.1)
  have hall := (hboot1.bind hargs).bind (k := fun st =>
    zeroSectors st.1 st.2 (1024 - st.2) >>= fun st => .ok st.1) hend
  obtain ⟨d, hd, -⟩ := hall ⟨writes, [], 0⟩ hw (by
    obtain ⟨k, hk⟩ := hdvd
    rw [length_image ⟨k, hk⟩, hk] at hn
    rw [hk]
    rw [List.length_append, hsector] at hk
    dsimp only
    omega)
  exact ⟨d, (mkbootdisk_eq ..).trans hd⟩

theorem writeBoot_large (hboot : files boot = some bytes) (hlen : 510 < bytes.length) (d : Disk) :
    writeBoot files d boot = .error (.bootBlockTooLarge boot (min 4096 bytes.length), d) := by
  unfold writeBoot
  rw [hboot]
  dsimp only
  rw [List.length_take]
  exact if_pos (by omega)

/-- A skip back ends the program where it is. -/
theorem mkbootdisk_back {pre post : List String} {arg : String} {d : Disk} {nsectors x : Nat}
    (h : mainLoop files writes boot pre = .ok (d, nsectors)) (hx : skipto arg = some x)
    (hback : x < nsectors) : mkbootdisk files writes (boot :: (pre ++ arg :: post)) =
      .error (.cantSkip (UInt32.ofNat x) (UInt32.ofNat nsectors), d) := by
  have hstop : writeArg files (d, nsectors) arg =
      .error (.cantSkip (UInt32.ofNat x) (UInt32.ofNat nsectors), d) := by
    unfold writeArg
    dsimp only
    rw [hx]
    exact if_pos hback
  rw [mkbootdisk_eq, mainLoop_append, h]
  show ((writeArg files (d, nsectors) arg >>= _) >>= _) = _
  rw [hstop]
  rfl

/-- Every pass of a loop that writes zeros counts the sector that it writes. -/
theorem zeroSectors_aligned {d d' : Disk} {nsectors nsectors' k : Nat} (hd : Aligned d nsectors)
    (h : zeroSectors d nsectors k = .ok (d', nsectors')) : Aligned d' nsectors' := by
  obtain ⟨hwrote, rfl⟩ := zeroSectors_ok h
  exact hwrote.aligned hd (List.length_replicate ..)

/-- Where a file stands in the image. -/
theorem image_file (hlen : bytes.length ≤ 510) {pre post : List String} {name : String}
    {file out : List UInt8} (hname : skipto name = none) (hfile : files name = some file)
    (h : layout files bytes (pre ++ name :: post) = some out) :
    ∃ before after, layout files bytes pre = some before ∧ 512 ∣ before.length ∧
      out = before ++ file ++ padding file ++ after ∧
        512 ∣ (before ++ file ++ padding file).length := by
  obtain ⟨before, data, after, hbefore, hdvd, hdata, rfl⟩ := layout_split hlen h
  cases (argBytes_file hname hfile).symm.trans hdata
  refine ⟨before, after, hbefore, hdvd, by simp only [List.append_assoc], ?_⟩
  rw [List.append_assoc, List.length_append]
  exact Nat.dvd_add hdvd ⟨_, (length_argBytes hdata).symm⟩

end

/-- **The layout of the disk image**: whatever the calls of `write` return, the output of a run that
comes to its end is the image, and it comes to its end if enough of these calls write something. In
the image the files stand as they are at whole sectors, after a skip at its sector, and `nsectors`
is the number of sectors written at every pass of the loops. A boot file that is too large or a skip
back ends the program with nothing written of it. -/
theorem mkbootdisk_layout (files : Files) (boot : String) (bytes : List UInt8)
    (hboot : files boot = some bytes) (args : List String) (writes : List WriteResult) :
    (bytes.length ≤ 510 →
      (∀ d, mkbootdisk files writes (boot :: args) = .ok d →
        ∃ out, layout files bytes args = some out ∧ d.output = image out) ∧
      (∀ out, layout files bytes args = some out →
        (image out).length = 512 * max 1024 (out.length / 512) ∧
        (ShortWrites writes → (image out).length ≤ progress writes →
          ∃ d, mkbootdisk files writes (boot :: args) = .ok d) ∧
        (∃ rest, out = bytes ++ List.replicate (510 - bytes.length) 0 ++ [0x55, 0xAA] ++ rest) ∧
        (∀ pre name post file, args = pre ++ name :: post → skipto name = none →
          files name = some file → ∃ before after, layout files bytes pre = some before ∧
            512 ∣ before.length ∧ out = before ++ file ++ padding file ++ after ∧
            512 ∣ (before ++ file ++ padding file).length ∧
            ∀ pre' skip x, pre = pre' ++ [skip] → skipto skip = some x → before.length = 512 * x ∧
              ∃ before', layout files bytes pre' = some before' ∧
                before = before' ++ List.replicate (512 * x - before'.length) 0)) ∧
      ∀ pre post d nsectors, args = pre ++ post →
        mainLoop files writes boot pre = .ok (d, nsectors) →
          512 * nsectors = d.output.length ∧
          (∀ k d' nsectors', zeroSectors d nsectors k = .ok (d', nsectors') →
            512 * nsectors' = d'.output.length) ∧
          ∀ arg post' x, post = arg :: post' → skipto arg = some x → x < nsectors →
            mkbootdisk files writes (boot :: args) =
              .error (.cantSkip (UInt32.ofNat x) (UInt32.ofNat nsectors), d)) ∧
    (510 < bytes.length → ∃ stop d, mkbootdisk files writes (boot :: args) = .error (stop, d) ∧
      stop = .bootBlockTooLarge boot (min 4096 bytes.length) ∧ d.output = []) := by
  refine ⟨fun hlen => ⟨fun d hd => mkbootdisk_ok hboot hlen hd, ?_, ?_⟩, fun hlen => ?_⟩
  · intro out hout
    refine ⟨length_image (layout_dvd hlen hout), mkbootdisk_lasts hboot hlen hout, ?_, ?_⟩
    · obtain ⟨-, rest, hrest⟩ := foldlM_putArg hout (dvd_bootSector hlen)
      exact ⟨rest, hrest⟩
    · rintro pre name post file rfl hname hfile
      obtain ⟨before, after, hbefore, hdvd, hsplit, hend⟩ := image_file hlen hname hfile hout
      refine ⟨before, after, hbefore, hdvd, hsplit, hend, ?_⟩
      rintro pre' skip x rfl hx
      exact layout_skip hlen hx hbefore
  · rintro pre post d nsectors rfl hloop
    obtain ⟨-, halign⟩ := mainLoop_ok hboot hlen hloop
    refine ⟨halign, fun k d' n' h => zeroSectors_aligned halign h, ?_⟩
    rintro arg post' x rfl hx hback
    exact mkbootdisk_back hloop hx hback
  · refine ⟨_, ⟨writes, [], 0⟩, ?_, rfl, rfl⟩
    rw [mkbootdisk_eq]
    unfold mainLoop
    rw [writeBoot_large hboot hlen]
    rfl

/-- A kernel of one byte at sector 3, with an interruption and calls that write a byte. -/
theorem mkbootdisk_layout_skip : ∃ writes d,
    mkbootdisk (fun _ => some [7]) writes ["bootsector", "@3", "schedos-kern"] = .ok d ∧
      d.output.length = 512 * 1024 := by
  have hout : layout (fun _ => some [7]) [7] ["@3", "schedos-kern"] =
      some (bootSector [7] ++ List.replicate 1024 0 ++ ([7] ++ padding [7])) := by decide +kernel
  have hwrites : ShortWrites (.eintr :: List.replicate (512 * 1024) (.wrote 1)) := by
    intro w hw
    rcases List.mem_cons.1 hw with rfl | hw
    · exact .inl rfl
    · exact .inr ⟨0, List.eq_of_mem_replicate hw⟩
  obtain ⟨hruns, himage, -⟩ := (mkbootdisk_layout (fun _ => some [7]) "bootsector" [7] rfl
    ["@3", "schedos-kern"] (.eintr :: List.replicate (512 * 1024) (.wrote 1))).1 (by decide)
  obtain ⟨hlength, hends, -⟩ := himage _ hout
  have hsize : (bootSector [7] ++ List.replicate 1024 0 ++ ([7] ++ padding [7])).length / 512 = 4 := by
    decide +kernel
  rw [hsize] at hlength
  have hprogress : progress (.eintr :: List.replicate (512 * 1024) (.wrote 1)) = 512 * 1024 := by
    unfold progress
    rw [List.countP_cons_of_neg (by decide), List.countP_replicate]
    rfl
  obtain ⟨d, hd⟩ := hends hwrites (by rw [hlength, hprogress]; decide)
  obtain ⟨out, hlayout, houtput⟩ := hruns d hd
  cases hout.symm.trans hlayout
  exact ⟨_, d, hd, by rw [houtput, hlength]; rfl⟩

/-! ## A boot sector and a kernel -/

section
variable {files : Files} {writes : List WriteResult} {boot kernel : String} {bytes bytes' : List UInt8}
  (hboot : files boot = some bytes) (hlen : bytes.length ≤ 510) (hkernel : files kernel = some bytes')
  (hname : skipto kernel = none)
include hkernel hname

theorem layout_kernel :
    layout files bytes [kernel] = some (bootSector bytes ++ (bytes' ++ padding bytes')) := by
  show (putArg files (bootSector bytes) kernel >>= fun out => some out) = _
  unfold putArg
  rw [argBytes_file hname hkernel]
  rfl

include hboot hlen

/-- The image of a boot sector and a kernel: whole sectors, and at least 1024 of them. -/
theorem mkbootdisk_image {d : Disk} (h : mkbootdisk files writes [boot, kernel] = .ok d) :
    ∃ n, d.output = bootSector bytes ++ (bytes' ++ padding bytes') ++ List.replicate n 0 ∧
      512 * 1024 ≤ d.output.length := by
  obtain ⟨out, hout, himage⟩ := mkbootdisk_ok hboot hlen h
  cases (layout_kernel hkernel hname).symm.trans hout
  refine ⟨_, himage, ?_⟩
  rw [himage, length_image (layout_dvd hlen hout)]
  exact Nat.mul_le_mul_left _ (Nat.le_max_left _ _)

theorem mkbootdisk_completes : ∃ writes d, mkbootdisk files writes [boot, kernel] = .ok d := by
  refine ⟨List.replicate (image (bootSector bytes ++ (bytes' ++ padding bytes'))).length (.wrote 1),
    mkbootdisk_lasts hboot hlen (layout_kernel hkernel hname) ?_ ?_⟩
  · intro w hw
    exact .inr ⟨0, List.eq_of_mem_replicate hw⟩
  · unfold progress
    rw [List.countP_replicate]
    exact Nat.le_refl _

end

end SchedOS
