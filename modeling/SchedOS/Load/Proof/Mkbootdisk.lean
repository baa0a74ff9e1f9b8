import SchedOS.Load.Mkbootdisk

/-!
# The image that `mkbootdisk` writes

What a function writes when it returns does not depend on how the calls of `write` split it up
(`Disk.Wrote`), and it returns if enough of these calls write something (`Lasts`). An argument writes
whole sectors, and as many as it adds to `nsectors` (`argBytes`, `writeArg_ok`).
-/

namespace SchedOS

theorem Made.bind_ok {α β : Type} {x : Made α} {f : α → Made β} {b : β} (h : x >>= f = .ok b) :
    ∃ a, x = .ok a ∧ f a = .ok b := by
  cases x with
  | error e => cases h
  | ok a => exact ⟨a, rfl, h⟩

/-! ## What is written -/

/-- Between `d` and `d'` these bytes have been written. -/
structure Disk.Wrote (d d' : Disk) (data : List UInt8) : Prop where
  output : d'.output = d.output ++ data
  curoff : d'.curoff = d.curoff + data.length

theorem Disk.Wrote.refl (d : Disk) : d.Wrote d [] := ⟨(List.append_nil _).symm, rfl⟩

theorem Disk.Wrote.trans {d d' d'' : Disk} {xs ys : List UInt8} (h : d.Wrote d' xs)
    (h' : d'.Wrote d'' ys) : d.Wrote d'' (xs ++ ys) := by
  constructor
  · rw [h'.output, h.output, List.append_assoc]
  · rw [h'.curoff, h.curoff, List.length_append, Nat.add_assoc]

theorem writeLoop_ok {output data : List UInt8} {curoff : Nat} {writes : List WriteResult}
    {d' : Disk} (h : writeLoop output curoff writes data = .ok d') :
    (⟨writes, output, curoff⟩ : Disk).Wrote d' data := by
  induction writes generalizing output curoff data with
  | nil =>
    cases data with
    | nil =>
      cases h
      exact .refl _
    | cons b data => cases h
  | cons w writes ih =>
    cases data with
    | nil =>
      cases h
      exact ⟨(List.append_nil _).symm, rfl⟩
    | cons b data =>
      match w with
      | .error => cases h
      | .wrote 0 => cases h
      | .eintr =>
        have hrest := ih h
        exact ⟨hrest.output, hrest.curoff⟩
      | .wrote (w + 1) =>
        -- the first bytes, and then the rest of them
        have hfirst : (⟨.wrote (w + 1) :: writes, output, curoff⟩ : Disk).Wrote
            ⟨writes, output ++ (b :: data).take (w + 1),
              curoff + ((b :: data).take (w + 1)).length⟩ ((b :: data).take (w + 1)) := ⟨rfl, rfl⟩
        have hall := hfirst.trans (ih h)
        rwa [List.take_append_drop] at hall

theorem diskwrite_eq (d : Disk) (data : List UInt8) :
    diskwrite d data = writeLoop d.output d.curoff d.writes data :=
  if_neg fun hmax => hmax.1 rfl

theorem diskwrite_ok {d d' : Disk} {data : List UInt8} (h : diskwrite d data = .ok d') :
    d.Wrote d' data := by
  rw [diskwrite_eq] at h
  exact writeLoop_ok h

theorem zeroSectors_ok {d d' : Disk} {nsectors nsectors' n : Nat}
    (h : zeroSectors d nsectors n = .ok (d', nsectors')) :
    d.Wrote d' (List.replicate (512 * n) 0) ∧ nsectors' = nsectors + n := by
  induction n generalizing d nsectors with
  | zero =>
    cases h
    exact ⟨.refl _, rfl⟩
  | succ n ih =>
    obtain ⟨d1, hd1, hrest⟩ := Made.bind_ok h
    obtain ⟨hwrote, hn⟩ := ih hrest
    refine ⟨?_, by omega⟩
    have hall := (diskwrite_ok hd1).trans hwrote
    rw [zerobuf, List.replicate_append_replicate] at hall
    rwa [Nat.mul_succ, Nat.add_comm]

theorem writeFile_ok {d d' : Disk} {pos pos' : Nat} {rest : List UInt8}
    (h : writeFile d pos rest = .ok (d', pos')) : d.Wrote d' rest ∧ pos' = pos + rest.length := by
  induction hlen : rest.length using Nat.strongRecOn generalizing d pos rest with
  | ind n ih =>
    rw [writeFile] at h
    split at h
    · rename_i hbuf
      rw [List.length_take] at hbuf
      obtain ⟨d1, hd1, hrest⟩ := Made.bind_ok h
      obtain ⟨hwrote, hpos⟩ := ih _ (by rw [← hlen, List.length_drop]; omega) hrest rfl
      have hall := (diskwrite_ok hd1).trans hwrote
      rw [List.take_append_drop] at hall
      rw [List.length_take, List.length_drop] at hpos
      exact ⟨hall, by omega⟩
    · rename_i hbuf
      cases h
      rw [List.length_take] at hbuf
      have hnil : rest = [] := List.eq_nil_of_length_eq_zero (by omega)
      rw [hnil] at hlen ⊢
      exact ⟨.refl _, by rw [← hlen]; rfl⟩

/-- The boot sector made of a file. -/
def bootSector (bytes : List UInt8) : List UInt8 :=
  bytes ++ List.replicate (510 - bytes.length) 0 ++ [0x55, 0xAA]

theorem length_bootSector {bytes : List UInt8} (h : bytes.length ≤ 510) :
    (bootSector bytes).length = 512 := by
  unfold bootSector
  rw [List.length_append, List.length_append, List.length_replicate, Nat.add_sub_cancel' h]
  rfl

/-- The zeros behind a file. -/
def padding (bytes : List UInt8) : List UInt8 :=
  List.replicate ((512 - bytes.length % 512) % 512) 0

theorem length_padding (bytes : List UInt8) :
    (bytes ++ padding bytes).length = (bytes.length + 511) / 512 * 512 := by
  unfold padding
  rw [List.length_append, List.length_replicate]
  omega

theorem writeBoot_eq {files : Files} {name : String} {bytes : List UInt8}
    (hfile : files name = some bytes) (hlen : bytes.length ≤ 510) (d : Disk) :
    writeBoot files d name = diskwrite d (bootSector bytes) := by
  unfold writeBoot bootSector
  rw [hfile]
  dsimp only
  rw [List.take_of_length_le (by omega), if_neg (Nat.not_lt.2 hlen)]

/-- The bytes of an argument after `nsectors` sectors; none if it skips back or cannot be opened. -/
def argBytes (files : Files) (nsectors : Nat) (arg : String) : Option (List UInt8) :=
  match skipto arg with
  | some x => if nsectors > x then none else some (List.replicate (512 * (x - nsectors)) 0)
  | none => (files arg).map fun bytes => bytes ++ padding bytes

section
variable {files : Files} {nsectors : Nat} {arg : String} {bytes : List UInt8}

theorem argBytes_skip {x : Nat} (hx : skipto arg = some x) (h : nsectors ≤ x) :
    argBytes files nsectors arg = some (List.replicate (512 * (x - nsectors)) 0) := by
  unfold argBytes
  rw [hx]
  exact if_neg (Nat.not_lt.2 h)

theorem argBytes_file (harg : skipto arg = none) (hfile : files arg = some bytes) :
    argBytes files nsectors arg = some (bytes ++ padding bytes) := by
  unfold argBytes
  rw [harg, hfile]
  rfl

/-- An argument that has bytes skips forward or is a file. -/
theorem argBytes_cases (h : argBytes files nsectors arg = some bytes) :
    (∃ x, skipto arg = some x ∧ nsectors ≤ x ∧ bytes = List.replicate (512 * (x - nsectors)) 0) ∨
      ∃ file, skipto arg = none ∧ files arg = some file ∧ bytes = file ++ padding file := by
  unfold argBytes at h
  cases hx : skipto arg with
  | some x =>
    rw [hx] at h
    dsimp only at h
    split at h
    · cases h
    · rename_i hle
      exact .inl ⟨x, rfl, Nat.le_of_not_lt hle, (Option.some.inj h).symm⟩
  | none =>
    rw [hx] at h
    obtain ⟨file, hfile, rfl⟩ := Option.map_eq_some_iff.1 h
    exact .inr ⟨file, rfl, hfile, rfl⟩

theorem length_argBytes (h : argBytes files nsectors arg = some bytes) :
    512 * (bytes.length / 512) = bytes.length := by
  obtain ⟨x, -, -, rfl⟩ | ⟨file, -, -, rfl⟩ := argBytes_cases h
  · rw [List.length_replicate]
    omega
  · rw [length_padding]
    omega

/-- The writes for a file, with `nsectors` counting its sectors. -/
theorem writeArg_file (harg : skipto arg = none) (hfile : files arg = some bytes) (d : Disk) :
    writeArg files (d, nsectors) arg = (writeFile d 0 bytes >>= fun st =>
      diskwrite st.1 (padding bytes) >>= fun d =>
        .ok (d, nsectors + (bytes ++ padding bytes).length / 512)) := by
  unfold writeArg
  dsimp only
  rw [harg, hfile]
  dsimp only
  cases hwrite : writeFile d 0 bytes with
  | error e => rfl
  | ok st =>
    obtain ⟨d1, pos⟩ := st
    obtain ⟨-, hpos⟩ := writeFile_ok hwrite
    rw [Nat.zero_add] at hpos
    subst hpos
    rw [length_padding]
    show (if bytes.length % 512 ≠ 0 then _ else _) = _
    split
    · have hpad : zerobuf.take (512 - bytes.length % 512) = padding bytes := by
        unfold zerobuf padding
        rw [List.take_replicate]
        congr 1
        omega
      rw [hpad, show bytes.length + (512 - bytes.length % 512) = (bytes.length + 511) / 512 * 512 by
        omega]
      rfl
    · have hpad : padding bytes = [] := by
        unfold padding
        rw [show (512 - bytes.length % 512) % 512 = 0 by omega]
        rfl
      have hnil : diskwrite d1 [] = .ok d1 := by
        obtain ⟨writes, output, curoff⟩ := d1
        rw [diskwrite_eq]
        cases writes <;> rfl
      rw [hpad]
      show _ = (diskwrite d1 [] >>= _)
      rw [hnil, show (bytes.length + 511) / 512 * 512 / 512 = bytes.length / 512 by omega]
      rfl

theorem writeArg_skip {x : Nat} (hx : skipto arg = some x) (h : nsectors ≤ x) (d : Disk) :
    writeArg files (d, nsectors) arg = zeroSectors d nsectors (x - nsectors) := by
  unfold writeArg
  rw [hx]
  exact if_neg (Nat.not_lt.2 h)

/-- An argument is written as whole sectors. -/
theorem writeArg_ok (hb : argBytes files nsectors arg = some bytes) {d d' : Disk} {nsectors' : Nat}
    (h : writeArg files (d, nsectors) arg = .ok (d', nsectors')) :
    d.Wrote d' bytes ∧ nsectors' = nsectors + bytes.length / 512 := by
  obtain ⟨x, hx, hle, rfl⟩ | ⟨file, harg, hfile, rfl⟩ := argBytes_cases hb
  · rw [writeArg_skip hx hle] at h
    obtain ⟨hwrote, hn⟩ := zeroSectors_ok h
    rw [List.length_replicate]
    exact ⟨hwrote, by omega⟩
  · rw [writeArg_file harg hfile] at h
    obtain ⟨⟨d1, pos⟩, hd1, h⟩ := Made.bind_ok h
    obtain ⟨d2, hd2, h⟩ := Made.bind_ok h
    cases h
    exact ⟨(writeFile_ok hd1).1.trans (diskwrite_ok hd2), rfl⟩

end

/-! ## Calls of `write` that suffice -/

/-- Every call of `write` is interrupted or writes something. -/
def ShortWrites (writes : List WriteResult) : Prop :=
  ∀ w ∈ writes, w = .eintr ∨ ∃ n, w = .wrote (n + 1)

/-- The number of calls that are not interrupted. -/
def progress (writes : List WriteResult) : Nat := writes.countP (· ≠ .eintr)

/-- A function comes to return `ret` if `n` calls write something, and leaves the others. -/
def Lasts {α : Type} (n : Nat) (f : Disk → Made α) (ret : Disk → α) : Prop :=
  ∀ d : Disk, ShortWrites d.writes → n ≤ progress d.writes →
    ∃ d', f d = .ok (ret d') ∧ ShortWrites d'.writes ∧ progress d.writes ≤ progress d'.writes + n

theorem Lasts.pure {α : Type} (ret : Disk → α) : Lasts 0 (fun d => .ok (ret d)) ret :=
  fun d hd _ => ⟨d, rfl, hd, Nat.le_refl _⟩

theorem Lasts.bind {α β : Type} {f : Disk → Made α} {k : α → Made β} {ret : Disk → α}
    {ret' : Disk → β} {n m : Nat} (hf : Lasts n f ret) (hk : Lasts m (fun d => k (ret d)) ret') :
    Lasts (n + m) (fun d => f d >>= k) ret' := by
  intro d hd hn
  obtain ⟨d1, hf1, hd1, hn1⟩ := hf d hd (by omega)
  obtain ⟨d2, hf2, hd2, hn2⟩ := hk d1 hd1 (by omega)
  refine ⟨d2, ?_, hd2, by omega⟩
  dsimp only
  rw [hf1]
  exact hf2

theorem writeLoop_lasts {writes : List WriteResult} (hw : ShortWrites writes) {data : List UInt8}
    (hn : data.length ≤ progress writes) (output : List UInt8) (curoff : Nat) :
    ∃ d, writeLoop output curoff writes data = .ok d ∧ ShortWrites d.writes ∧
      progress writes ≤ progress d.writes + data.length := by
  induction writes generalizing data output curoff with
  | nil =>
    cases data with
    | nil => exact ⟨_, rfl, hw, Nat.le_refl _⟩
    | cons b data => exact absurd hn (Nat.not_succ_le_zero _)
  | cons w writes ih =>
    have hrest : ShortWrites writes := fun v hv => hw v (List.mem_cons_of_mem _ hv)
    cases data with
    | nil => exact ⟨_, rfl, hw, Nat.le_refl _⟩
    | cons b data =>
      obtain rfl | ⟨n, rfl⟩ := hw w List.mem_cons_self
      · have hcount : progress (.eintr :: writes) = progress writes := by simp [progress]
        rw [hcount] at hn ⊢
        exact ih hrest hn _ _
      · -- a call that writes some of the bytes
        have hcount : progress (.wrote (n + 1) :: writes) = progress writes + 1 := by
          simp [progress]
        have hdrop : ((b :: data).drop (n + 1)).length = data.length - n := by simp
        rw [hcount] at hn ⊢
        rw [List.length_cons] at hn
        have hnext : ((b :: data).drop (n + 1)).length ≤ progress writes := by omega
        obtain ⟨d, hd, hshort, hle⟩ := ih hrest hnext (output ++ (b :: data).take (n + 1))
          (curoff + ((b :: data).take (n + 1)).length)
        refine ⟨d, hd, hshort, ?_⟩
        rw [List.length_cons]
        omega

theorem diskwrite_lasts (data : List UInt8) :
    Lasts data.length (diskwrite · data) fun d => d := by
  intro d hd hn
  obtain ⟨d', hd', h⟩ := writeLoop_lasts hd hn d.output d.curoff
  exact ⟨d', (diskwrite_eq d data).trans hd', h⟩

theorem zeroSectors_lasts (nsectors n : Nat) :
    Lasts (512 * n) (zeroSectors · nsectors n) fun d => (d, nsectors + n) := by
  induction n generalizing nsectors with
  | zero => exact .pure _
  | succ n ih =>
    have hrest := ih (nsectors + 1)
    rw [Nat.add_right_comm] at hrest
    have hall := (diskwrite_lasts zerobuf).bind hrest
    rwa [zerobuf, List.length_replicate, Nat.add_comm 512] at hall

theorem writeFile_lasts (pos : Nat) (rest : List UInt8) :
    Lasts rest.length (writeFile · pos rest) fun d => (d, pos + rest.length) := by
  induction hlen : rest.length using Nat.strongRecOn generalizing pos rest with
  | ind n ih =>
    by_cases hbuf : 0 < (rest.take 4096).length
    · have hunfold : (writeFile · pos rest) = fun d => diskwrite d (rest.take 4096) >>= fun d =>
          writeFile d (pos + (rest.take 4096).length) (rest.drop 4096) := by
        funext d
        rw [writeFile, if_pos hbuf]
      have hnext := ih _ (by rw [List.length_take] at hbuf; rw [← hlen, List.length_drop]; omega)
        (pos + (rest.take 4096).length) (rest.drop 4096) rfl
      have hsplit : (rest.take 4096).length + (rest.drop 4096).length = n := by
        rw [← List.length_append, List.take_append_drop, hlen]
      rw [Nat.add_assoc, hsplit] at hnext
      have hall := (diskwrite_lasts (rest.take 4096)).bind hnext
      rwa [hsplit, ← hunfold] at hall
    · have hzero : n = 0 := by
        rw [List.length_take] at hbuf
        omega
      have hunfold : (writeFile · pos rest) = fun d => .ok (d, pos + n) := by
        funext d
        rw [writeFile, if_neg hbuf, hzero, Nat.add_zero]
      rw [hunfold, hzero]
      exact .pure _

theorem writeArg_lasts {files : Files} {nsectors : Nat} {arg : String} {bytes : List UInt8}
    (h : argBytes files nsectors arg = some bytes) :
    Lasts bytes.length (fun d => writeArg files (d, nsectors) arg)
      fun d => (d, nsectors + bytes.length / 512) := by
  obtain ⟨x, hx, hle, rfl⟩ | ⟨file, harg, hfile, rfl⟩ := argBytes_cases h
  · have hskip : (fun d => writeArg files (d, nsectors) arg) =
        (zeroSectors · nsectors (x - nsectors)) := funext fun d => writeArg_skip hx hle d
    rw [hskip, List.length_replicate, Nat.mul_div_cancel_left _ (by decide)]
    exact zeroSectors_lasts _ _
  · rw [show (fun d => writeArg files (d, nsectors) arg) = _ from
      funext fun d => writeArg_file harg hfile d]
    have hpad := (diskwrite_lasts (padding file)).bind
      (.pure fun d => (d, nsectors + (file ++ padding file).length / 512))
    have hall := (writeFile_lasts 0 file).bind (k := fun st =>
      diskwrite st.1 (padding file) >>= fun d =>
        .ok (d, nsectors + (file ++ padding file).length / 512)) hpad
    rwa [Nat.add_zero, ← List.length_append] at hall

end SchedOS
