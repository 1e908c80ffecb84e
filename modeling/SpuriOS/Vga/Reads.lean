import SpuriOS.Vga.Strokes

/-! # What the printers read of their input

An item of the input is a character, a specifier, or an escape. The printers go over an item without
a look at the end of the input, so that they stay in it just when its items are whole. -/

namespace SpuriOS

namespace Traced

/-- What is done after some bytes were read. -/
def reading {α : Type} (addresses : List Nat) (r : List Nat × α) : List Nat × α :=
  (addresses ++ r.1, r.2)

/-- The loop of `vga_writebuf`, with the bytes of `string` that it reads. -/
def writebufLogged (video : Bool) (string : Nat → Byte) (size : Nat) :
    (fuel sz : Nat) → Traced → List Nat × Nat × Traced
  | 0, sz, t => ([], sz, t)
  | fuel + 1, sz, t =>
    if sz < size then
      if string sz = 0 then ([sz], sz + 1, t)
      else if string sz = asciiBackslash then
        if string (sz + 1) = asciiC then
          reading [sz, sz + 1, sz + 2, sz + 3] <|
            writebufLogged video string size fuel (sz + 4)
              { t with
                attr := attrByte 8 (scanUhex (string (sz + 2))) (scanUhex (string (sz + 3))) }
        else
          reading [sz, sz + 1] <|
            writebufLogged video string size fuel (sz + 2) (t.putchar video asciiBackslash false)
      else
        reading [sz] <|
          writebufLogged video string size fuel (sz + 1) (t.putchar video (string sz) false)
    else ([], sz, t)

/-- What `vga_writebuf` returns: `sz` is an `int`. -/
def writebufResult (video : Bool) (t : Traced) (string : Nat → Byte) (size : Nat) : Int :=
  toInt32 (Word32.wrap (t.vgaWritebuf video string size).1)

/-- The loop of the two other printers, with the bytes of the format that it reads. -/
def printfLogged (alpha : Bool) (mem : Nat → Byte) :
    (fuel ptr args size : Nat) → Traced → List Nat × Option (Nat × Traced)
  | 0, _, _, _, _ => ([], none)
  | fuel + 1, ptr, args, size, t =>
    if mem ptr = 0 then ([ptr], some (size, t))
    else if mem ptr = asciiPercent then
      let spec := mem (ptr + 1)
      let arg := wordIn mem args
      reading [ptr, ptr + 1] <|
        if spec = 'c'.toUInt8 then
          printfLogged alpha mem fuel (ptr + 2) (args + 4) (size + 1)
            (t.putchar true arg.toUInt8 false)
        else if spec = 's'.toUInt8 then
          match printStr mem fuel arg.toNat size t with
          | none => ([], none)
          | some r => printfLogged alpha mem fuel (ptr + 2) (args + 4) r.1 r.2
        else if spec = 'd'.toUInt8 then
          let r := t.printDec (toInt32 arg.toNat)
          printfLogged alpha mem fuel (ptr + 2) (args + 4) (size + r.1) r.2
        else if spec = 'u'.toUInt8 then
          let r := t.printUdec arg.toNat
          printfLogged alpha mem fuel (ptr + 2) (args + 4) (size + r.1) r.2
        else if spec = 'x'.toUInt8 ∨ spec = 'p'.toUInt8 then
          let r := t.printUhex arg.toNat
          printfLogged alpha mem fuel (ptr + 2) (args + 4) (size + r.1) r.2
        else if spec = '%'.toUInt8 then
          printfLogged alpha mem fuel (ptr + 2) args (size + 1) (t.putchar true asciiPercent false)
        else printfLogged alpha mem fuel (ptr + 2) args size t
    else if mem ptr = asciiBackslash then
      if mem (ptr + 1) = asciiC then
        reading [ptr, ptr + 1, ptr + 2, ptr + 3] <|
          printfLogged alpha mem fuel (ptr + 4) args size
            { t with attr := attrByte 4 (scanUhex (mem (ptr + 2))) (scanUhex (mem (ptr + 3))) }
      else
        reading [ptr, ptr + 1] <|
          printfLogged alpha mem fuel (ptr + 1) args size (t.putchar true asciiBackslash false)
    else if alpha ∧ mem ptr = asciiSpace then
      reading [ptr] <|
        printfLogged alpha mem fuel (ptr + 1) args (size + 1) { t with x := byte (t.x + 1) }
    else
      reading [ptr] <|
        printfLogged alpha mem fuel (ptr + 1) args (size + 1) (t.putchar true (mem ptr) false)

/-! ## The loops without their reads -/

theorem writebufLogged_snd {video : Bool} {string : Nat → Byte} {size fuel sz : Nat} {t : Traced} :
    (writebufLogged video string size fuel sz t).2 = writebufFrom video string size fuel sz t := by
  induction fuel generalizing sz t with
  | zero => rfl
  | succ fuel ih =>
    rw [writebufLogged, writebufFrom]
    split
    · split
      · rfl
      split
      · split
        · exact ih
        · exact ih
      · exact ih
    · rfl

theorem printfLogged_snd {alpha : Bool} {mem : Nat → Byte} {fuel ptr args size : Nat}
    {t : Traced} :
    (printfLogged alpha mem fuel ptr args size t).2 =
      printfLoop alpha mem fuel ptr args size t := by
  induction fuel generalizing ptr args size t with
  | zero => rfl
  | succ fuel ih =>
    rw [printfLogged, printfLoop]
    dsimp only
    split
    · rfl
    split
    · split
      · exact ih
      split
      · cases printStr mem fuel (wordIn mem args).toNat size t with
        | none => rfl
        | some r => exact ih
      split
      · exact ih
      split
      · exact ih
      split
      · exact ih
      split
      · exact ih
      · exact ih
    split
    · split
      · exact ih
      · exact ih
    split
    · exact ih
    · exact ih

end Traced

/-! ## Whole items -/

/-- From `sz` on, the bytes before `size` are whole items, and `vga_writebuf` ends at `stop`, behind
a NUL or behind the last item. -/
inductive BufWhole (string : Nat → Byte) (size : Nat) : (sz stop : Nat) → Prop where
  | stop : BufWhole string size size size
  | nul : sz < size → string sz = 0 → BufWhole string size sz (sz + 1)
  | char : sz < size → string sz ≠ 0 → string sz ≠ asciiBackslash →
      BufWhole string size (sz + 1) stop → BufWhole string size sz stop
  | backslash : sz + 1 < size → string sz = asciiBackslash → string (sz + 1) ≠ asciiC →
      BufWhole string size (sz + 2) stop → BufWhole string size sz stop
  | color : sz + 3 < size → string sz = asciiBackslash → string (sz + 1) = asciiC →
      BufWhole string size (sz + 4) stop → BufWhole string size sz stop

/-- From `ptr` on, the bytes before the NUL at `nul` are whole items. A backslash without a `c` is
an item by itself. -/
inductive FormatWhole (mem : Nat → Byte) (nul : Nat) : (ptr : Nat) → Prop where
  | stop : FormatWhole mem nul nul
  | char : ptr < nul → mem ptr ≠ asciiPercent → mem ptr ≠ asciiBackslash →
      FormatWhole mem nul (ptr + 1) → FormatWhole mem nul ptr
  | spec : ptr + 1 < nul → mem ptr = asciiPercent →
      FormatWhole mem nul (ptr + 2) → FormatWhole mem nul ptr
  | backslash : ptr < nul → mem ptr = asciiBackslash → mem (ptr + 1) ≠ asciiC →
      FormatWhole mem nul (ptr + 1) → FormatWhole mem nul ptr
  | color : ptr + 3 < nul → mem ptr = asciiBackslash → mem (ptr + 1) = asciiC →
      FormatWhole mem nul (ptr + 4) → FormatWhole mem nul ptr

namespace Traced

section
variable {video : Bool} {string : Nat → Byte} {size fuel sz stop : Nat} {t : Traced}

theorem forall_mem_reading {α : Type} {addresses : List Nat} {r : List Nat × α} {P : Nat → Prop} :
    (∀ a ∈ (reading addresses r).1, P a) ↔ (∀ a ∈ addresses, P a) ∧ ∀ a ∈ r.1, P a :=
  List.forall_mem_append

theorem bufWhole_le (h : BufWhole string size sz stop) : sz ≤ stop ∧ stop ≤ size := by
  induction h with
  | stop => exact ⟨Nat.le_refl _, Nat.le_refl _⟩
  | nul hsz => exact ⟨Nat.le_succ _, hsz⟩
  | char _ _ _ _ ih => exact ⟨by omega, ih.2⟩
  | backslash _ _ _ _ ih => exact ⟨by omega, ih.2⟩
  | color _ _ _ _ ih => exact ⟨by omega, ih.2⟩

/-- Over whole items the loop reads what is before `size`, and stops where they do. -/
theorem writebufLogged_whole (h : BufWhole string size sz stop) (hfuel : size ≤ sz + fuel) :
    (∀ a ∈ (writebufLogged video string size fuel sz t).1, a < size) ∧
      (writebufLogged video string size fuel sz t).2.1 = stop := by
  induction h generalizing fuel t with
  | stop =>
    cases fuel with
    | zero => exact ⟨nofun, rfl⟩
    | succ fuel =>
      rw [writebufLogged, if_neg (Nat.lt_irrefl _)]
      exact ⟨nofun, rfl⟩
  | nul hsz h0 =>
    obtain ⟨fuel, rfl⟩ : ∃ k, fuel = k + 1 := ⟨fuel - 1, by omega⟩
    rw [writebufLogged, if_pos hsz, if_pos h0]
    exact ⟨List.forall_mem_singleton.2 hsz, rfl⟩
  | char hsz h0 hback _ ih =>
    obtain ⟨fuel, rfl⟩ : ∃ k, fuel = k + 1 := ⟨fuel - 1, by omega⟩
    rw [writebufLogged, if_pos hsz, if_neg h0, if_neg hback, forall_mem_reading]
    obtain ⟨hreads, hstop⟩ := @ih fuel _ (by omega)
    exact ⟨⟨List.forall_mem_singleton.2 hsz, hreads⟩, hstop⟩
  | backslash hsz hback hc _ ih =>
    obtain ⟨fuel, rfl⟩ : ∃ k, fuel = k + 1 := ⟨fuel - 1, by omega⟩
    rw [writebufLogged, if_pos (by omega), if_neg (by rw [hback]; decide), if_pos hback, if_neg hc,
      forall_mem_reading]
    obtain ⟨hreads, hstop⟩ := @ih fuel _ (by omega)
    refine ⟨⟨fun a ha => ?_, hreads⟩, hstop⟩
    simp only [List.mem_cons, List.not_mem_nil, or_false] at ha
    omega
  | color hsz hback hc _ ih =>
    obtain ⟨fuel, rfl⟩ : ∃ k, fuel = k + 1 := ⟨fuel - 1, by omega⟩
    rw [writebufLogged, if_pos (by omega), if_neg (by rw [hback]; decide), if_pos hback, if_pos hc,
      forall_mem_reading]
    obtain ⟨hreads, hstop⟩ := @ih fuel _ (by omega)
    refine ⟨⟨fun a ha => ?_, hreads⟩, hstop⟩
    simp only [List.mem_cons, List.not_mem_nil, or_false] at ha
    omega

/-- If it reads no more than that, the items are whole. -/
theorem whole_of_writebufLogged (hsz : sz ≤ size) (hfuel : size ≤ sz + fuel)
    (h : ∀ a ∈ (writebufLogged video string size fuel sz t).1, a < size) :
    ∃ stop, BufWhole string size sz stop := by
  induction fuel generalizing sz t with
  | zero =>
    obtain rfl : sz = size := Nat.le_antisymm hsz hfuel
    exact ⟨_, .stop⟩
  | succ fuel ih =>
    obtain rfl | hlt := Nat.eq_or_lt_of_le hsz
    · exact ⟨_, .stop⟩
    rw [writebufLogged, if_pos hlt] at h
    split at h
    next h0 => exact ⟨_, .nul hlt h0⟩
    next h0 =>
    split at h
    next hback =>
      split at h
      next hc =>
        rw [forall_mem_reading] at h
        have hlast := h.1 (sz + 3) (by simp)
        obtain ⟨stop, hstop⟩ := ih (by omega) (by omega) h.2
        exact ⟨stop, .color hlast hback hc hstop⟩
      next hc =>
        rw [forall_mem_reading] at h
        have hlast := h.1 (sz + 1) (by simp)
        obtain ⟨stop, hstop⟩ := ih (by omega) (by omega) h.2
        exact ⟨stop, .backslash hlast hback hc hstop⟩
    next hback =>
      rw [forall_mem_reading] at h
      obtain ⟨stop, hstop⟩ := ih (by omega) (by omega) h.2
      exact ⟨stop, .char hlt h0 hback hstop⟩

end

section
variable {alpha : Bool} {mem : Nat → Byte} {fuel ptr args size nul : Nat} {t : Traced}

/-- A round reads `addresses` and goes on at `next`. -/
def Reads (alpha : Bool) (mem : Nat → Byte) (fuel ptr args size : Nat) (t : Traced)
    (addresses : List Nat) (next : Nat) : Prop :=
  ∃ args' size' t', (args' = args ∨ args' = args + 4) ∧
    (printfLogged alpha mem (fuel + 1) ptr args size t).1 =
      addresses ++ (printfLogged alpha mem fuel next args' size' t').1

theorem printfLogged_nul (h : mem ptr = 0) :
    (printfLogged alpha mem (fuel + 1) ptr args size t).1 = [ptr] := by
  rw [printfLogged, if_pos h]

/-- A specifier, whose string has an end in reach or has none. -/
theorem reads_spec (h : mem ptr = asciiPercent) :
    Reads alpha mem fuel ptr args size t [ptr, ptr + 1] (ptr + 2) ∨
      printStr mem fuel (wordIn mem args).toNat size t = none ∧
        (printfLogged alpha mem (fuel + 1) ptr args size t).1 = [ptr, ptr + 1] := by
  have h0 : mem ptr ≠ 0 := by
    rw [h]
    decide
  rw [Reads, printfLogged, if_neg h0, if_pos h]
  dsimp only
  split
  · exact .inl ⟨_, _, _, .inr rfl, rfl⟩
  split
  · cases printStr mem fuel (wordIn mem args).toNat size t with
    | none => exact .inr ⟨rfl, rfl⟩
    | some r => exact .inl ⟨_, _, _, .inr rfl, rfl⟩
  split
  · exact .inl ⟨_, _, _, .inr rfl, rfl⟩
  split
  · exact .inl ⟨_, _, _, .inr rfl, rfl⟩
  split
  · exact .inl ⟨_, _, _, .inr rfl, rfl⟩
  split
  · exact .inl ⟨_, _, _, .inl rfl, rfl⟩
  · exact .inl ⟨_, _, _, .inl rfl, rfl⟩

theorem backslash_ne (h : mem ptr = asciiBackslash) : mem ptr ≠ 0 ∧ mem ptr ≠ asciiPercent := by
  rw [h]
  decide

theorem reads_color (h : mem ptr = asciiBackslash) (hc : mem (ptr + 1) = asciiC) :
    Reads alpha mem fuel ptr args size t [ptr, ptr + 1, ptr + 2, ptr + 3] (ptr + 4) := by
  obtain ⟨h0, hpercent⟩ := backslash_ne h
  rw [Reads, printfLogged, if_neg h0, if_neg hpercent, if_pos h, if_pos hc]
  exact ⟨_, _, _, .inl rfl, rfl⟩

theorem reads_backslash (h : mem ptr = asciiBackslash) (hc : mem (ptr + 1) ≠ asciiC) :
    Reads alpha mem fuel ptr args size t [ptr, ptr + 1] (ptr + 1) := by
  obtain ⟨h0, hpercent⟩ := backslash_ne h
  rw [Reads, printfLogged, if_neg h0, if_neg hpercent, if_pos h, if_neg hc]
  exact ⟨_, _, _, .inl rfl, rfl⟩

theorem reads_char (h0 : mem ptr ≠ 0) (hpercent : mem ptr ≠ asciiPercent)
    (h : mem ptr ≠ asciiBackslash) : Reads alpha mem fuel ptr args size t [ptr] (ptr + 1) := by
  rw [Reads, printfLogged, if_neg h0, if_neg hpercent, if_neg h]
  split
  · exact ⟨_, _, _, .inl rfl, rfl⟩
  · exact ⟨_, _, _, .inl rfl, rfl⟩

/-- What is read by a round that stays in the format, and by those after it. -/
theorem Reads.forall {addresses : List Nat} {next : Nat} {P : Nat → Prop}
    (h : Reads alpha mem fuel ptr args size t addresses next) (haddresses : ∀ a ∈ addresses, P a)
    (hnext : ∀ args size t, ∀ a ∈ (printfLogged alpha mem fuel next args size t).1, P a) :
    ∀ a ∈ (printfLogged alpha mem (fuel + 1) ptr args size t).1, P a := by
  obtain ⟨args', size', t', -, heq⟩ := h
  rw [heq, List.forall_mem_append]
  exact ⟨haddresses, hnext args' size' t'⟩

/-- Whole items are read up to the NUL. -/
theorem printfLogged_whole (hnul : mem nul = 0) (hformat : ∀ i, ptr ≤ i → i < nul → mem i ≠ 0)
    (h : FormatWhole mem nul ptr) :
    ∀ a ∈ (printfLogged alpha mem fuel ptr args size t).1, a ≤ nul := by
  induction h generalizing fuel args size t with
  | stop =>
    cases fuel with
    | zero => exact nofun
    | succ fuel =>
      rw [printfLogged_nul hnul]
      exact List.forall_mem_singleton.2 (Nat.le_refl _)
  | char hptr hpercent hback _ ih =>
    cases fuel with
    | zero => exact nofun
    | succ fuel =>
      refine (reads_char (hformat _ (Nat.le_refl _) hptr) hpercent hback).forall ?_ fun _ _ _ =>
        ih fun i hi => hformat i (by omega)
      exact List.forall_mem_singleton.2 hptr.le
  | @spec ptr hptr hpercent _ ih =>
    cases fuel with
    | zero => exact nofun
    | succ fuel =>
      have haddresses : ∀ a ∈ [ptr, ptr + 1], a ≤ nul := fun a ha => by
        simp only [List.mem_cons, List.not_mem_nil, or_false] at ha
        omega
      rcases @reads_spec alpha mem fuel ptr args size t hpercent with hreads | ⟨-, hreads⟩
      · exact hreads.forall haddresses fun _ _ _ => ih fun i hi => hformat i (by omega)
      · rwa [hreads]
  | backslash hptr hback hc _ ih =>
    cases fuel with
    | zero => exact nofun
    | succ fuel =>
      refine (reads_backslash hback hc).forall (fun a ha => ?_) fun _ _ _ =>
        ih fun i hi => hformat i (by omega)
      simp only [List.mem_cons, List.not_mem_nil, or_false] at ha
      omega
  | color hptr hback hc _ ih =>
    cases fuel with
    | zero => exact nofun
    | succ fuel =>
      refine (reads_color hback hc).forall (fun a ha => ?_) fun _ _ _ =>
        ih fun i hi => hformat i (by omega)
      simp only [List.mem_cons, List.not_mem_nil, or_false] at ha
      omega

/-- A string that has an end is printed. -/
theorem printStr_isSome {n str : Nat} (h : mem (str + n) = 0) (hfuel : n < fuel) :
    (printStr mem fuel str size t).isSome := by
  induction n generalizing fuel str size t with
  | zero =>
    obtain ⟨fuel, rfl⟩ : ∃ k, fuel = k + 1 := ⟨fuel - 1, by omega⟩
    rw [printStr, if_pos (show mem str = 0 from h)]
    rfl
  | succ n ih =>
    obtain ⟨fuel, rfl⟩ : ∃ k, fuel = k + 1 := ⟨fuel - 1, by omega⟩
    rw [printStr]
    split
    · rfl
    · exact ih (by rwa [Nat.add_right_comm, Nat.add_assoc]) (by omega)

/-- A round reads its first byte. -/
theorem head_mem_printfLogged :
    ptr ∈ (printfLogged alpha mem (fuel + 1) ptr args size t).1 := by
  have hreads : ∀ {addresses next}, Reads alpha mem fuel ptr args size t (ptr :: addresses) next →
      ptr ∈ (printfLogged alpha mem (fuel + 1) ptr args size t).1 := by
    rintro addresses next ⟨_, _, _, -, heq⟩
    rw [heq]
    exact List.mem_cons_self
  by_cases h0 : mem ptr = 0
  · rw [printfLogged_nul h0]
    exact List.mem_singleton_self _
  by_cases hpercent : mem ptr = asciiPercent
  · rcases @reads_spec alpha mem fuel ptr args size t hpercent with h | ⟨-, heq⟩
    · exact hreads h
    · rw [heq]
      exact List.mem_cons_self
  by_cases hback : mem ptr = asciiBackslash
  · by_cases hc : mem (ptr + 1) = asciiC
    · exact hreads (reads_color hback hc)
    · exact hreads (reads_backslash hback hc)
  · exact hreads (reads_char h0 hpercent hback)

/-- With enough rounds, a byte behind the NUL is read. -/
def Overreads (alpha : Bool) (mem : Nat → Byte) (nul ptr args : Nat) : Prop :=
  ∃ k, ∀ fuel, k ≤ fuel → ∀ size t, ∃ a ∈ (printfLogged alpha mem fuel ptr args size t).1, nul < a

theorem overreads_of_lt (h : nul < ptr) : Overreads alpha mem nul ptr args := by
  refine ⟨1, fun fuel hfuel size t => ⟨ptr, ?_, h⟩⟩
  obtain ⟨fuel, rfl⟩ : ∃ k, fuel = k + 1 := ⟨fuel - 1, by omega⟩
  exact head_mem_printfLogged

/-- A round after which a byte behind the NUL is read. -/
theorem overreads_of_round {next : Nat}
    (hround : ∃ k, ∀ fuel, k ≤ fuel → ∀ size t, ∃ addresses,
      Reads alpha mem fuel ptr args size t addresses next)
    (hnext : ∀ args, Overreads alpha mem nul next args) : Overreads alpha mem nul ptr args := by
  obtain ⟨k, hround⟩ := hround
  obtain ⟨k', hsame⟩ := hnext args
  obtain ⟨k'', hmore⟩ := hnext (args + 4)
  refine ⟨k + k' + k'' + 1, fun fuel hfuel size t => ?_⟩
  obtain ⟨fuel, rfl⟩ : ∃ k, fuel = k + 1 := ⟨fuel - 1, by omega⟩
  obtain ⟨addresses, args', size', t', hargs, heq⟩ := hround fuel (by omega) size t
  have hbeyond : ∃ a ∈ (printfLogged alpha mem fuel next args' size' t').1, nul < a := by
    rcases hargs with rfl | rfl
    · exact hsame fuel (by omega) size' t'
    · exact hmore fuel (by omega) size' t'
  obtain ⟨a, ha, hlt⟩ := hbeyond
  exact ⟨a, by rw [heq]; exact List.mem_append_right _ ha, hlt⟩

/-- If the last item is cut off, the loop goes past the NUL. -/
theorem overreads_of_cut (hends : ∀ str, ∃ n, mem (str + n) = 0)
    (hformat : ∀ i, ptr ≤ i → i < nul → mem i ≠ 0) (hptr : ptr ≤ nul)
    (h : ¬FormatWhole mem nul ptr) (args : Nat) : Overreads alpha mem nul ptr args := by
  induction hd : nul - ptr using Nat.strong_induction_on generalizing ptr args with
  | _ d ih =>
    have hlt : ptr < nul := by
      refine Nat.lt_of_le_of_ne hptr fun heq => h ?_
      rw [heq]
      exact .stop
    have h0 := hformat ptr (Nat.le_refl _) hlt
    -- what comes behind the item is cut off too, or is behind the NUL
    have hnext : ∀ {next}, ptr < next → (next ≤ nul → ¬FormatWhole mem nul next) →
        ∀ args, Overreads alpha mem nul next args := by
      intro next hless hcut args
      by_cases hle : next ≤ nul
      · exact ih _ (by omega) (fun i hi => hformat i (by omega)) hle (hcut hle) args rfl
      · exact overreads_of_lt (by omega)
    by_cases hpercent : mem ptr = asciiPercent
    · refine overreads_of_round ?_ (@hnext (ptr + 2) (by omega) fun hle hwhole => ?_)
      · obtain ⟨n, hn⟩ := hends (wordIn mem args).toNat
        refine ⟨n + 1, fun fuel hfuel size t => ⟨[ptr, ptr + 1], ?_⟩⟩
        refine (reads_spec hpercent).resolve_right fun hnone => ?_
        have hsome := @printStr_isSome mem fuel size t n _ hn (by omega)
        rw [hnone.1] at hsome
        cases hsome
      · exact h (.spec (by omega) hpercent hwhole)
    by_cases hback : mem ptr = asciiBackslash
    · by_cases hc : mem (ptr + 1) = asciiC
      · refine overreads_of_round ⟨0, fun fuel _ size t => ⟨_, reads_color hback hc⟩⟩
          (hnext (by omega) fun hle hwhole => ?_)
        exact h (.color (by omega) hback hc hwhole)
      · refine overreads_of_round ⟨0, fun fuel _ size t => ⟨_, reads_backslash hback hc⟩⟩
          (hnext (by omega) fun _ hwhole => ?_)
        exact h (.backslash hlt hback hc hwhole)
    · refine overreads_of_round ⟨0, fun fuel _ size t => ⟨_, reads_char h0 hpercent hback⟩⟩
        (hnext (by omega) fun _ hwhole => ?_)
      exact h (.char hlt hpercent hback hwhole)

end

theorem toInt32_nonneg_iff {n : Nat} (h : n < 2 ^ 32) :
    0 ≤ toInt32 (Word32.wrap n) ↔ n < 2 ^ 31 := by
  rw [Word32.wrap_of_lt h, toInt32]
  split <;> omega

/-- `vga_writebuf` stays in its buffer and returns a count just when the items are whole and the
count is an `int`. -/
theorem writebuf_stops_iff (video : Bool) (string : Nat → Byte) (size : UInt32) (t : Traced) :
    ((∀ a ∈ (writebufLogged video string size.toNat size.toNat 0 t).1, a < size.toNat) ∧
        0 ≤ writebufResult video t string size.toNat ∧
        writebufResult video t string size.toNat ≤ size.toNat) ↔
      ∃ stop < 2 ^ 31, BufWhole string size.toNat 0 stop := by
  have hsize := size.toNat_lt
  have hresult : writebufResult video t string size.toNat =
      toInt32 (Word32.wrap (writebufLogged video string size.toNat size.toNat 0 t).2.1) := by
    rw [writebufLogged_snd]
    rfl
  have hfuel : size.toNat ≤ 0 + size.toNat := (Nat.zero_add _).ge
  rw [hresult]
  constructor
  · rintro ⟨hreads, hnonneg, -⟩
    obtain ⟨stop, hwhole⟩ := whole_of_writebufLogged (Nat.zero_le _) hfuel hreads
    obtain ⟨-, hstop⟩ := @writebufLogged_whole video string _ _ 0 stop t hwhole hfuel
    have hle := (bufWhole_le hwhole).2
    rw [hstop, toInt32_nonneg_iff (by omega)] at hnonneg
    exact ⟨stop, hnonneg, hwhole⟩
  · rintro ⟨stop, hlt, hwhole⟩
    obtain ⟨hreads, hstop⟩ := @writebufLogged_whole video string _ _ 0 stop t hwhole hfuel
    have hle := (bufWhole_le hwhole).2
    rw [hstop, Word32.wrap_of_lt (by omega), toInt32_of_lt hlt]
    exact ⟨hreads, by omega, by omega⟩

end Traced

/-- The printers read no byte behind their input if and only if its items are whole. The other way
round, for the two that have a format, needs that the strings of a `%s` have an end. -/
theorem printers_stop_iff (video alpha : Bool) (t : Traced) :
    (∀ (string : Nat → Byte) (size : UInt32),
      ((∀ a ∈ (Traced.writebufLogged video string size.toNat size.toNat 0 t).1, a < size.toNat) ∧
          0 ≤ Traced.writebufResult video t string size.toNat ∧
          Traced.writebufResult video t string size.toNat ≤ size.toNat) ↔
        ∃ stop < 2 ^ 31, BufWhole string size.toNat 0 stop) ∧
    ∀ (mem : Nat → Byte) (format nul args : Nat), format ≤ nul → mem nul = 0 →
      (∀ i, format ≤ i → i < nul → mem i ≠ 0) →
      (FormatWhole mem nul format →
        ∀ fuel, ∀ a ∈ (Traced.printfLogged alpha mem fuel format args 0 t).1, a ≤ nul) ∧
      ((∀ str, ∃ n, mem (str + n) = 0) →
        (∀ fuel, ∀ a ∈ (Traced.printfLogged alpha mem fuel format args 0 t).1, a ≤ nul) →
          FormatWhole mem nul format) := by
  refine ⟨fun string size => Traced.writebuf_stops_iff video string size t, ?_⟩
  intro mem format nul args hle hnul hformat
  refine ⟨fun hwhole fuel => Traced.printfLogged_whole hnul hformat hwhole, fun hends h => ?_⟩
  by_contra hcut
  obtain ⟨k, hk⟩ := @Traced.overreads_of_cut alpha mem format nul hends hformat hle hcut args
  obtain ⟨a, ha, hlt⟩ := hk k (Nat.le_refl k) 0 t
  exact Nat.not_le.2 hlt (h k a ha)

/-- A text, with NULs behind it. -/
def textAt (text : List Byte) (i : Nat) : Byte := text.getD i 0

theorem printers_stop_text :
    (∀ a ∈ (Traced.writebufLogged false (textAt [0x6F, 0x6B]) 2 2 0 ⟨blankScreen, []⟩).1, a < 2) ∧
      ∀ fuel, ∀ a ∈ (Traced.printfLogged false (textAt [0x25, 0x25]) fuel 0 8 0
        ⟨blankScreen, []⟩).1, a ≤ 2 := by
  have hstop := printers_stop_iff false false ⟨blankScreen, []⟩
  constructor
  · exact ((hstop.1 (textAt [0x6F, 0x6B]) 2).2 ⟨2, by decide,
      .char (by decide) (by decide) (by decide)
        (.char (by decide) (by decide) (by decide) .stop)⟩).1
  · exact (hstop.2 (textAt [0x25, 0x25]) 0 2 8 (by decide) rfl (by decide)).1
      (.spec (by decide) rfl .stop)

/-- A backslash at the end of a buffer, and a `%` at the end of a format. -/
theorem cut_items_overread :
    (Traced.writebufLogged false (textAt [0x5C]) 1 1 0 ⟨blankScreen, []⟩).1 = [0, 1] ∧
      Traced.writebufResult false ⟨blankScreen, []⟩ (textAt [0x5C]) 1 = 2 ∧
      (Traced.printfLogged false (textAt [0x25]) 2 0 8 0 ⟨blankScreen, []⟩).1 = [0, 1, 2] := by
  decide

end SpuriOS
