import SpuriOS.Vga.Traced

/-! # What the printers do to a screen

A printer turns its input into strokes, which do not depend on the screen, and draws them one after
the other. -/

namespace SpuriOS

inductive Stroke where
  /-- `putchar`. -/
  | key (c : Byte) (raw : Bool)
  | color (attr : Byte)
  /-- A space that only moves the cursor. -/
  | skip

open Traced (byte)

namespace Stroke

def draw (video : Bool) (t : Traced) : Stroke → Traced
  | key c raw => t.putchar video c raw
  | color attr => { t with attr := attr }
  | skip => { t with x := byte (t.x + 1) }

/-- The characters of a number. -/
def digits (text : List Byte) : List Stroke := text.map (key · false)

/-- The strokes of `vga_writebuf`. -/
def ofBuf (string : Nat → Byte) (size : Nat) : (fuel sz : Nat) → List Stroke
  | 0, _ => []
  | fuel + 1, sz =>
    if sz < size then
      if string sz = 0 then []
      else if string sz = asciiBackslash then
        if string (sz + 1) = asciiC then
          color (attrByte 8 (scanUhex (string (sz + 2))) (scanUhex (string (sz + 3)))) ::
            ofBuf string size fuel (sz + 4)
        else key asciiBackslash false :: ofBuf string size fuel (sz + 2)
      else key (string sz) false :: ofBuf string size fuel (sz + 1)
    else []

/-- The strokes of a `%s`. -/
def ofStr (mem : Nat → Byte) : (fuel str : Nat) → Option (List Stroke)
  | 0, _ => none
  | fuel + 1, str =>
    if mem str = 0 then some [] else (ofStr mem fuel (str + 1)).map (key (mem str) true :: ·)

/-- The strokes of a format. -/
def ofFormat (alpha : Bool) (mem : Nat → Byte) : (fuel ptr args : Nat) → Option (List Stroke)
  | 0, _, _ => none
  | fuel + 1, ptr, args =>
    if mem ptr = 0 then some []
    else if mem ptr = asciiPercent then
      let spec := mem (ptr + 1)
      let arg := wordIn mem args
      let next := ofFormat alpha mem fuel (ptr + 2) (args + 4)
      if spec = 'c'.toUInt8 then next.map ([key arg.toUInt8 false] ++ ·)
      else if spec = 's'.toUInt8 then
        (ofStr mem fuel arg.toNat).bind fun text => next.map (text ++ ·)
      else if spec = 'd'.toUInt8 then
        next.map (digits (Printf.decOutput (toInt32 arg.toNat)) ++ ·)
      else if spec = 'u'.toUInt8 then next.map (digits (Printf.udecText arg.toNat) ++ ·)
      else if spec = 'x'.toUInt8 ∨ spec = 'p'.toUInt8 then
        next.map (digits (Printf.hexText arg.toNat) ++ ·)
      else if spec = '%'.toUInt8 then
        (ofFormat alpha mem fuel (ptr + 2) args).map ([key asciiPercent false] ++ ·)
      else ofFormat alpha mem fuel (ptr + 2) args
    else if mem ptr = asciiBackslash then
      if mem (ptr + 1) = asciiC then
        (ofFormat alpha mem fuel (ptr + 4) args).map
          ([color (attrByte 4 (scanUhex (mem (ptr + 2))) (scanUhex (mem (ptr + 3))))] ++ ·)
      else (ofFormat alpha mem fuel (ptr + 1) args).map ([key asciiBackslash false] ++ ·)
    else if alpha ∧ mem ptr = asciiSpace then
      (ofFormat alpha mem fuel (ptr + 1) args).map ([skip] ++ ·)
    else (ofFormat alpha mem fuel (ptr + 1) args).map ([key (mem ptr) false] ++ ·)

end Stroke

namespace Traced
variable {t : Traced} {video : Bool}

def drawn (video : Bool) (t : Traced) (strokes : List Stroke) : Traced :=
  strokes.foldl (Stroke.draw video) t

theorem writebufFrom_drawn {string : Nat → Byte} {size fuel sz : Nat} :
    (writebufFrom video string size fuel sz t).2 =
      t.drawn video (Stroke.ofBuf string size fuel sz) := by
  induction fuel generalizing sz t with
  | zero => rfl
  | succ fuel ih =>
    rw [writebufFrom, Stroke.ofBuf]
    split
    · split
      · rfl
      split
      · split
        · exact ih
        · exact ih
      · exact ih
    · rfl

theorem drawn_digits (text : List Byte) :
    t.drawn true (Stroke.digits text) = text.foldl putDigit t := List.foldl_map ..

/-- What is drawn after the strokes `pre` is drawn after them from the start. -/
theorem drawn_prepend {pre : List Stroke} {next : Option (List Stroke)} {r : Traced}
    (h : ∃ strokes, next = some strokes ∧ r = (t.drawn true pre).drawn true strokes) :
    ∃ strokes, next.map (pre ++ ·) = some strokes ∧ r = t.drawn true strokes := by
  obtain ⟨strokes, rfl, rfl⟩ := h
  exact ⟨pre ++ strokes, rfl, (List.foldl_append ..).symm⟩

section
variable {alpha : Bool} {mem : Nat → Byte} {fuel : Nat} {r : Nat × Traced}

theorem printStr_drawn {str size : Nat} (h : printStr mem fuel str size t = some r) :
    ∃ strokes, Stroke.ofStr mem fuel str = some strokes ∧ r.2 = t.drawn true strokes := by
  induction fuel generalizing str size t with
  | zero => cases h
  | succ fuel ih =>
    rw [printStr] at h
    rw [Stroke.ofStr]
    split at h
    next h0 =>
      cases h
      exact ⟨[], if_pos h0, rfl⟩
    next h0 =>
      rw [if_neg h0]
      exact @drawn_prepend t [.key (mem str) true] _ _ (ih h)

theorem printfLoop_drawn {ptr args size : Nat}
    (h : printfLoop alpha mem fuel ptr args size t = some r) :
    ∃ strokes, Stroke.ofFormat alpha mem fuel ptr args = some strokes ∧
      r.2 = t.drawn true strokes := by
  induction fuel generalizing ptr args size t with
  | zero => cases h
  | succ fuel ih =>
    rw [printfLoop] at h
    rw [Stroke.ofFormat]
    dsimp only at h ⊢
    split at h
    next h0 =>
      cases h
      exact ⟨[], if_pos h0, rfl⟩
    next h0 =>
    rw [if_neg h0]
    split at h
    next hpercent =>
      rw [if_pos hpercent]
      split at h
      next hc =>
        rw [if_pos hc]
        exact drawn_prepend (ih h)
      next hc =>
      rw [if_neg hc]
      split at h
      next hs =>
        rw [if_pos hs]
        obtain ⟨r', hstr, hnext⟩ := Option.bind_eq_some_iff.1 h
        obtain ⟨text, htext, hr'⟩ := printStr_drawn hstr
        rw [htext]
        exact drawn_prepend (hr' ▸ ih hnext)
      next hs =>
      rw [if_neg hs]
      split at h
      next hd =>
        rw [if_pos hd]
        rw [printDec, Printf.emitDec_output (Printf.toInt32_ge _), ← drawn_digits] at h
        exact drawn_prepend (ih h)
      next hd =>
      rw [if_neg hd]
      split at h
      next hu =>
        rw [if_pos hu]
        rw [printUdec, Printf.emitUdec_eq (UInt32.toNat_lt _), ← drawn_digits] at h
        exact drawn_prepend (ih h)
      next hu =>
      rw [if_neg hu]
      split at h
      next hx =>
        rw [if_pos hx]
        rw [printUhex, Printf.emitUhex_eq (UInt32.toNat_lt _), ← drawn_digits] at h
        exact drawn_prepend (ih h)
      next hx =>
      rw [if_neg hx]
      split at h
      next hlit =>
        rw [if_pos hlit]
        exact drawn_prepend (ih h)
      next hlit =>
        rw [if_neg hlit]
        exact ih h
    next hpercent =>
    rw [if_neg hpercent]
    split at h
    next hback =>
      rw [if_pos hback]
      split at h
      next hcolor =>
        rw [if_pos hcolor]
        exact drawn_prepend (ih h)
      next hcolor =>
        rw [if_neg hcolor]
        exact drawn_prepend (ih h)
    next hback =>
    rw [if_neg hback]
    split at h
    next hspace =>
      rw [if_pos hspace]
      exact drawn_prepend (ih h)
    next hspace =>
      rw [if_neg hspace]
      exact drawn_prepend (ih h)

end

end Traced

end SpuriOS
