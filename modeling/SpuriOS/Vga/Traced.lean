import SpuriOS.Printf.Numbers
import SpuriOS.Vga.Model

/-! # Printing with the cells that are written (`kernel/vga.c`)

The cursor is two bytes here, and the cells are recorded whose locations are written to; a location
is below `2 ^ 15`, so that it fits into a `short`. The formats, their arguments and strings are in
one memory, which the screen is not in. -/

namespace SpuriOS

/-- A screen with the locations that were written to, the last one first. -/
structure Traced extends Screen where
  written : List Nat

def asciiSpace : Byte := 0x20

/-- The word at `a`. -/
def wordIn (mem : Nat → Byte) (a : Nat) : UInt32 := UInt32.ofNat (Memory.le mem a 4)

/-- The row, the column and the format of the two calls that are given a location, in the stack of
the caller, whose `ebp` is given. -/
def locRow (mem : Nat → Byte) (ebp : Nat) : Nat := (wordIn mem (ebp + 8)).toNat
def locCol (mem : Nat → Byte) (ebp : Nat) : Nat := (wordIn mem (ebp + 12)).toNat
def locFormat (mem : Nat → Byte) (ebp : Nat) : Nat := (wordIn mem (ebp + 16)).toNat

namespace Traced

/-- What a `uint_8` keeps of a number. -/
def byte (n : Nat) : Nat := n % 2 ^ 8

def put (t : Traced) (cell : Cell) : Traced := ⟨t.toScreen.put cell, t.location :: t.written⟩

def vgaUpdateCursor (t : Traced) : Traced := t.put whiteSpace

def scroll (t : Traced) : Traced :=
  { t with
    cells := SpuriOS.scroll t.cells
    written := List.range (vgaRows * vgaCols) ++ t.written }

def putln (video : Bool) (t : Traced) : Traced :=
  let t := { t with x := 0, y := byte (t.y + 1) }
  let t := if t.y = vgaRows then { t.scroll with y := t.y - 1 } else t
  if video then t.vgaUpdateCursor else t

def putbs (t : Traced) : Traced :=
  let u := t.put ⟨0x20, t.attr⟩
  if 0 < t.x then { u with x := t.x - 1 }
  else if 0 < t.y then { u with x := vgaCols - 1, y := t.y - 1 }
  else u

/-- What `putchar` does before it looks at the end of the line. -/
def putcharAt (video : Bool) (t : Traced) (c : Byte) (raw : Bool) : Traced :=
  if c = asciiLf ∧ ¬raw then t.putln video
  else if c = asciiTab ∧ ¬raw then { t with x := byte (t.x + tabWidth) }
  else if c = asciiBs ∧ ¬raw then t.putbs
  else { t.put (charCell c t.attr) with x := byte (t.x + 1) }

def putchar (video : Bool) (t : Traced) (c : Byte) (raw : Bool) : Traced :=
  let t := t.putcharAt video c raw
  if vgaCols ≤ t.x then t.putln video else t

/-! ## `vga_writebuf` -/

/-- The loop of `vga_writebuf` from `sz` on, where `ptr` is `string + sz`. -/
def writebufFrom (video : Bool) (string : Nat → Byte) (size : Nat) :
    Nat → Nat → Traced → Nat × Traced
  | 0, sz, t => (sz, t)
  | fuel + 1, sz, t =>
    if sz < size then
      if string sz = 0 then (sz + 1, t)
      else if string sz = asciiBackslash then
        if string (sz + 1) = asciiC then
          writebufFrom video string size fuel (sz + 4)
            { t with attr := attrByte 8 (scanUhex (string (sz + 2))) (scanUhex (string (sz + 3))) }
        else writebufFrom video string size fuel (sz + 2) (t.putchar video asciiBackslash false)
      else writebufFrom video string size fuel (sz + 1) (t.putchar video (string sz) false)
    else (sz, t)

def vgaWritebuf (video : Bool) (t : Traced) (string : Nat → Byte) (size : Nat) : Nat × Traced :=
  let r := writebufFrom video string size size 0 t
  (r.1, { r.2 with attr := t.attr })

/-- `con_write`, with the screen of `vga_addr` if the console is `current`, else with the buffer and
the state of the console. -/
def conWrite (current : Bool) (buf : Nat → Byte) (size : Nat) (t : Traced) : Nat × Traced :=
  let r := t.vgaWritebuf current buf size
  if current then (r.1, r.2.vgaUpdateCursor) else r

/-! ## Formats -/

/-- A character of a number. -/
def putDigit (t : Traced) (c : Byte) : Traced := t.putchar true c false

def printDec (number : Int) (t : Traced) : Nat × Traced := Printf.emitDec putDigit number t

def printUdec (number : Nat) (t : Traced) : Nat × Traced := Printf.emitUdec putDigit number t

def printUhex (number : Nat) (t : Traced) : Nat × Traced := Printf.emitUhex putDigit number t

/-- `while (*str)` of a `%s`; `none` when the rounds do not reach the end of the string. -/
def printStr (mem : Nat → Byte) : (fuel str size : Nat) → Traced → Option (Nat × Traced)
  | 0, _, _, _ => none
  | fuel + 1, str, size, t =>
    if mem str = 0 then some (size, t)
    else printStr mem fuel (str + 1) (size + 1) (t.putchar true (mem str) true)

/-- The loop of the two printers, which differ in the spaces of the format; `none` when the rounds
do not reach the end of the format. -/
def printfLoop (alpha : Bool) (mem : Nat → Byte) :
    (fuel ptr args size : Nat) → Traced → Option (Nat × Traced)
  | 0, _, _, _, _ => none
  | fuel + 1, ptr, args, size, t =>
    if mem ptr = 0 then some (size, t)
    else if mem ptr = asciiPercent then
      let spec := mem (ptr + 1)
      let arg := wordIn mem args
      if spec = 'c'.toUInt8 then
        printfLoop alpha mem fuel (ptr + 2) (args + 4) (size + 1)
          (t.putchar true arg.toUInt8 false)
      else if spec = 's'.toUInt8 then do
        let r ← printStr mem fuel arg.toNat size t
        printfLoop alpha mem fuel (ptr + 2) (args + 4) r.1 r.2
      else if spec = 'd'.toUInt8 then
        let r := t.printDec (toInt32 arg.toNat)
        printfLoop alpha mem fuel (ptr + 2) (args + 4) (size + r.1) r.2
      else if spec = 'u'.toUInt8 then
        let r := t.printUdec arg.toNat
        printfLoop alpha mem fuel (ptr + 2) (args + 4) (size + r.1) r.2
      else if spec = 'x'.toUInt8 ∨ spec = 'p'.toUInt8 then
        let r := t.printUhex arg.toNat
        printfLoop alpha mem fuel (ptr + 2) (args + 4) (size + r.1) r.2
      else if spec = '%'.toUInt8 then
        printfLoop alpha mem fuel (ptr + 2) args (size + 1) (t.putchar true asciiPercent false)
      else printfLoop alpha mem fuel (ptr + 2) args size t
    else if mem ptr = asciiBackslash then
      if mem (ptr + 1) = asciiC then
        printfLoop alpha mem fuel (ptr + 4) args size
          { t with attr := attrByte 4 (scanUhex (mem (ptr + 2))) (scanUhex (mem (ptr + 3))) }
      else
        -- `ptr` goes back, and the next round prints the character behind the backslash
        printfLoop alpha mem fuel (ptr + 1) args size (t.putchar true asciiBackslash false)
    else if alpha ∧ mem ptr = asciiSpace then
      -- the cursor moves without a look at the end of the line
      printfLoop alpha mem fuel (ptr + 1) args (size + 1) { t with x := byte (t.x + 1) }
    else printfLoop alpha mem fuel (ptr + 1) args (size + 1) (t.putchar true (mem ptr) false)

def printfFixedArgs (alpha : Bool) (mem : Nat → Byte) (fuel format args : Nat) (t : Traced) :
    Option (Nat × Traced) :=
  (printfLoop alpha mem fuel format args 0 t).map fun r =>
    (r.1, vgaUpdateCursor { r.2 with attr := t.attr })

def vgaPrintfFixedArgs (mem : Nat → Byte) (fuel format args : Nat) (t : Traced) :
    Option (Nat × Traced) :=
  t.printfFixedArgs false mem fuel format args

def vgaAlphaPrintfFixedArgs (mem : Nat → Byte) (fuel format args : Nat) (t : Traced) :
    Option (Nat × Traced) :=
  t.printfFixedArgs true mem fuel format args

/-- The two printers that are given a location. -/
def locPrintfFixedArgs (alpha : Bool) (mem : Nat → Byte) (fuel row col format args : Nat)
    (t : Traced) : Option (Nat × Traced) :=
  if vgaRows < row ∨ vgaCols < col then some (0, t)
  else
    (printfFixedArgs alpha mem fuel format args { t with x := byte col, y := byte row }).map
      fun r => (r.1, vgaUpdateCursor { r.2 with x := t.x, y := t.y })

def vgaLocPrintfFixedArgs (mem : Nat → Byte) (fuel row col format args : Nat) (t : Traced) :
    Option (Nat × Traced) :=
  t.locPrintfFixedArgs false mem fuel row col format args

def vgaLocAlphaPrintfFixedArgs (mem : Nat → Byte) (fuel row col format args : Nat) (t : Traced) :
    Option (Nat × Traced) :=
  t.locPrintfFixedArgs true mem fuel row col format args

/-! ## System calls -/

def print (mem : Nat → Byte) (fuel ebp : Nat) (t : Traced) : Option (Nat × Traced) :=
  t.vgaPrintfFixedArgs mem fuel (wordIn mem (ebp + 8)).toNat (ebp + 12)

def locPrint (mem : Nat → Byte) (fuel ebp : Nat) (t : Traced) : Option (Nat × Traced) :=
  t.vgaLocPrintfFixedArgs mem fuel (locRow mem ebp) (locCol mem ebp) (locFormat mem ebp) (ebp + 20)

def locPrintAlpha (mem : Nat → Byte) (fuel ebp : Nat) (t : Traced) : Option (Nat × Traced) :=
  t.vgaLocAlphaPrintfFixedArgs mem fuel (locRow mem ebp) (locCol mem ebp) (locFormat mem ebp)
    (ebp + 20)

/-! ## On the screen nothing wraps around

There the two bytes are the numbers that a `Screen` has. -/

section
variable {t : Traced} {video raw : Bool} {c : Byte}

theorem byte_of_lt {n : Nat} (h : n < 2 ^ 8) : byte n = n := Nat.mod_eq_of_lt h

theorem putln_toScreen (h : t.y < vgaRows) :
    (t.putln video).toScreen = SpuriOS.putln video t.toScreen := by
  rw [vgaRows] at h
  have hy : byte (t.y + 1) = t.y + 1 := byte_of_lt (by omega)
  rw [putln, SpuriOS.putln, newline, hy]
  dsimp only
  by_cases hlast : t.y + 1 = vgaRows
  · rw [if_pos hlast, if_pos hlast]
    cases video <;> rfl
  · rw [if_neg hlast, if_neg hlast]
    cases video <;> rfl

theorem putcharAt_toScreen (h : t.OnScreen) :
    (t.putcharAt video c raw).toScreen = SpuriOS.putcharAt video t.toScreen c raw := by
  have hx := h.x_lt
  rw [vgaCols] at hx
  rw [putcharAt, SpuriOS.putcharAt]
  split
  · exact putln_toScreen h.y_lt
  split
  · rw [byte_of_lt (by rw [tabWidth]; omega)]
  split
  · rw [putbs, SpuriOS.putbs]
    split
    · rfl
    · split <;> rfl
  · rw [byte_of_lt (by omega)]
    rfl

theorem putchar_toScreen (h : t.OnScreen) :
    (t.putchar video c raw).toScreen = SpuriOS.putchar video t.toScreen c raw := by
  have hat := @putcharAt_toScreen t video raw c h
  have hy := @putcharAt_y_lt t.toScreen video raw c h
  rw [putchar, SpuriOS.putchar, ← hat]
  rw [← hat] at hy
  split
  · exact putln_toScreen hy
  · rfl

theorem writebufFrom_toScreen {string : Nat → Byte} {size fuel sz : Nat} (h : t.OnScreen) :
    (writebufFrom video string size fuel sz t).1 =
        (SpuriOS.writebufFrom video string size fuel sz t.toScreen).1 ∧
      (writebufFrom video string size fuel sz t).2.toScreen =
        (SpuriOS.writebufFrom video string size fuel sz t.toScreen).2 := by
  have hput : ∀ {t : Traced} {c}, t.OnScreen → (t.putchar video c false).OnScreen := fun h => by
    rw [putchar_toScreen h]
    exact putchar_onScreen h
  induction fuel generalizing sz t with
  | zero => exact ⟨rfl, rfl⟩
  | succ fuel ih =>
    rw [writebufFrom, SpuriOS.writebufFrom]
    split
    · split
      · exact ⟨rfl, rfl⟩
      split
      · split
        · exact ih ⟨h.x_lt, h.y_lt⟩
        · rw [← putchar_toScreen h]
          exact ih (hput h)
      · rw [← putchar_toScreen h]
        exact ih (hput h)
    · exact ⟨rfl, rfl⟩

/-- `vga_writebuf` does the same to a screen, with the cells that it writes or without. -/
theorem vgaWritebuf_toScreen (string : Nat → Byte) (size : Nat) (h : t.OnScreen) :
    (t.vgaWritebuf video string size).1 =
        (SpuriOS.vgaWritebuf video t.toScreen string size).1 ∧
      (t.vgaWritebuf video string size).2.toScreen =
        (SpuriOS.vgaWritebuf video t.toScreen string size).2 := by
  obtain ⟨hsz, hscreen⟩ := @writebufFrom_toScreen t video string size size 0 h
  rw [vgaWritebuf, SpuriOS.vgaWritebuf, ← hscreen]
  exact ⟨hsz, rfl⟩

end

end Traced

end SpuriOS
