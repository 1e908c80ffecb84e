import SpuriOS.Common
import Mathlib.Logic.Function.Iterate
import Mathlib.Tactic.Common

/-! # The text screen (`kernel/vga.c`)

A `Screen` is what the printers are given: a buffer of cells with the `vga_screen_state_t` that
goes with it. The flag `video` says that the buffer is `vga_addr`, whose state is `vga_state`; the
ports of the hardware cursor, which only get the location of that state, are left out. -/

namespace SpuriOS

/-- `TAB_WIDTH`. -/
def tabWidth : Nat := 4

def vgaCols : Nat := 80
def vgaRows : Nat := 25

theorem vgaCols_eq : vgaCols = 80 := rfl
theorem vgaRows_eq : vgaRows = 25 := rfl

/-- A `short` of a buffer: its low byte is the character and its high byte the attribute. -/
structure Cell where
  char : Byte
  attr : Byte
  deriving DecidableEq, Repr

/-- `WHITE_SPACE`. -/
def whiteSpace : Cell := ⟨0x20, 0x07⟩

def blankCell : Cell := ⟨0, 0⟩

/-- `c | (attr << 8)`: a `char` is signed, and the sign of a negative one fills the attribute. -/
def charCell (c attr : Byte) : Cell := ⟨c, if c < 0x80 then attr else 0xFF⟩

structure Screen where
  cells : Nat → Cell
  x : Nat
  y : Nat
  attr : Byte

namespace Screen

def location (s : Screen) : Nat := s.y * vgaCols + s.x

def put (s : Screen) (cell : Cell) : Screen :=
  { s with cells := Function.update s.cells s.location cell }

/-- The cursor is on the screen. -/
structure OnScreen (s : Screen) : Prop where
  x_lt : s.x < vgaCols
  y_lt : s.y < vgaRows

end Screen

/-! ## Characters -/

def vgaUpdateCursor (s : Screen) : Screen := s.put whiteSpace

def scroll (cells : Nat → Cell) : Nat → Cell := fun i =>
  if i < (vgaRows - 1) * vgaCols then cells (i + vgaCols)
  else if i < vgaRows * vgaCols then blankCell
  else cells i

/-- The first part of `putln`, without the cursor. -/
def newline (s : Screen) : Screen :=
  if s.y + 1 = vgaRows then { s with cells := scroll s.cells, x := 0 }
  else { s with x := 0, y := s.y + 1 }

def putln (video : Bool) (s : Screen) : Screen :=
  if video then vgaUpdateCursor (newline s) else newline s

def putbs (s : Screen) : Screen :=
  let t := s.put ⟨0x20, s.attr⟩
  if 0 < s.x then { t with x := s.x - 1 }
  else if 0 < s.y then { t with x := vgaCols - 1, y := s.y - 1 }
  else t

/-- The bytes that the printers treat apart. -/
def asciiBs : Byte := 0x08
def asciiTab : Byte := 0x09
def asciiLf : Byte := 0x0A
def asciiPercent : Byte := 0x25
def asciiBackslash : Byte := 0x5C
/-- The letter of the colour escape. -/
def asciiC : Byte := 0x63

/-- What `putchar` does before it looks at the end of the line. -/
def putcharAt (video : Bool) (s : Screen) (c : Byte) (raw : Bool) : Screen :=
  if c = asciiLf ∧ ¬raw then putln video s
  else if c = asciiTab ∧ ¬raw then { s with x := s.x + tabWidth }
  else if c = asciiBs ∧ ¬raw then putbs s
  else { s.put (charCell c s.attr) with x := s.x + 1 }

def putchar (video : Bool) (s : Screen) (c : Byte) (raw : Bool) : Screen :=
  let t := putcharAt video s c raw
  if vgaCols ≤ t.x then putln video t else t

/-- `scan_uhex`, as the `char` that its result is stored in. -/
def scanUhex (value : Byte) : Byte :=
  if 48 ≤ value ∧ value ≤ 57 then value - 48
  else if 97 ≤ value ∧ value ≤ 102 then value - 87
  else if 65 ≤ value ∧ value ≤ 70 then value - 55
  else value

/-- `(back << shift) | fore`, stored in the byte of the attribute. -/
def attrByte (shift : Nat) (back fore : Byte) : Byte :=
  UInt8.ofNat (back.toNat <<< shift ||| fore.toNat)

/-! ## `vga_writebuf` -/

/-- The loop of `vga_writebuf` from `sz` on, where `ptr` is `string + sz`. Each round adds to `sz`,
so that `size - sz` rounds are enough. -/
def writebufFrom (video : Bool) (string : Nat → Byte) (size : Nat) :
    Nat → Nat → Screen → Nat × Screen
  | 0, sz, s => (sz, s)
  | fuel + 1, sz, s =>
    if sz < size then
      if string sz = 0 then (sz + 1, s)
      else if string sz = asciiBackslash then
        if string (sz + 1) = asciiC then
          writebufFrom video string size fuel (sz + 4)
            { s with attr := attrByte 8 (scanUhex (string (sz + 2))) (scanUhex (string (sz + 3))) }
        else
          -- the character behind the backslash is skipped
          writebufFrom video string size fuel (sz + 2) (putchar video s asciiBackslash false)
      else writebufFrom video string size fuel (sz + 1) (putchar video s (string sz) false)
    else (sz, s)

def vgaWritebuf (video : Bool) (s : Screen) (string : Nat → Byte) (size : Nat) : Nat × Screen :=
  let r := writebufFrom video string size size 0 s
  (r.1, { r.2 with attr := s.attr })

/-! ## `vga_printf_fixed_args` -/

/-- `len` and `ulen` of `lib.c`: the digits of a number below `2 ^ 32`. -/
def ulen (number base : Nat) : Nat := go 32 number
where
  go : Nat → Nat → Nat
    | 0, _ => 1
    | fuel + 1, div => if div / base = 0 then 1 else go fuel (div / base) + 1

/-- The loop over the digits in `print_udec`, `print_dec` and `print_uhex`. -/
def printDigits (digit : Nat → Byte) (base : Nat) : Nat → Nat → Screen → Screen
  | 0, _, s => s
  | n + 1, mult, s => printDigits digit base n (mult / base) (putchar true s (digit mult) false)

def printUdec (number : Nat) (s : Screen) : Nat × Screen :=
  let ln := ulen number 10
  (ln, printDigits (fun mult => UInt8.ofNat (number / mult % 10 + 0x30)) 10 ln (10 ^ (ln - 1)) s)

/-- The digits are those of the `int` after `number = -number`, which leaves the least `int`
negative. -/
def printDec (number : Int) (s : Screen) : Nat × Screen :=
  let ln := ulen number.natAbs 10
  let minus := decide (number < 0)
  let n := if number = -2 ^ 31 then number else number.natAbs
  let s := if minus then putchar true s 0x2D false else s
  (ln + minus.toNat, printDigits (fun mult => UInt8.ofInt ((n.tdiv mult).tmod 10 + 0x30)) 10 ln
    (10 ^ (ln - 1)) s)

def printUhex (number : Nat) (s : Screen) : Nat × Screen :=
  let ln := ulen number 16
  let s := putchar true (putchar true s 0x30 false) 0x78 false
  let s := (fun s => putchar true s 0x30 false)^[8 - ln] s
  let digit (mult : Nat) : Byte :=
    let d := number / mult % 16
    UInt8.ofNat (if d < 10 then d + 0x30 else d - 10 + 0x61)
  (ln + 2, printDigits digit 16 ln (16 ^ (ln - 1)) s)

/-- `while (*str)` of a `%s`; `none` when the rounds do not reach the end of the string. -/
def printStr (mem : Nat → Byte) : Nat → Nat → Nat → Screen → Option (Nat × Screen)
  | 0, _, _, _ => none
  | fuel + 1, str, size, s =>
    if mem str = 0 then some (size, s)
    else printStr mem fuel (str + 1) (size + 1) (putchar true s (mem str) true)

/-- A word of the stack read as an `int`. -/
def signedWord (w : Nat) : Int := if w < 2 ^ 31 then w else (w : Int) - 2 ^ 32

/-- The loop of `vga_printf_fixed_args`. The format is the string at `ptr` in `mem` and `args k` is
the word number `k` behind it; `none` when the rounds do not reach the end of the format. -/
def printfFrom (mem : Nat → Byte) (args : Nat → Nat) :
    Nat → (ptr arg size : Nat) → Screen → Option (Nat × Screen)
  | 0, _, _, _, _ => none
  | fuel + 1, ptr, arg, size, s =>
    if mem ptr = 0 then some (size, s)
    else if mem ptr = asciiPercent then
      match mem (ptr + 1) with
      | 0x63 => -- c
        printfFrom mem args fuel (ptr + 2) (arg + 1) (size + 1)
          (putchar true s (UInt8.ofNat (args arg)) false)
      | 0x73 => -- s
        (printStr mem fuel (args arg) size s).bind fun r =>
          printfFrom mem args fuel (ptr + 2) (arg + 1) r.1 r.2
      | 0x64 => -- d
        let r := printDec (signedWord (args arg)) s
        printfFrom mem args fuel (ptr + 2) (arg + 1) (size + r.1) r.2
      | 0x75 => -- u
        let r := printUdec (args arg) s
        printfFrom mem args fuel (ptr + 2) (arg + 1) (size + r.1) r.2
      | 0x78 | 0x70 => -- x, p
        let r := printUhex (args arg) s
        printfFrom mem args fuel (ptr + 2) (arg + 1) (size + r.1) r.2
      | 0x25 => -- %
        printfFrom mem args fuel (ptr + 2) arg (size + 1) (putchar true s asciiPercent false)
      | _ => printfFrom mem args fuel (ptr + 2) arg size s
    else if mem ptr = asciiBackslash then
      if mem (ptr + 1) = asciiC then
        printfFrom mem args fuel (ptr + 4) arg size
          { s with attr := attrByte 4 (scanUhex (mem (ptr + 2))) (scanUhex (mem (ptr + 3))) }
      else
        -- `ptr` goes back, and the next round prints the character behind the backslash
        printfFrom mem args fuel (ptr + 1) arg size (putchar true s asciiBackslash false)
    else printfFrom mem args fuel (ptr + 1) arg (size + 1) (putchar true s (mem ptr) false)

def vgaPrintfFixedArgs (mem : Nat → Byte) (args : Nat → Nat) (fuel format : Nat) (s : Screen) :
    Option (Nat × Screen) :=
  (printfFrom mem args fuel format 0 0 s).map fun r =>
    (r.1, vgaUpdateCursor { r.2 with attr := s.attr })

/-- The screen after `vga_init`, without the blank of the cursor. -/
def blankScreen : Screen := ⟨fun _ => blankCell, 0, 0, 0x07⟩

/-! ## The cursor stays on the screen -/

section
variable {s t : Screen} {video raw : Bool} {c : Byte}

@[simp] theorem Screen.put_x (cell : Cell) : (s.put cell).x = s.x := rfl
@[simp] theorem Screen.put_y (cell : Cell) : (s.put cell).y = s.y := rfl
@[simp] theorem Screen.put_attr (cell : Cell) : (s.put cell).attr = s.attr := rfl
@[simp] theorem vgaUpdateCursor_x : (vgaUpdateCursor s).x = s.x := rfl
@[simp] theorem vgaUpdateCursor_y : (vgaUpdateCursor s).y = s.y := rfl
@[simp] theorem vgaUpdateCursor_attr : (vgaUpdateCursor s).attr = s.attr := rfl
@[simp] theorem vgaUpdateCursor_location : (vgaUpdateCursor s).location = s.location := rfl

@[simp] theorem vgaUpdateCursor_self : (vgaUpdateCursor s).cells s.location = whiteSpace :=
  Function.update_self ..

@[simp] theorem newline_attr : (newline s).attr = s.attr := by
  unfold newline
  split <;> rfl

theorem newline_x : (newline s).x = 0 := by
  unfold newline
  split <;> rfl

theorem newline_y_lt (h : s.y < vgaRows) : (newline s).y < vgaRows := by
  unfold newline
  split
  · exact h
  · dsimp only
    omega

@[simp] theorem putln_attr : (putln video s).attr = s.attr := by
  unfold putln
  split <;> simp

theorem putln_onScreen (h : s.y < vgaRows) : (putln video s).OnScreen := by
  have hx : (putln video s).x = 0 := by
    unfold putln
    split <;> simp [newline_x]
  have hy : (putln video s).y = (newline s).y := by
    unfold putln
    split <;> rfl
  exact ⟨hx ▸ by decide, hy ▸ newline_y_lt h⟩

@[simp] theorem putbs_attr : (putbs s).attr = s.attr := by
  unfold putbs
  simp only
  split
  · rfl
  · split <;> rfl

theorem putbs_onScreen (h : s.OnScreen) : (putbs s).OnScreen := by
  obtain ⟨hx, hy⟩ := h
  unfold putbs
  simp only
  split
  · exact ⟨by dsimp only; omega, hy⟩
  · split
    · exact ⟨show vgaCols - 1 < vgaCols by decide, by dsimp only; omega⟩
    · exact ⟨hx, hy⟩

@[simp] theorem putcharAt_attr : (putcharAt video s c raw).attr = s.attr := by
  unfold putcharAt
  split_ifs <;> simp

@[simp] theorem putchar_attr : (putchar video s c raw).attr = s.attr := by
  unfold putchar
  simp only
  split <;> simp

theorem putcharAt_y_lt (h : s.OnScreen) : (putcharAt video s c raw).y < vgaRows := by
  unfold putcharAt
  split_ifs
  · exact (putln_onScreen h.y_lt).y_lt
  · exact h.y_lt
  · exact (putbs_onScreen h).y_lt
  · exact h.y_lt

theorem putchar_onScreen (h : s.OnScreen) : (putchar video s c raw).OnScreen := by
  unfold putchar
  simp only
  split
  case isTrue => exact putln_onScreen (putcharAt_y_lt h)
  case isFalse hx => exact ⟨Nat.not_le.mp hx, putcharAt_y_lt h⟩

theorem writebufFrom_onScreen {string : Nat → Byte} {size fuel sz : Nat} (h : s.OnScreen) :
    (writebufFrom video string size fuel sz s).2.OnScreen := by
  induction fuel generalizing sz s with
  | zero => exact h
  | succ fuel ih =>
    unfold writebufFrom
    split_ifs
    · exact h
    · exact ih ⟨h.x_lt, h.y_lt⟩
    · exact ih (putchar_onScreen h)
    · exact ih (putchar_onScreen h)
    · exact h

theorem vgaWritebuf_onScreen {string : Nat → Byte} {size : Nat} (h : s.OnScreen) :
    (vgaWritebuf video s string size).2.OnScreen :=
  ⟨(writebufFrom_onScreen h).x_lt, (writebufFrom_onScreen h).y_lt⟩

end

end SpuriOS
