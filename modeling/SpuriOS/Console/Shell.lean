import SpuriOS.Lib.Memory
import SpuriOS.Vga.Model

/-! # The line editor of the shell (`tasks/console.c`)

The memory starts at `line_buffer`; from `LINE_BUFFER_SIZE` on it is what the stack has there. -/

namespace SpuriOS

/-- `LINE_BUFFER_SIZE`. -/
def lineBufferSize : Nat := 80

def asciiEsc : Byte := 0x1B

structure LineEditor where
  lineBuffer : Nat → Byte
  size : Nat
  eof : Bool
  /-- What is written to the console. -/
  echo : List Byte

namespace LineEditor

/-- What is done before a line is read, over any stack. -/
def start (stack : Nat → Byte) : LineEditor where
  lineBuffer := Memory.write stack 0 lineBufferSize fun _ => 0
  size := 0
  eof := false
  echo := []

/-- The `switch` for a character. -/
def key (l : LineEditor) (sc : Byte) : LineEditor :=
  if sc = asciiLf then { l with eof := true, echo := l.echo ++ [sc] }
  else if sc = asciiBs then
    if 0 < l.size then
      { l with
        lineBuffer := Function.update l.lineBuffer (l.size - 1) 0
        size := l.size - 1
        echo := l.echo ++ [sc] }
    else l
  else if sc = asciiTab then l
  else if sc = asciiEsc then
    let lineBuffer := Memory.write l.lineBuffer 0 l.size fun _ => asciiBs
    { l with
      lineBuffer := Memory.write lineBuffer 0 lineBufferSize fun _ => 0
      size := 0
      echo := l.echo ++ (List.range l.size).map lineBuffer }
  else if l.size < lineBufferSize then
    { l with
      lineBuffer := Function.update l.lineBuffer l.size sc
      size := l.size + 1
      echo := l.echo ++ [sc] }
  else l

/-- The loop `while (!eof)` on the characters that `read` gives, with those that are left; a `read`
that gives none is tried again. `none` when the line does not end. -/
def readLine (l : LineEditor) : List Byte → Option (LineEditor × List Byte)
  | [] => none
  | sc :: keys =>
    let l := l.key sc
    if l.eof then some (l, keys) else l.readLine keys

end LineEditor

/-- What a character does to the text of a line with room for `room` characters. -/
def edit (room : Nat) (text : List Byte) (sc : Byte) : List Byte :=
  if sc = asciiBs then text.dropLast
  else if sc = asciiTab then text
  else if sc = asciiEsc then []
  else if text.length < room then text ++ [sc]
  else text

/-- The text after all the edits. -/
def edited (keys : List Byte) : List Byte := keys.foldl (edit lineBufferSize) []

/-- A string function that starts at `k` reads up to the first 0. -/
def StringByte (m : Nat → Byte) (k i : Nat) : Prop := k ≤ i ∧ ∀ j, k ≤ j → j < i → m j ≠ 0

namespace LineEditor

/-- The line is a proper string for the parser. -/
structure Proper (l : LineEditor) (text : List Byte) : Prop where
  text : (List.range l.size).map l.lineBuffer = text
  room : l.size < lineBufferSize
  nul : l.lineBuffer l.size = 0
  /-- `parse`, `run` and `open` start at the first character or at the second one. -/
  inside : ∀ k ≤ l.size, ∀ i, StringByte l.lineBuffer k i → i < lineBufferSize

end LineEditor

/-! ## The buffer -/

/-- A text in the buffer, with zeros behind it. -/
def lineOf (stack : Nat → Byte) (text : List Byte) (i : Nat) : Byte :=
  if i < lineBufferSize then text.getD i 0 else stack i

section
variable {stack m : Nat → Byte} {text : List Byte}

theorem lineOf_of_lt {i : Nat} (h : i < lineBufferSize) : lineOf stack text i = text.getD i 0 :=
  if_pos h

theorem lineOf_of_le {i : Nat} (h : lineBufferSize ≤ i) : lineOf stack text i = stack i :=
  if_neg (Nat.not_lt.2 h)

theorem clear_line (h : ∀ i, lineBufferSize ≤ i → m i = stack i) :
    (Memory.write m 0 lineBufferSize fun _ => 0) = lineOf stack [] := by
  funext i
  rw [Memory.write_apply, lineOf]
  by_cases hi : i < lineBufferSize
  · rw [if_pos (by omega), if_pos hi]
    rfl
  · rw [if_neg (by omega), if_neg hi]
    exact h i (Nat.le_of_not_lt hi)

theorem append_line (h : text.length < lineBufferSize) (sc : Byte) :
    Function.update (lineOf stack text) text.length sc = lineOf stack (text ++ [sc]) := by
  funext i
  rw [Function.update_apply, lineOf, lineOf, List.getD_eq_getElem?_getD, List.getD_eq_getElem?_getD]
  obtain hlt | rfl | hgt := Nat.lt_trichotomy i text.length
  · rw [if_neg (by omega), List.getElem?_append_left hlt]
  · rw [if_pos rfl, if_pos h, List.getElem?_concat_length]
    rfl
  · rw [if_neg (by omega), List.getElem?_eq_none (by omega),
      List.getElem?_eq_none (by rw [List.length_append, List.length_singleton]; omega)]

theorem backspace_line (h0 : 0 < text.length) (h : text.length ≤ lineBufferSize) :
    Function.update (lineOf stack text) (text.length - 1) 0 = lineOf stack text.dropLast := by
  funext i
  rw [Function.update_apply, lineOf, lineOf, List.getD_eq_getElem?_getD, List.getD_eq_getElem?_getD,
    List.getElem?_dropLast]
  obtain hlt | rfl | hgt := Nat.lt_trichotomy i (text.length - 1)
  · rw [if_neg (by omega), if_pos hlt]
  · rw [if_pos rfl, if_pos (by omega), if_neg (by omega)]
    rfl
  · rw [if_neg (by omega), if_neg (Nat.lt_asymm hgt), List.getElem?_eq_none (by omega)]

theorem map_lineOf (h : text.length ≤ lineBufferSize) :
    (List.range text.length).map (lineOf stack text) = text := by
  refine List.ext_getElem (by simp) fun i hi hi' => ?_
  rw [List.getElem_map, List.getElem_range, lineOf_of_lt (by omega)]
  simp [hi']

end

/-! ## The loop -/

namespace LineEditor

/-- The invariant: behind the text the buffer is 0, and behind the buffer nothing is touched. -/
structure Holds (l : LineEditor) (stack : Nat → Byte) (text : List Byte) : Prop where
  lineBuffer : l.lineBuffer = lineOf stack text
  size : l.size = text.length
  le : text.length ≤ lineBufferSize
  eof : l.eof = false

variable {l : LineEditor} {stack : Nat → Byte} {text : List Byte}

theorem holds_start : (start stack).Holds stack [] :=
  ⟨clear_line fun _ _ => rfl, rfl, Nat.zero_le _, rfl⟩

theorem Holds.key (h : l.Holds stack text) {sc : Byte} (hsc : sc ≠ asciiLf) :
    (l.key sc).Holds stack (edit lineBufferSize text sc) := by
  have hle := h.le
  rw [LineEditor.key, if_neg hsc, edit, h.size, h.lineBuffer]
  split
  · split
    next hpos =>
      refine ⟨backspace_line hpos hle, (List.length_dropLast ..).symm, ?_, h.eof⟩
      rw [List.length_dropLast]
      omega
    next hpos =>
      rw [List.length_pos_iff, Classical.not_not] at hpos
      subst hpos
      exact h
  split
  · exact h
  split
  · refine ⟨clear_line fun i hi => ?_, rfl, Nat.zero_le _, h.eof⟩
    rw [Memory.write_of_not (by omega), lineOf_of_le hi]
  split
  next hroom =>
    have hlength : (text ++ [sc]).length = text.length + 1 := by
      rw [List.length_append, List.length_singleton]
    exact ⟨append_line hroom sc, hlength.symm, hlength ▸ hroom, h.eof⟩
  next => exact h

/-- The newline ends the line and leaves the buffer as it is. -/
theorem Holds.readLine (h : l.Holds stack text) {keys rest : List Byte} (hkeys : asciiLf ∉ keys) :
    ∃ l', l.readLine (keys ++ asciiLf :: rest) = some (l', rest) ∧
      l'.lineBuffer = lineOf stack (keys.foldl (edit lineBufferSize) text) ∧
      l'.size = (keys.foldl (edit lineBufferSize) text).length ∧
      (keys.foldl (edit lineBufferSize) text).length ≤ lineBufferSize := by
  induction keys generalizing l text with
  | nil =>
    rw [List.nil_append, LineEditor.readLine, LineEditor.key, if_pos rfl]
    exact ⟨_, rfl, h.lineBuffer, h.size, h.le⟩
  | cons sc keys ih =>
    rw [List.mem_cons, not_or] at hkeys
    have hkey := h.key (Ne.symm hkeys.1)
    rw [List.cons_append, LineEditor.readLine, if_neg (by rw [hkey.eof]; nofun)]
    exact ih hkey hkeys.2

/-- The buffer holds a proper string just when there is room for its end. -/
theorem proper_iff (hbuffer : l.lineBuffer = lineOf stack text) (hsize : l.size = text.length)
    (hle : text.length ≤ lineBufferSize) : l.Proper text ↔ text.length < lineBufferSize := by
  refine ⟨fun h => hsize ▸ h.room, fun h => ⟨?_, hsize ▸ h, ?_, ?_⟩⟩
  · rw [hbuffer, hsize]
    exact map_lineOf hle
  · rw [hbuffer, hsize, lineOf_of_lt h]
    simp
  · rintro k hk i ⟨-, hi⟩
    rw [hsize] at hk
    by_contra hge
    refine hi text.length hk (by omega) ?_
    rw [hbuffer, lineOf_of_lt h]
    simp

end LineEditor

/-- The editor hands its parser a proper string just when the text is shorter than the buffer. -/
theorem line_editor_iff (stack : Nat → Byte) (keys rest : List Byte) (hkeys : asciiLf ∉ keys) :
    ∃ l, (LineEditor.start stack).readLine (keys ++ asciiLf :: rest) = some (l, rest) ∧
      (l.Proper (edited keys) ↔ (edited keys).length < lineBufferSize) := by
  obtain ⟨l, hread, hbuffer, hsize, hle⟩ := LineEditor.holds_start.readLine hkeys
  exact ⟨l, hread, LineEditor.proper_iff hbuffer hsize hle⟩

theorem line_editor_help :
    ∃ l, (LineEditor.start fun _ => 0xFF).readLine [0x68, 0x69, 0x08, 0x65, 0x6C, 0x70, 0x0A] =
        some (l, []) ∧ l.Proper [0x68, 0x65, 0x6C, 0x70] := by
  obtain ⟨l, hread, hproper⟩ :=
    line_editor_iff (fun _ => 0xFF) [0x68, 0x69, 0x08, 0x65, 0x6C, 0x70] [] (by decide)
  exact ⟨l, hread, hproper.2 (by decide)⟩

/-- Eighty letters leave no room for the end of the string. -/
theorem full_line_unterminated :
    ¬∀ (stack : Nat → Byte) (keys : List Byte), asciiLf ∉ keys →
      ∀ l rest, (LineEditor.start stack).readLine (keys ++ [asciiLf]) = some (l, rest) →
        0 < l.size → l.Proper (edited keys) := by
  intro hall
  obtain ⟨l, hread, hbuffer, hsize, -⟩ :=
    @LineEditor.Holds.readLine _ (fun _ => 0xFF) _ LineEditor.holds_start
      (List.replicate 80 0x61) [] (by decide)
  have hlength : l.size = 80 := by
    rw [hsize]
    decide +kernel
  have hproper := hall (fun _ => 0xFF) (List.replicate 80 0x61) (by decide) l [] hread
    (by rw [hlength]; decide)
  exact absurd hproper.room (by rw [hlength]; decide)

end SpuriOS
