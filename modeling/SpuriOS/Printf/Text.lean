import SpuriOS.Printf.Model

/-! # What `vsnprintf` prints

A format with its arguments is a list of items, each with the text that it stands for. What the code
writes for an item and what it counts are compared with that text. -/

namespace SpuriOS.Printf

open Numeral
open Circular (slice)

namespace Out
variable {o : Out} {c : Byte} {l l' : List Byte}

def puts (o : Out) (l : List Byte) : Out := l.foldl put o

@[simp] theorem puts_nil : o.puts [] = o := rfl

@[simp] theorem puts_cons : o.puts (c :: l) = (o.put c).puts l := rfl

theorem puts_append : (o.puts l).puts l' = o.puts (l ++ l') := (List.foldl_append ..).symm

theorem puts_str : (o.puts l).str = o.str + l.length := by
  induction l generalizing o with
  | nil => rfl
  | cons c l ih =>
    rw [puts_cons, ih, put, List.length_cons, Nat.add_comm l.length, ← Nat.add_assoc]

theorem puts_mem : (o.puts l).mem = Memory.put o.mem o.str l := by
  induction l generalizing o with
  | nil => exact Memory.put_nil.symm
  | cons c l ih =>
    have hcons : Memory.put (Memory.put o.mem o.str [c]) (o.str + 1) l =
        Memory.put o.mem o.str (c :: l) := Memory.put_append
    rw [puts_cons, ih, ← hcons, Memory.put_singleton]
    rfl

/-- The text with its NUL. -/
theorem finish_mem {sz : Nat} :
    ((o.puts l).finish sz).2.mem = Memory.put o.mem o.str (l ++ [0]) := by
  rw [finish, puts_mem, puts_str, ← Memory.put_singleton, Memory.put_append]

end Out

/-! ## Items -/

/-- A piece of a format, with its argument. -/
inductive Item where
  | lit (c : Byte)
  | chr (word : UInt32)
  | str (s : List Byte)
  | dec (word : UInt32)
  | udec (word : UInt32)
  | hex (word : UInt32)

namespace Item

def text : Item → List Byte
  | lit c => [c]
  | chr word => [word.toUInt8]
  | str s => s
  | dec word => decText (toInt32 word.toNat)
  | udec word => udecText word.toNat
  | hex word => hexText word.toNat

/-- What the code prints for it. -/
def written : Item → List Byte
  | dec word => decOutput (toInt32 word.toNat)
  | item => item.text

/-- What the code counts for it. -/
def counted : Item → Nat
  | hex word => (numeral 16 word.toNat).length + 2
  | item => item.text.length

/-- A round of the loop. -/
def emit (buffSize : Int) (sz : Nat) (o : Out) : Item → Nat × Out
  | str s => putStr buffSize s sz o
  | item => (Word32.add sz item.counted, o.puts item.written)

end Item

/-- The items of a format up to its end, or up to a specifier that is unknown. -/
def items (args : Nat → VarArg) : (format : List Byte) → (argPtr : Nat) → List Item × Bool
  | [], _ => ([], true)
  | c :: format, argPtr =>
    if c = 0 then ([], true)
    else if c = '%'.toUInt8 then
      match format with
      | [] => ([], false)
      | spec :: format =>
        let arg := args argPtr
        let next := items args format (argPtr + 1)
        if spec = 'c'.toUInt8 then (.chr arg.word :: next.1, next.2)
        else if spec = 's'.toUInt8 then (.str (arg.str.takeWhile (· ≠ 0)) :: next.1, next.2)
        else if spec = 'd'.toUInt8 then (.dec arg.word :: next.1, next.2)
        else if spec = 'u'.toUInt8 then (.udec arg.word :: next.1, next.2)
        else if spec = 'x'.toUInt8 ∨ spec = 'p'.toUInt8 then (.hex arg.word :: next.1, next.2)
        else if spec = '%'.toUInt8 then
          let next := items args format argPtr
          (.lit '%'.toUInt8 :: next.1, next.2)
        else ([], false)
    else
      let next := items args format argPtr
      (.lit c :: next.1, next.2)

/-- The loop of `vsnprintf` on the items of the format. -/
def runItems (buffSize : Int) (valid : Bool) : List Item → (sz : Nat) → Out → Int × Out
  | [], sz, o => if valid ∨ ¬Room buffSize sz then o.finish sz else (-1, o)
  | item :: its, sz, o =>
    if Room buffSize sz then
      let r := item.emit buffSize sz o
      runItems buffSize valid its r.1 r.2
    else o.finish sz

section
variable {buffSize : Int} {sz : Nat} {o : Out} {args : Nat → VarArg}

theorem putStr_takeWhile {s : List Byte} :
    putStr buffSize s sz o = putStr buffSize (s.takeWhile (· ≠ 0)) sz o := by
  induction s generalizing sz o with
  | nil => rfl
  | cons c s ih =>
    by_cases hc : c = 0
    · rw [putStr, if_neg fun h => h.2 hc, List.takeWhile_cons_of_neg (by simp [hc])]
      rfl
    · rw [putStr, List.takeWhile_cons_of_pos (by simp [hc]), putStr, ← ih]

theorem putDec_item (word : UInt32) (o : Out) : putDec (toInt32 word.toNat) o =
    ((Item.dec word).counted, o.puts (Item.dec word).written) := emitDec_output (toInt32_ge word)

theorem runItems_of_round {valid : Bool} {item : Item} {its : List Item} {r : Int × Out}
    (hend : ¬Room buffSize sz → r = o.finish sz)
    (hround : Room buffSize sz → r = runItems buffSize valid its (item.emit buffSize sz o).1
      (item.emit buffSize sz o).2) : r = runItems buffSize valid (item :: its) sz o := by
  rw [runItems]
  split
  next hroom => exact hround hroom
  next hroom => exact hend hroom

theorem vsnprintfLoop_end {c : Byte} {format : List Byte} {argPtr : Nat}
    (h : ¬Room buffSize sz ∨ c = 0) :
    vsnprintfLoop buffSize args (c :: format) argPtr sz o = o.finish sz := by
  rw [vsnprintfLoop.eq_def]
  exact if_pos h

/-- The loop goes through the items of its format. -/
theorem vsnprintfLoop_eq {format : List Byte} {argPtr : Nat} :
    vsnprintfLoop buffSize args format argPtr sz o =
      runItems buffSize (items args format argPtr).2 (items args format argPtr).1 sz o := by
  have hspec : '%'.toUInt8 ≠ 0 := by decide
  have hgo : ∀ {sz} {c : Byte}, Room buffSize sz → ¬c = 0 → ¬(¬Room buffSize sz ∨ c = 0) :=
    fun hroom hc => not_or.2 ⟨not_not_intro hroom, hc⟩
  fun_induction items args format argPtr generalizing sz o with
  | case1 => exact (if_pos (.inl rfl)).symm
  | case2 => exact (vsnprintfLoop_end (.inr rfl)).trans (if_pos (.inl rfl)).symm
  | case3 =>
    rw [runItems, vsnprintfLoop.eq_def]
    by_cases hroom : Room buffSize sz <;> simp [hroom, hspec]
  | case4 =>
    -- `%c`
    rename_i ih
    refine runItems_of_round (fun h => vsnprintfLoop_end (.inl h)) fun hroom => ?_
    rw [vsnprintfLoop.eq_def]
    dsimp only
    rw [if_neg (hgo hroom hspec), if_pos rfl, if_pos rfl]
    exact ih
  | case5 =>
    -- `%s`
    rename_i hs ih
    refine runItems_of_round (fun h => vsnprintfLoop_end (.inl h)) fun hroom => ?_
    rw [vsnprintfLoop.eq_def]
    dsimp only
    rw [if_neg (hgo hroom hspec), if_pos rfl, if_neg hs, if_pos rfl, putStr_takeWhile]
    exact ih
  | case6 =>
    -- `%d`
    rename_i h₁ h₂ ih
    refine runItems_of_round (fun h => vsnprintfLoop_end (.inl h)) fun hroom => ?_
    rw [vsnprintfLoop.eq_def]
    dsimp only
    rw [if_neg (hgo hroom hspec), if_pos rfl, if_neg h₁, if_neg h₂, if_pos rfl, putDec_item]
    exact ih
  | case7 =>
    -- `%u`
    rename_i h₁ h₂ h₃ ih
    refine runItems_of_round (fun h => vsnprintfLoop_end (.inl h)) fun hroom => ?_
    rw [vsnprintfLoop.eq_def]
    dsimp only
    rw [if_neg (hgo hroom hspec), if_pos rfl, if_neg h₁, if_neg h₂, if_neg h₃, if_pos rfl,
      printUdec, emitUdec_eq (UInt32.toNat_lt _)]
    exact ih
  | case8 =>
    -- `%x` and `%p`
    rename_i h₁ h₂ h₃ h₄ hx _ ih
    refine runItems_of_round (fun h => vsnprintfLoop_end (.inl h)) fun hroom => ?_
    rw [vsnprintfLoop.eq_def]
    dsimp only
    rw [if_neg (hgo hroom hspec), if_pos rfl, if_neg h₁, if_neg h₂, if_neg h₃, if_neg h₄, if_pos hx,
      putUhex, emitUhex_eq (UInt32.toNat_lt _)]
    exact ih
  | case9 =>
    -- `%%`
    rename_i h₁ h₂ h₃ h₄ hx _ ih
    refine runItems_of_round (fun h => vsnprintfLoop_end (.inl h)) fun hroom => ?_
    rw [vsnprintfLoop.eq_def]
    dsimp only
    rw [if_neg (hgo hroom hspec), if_pos rfl, if_neg h₁, if_neg h₂, if_neg h₃, if_neg h₄, if_neg hx,
      if_pos rfl]
    exact ih
  | case10 argPtr spec format h₁ h₂ h₃ h₄ hx h₆ =>
    rw [runItems, vsnprintfLoop.eq_def]
    by_cases hroom : Room buffSize sz <;> simp [hroom, hspec, h₁, h₂, h₃, h₄, hx, h₆]
  | case11 =>
    rename_i hc hlit _ ih
    refine runItems_of_round (fun h => vsnprintfLoop_end (.inl h)) fun hroom => ?_
    rw [vsnprintfLoop.eq_def]
    dsimp only
    rw [if_neg (hgo hroom hc), if_neg hlit]
    exact ih

end

end SpuriOS.Printf
