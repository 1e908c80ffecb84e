import SpuriOS.Printf.Text
import Mathlib.Data.List.TakeWhile

/-! # Texts and buffers

As long as there is room, `vsnprintf` prints its items one behind the other and counts them; once
there is none, it has counted as much as the size, and the NUL comes behind. -/

namespace SpuriOS.Printf

open Numeral
open Circular (slice)

/-- The text of a format with its arguments. -/
def texts (its : List Item) : List Byte := its.flatMap Item.text

/-- What is printed for it, and what is counted. -/
def written (its : List Item) : List Byte := its.flatMap Item.written
def counted (its : List Item) : Nat := (its.map Item.counted).sum

namespace Item
variable {item : Item}

/-- There is no NUL in a format or in a string. -/
def WF : Item → Prop
  | lit c => c ≠ 0
  | str s => ∀ c ∈ s, c ≠ 0
  | _ => True

/-- A `%d` can print it: `INT_MIN` has no negative. -/
def Negatable : Item → Prop
  | dec word => toInt32 word.toNat ≠ intMin
  | _ => True

/-- It is counted in full: of a `%x`, the leading zeros are not. -/
def Full : Item → Prop
  | hex word => 2 ^ 28 ≤ word.toNat
  | _ => True

theorem length_written : item.written.length = item.text.length := by
  cases item with
  | dec word =>
    rw [written, text, decOutput]
    split
    next hmin =>
      rw [hmin]
      decide
    next => rfl
  | _ => rfl

theorem written_eq_iff : item.written = item.text ↔ item.Negatable := by
  cases item with
  | dec word =>
    rw [written, text, Negatable, decOutput]
    split
    next hmin =>
      rw [hmin]
      exact iff_of_false (by decide) (not_not_intro rfl)
    next hmin => exact iff_of_true rfl hmin
  | _ => exact iff_of_true rfl trivial

theorem length_hexText {number : Nat} : (hexText number).length = 10 := by
  rw [hexText, List.length_append, List.length_map, length_places]
  rfl

theorem counted_le : item.counted ≤ item.text.length ∧
    (item.counted = item.text.length ↔ item.Full) := by
  cases item with
  | hex word =>
    have hlen := (@length_numeral_le_iff 16 word.toNat 8 (by decide) (by decide)).2 word.toNat_lt
    have hfull := @length_numeral_le_iff 16 word.toNat 7 (by decide) (by decide)
    rw [counted, text, Full, length_hexText]
    omega
  | _ => exact ⟨Nat.le_refl _, iff_of_true rfl trivial⟩

end Item

section
variable {its : List Item}

theorem length_written : (written its).length = (texts its).length := by
  rw [written, texts, List.length_flatMap, List.length_flatMap]
  simp only [Item.length_written]

theorem written_eq_iff : written its = texts its ↔ ∀ item ∈ its, item.Negatable := by
  induction its with
  | nil => exact iff_of_true rfl nofun
  | cons item its ih =>
    rw [List.forall_mem_cons, ← ih, ← Item.written_eq_iff]
    exact ⟨fun h => List.append_inj h Item.length_written,
      fun ⟨h, h'⟩ => congrArg₂ (· ++ ·) h h'⟩

theorem counted_le : counted its ≤ (texts its).length ∧
    (counted its = (texts its).length ↔ ∀ item ∈ its, item.Full) := by
  induction its with
  | nil => exact ⟨Nat.le_refl 0, iff_of_true rfl nofun⟩
  | cons item its ih =>
    obtain ⟨hle, hfull⟩ := ih
    obtain ⟨hle', hfull'⟩ := @Item.counted_le item
    have htexts : (texts (item :: its)).length = item.text.length + (texts its).length := by
      rw [texts, List.flatMap_cons, List.length_append]
      rfl
    have hcounted : counted (item :: its) = item.counted + counted its := List.sum_cons
    rw [htexts, hcounted, List.forall_mem_cons, ← hfull, ← hfull']
    omega

theorem items_wf (args : Nat → VarArg) (format : List Byte) (argPtr : Nat) :
    ∀ item ∈ (items args format argPtr).1, item.WF := by
  fun_induction items args format argPtr
  case case1 | case2 | case3 | case10 => exact List.forall_mem_nil _
  case case4 ih | case6 ih | case7 ih | case8 ih => exact List.forall_mem_cons.2 ⟨trivial, ih⟩
  case case5 ih =>
    exact List.forall_mem_cons.2 ⟨fun c hc => by simpa using List.mem_takeWhile_imp hc, ih⟩
  case case9 ih => exact List.forall_mem_cons.2 ⟨(by decide : '%'.toUInt8 ≠ 0), ih⟩
  case case11 hc _ _ ih => exact List.forall_mem_cons.2 ⟨hc, ih⟩

end

/-! ## With room -/

/-- `sz` characters are no more than the buffer has room for. -/
def Fits (buffSize : Int) (sz : Nat) : Prop :=
  buffSize < 0 ∨ (sz : Int) < buffSize ∧ buffSize < 2 ^ 31

section
variable {buffSize : Int} {a b sz : Nat} {o : Out} {valid : Bool} {its : List Item}

theorem Fits.room (h : Fits buffSize (sz + b)) : Room buffSize sz := by
  rw [Room]
  obtain h | h := h
  · exact .inl h
  · omega

/-- The sum of two counts is that of words. -/
theorem Fits.add (h : Fits buffSize (sz + (a + b))) : Fits buffSize (Word32.add sz a + b) := by
  obtain h | h := h
  · exact .inl h
  · rw [Word32.add_of_lt (by omega), Nat.add_assoc]
    exact .inr h

theorem Fits.left (h : Fits buffSize (sz + (a + b))) : Fits buffSize (sz + a) := by
  obtain h | h := h
  · exact .inl h
  · exact .inr (by omega)

theorem add_lt32 : Word32.add a b < 2 ^ 32 := Word32.wrap_lt _

theorem add_assoc32 : Word32.add (Word32.add sz a) b = Word32.add sz (a + b) := by
  rw [Word32.add, Word32.add, Word32.add, Word32.wrap, Word32.wrap, Word32.wrap]
  omega

theorem putStr_fits {s : List Byte} (hs : ∀ c ∈ s, c ≠ 0) (hsz : sz < 2 ^ 32)
    (h : Fits buffSize (sz + s.length)) :
    putStr buffSize s sz o = (Word32.add sz s.length, o.puts s) := by
  induction s generalizing sz o with
  | nil =>
    rw [List.length_nil, Word32.add_of_lt (by omega)]
    rfl
  | cons c s ih =>
    rw [List.forall_mem_cons] at hs
    rw [List.length_cons, Nat.add_comm s.length] at h ⊢
    rw [putStr, if_pos ⟨h.room, hs.1⟩, ih hs.2 add_lt32 h.add, add_assoc32, Out.puts_cons]

theorem Item.emit_fits {item : Item} (hitem : item.WF) (hsz : sz < 2 ^ 32)
    (h : Fits buffSize (sz + item.counted)) :
    item.emit buffSize sz o = (Word32.add sz item.counted, o.puts item.written) := by
  cases item with
  | str s => exact putStr_fits hitem hsz h
  | _ => rfl

/-- As long as there is room, all items are printed. -/
theorem runItems_fits (hits : ∀ item ∈ its, item.WF) (hsz : sz < 2 ^ 32)
    (h : Fits buffSize (sz + counted its)) :
    runItems buffSize valid its sz o =
      if valid then (o.puts (written its)).finish (Word32.add sz (counted its))
      else (-1, o.puts (written its)) := by
  induction its generalizing sz o with
  | nil =>
    have hsum : Word32.add sz (counted []) = sz := Word32.add_of_lt (by exact hsz)
    have hroom : Room buffSize sz := h.room
    rw [runItems, hsum]
    cases valid with
    | true => exact (if_pos (.inl rfl)).trans (if_pos rfl).symm
    | false => exact (if_neg (by simp [hroom])).trans (if_neg Bool.false_ne_true).symm
  | cons item its ih =>
    have hcounted : counted (item :: its) = item.counted + counted its := List.sum_cons
    have hwritten : written (item :: its) = item.written ++ written its := List.flatMap_cons
    rw [List.forall_mem_cons] at hits
    rw [hcounted] at h ⊢
    rw [runItems, if_pos h.room, Item.emit_fits hits.1 hsz h.left]
    dsimp only
    rw [ih hits.2 add_lt32 h.add, add_assoc32, hwritten, Out.puts_append]

end

section
variable {buffer : Nat} {buffSize : Int} {format : List Byte} {args : Nat → VarArg}
  {mem : Nat → Byte}

/-- The format has no unknown specifier; its items are those of the whole format. -/
def ValidFormat (args : Nat → VarArg) (format : List Byte) : Prop := (items args format 0).2 = true

/-- The text of the format, up to an unknown specifier. -/
def formatText (args : Nat → VarArg) (format : List Byte) : List Byte :=
  texts (items args format 0).1

theorem vsnprintf_fits (hvalid : ValidFormat args format)
    (h : Fits buffSize (counted (items args format 0).1)) :
    vsnprintf buffer buffSize format args mem =
      (toInt32 (Word32.wrap (counted (items args format 0).1)),
        Memory.put mem buffer (written (items args format 0).1 ++ [0])) := by
  have hrun := @runItems_fits buffSize 0 ⟨mem, buffer⟩ true (items args format 0).1
    (items_wf args format 0) (by decide) (by rwa [Nat.zero_add])
  rw [if_pos rfl, Word32.add, Nat.zero_add] at hrun
  rw [vsnprintf, vsnprintfLoop_eq, hvalid, hrun, ← Out.finish_mem (o := ⟨mem, buffer⟩)]
  rfl

/-- What is counted is the length of the text, if it is the length of what was printed. -/
theorem toInt32_wrap_iff {c n : Nat} (h : c ≤ n) :
    toInt32 (Word32.wrap c) = n ↔ n < 2 ^ 31 ∧ c = n := by
  rw [toInt32, Word32.wrap]
  constructor
  · intro heq
    split at heq <;> omega
  · rintro ⟨hlt, rfl⟩
    rw [if_pos (by omega)]
    omega

/-- What is stored tells what was printed. -/
theorem put_inj {l l' : List Byte} (hlen : l.length = l'.length) :
    Memory.put mem buffer l = Memory.put mem buffer l' ↔ l = l' := by
  refine ⟨fun h => ?_, fun h => h ▸ rfl⟩
  have hl := @Memory.slice_put _ _ mem buffer l
  rw [h, hlen, Memory.slice_put] at hl
  exact hl.symm

theorem slice_put_take {l : List Byte} {n : Nat} (h : n ≤ l.length) :
    slice (Memory.put mem buffer l) buffer n = l.take n := by
  have hall := congrArg (List.take n) (@Memory.slice_put _ _ mem buffer l)
  rwa [slice, ← List.map_take, List.take_range, Nat.min_eq_left h] at hall

/-- The text is stored with its NUL, and its length returned, if and only if every number can be
negated and is printed without leading zeros, and the length is no `int` that is negative; a shorter
text is handed to `write` in full under the first two of these. -/
theorem vsnprintf_text_iff (hvalid : ValidFormat args format) (buffer : Nat) (mem : Nat → Byte) :
    (vsnprintf buffer (-1) format args mem = (((formatText args format).length : Int),
        Memory.put mem buffer (formatText args format ++ [0])) ↔
      (∀ item ∈ (items args format 0).1, item.Negatable ∧ item.Full) ∧
        (formatText args format).length < 2 ^ 31) ∧
    ((formatText args format).length < 4096 →
      (fprintfHands buffer format args mem = formatText args format ↔
        ∀ item ∈ (items args format 0).1, item.Negatable ∧ item.Full)) := by
  have hlen := @length_written (items args format 0).1
  have hwritten := @written_eq_iff (items args format 0).1
  obtain ⟨hle, hfull⟩ := @counted_le (items args format 0).1
  rw [forall₂_and, ← hwritten, ← hfull, formatText]
  constructor
  · rw [vsnprintf_fits hvalid (.inl (by decide)), Prod.mk.injEq, toInt32_wrap_iff hle,
      put_inj (by rw [List.length_append, List.length_append, hlen]), List.append_cancel_right_eq]
    tauto
  · intro hshort
    have hcount : ofInt32 (toInt32 (Word32.wrap (counted (items args format 0).1))) =
        counted (items args format 0).1 := by
      rw [Word32.wrap_of_lt (by omega), toInt32_of_lt (by omega), ofInt32_natCast (by omega)]
    rw [fprintfHands, vsnprintf_fits hvalid (.inr ⟨by rw [fprintfBufferSize]; omega, by decide⟩)]
    dsimp only
    rw [hcount, slice_put_take (by rw [List.length_append]; omega),
      List.take_append_of_le_length (by omega)]
    constructor
    · intro htake
      have hall : counted (items args format 0).1 = (texts (items args format 0).1).length := by
        rw [← htake, List.length_take, hlen, Nat.min_eq_left hle]
      exact ⟨by rwa [hall, ← hlen, List.take_length] at htake, hall⟩
    · rintro ⟨htext, hall⟩
      rw [hall, ← hlen, List.take_length, htext]

end

def bytes (s : String) : List Byte := s.toList.map Char.toUInt8

theorem length_udecText {number : Nat} (h : number < 2 ^ 32) : (udecText number).length ≤ 10 := by
  rw [udecText, List.length_map]
  exact (length_numeral_le_iff (by decide) (by decide)).2 (by omega)

/-- Characters that are no specifiers. -/
theorem items_lits {args : Nat → VarArg} {l format : List Byte} {argPtr : Nat}
    (hl : l.all (fun c => c ≠ 0 ∧ c ≠ '%'.toUInt8) = true) :
    items args (l ++ format) argPtr =
      (l.map .lit ++ (items args format argPtr).1, (items args format argPtr).2) := by
  induction l with
  | nil => rfl
  | cons c l ih =>
    rw [List.all_cons, Bool.and_eq_true, decide_eq_true_iff] at hl
    rw [List.cons_append, items.eq_def]
    dsimp only
    rw [if_neg hl.1.1, if_neg hl.1.2, ih hl.2]
    rfl

theorem items_udec {args : Nat → VarArg} {format : List Byte} {argPtr : Nat} :
    items args ('%'.toUInt8 :: 'u'.toUInt8 :: format) argPtr =
      (.udec (args argPtr).word :: (items args format (argPtr + 1)).1,
        (items args format (argPtr + 1)).2) := by
  rw [items.eq_def]
  dsimp only
  rw [if_neg (by decide), if_pos rfl, if_neg (by decide), if_neg (by decide), if_neg (by decide),
    if_pos rfl]

theorem texts_lits {l : List Byte} {its : List Item} :
    texts (l.map .lit ++ its) = l ++ texts its := by
  induction l with
  | nil => rfl
  | cons c l ih => exact congrArg (c :: ·) ih

/-- `/proc/cpuid` has the whole text, and it is shorter than its buffer. -/
theorem procCpuidOpen_text (kernel user : UInt32) (mem : Nat → Byte) :
    slice (procCpuidOpen kernel user mem).buffer 0 (procCpuidOpen kernel user mem).streamLength =
        bytes "free kernel mem = " ++ (udecText kernel.toNat ++ (bytes "KB, user = " ++
          (udecText user.toNat ++ bytes "KB\n"))) ∧
      (procCpuidOpen kernel user mem).streamLength ≤ 100 := by
  rw [procCpuidOpen]
  generalize hargs : (fun i => if i = 0 then (⟨kernel, []⟩ : VarArg) else ⟨user, []⟩) = args
  have hformat : cpuidFormat = bytes "free kernel mem = " ++ ('%'.toUInt8 :: 'u'.toUInt8 ::
      (bytes "KB, user = " ++ ('%'.toUInt8 :: 'u'.toUInt8 :: (bytes "KB\n" ++ [])))) := by decide
  have hitems : items args cpuidFormat 0 = ((bytes "free kernel mem = ").map .lit ++
      (.udec kernel :: ((bytes "KB, user = ").map .lit ++
        (.udec user :: ((bytes "KB\n").map .lit ++ [])))), true) := by
    rw [hformat, items_lits (by decide), items_udec, items_lits (by decide), items_udec,
      items_lits (by decide), ← hargs]
    rfl
  have htext : formatText args cpuidFormat = bytes "free kernel mem = " ++ (udecText kernel.toNat ++
      (bytes "KB, user = " ++ (udecText user.toNat ++ bytes "KB\n"))) := by
    rw [formatText, hitems, texts_lits]
    have huser : ∀ its, texts (.udec user :: its) = udecText user.toNat ++ texts its := fun _ => rfl
    have hkernel : ∀ its, texts (.udec kernel :: its) = udecText kernel.toNat ++ texts its :=
      fun _ => rfl
    rw [hkernel, texts_lits, huser, texts_lits]
    exact congrArg _ (congrArg _ (congrArg _ (congrArg _ (List.append_nil _))))
  have hlen : (formatText args cpuidFormat).length ≤ 100 := by
    have hkernel := length_udecText kernel.toNat_lt
    have huser := length_udecText user.toNat_lt
    have hlits : (bytes "free kernel mem = ").length = 18 ∧ (bytes "KB, user = ").length = 11 ∧
      (bytes "KB\n").length = 3 := by decide
    simp only [htext, List.length_append]
    omega
  have hlit : ∀ item ∈ (items args cpuidFormat 0).1, item.Negatable ∧ item.Full := by
    intro item hitem
    simp only [hitems, List.mem_append, List.mem_cons, List.mem_map, List.not_mem_nil,
      or_false] at hitem
    rcases hitem with ⟨c, -, rfl⟩ | rfl | ⟨c, -, rfl⟩ | rfl | ⟨c, -, rfl⟩ <;>
      exact ⟨trivial, trivial⟩
  have hprint := (vsnprintf_text_iff (show ValidFormat args cpuidFormat by
    rw [ValidFormat, hitems]) 0 mem).1.2 ⟨hlit, by omega⟩
  rw [sprintf, hprint, ← htext]
  dsimp only
  rw [ofInt32_natCast (by omega), slice_put_take (by rw [List.length_append]; omega),
    List.take_left]
  exact ⟨rfl, hlen⟩

/-- A word with eight digits. -/
def eightDigits (_ : Nat) : VarArg := ⟨0x1badb002, []⟩

theorem vsnprintf_text_eight : vsnprintf 0 (-1) (bytes "%x") eightDigits (fun _ => 1) =
    (10, Memory.put (fun _ => 1) 0 (bytes "0x1badb002" ++ [0])) :=
  (vsnprintf_text_iff (show ValidFormat eightDigits (bytes "%x") by rfl) 0 fun _ => 1).1.2
    ⟨fun item hitem => by
      obtain rfl := List.mem_singleton.1 hitem
      exact ⟨trivial, show 2 ^ 28 ≤ 0x1badb002 by decide⟩, by decide⟩

/-- `%x` prints ten characters for 18, and returns 4. -/
theorem hex_miscounted : (vsnprintf 0 (-1) (bytes "%x") (fun _ => ⟨0x12, []⟩) fun _ => 1).1 ≠
    (formatText (fun _ => ⟨0x12, []⟩) (bytes "%x")).length := by
  decide

end SpuriOS.Printf
