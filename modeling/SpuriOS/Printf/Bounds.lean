import SpuriOS.Printf.Output

/-! # Texts and the size of the buffer

The loop of `vsnprintf` looks at the size between two items, and puts the NUL behind whatever it has
printed: a buffer with a size holds just the texts that it need not cut. -/

namespace SpuriOS.Printf

open Numeral

/-! ## Without room -/

section
variable {n sz : Nat} {valid : Bool} {its : List Item}

theorem Item.counted_short {item : Item} (h : ∀ s, item ≠ .str s) : item.counted ≤ 11 := by
  have htext : ∀ item : Item, (∀ s, item ≠ .str s) → item.text.length ≤ 11 := fun item h => by
    cases item with
    | str s => exact absurd rfl (h s)
    | lit | chr => exact show 1 ≤ 11 by decide
    | udec word => exact (length_udecText word.toNat_lt).trans (by decide)
    | hex word => exact length_hexText.le.trans (by decide)
    | dec word =>
      have hge := toInt32_ge word
      rw [intMin] at hge
      have hdigits : (numeral 10 (toInt32 word.toNat).natAbs).length ≤ 10 :=
        (length_numeral_le_iff (by decide) (by decide)).2 (by omega)
      rw [text, decText, List.length_append, List.length_map]
      split
      · rw [List.length_singleton]
        omega
      · rw [List.length_nil]
        omega
  exact Item.counted_le.1.trans (htext item h)

theorem putStr_over {s : List Byte} (hs : ∀ c ∈ s, c ≠ 0) (hn : n < 2 ^ 31) (hsz : sz ≤ n)
    (hover : n ≤ sz + s.length) (o : Out) :
    putStr n s sz o = (n, o.puts (s.take (n - sz))) := by
  induction s generalizing sz o with
  | nil =>
    obtain rfl : sz = n := by
      rw [List.length_nil] at hover
      omega
    rw [putStr, List.take_nil]
    rfl
  | cons c s ih =>
    rw [List.forall_mem_cons] at hs
    rw [List.length_cons] at hover
    by_cases heq : sz = n
    · subst heq
      rw [putStr, if_neg fun h => absurd h.1 (by rw [Room]; omega), Nat.sub_self]
      rfl
    · obtain ⟨k, hk⟩ : ∃ k, n - sz = k + 1 := ⟨n - sz - 1, by omega⟩
      rw [putStr, if_pos ⟨.inr (by omega), hs.1⟩, Word32.add_of_lt (by omega),
        ih hs.2 (by omega) (by omega), hk, List.take_succ_cons, Out.puts_cons,
        show n - (sz + 1) = k by omega]

/-- The item that takes up the last room. -/
theorem Item.emit_over {item : Item} (hitem : item.WF) (hn : n < 2 ^ 31) (hsz : sz < n)
    (hover : n ≤ sz + item.counted) :
    ∃ l sz', n ≤ sz' ∧ sz' ≤ sz + l.length ∧ ∀ o, item.emit n sz o = (sz', o.puts l) := by
  by_cases hstr : ∃ s, item = .str s
  · obtain ⟨s, rfl⟩ := hstr
    have hlen : n ≤ sz + s.length := hover
    refine ⟨s.take (n - sz), n, Nat.le_refl n, ?_, putStr_over hitem hn hsz.le hover⟩
    rw [List.length_take]
    omega
  · have hshort := Item.counted_short fun s h => hstr ⟨s, h⟩
    have hle := (@Item.counted_le item).1
    refine ⟨item.written, sz + item.counted, hover, ?_, fun o => ?_⟩
    · rw [Item.length_written]
      omega
    · rw [← Word32.add_of_lt (show sz + item.counted < 2 ^ 32 by omega)]
      cases item with
      | str s => exact absurd ⟨s, rfl⟩ hstr
      | _ => rfl

theorem runItems_full {n : Nat} (hfull : n ≤ sz) (o : Out) :
    runItems n valid its sz o = o.finish sz := by
  have hroom : ¬Room n sz := by
    rw [Room]
    omega
  cases its with
  | nil => exact if_pos (.inr hroom)
  | cons item its => exact if_neg hroom

/-- Where the items are counted up to the size, the NUL comes behind it. -/
theorem runItems_over (hits : ∀ item ∈ its, item.WF) (hn : n < 2 ^ 31)
    (hover : n ≤ sz + counted its) :
    ∃ l sz', n ≤ sz + l.length ∧ ∀ o, runItems n valid its sz o = (o.puts l).finish sz' := by
  induction its generalizing sz with
  | nil => exact ⟨[], sz, hover, fun o => runItems_full hover o⟩
  | cons item its ih =>
    have hcounted : counted (item :: its) = item.counted + counted its := List.sum_cons
    rw [List.forall_mem_cons] at hits
    by_cases hsz : sz < n
    · have hround : ∀ o, runItems n valid (item :: its) sz o = runItems n valid its
          (item.emit n sz o).1 (item.emit n sz o).2 := fun o => if_pos (.inr (by omega))
      by_cases hfits : sz + item.counted < n
      · obtain ⟨l, sz', hl, hrun⟩ := @ih (sz + item.counted) hits.2 (by omega)
        refine ⟨item.written ++ l, sz', ?_, fun o => ?_⟩
        · have hle := (@Item.counted_le item).1
          rw [List.length_append, Item.length_written]
          omega
        · rw [hround, Item.emit_fits hits.1 (by omega) (.inr ⟨by omega, by omega⟩),
            Word32.add_of_lt (by omega), hrun, Out.puts_append]
      · obtain ⟨l, sz', hn', hl, hemit⟩ := Item.emit_over hits.1 hn hsz (Nat.le_of_not_lt hfits)
        exact ⟨l, sz', by omega, fun o => by rw [hround, hemit, runItems_full hn']⟩
    · exact ⟨[], sz, by omega, fun o => runItems_full (by omega) o⟩

end

/-! ## NULs -/

theorem digitByte_ne_zero : ∀ d < 10, digitByte d ≠ 0 := by decide

theorem hexByte_ne_zero : ∀ d < 16, hexByte d ≠ 0 := by decide

theorem zero_notMem_digits {number : Nat} : 0 ∉ (numeral 10 number).map digitByte := by
  rw [← places_numeral (by decide), List.mem_map]
  rintro ⟨d, hd, hzero⟩
  exact digitByte_ne_zero d (lt_of_mem_places (by decide) hd) hzero

namespace Item
variable {item : Item}

/-- The items that print a NUL. -/
def Nul : Item → Prop
  | chr word => word.toUInt8 = 0
  | _ => False

theorem zero_mem_written (hitem : item.WF) : 0 ∈ item.written ↔ item.Nul := by
  cases item with
  | lit c => exact iff_of_false (fun h => hitem (List.mem_singleton.1 h).symm) id
  | chr word => exact List.mem_singleton.trans eq_comm
  | str s => exact iff_of_false (fun h => hitem 0 h rfl) id
  | dec word =>
    refine iff_of_false ?_ id
    rw [written, decOutput]
    split
    · decide
    · rw [decText, List.mem_append, not_or]
      refine ⟨?_, zero_notMem_digits⟩
      split <;> decide
  | udec word => exact iff_of_false zero_notMem_digits id
  | hex word =>
    refine iff_of_false (fun h => ?_) id
    obtain h | h := List.mem_append.1 h
    · exact absurd h (by decide)
    · obtain ⟨d, hd, hzero⟩ := List.mem_map.1 h
      exact hexByte_ne_zero d (lt_of_mem_places (by decide) hd) hzero

end Item

theorem zero_mem_written {its : List Item} (hits : ∀ item ∈ its, item.WF) :
    0 ∈ written its ↔ ∃ item ∈ its, item.Nul := by
  rw [written, List.mem_flatMap]
  exact exists_congr fun item => and_congr_right fun h => Item.zero_mem_written (hits item h)

/-! ## Buffers with a size -/

/-- The list `l` is stored in `n` bytes, with a NUL in them, wherever they are. -/
def KeepsTo (n : Nat) (f : Nat → (Nat → Byte) → (Nat → Byte)) : Prop := ∀ buffer mem,
  (∀ a, ¬(buffer ≤ a ∧ a < buffer + n) → f buffer mem a = mem a) ∧
    ∃ i < n, f buffer mem (buffer + i) = 0

theorem put_keepsTo_iff {l : List Byte} {n : Nat} :
    KeepsTo n (fun buffer mem => Memory.put mem buffer l) ↔ l.length ≤ n ∧ 0 ∈ l := by
  constructor
  · intro h
    have hle : l.length ≤ n := Nat.le_of_not_lt fun hlt => by
      -- another byte behind the buffer than the one that is stored there
      generalize hb : (if l.getD n default = 0 then 1 else 0 : Byte) = b
      have hout := (h 0 fun _ => b).1 (0 + n) (by omega)
      dsimp only at hout
      rw [Memory.put_add hlt] at hout
      rw [hout] at hb
      split at hb
      next h0 =>
        rw [h0] at hb
        exact absurd hb (by decide)
      next h0 => exact h0 hb.symm
    refine ⟨hle, ?_⟩
    obtain ⟨i, hi, hzero⟩ := (h 0 fun _ => 1).2
    dsimp only at hzero
    by_cases hil : i < l.length
    · rw [Memory.put_add hil, List.getD_eq_getElem?_getD, List.getElem?_eq_getElem hil,
        Option.getD_some] at hzero
      exact hzero ▸ List.getElem_mem hil
    · rw [Memory.put_of_not (by omega)] at hzero
      exact absurd hzero (by decide)
  · rintro ⟨hle, hzero⟩ buffer mem
    obtain ⟨i, hi, hget⟩ := List.getElem_of_mem hzero
    refine ⟨fun a ha => Memory.put_of_not (by omega), i, by omega, ?_⟩
    dsimp only
    rw [Memory.put_add hi, List.getD_eq_getElem?_getD, List.getElem?_eq_getElem hi,
      Option.getD_some, hget]

section
variable {n : Nat} {format : List Byte} {args : Nat → VarArg}

/-- What `snprintf` stores does not depend on where. -/
theorem snprintf_stores (hn : n < 2 ^ 31) :
    ∃ l, (∀ buffer mem, (snprintf buffer n format args mem).2 = Memory.put mem buffer l) ∧
      (counted (items args format 0).1 < n →
        l = written (items args format 0).1 ++ if (items args format 0).2 then [0] else []) ∧
      (n ≤ counted (items args format 0).1 → n < l.length) := by
  have hits := items_wf args format 0
  generalize hrender : (items args format 0).1 = its at hits ⊢
  have hrun : ∀ buffer mem, (snprintf buffer n format args mem).2 =
      (runItems n (items args format 0).2 its 0 ⟨mem, buffer⟩).2.mem := fun buffer mem => by
    rw [snprintf, vsnprintf, vsnprintfLoop_eq, hrender]
  by_cases hfits : counted its < n
  · refine ⟨_, fun buffer mem => ?_, fun _ => rfl, fun h => absurd hfits (Nat.not_lt.2 h)⟩
    rw [hrun, runItems_fits hits (by decide) (.inr ⟨by omega, by omega⟩)]
    cases (items args format 0).2 with
    | true => exact Out.finish_mem
    | false => exact Out.puts_mem.trans (by rw [if_neg Bool.false_ne_true, List.append_nil])
  · obtain ⟨l, sz', hl, hover⟩ := @runItems_over n 0 (items args format 0).2 its hits hn
      (by rw [Nat.zero_add]; exact Nat.le_of_not_lt hfits)
    refine ⟨l ++ [0], fun buffer mem => ?_, fun h => absurd h hfits, fun _ => ?_⟩
    · rw [hrun, hover]
      exact Out.finish_mem
    · rw [List.length_append, List.length_singleton]
      omega

/-- A buffer of `n` bytes holds the output with a NUL if and only if the format is valid and its
text is shorter, or an unknown specifier ends it and the text before, which fits, has a NUL of its
own. -/
theorem snprintf_keepsTo_iff (hn : 1 ≤ n ∧ n < 2 ^ 31) (format : List Byte)
    (args : Nat → VarArg) :
    KeepsTo n (fun buffer mem => (snprintf buffer n format args mem).2) ↔
      ValidFormat args format ∧ (formatText args format).length < n ∨
      ¬ValidFormat args format ∧ (∃ item ∈ (items args format 0).1, item.Nul) ∧
        ((formatText args format).length < n ∨ (formatText args format).length = n ∧
          ∃ item ∈ (items args format 0).1, ¬item.Full) := by
  obtain ⟨l, hstores, hfits, hover⟩ := @snprintf_stores n format args hn.2
  have hlen := @length_written (items args format 0).1
  have hzero := zero_mem_written (items_wf args format 0)
  obtain ⟨hle, hfull⟩ := @counted_le (items args format 0).1
  have hput : (fun buffer mem => (snprintf buffer n format args mem).2) =
      fun buffer mem => Memory.put mem buffer l := funext₂ hstores
  rw [hput, put_keepsTo_iff, formatText]
  have hcut : (∃ item ∈ (items args format 0).1, ¬item.Full) ↔
      counted (items args format 0).1 ≠ (texts (items args format 0).1).length := by
    rw [Ne, hfull]
    push Not
    rfl
  rw [hcut, ← hzero]
  by_cases hroom : counted (items args format 0).1 < n
  · rw [hfits hroom, List.length_append, hlen, List.mem_append]
    cases hvalid : (items args format 0).2 with
    | true =>
      rw [if_pos rfl, List.length_singleton]
      constructor
      · rintro ⟨hle', -⟩
        exact .inl ⟨hvalid, hle'⟩
      · rintro (⟨-, hlt⟩ | ⟨hno, -⟩)
        · exact ⟨hlt, .inr (List.mem_singleton_self _)⟩
        · exact absurd hvalid hno
    | false =>
      have hno : ¬ValidFormat args format := fun h => by
        rw [ValidFormat, hvalid] at h
        cases h
      rw [if_neg Bool.false_ne_true, List.length_nil, Nat.add_zero]
      constructor
      · rintro ⟨hle', hz⟩
        exact .inr ⟨hno, hz.resolve_right List.not_mem_nil, by omega⟩
      · rintro (⟨hyes, -⟩ | ⟨-, hz, hlt⟩)
        · exact absurd hyes hno
        · exact ⟨by omega, .inl hz⟩
  · have hlong := hover (Nat.le_of_not_lt hroom)
    refine iff_of_false (fun h => absurd h.1 (by omega)) ?_
    rintro (⟨-, hlt⟩ | ⟨-, -, hlt⟩)
    · omega
    · omega

end

/-- Ten characters and a NUL fit into eleven bytes. -/
theorem snprintf_keepsTo_eleven :
    KeepsTo 11 (fun buffer mem => (snprintf buffer (11 : Nat) (bytes "%x") eightDigits mem).2) :=
  (snprintf_keepsTo_iff (by decide) (bytes "%x") eightDigits).2 (.inl ⟨by rfl, by decide⟩)

/-- Two characters in a buffer of two bytes: the NUL comes behind it. -/
theorem snprintf_overruns :
    (snprintf 0 (2 : Nat) (bytes "ab") eightDigits fun _ => 1).2 2 = 0 ∧
      ¬KeepsTo 2 (fun buffer mem =>
        (snprintf buffer (2 : Nat) (bytes "ab") eightDigits mem).2) := by
  have hnul : (snprintf 0 (2 : Nat) (bytes "ab") eightDigits fun _ => 1).2 2 = 0 := by decide
  refine ⟨hnul, fun h => ?_⟩
  have hout := (h 0 fun _ => 1).1 2 (by decide)
  dsimp only at hout
  rw [hnul] at hout
  exact absurd hout (by decide)

end SpuriOS.Printf
