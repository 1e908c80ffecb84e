import SpuriOS.Vga.Model
import Mathlib.Data.List.Basic

/-! # The two text printers

`vga_writebuf` and `vga_printf_fixed_args` parse the same escapes. They agree on the strings whose
colour escapes have a black background and whose other backslashes, if any, are at the very end. -/

namespace SpuriOS

/-- The string `s` is at `p`, with a NUL behind it. -/
structure CString (mem : Nat → Byte) (p : Nat) (s : List Byte) : Prop where
  byte : ∀ i (h : i < s.length), mem (p + i) = s[i]
  nul : mem (p + s.length) = 0

def HexDigit (b : Byte) : Prop :=
  (48 ≤ b ∧ b ≤ 57) ∨ (97 ≤ b ∧ b ≤ 102) ∨ (65 ≤ b ∧ b ≤ 70)

instance (b : Byte) : Decidable (HexDigit b) :=
  inferInstanceAs (Decidable ((48 ≤ b ∧ b ≤ 57) ∨ (97 ≤ b ∧ b ≤ 102) ∨ (65 ≤ b ∧ b ≤ 70)))

/-- There is a colour escape at `i`. -/
def EscapeAt (s : List Byte) (i : Nat) : Prop :=
  s[i]? = some asciiBackslash ∧ s[i + 1]? = some asciiC

instance (s : List Byte) (i : Nat) : Decidable (EscapeAt s i) :=
  inferInstanceAs (Decidable (s[i]? = some asciiBackslash ∧ s[i + 1]? = some asciiC))

/-- A string without conversions and NULs, whose colour escapes have both their digits. -/
structure Printable (s : List Byte) : Prop where
  noPercent : asciiPercent ∉ s
  noNul : 0 ∉ s
  complete : ∀ i < s.length, EscapeAt s i →
    (∃ b, s[i + 2]? = some b ∧ HexDigit b) ∧ ∃ b, s[i + 3]? = some b ∧ HexDigit b

/-- The first digit of every colour escape is 0, and no other backslash has a character behind
it. -/
structure Clean (s : List Byte) : Prop where
  background : ∀ i < s.length, EscapeAt s i → s[i + 2]? = some 0x30
  backslash : ∀ i < s.length, s[i]? = some asciiBackslash → i + 1 < s.length → EscapeAt s i

/-- Both printers leave the same cells, apart from the one under the hardware cursor, and the same
cursor and attribute. -/
def PrintersAgree (mem : Nat → Byte) (args : Nat → Nat) (p : Nat) (s : List Byte) (scr : Screen) :
    Prop :=
  ∃ r, vgaPrintfFixedArgs mem args (s.length + 1) p scr = some r ∧
    let w := (vgaWritebuf true scr (fun i => mem (p + i)) s.length).2
    r.2.x = w.x ∧ r.2.y = w.y ∧ r.2.attr = w.attr ∧
      ∀ i < vgaRows * vgaCols, i ≠ r.2.location → r.2.cells i = w.cells i

section
variable {mem : Nat → Byte} {args : Nat → Nat} {p : Nat} {s : List Byte} {scr : Screen}

theorem writebufFrom_of_le {video : Bool} {string : Nat → Byte} {size fuel sz : Nat}
    (h : size ≤ sz) : writebufFrom video string size fuel sz scr = (sz, scr) := by
  cases fuel with
  | zero => rfl
  | succ fuel => exact if_neg (Nat.not_lt.mpr h)

/-- The two ways to build the attribute are the same for a black background. -/
theorem attrByte_black (fore : Byte) : attrByte 8 (scanUhex 0x30) fore =
    attrByte 4 (scanUhex 0x30) fore := by
  have hback : scanUhex 0x30 = 0 := by decide
  simp only [hback, attrByte, UInt8.toNat_zero, Nat.zero_shiftLeft]

theorem CString.get? (h : CString mem p s) {i : Nat} (hi : i < s.length) :
    s[i]? = some (mem (p + i)) := by
  rw [List.getElem?_eq_getElem hi, h.byte i hi]

/-- A letter of the string that is not NUL is before its end. -/
theorem CString.lt_of_ne (h : CString mem p s) {i : Nat} (hi : i ≤ s.length)
    (hne : mem (p + i) ≠ 0) : i < s.length :=
  Nat.lt_of_le_of_ne hi fun he => hne (he ▸ h.nul)

/-- From every place of a clean string on, both loops go the same way. The induction is on the
rounds; both need one for each character or escape. -/
theorem printfFrom_eq (hm : CString mem p s) (hs : Printable s) (hc : Clean s) {fuel i : Nat}
    (hi : i ≤ s.length) (hfuel : s.length ≤ i + fuel) (arg size : Nat) :
    ∃ n, printfFrom mem args (fuel + 1) (p + i) arg size scr =
      some (n, (writebufFrom true (fun i => mem (p + i)) s.length fuel i scr).2) := by
  induction fuel generalizing i arg size scr with
  | zero =>
    obtain rfl : i = s.length := by omega
    exact ⟨size, if_pos hm.nul⟩
  | succ fuel ih =>
    rcases Nat.lt_or_eq_of_le hi with hlt | rfl
    case inr => exact ⟨size, by rw [writebufFrom_of_le (Nat.le_refl _)]; exact if_pos hm.nul⟩
    have hget := hm.get? hlt
    have hnul : mem (p + i) ≠ 0 := fun h0 => hs.noNul (h0 ▸ List.mem_of_getElem? hget)
    have hpct : mem (p + i) ≠ asciiPercent :=
      fun h0 => hs.noPercent (h0 ▸ List.mem_of_getElem? hget)
    rw [printfFrom, writebufFrom]
    simp only [if_neg hnul, if_neg hpct, if_pos hlt]
    by_cases hback : mem (p + i) = asciiBackslash
    case neg =>
      simp only [if_neg hback]
      exact ih (i := i + 1) (by omega) (by omega) _ _
    simp only [if_pos hback]
    rw [hback] at hget
    by_cases hescape : mem (p + i + 1) = asciiC
    · have hlt' : i + 1 < s.length :=
        hm.lt_of_ne (by omega) (by rw [← Nat.add_assoc, hescape]; decide)
      have hat : EscapeAt s i := ⟨hget, by rw [hm.get? hlt', ← Nat.add_assoc, hescape]⟩
      obtain ⟨-, b, hb, -⟩ := hs.complete i hlt hat
      have hlt'' : i + 3 < s.length := (List.getElem?_eq_some_iff.mp hb).1
      have hzero : mem (p + i + 2) = 0x30 := by
        have := hm.get? (i := i + 2) (by omega)
        rw [hc.background i hlt hat] at this
        exact (Option.some.inj this).symm
      simp only [← Nat.add_assoc, if_pos hescape, hzero, attrByte_black]
      exact ih (i := i + 4) (by omega) (by omega) _ _
    · -- the backslash is the last character: both loops end behind it
      have hend : i + 1 = s.length := by
        by_contra hne
        have hat := (hc.backslash i hlt hget (by omega)).2
        rw [hm.get? (by omega), ← Nat.add_assoc] at hat
        exact hescape (Option.some.inj hat)
      simp only [← Nat.add_assoc, if_neg hescape]
      rw [writebufFrom_of_le (by omega)]
      refine ⟨size, ?_⟩
      rw [printfFrom, Nat.add_assoc, hend]
      exact if_pos hm.nul

/-- On a clean string the printers agree, from every screen. -/
theorem printers_agree (hm : CString mem p s) (hs : Printable s) (hc : Clean s) :
    PrintersAgree mem args p s scr := by
  obtain ⟨n, hn⟩ : ∃ n, printfFrom mem args (s.length + 1) p 0 0 scr =
      some (n, (writebufFrom true (fun i => mem (p + i)) s.length s.length 0 scr).2) :=
    printfFrom_eq hm hs hc (i := 0) (Nat.zero_le _) (by omega) 0 0
  have hr : vgaPrintfFixedArgs mem args (s.length + 1) p scr =
      some (n, vgaUpdateCursor (vgaWritebuf true scr (fun i => mem (p + i)) s.length).2) := by
    rw [vgaPrintfFixedArgs, hn]
    rfl
  exact ⟨_, hr, rfl, rfl, rfl, fun i _ hne => Function.update_of_ne hne ..⟩

end

/-- A C string in a memory of its own. -/
def stringAt (s : List Byte) : Nat → Byte := fun i => s.getD i 0

theorem cstring_stringAt (s : List Byte) : CString (stringAt s) 0 s where
  byte i h := by simp [stringAt, h]
  nul := by simp [stringAt]

/-- `ok\c0Fok\`. -/
def brightString : List Byte := [0x6F, 0x6B, 0x5C, 0x63, 0x30, 0x46, 0x6F, 0x6B, 0x5C]

theorem printers_agree_bright :
    PrintersAgree (stringAt brightString) (fun _ => 0) 0 brightString blankScreen :=
  printers_agree (cstring_stringAt _) ⟨by decide, by decide, by decide⟩ ⟨by decide, by decide⟩

/-- `\c1FA`. -/
def blueString : List Byte := [0x5C, 0x63, 0x31, 0x46, 0x41]

/-- `\qA`. -/
def backslashString : List Byte := [0x5C, 0x71, 0x41]

/-- The first printer loses a background, and the character behind a backslash. -/
theorem printers_differ :
    (Printable blueString ∧
      ¬PrintersAgree (stringAt blueString) (fun _ => 0) 0 blueString blankScreen) ∧
    Printable backslashString ∧
      ¬PrintersAgree (stringAt backslashString) (fun _ => 0) 0 backslashString blankScreen := by
  refine ⟨⟨⟨by decide, by decide, by decide⟩, ?_⟩, ⟨by decide, by decide, by decide⟩, ?_⟩
  · rintro ⟨r, hr, -, -, -, hcells⟩
    have hcell : (vgaPrintfFixedArgs (stringAt blueString) (fun _ => 0) (blueString.length + 1) 0
        blankScreen).map (fun r => (r.2.location, r.2.cells 0)) = some (1, ⟨0x41, 0x1F⟩) := by
      decide
    rw [hr] at hcell
    simp only [Option.map_some, Option.some.injEq, Prod.mk.injEq] at hcell
    have := hcells 0 (by decide) (by rw [hcell.1]; decide)
    rw [hcell.2] at this
    exact absurd this (by decide)
  · rintro ⟨r, hr, hx, -⟩
    have hcol : (vgaPrintfFixedArgs (stringAt backslashString) (fun _ => 0)
        (backslashString.length + 1) 0 blankScreen).map (fun r => r.2.x) = some 3 := by
      decide
    rw [hr] at hcol
    have hcol : r.2.x = 3 := Option.some.inj hcol
    rw [hcol] at hx
    exact absurd hx (by decide)

end SpuriOS
