import SpuriOS.Console.Focus
import SpuriOS.Device.Reads
import SpuriOS.Lib.Stores

/-! # Keys and the reader of a console (`kernel/con.c`, `kernel/kbd.c`)

The handler of the keyboard keeps the character of the last scancode and wakes the reader of the
console with the focus. The reader looks at the character when it gets the CPU, which may be after
any number of further interrupts. -/

namespace SpuriOS

open Transition
open Circular (slice)

/-! ## The keyboard -/

def kbdScEscape : Byte := 0xe0
def kbdScCtrl : Byte := 0x1d
def kbdScAlt : Byte := 0x38
def kbdScLshift : Byte := 0x2a
def kbdScRshift : Byte := 0x36
def kbdScLeft : Byte := 0x4b
def kbdScRight : Byte := 0x4d

def kbdMdLctrl : Byte := 1
def kbdMdLshift : Byte := 2
def kbdMdLalt : Byte := 4
def kbdMdRctrl : Byte := 8
def kbdMdRshift : Byte := 16
def kbdMdRalt : Byte := 32

/-- The characters of consecutive scancodes. -/
def kbdRow (sc : Nat) (chars : String) : List (Nat × Char) := (chars.toList.zipIdx sc).map Prod.swap

/-- The entries that the two maps share. -/
def kbdBlanks : List (Nat × Char) :=
  [(0x01, '\x1b'), (0x0e, '\x08'), (0x0f, '\t'), (0x1c, '\n'), (0x39, ' ')]

def kbdEntries (lower : Bool) : List (Nat × Char) :=
  if lower then
    kbdBlanks ++ kbdRow 0x02 "1234567890-=" ++ kbdRow 0x10 "qwertyuiop[]" ++
      kbdRow 0x1e "asdfghjkl;'`" ++ kbdRow 0x2b "\\zxcvbnm,./"
  else
    kbdBlanks ++ kbdRow 0x02 "!@#$%^&*()_+" ++ kbdRow 0x10 "QWERTYUIOP\x7b\x7d" ++
      kbdRow 0x1e "ASDFGHJKL:\"~" ++ kbdRow 0x2b "|ZXCVBNM<>?"

/-- An array with the value 0 where no entry is. -/
def kbdMap (entries : List (Nat × Char)) (sc : Byte) : Byte :=
  ((entries.lookup sc.toNat).map Char.toUInt8).getD 0

def kbdLowerMap : Byte → Byte := kbdMap (kbdEntries true)
def kbdUpperMap : Byte → Byte := kbdMap (kbdEntries false)

/-- `kbd_sc_buf`, `kbd_md_state`, `kbd_escaped` and `kbd_char_buf`. -/
structure Kbd where
  scBuf : Byte
  mdState : Byte
  escaped : Bool
  charBuf : Byte

namespace Kbd

/-- `KBD_SHIFT_ON`. -/
def shiftOn (k : Kbd) : Bool := k.mdState &&& (kbdMdLshift ||| kbdMdRshift) ≠ 0

/-- `KBD_ALT_ON`. -/
def altOn (k : Kbd) : Bool := k.mdState &&& (kbdMdLalt ||| kbdMdRalt) ≠ 0

/-- `KBD_LEFT_PRESS`. -/
def leftPress (k : Kbd) : Bool := k.scBuf = kbdScLeft

/-- `KBD_RIGHT_PRESS`. -/
def rightPress (k : Kbd) : Bool := k.scBuf = kbdScRight

end Kbd

/-- The `switch` of `update_kbd_state`. -/
def Kbd.scan (sc : Byte) (k : Kbd) : Kbd :=
  let ctrl := if k.escaped then kbdMdRctrl else kbdMdLctrl
  let alt := if k.escaped then kbdMdRalt else kbdMdLalt
  if sc = kbdScEscape then { k with escaped := true }
  else if sc = kbdScLshift then { k with mdState := k.mdState ||| kbdMdLshift }
  else if sc = kbdScLshift ||| 0x80 then { k with mdState := k.mdState &&& ~~~kbdMdLshift }
  else if sc = kbdScRshift then { k with mdState := k.mdState ||| kbdMdRshift }
  else if sc = kbdScRshift ||| 0x80 then { k with mdState := k.mdState &&& ~~~kbdMdRshift }
  else if sc = kbdScCtrl then { k with mdState := k.mdState ||| ctrl }
  else if sc = kbdScCtrl ||| 0x80 then { k with mdState := k.mdState &&& ~~~ctrl }
  else if sc = kbdScAlt then { k with mdState := k.mdState ||| alt }
  else if sc = kbdScAlt ||| 0x80 then { k with mdState := k.mdState &&& ~~~alt }
  else if sc &&& 0x80 = 0 then
    { k with charBuf := (if k.shiftOn then kbdUpperMap else kbdLowerMap) sc }
  else k

/-- `update_kbd_state`, where `sc` is what `read_scancode` returns. -/
def updateKbdState (sc : Byte) (k : Kbd) : Kbd :=
  let k := Kbd.scan sc { k with scBuf := sc, charBuf := 0 }
  if k.escaped ∧ sc ≠ kbdScEscape then { k with escaped := false } else k

theorem updateKbdState_charBuf {sc : Byte} {k : Kbd} :
    (updateKbdState sc k).charBuf = (Kbd.scan sc { k with scBuf := sc, charBuf := 0 }).charBuf := by
  rw [updateKbdState]
  split <;> rfl

theorem updateKbdState_scBuf (sc : Byte) (k : Kbd) : (updateKbdState sc k).scBuf = sc := by
  have hscan : (Kbd.scan sc { k with scBuf := sc, charBuf := 0 }).scBuf = sc := by
    simp only [Kbd.scan, apply_ite Kbd.scBuf, ite_self]
  rw [updateKbdState]
  split <;> exact hscan

/-- The arrows of the two combinations have no characters. -/
theorem updateKbdState_arrow {sc : Byte} {k : Kbd} (h : (updateKbdState sc k).leftPress = true ∨
    (updateKbdState sc k).rightPress = true) : (updateKbdState sc k).charBuf = 0 := by
  rw [Kbd.leftPress, Kbd.rightPress, updateKbdState_scBuf, decide_eq_true_iff,
    decide_eq_true_iff] at h
  have hmaps : ∀ on : Bool, (if on then kbdUpperMap else kbdLowerMap) sc = 0 := by
    rcases h with rfl | rfl <;> decide
  rw [updateKbdState_charBuf]
  rcases h with rfl | rfl <;> exact hmaps _

/-! ## A reader among the interrupts -/

/-- A call `con_read(c, buf, size)` after it has blocked. `queued` says whether its process is in
`c->kbd_queue`, `seen` are the values of `kbd_char_buf` that it has found when it had the CPU, and
`typed` are the characters that were typed on `c` since. -/
structure KeyInput where
  con : Con
  kbd : Kbd
  queued : Bool
  seen : List Byte
  typed : List Byte

/-- The arguments of the call, with the memory of its process. -/
structure ReadArgs where
  c : ConId
  buf : Nat
  size : Nat
  user : UserMem

/-- What the call has come to. -/
def ReadArgs.read (a : ReadArgs) (seen : List Byte) : Option Int × Caller :=
  conRead seen a.buf a.size ⟨a.user, []⟩

inductive KeyLabel where
  /-- An interrupt of the keyboard. -/
  | key (sc : Byte)
  /-- The process that reads gets the CPU. -/
  | run
  /-- Another process opens, closes or writes to a console. -/
  | other (op : ConLabel)

namespace KeyInput

/-- `keyboard_handler`. -/
def key (a : ReadArgs) (sc : Byte) (s : KeyInput) : Option KeyInput :=
  match s.con.current with
  | none => some s
  | some cur =>
    let kbd := updateKbdState sc s.kbd
    let typed := if cur = a.c ∧ kbd.charBuf ≠ 0 then s.typed ++ [kbd.charBuf] else s.typed
    let s := { s with kbd, typed }
    if kbd.altOn ∧ kbd.shiftOn ∧ kbd.leftPress then
      (switchPrev s.con).map fun con => { s with con }
    else if kbd.altOn ∧ kbd.shiftOn ∧ kbd.rightPress then
      (switchNext s.con).map fun con => { s with con }
    else some (if cur = a.c then { s with queued := false } else s)

/-- The process goes on behind `loader_enqueue`, up to the next one. -/
def run (a : ReadArgs) (s : KeyInput) : Option KeyInput :=
  if s.queued ∨ (a.read s.seen).1.isSome then none
  else
    let seen := s.seen ++ [s.kbd.charBuf]
    some { s with seen, queued := (a.read seen).1.isNone }

/-- The process that reads keeps its console open; the focus moves by keys. -/
def OthersDo (a : ReadArgs) (s : KeyInput) : ConLabel → Prop
  | .open _ => True
  | .flush d => d ≠ a.c ∧ s.con.klass d = .console
  | .write d _ _ => s.con.klass d = .console
  | .prev | .next => False

inductive Step (a : ReadArgs) : KeyInput → KeyLabel → KeyInput → Prop
  | key {s s' sc} : s.key a sc = some s' → Step a s (.key sc) s'
  | run {s s'} : s.run a = some s' → Step a s .run s'
  | other {s : KeyInput} {op con} : s.OthersDo a op → conStep s.con op = some con →
    Step a s (.other op) { s with con }

/-- The call has just blocked, on the console with the focus. -/
structure Blocked (a : ReadArgs) (s : KeyInput) : Prop where
  current : s.con.current = some a.c
  queued : s.queued = true
  seen : s.seen = []
  typed : s.typed = []

def system (a : ReadArgs) : System KeyInput KeyLabel := ⟨Blocked a, Step a⟩

/-- The process that reads was woken and did not get the CPU yet. -/
def Woken (a : ReadArgs) (s : KeyInput) : Prop :=
  s.queued = false ∧ (a.read s.seen).1 = none

/-- No interrupt takes the character away from a reader that was woken, and none gives it one that
is not for it. -/
def Spared (a : ReadArgs) (s : KeyInput) : KeyLabel → Prop
  | .key sc => s.Woken a → s.kbd.charBuf = 0 ∧
      (s.con.current = some a.c ∨ (updateKbdState sc s.kbd).charBuf = 0)
  | _ => True

/-- The call returns the size as soon as there are as many characters, and they are in the
buffer. -/
structure Delivers (a : ReadArgs) (s : KeyInput) : Prop where
  returns : a.size ≤ s.typed.length → (a.read s.seen).1 = none →
    ∃ s', s.run a = some s' ∧ (a.read s'.seen).1 = some (a.size : Int)
  done : ∀ n, (a.read s.seen).1 = some n → n = a.size ∧ a.size ≤ s.typed.length ∧
    slice (a.read s.seen).2.user.byte a.buf a.size = s.typed.take a.size

end KeyInput

/-! ## What a reader does with the characters that it finds -/

section
variable {chars : List Byte} {buf size sz : Nat} {c : Caller}

/-- The characters among the values of `kbd_char_buf`. -/
def printable (chars : List Byte) : List Byte := chars.filter (· ≠ 0)

@[simp] theorem printable_nil : printable [] = [] := rfl

theorem printable_append {ch : Byte} :
    printable (chars ++ [ch]) = printable chars ++ if ch ≠ 0 then [ch] else [] := by
  rw [printable, List.filter_append]
  by_cases h : ch = 0 <;> simp [printable, h]

/-- The buffer ends up with the last of them at its first byte. -/
theorem conReadLoop_eq (hu : c.user.isUser buf = true) (hsz : sz ≤ size) :
    (conReadLoop buf size chars sz c).1 =
        (if size - sz ≤ (printable chars).length then some (size : Int) else none) ∧
      (conReadLoop buf size chars sz c).2.user.byte =
        ((printable chars).take (size - sz)).getLast?.elim c.user.byte
          (Function.update c.user.byte buf) := by
  induction chars generalizing sz c with
  | nil =>
    rw [conReadLoop, printable_nil, List.take_nil, List.length_nil]
    split
    next hlt => exact ⟨(if_neg (by omega)).symm, rfl⟩
    next hge =>
      obtain rfl : sz = size := by omega
      exact ⟨(if_pos (by omega)).symm, rfl⟩
  | cons ch chars ih =>
    rw [conReadLoop]
    split
    next hlt =>
      by_cases hch : ch = 0
      · have hskip : printable (ch :: chars) = printable chars := by simp [printable, hch]
        rw [if_neg (not_not_intro hch), hskip]
        exact ih hu hsz
      · have htake : printable (ch :: chars) = ch :: printable chars := by simp [printable, hch]
        rw [if_pos hch, htake, Caller.copy2user_true hu]
        obtain ⟨hres, hbyte⟩ := @ih (sz + 1) (c.after (fun _ => ch) buf 1) hu hlt
        have hafter : (c.after (fun _ => ch) buf 1).user.byte =
            Function.update c.user.byte buf ch := Memory.write_one _ _ fun _ => ch
        obtain ⟨n, hn⟩ : ∃ n, size - sz = n + 1 := ⟨size - sz - 1, by omega⟩
        rw [hres, hbyte, hafter, show size - (sz + 1) = n by omega, hn, List.length_cons,
          List.take_succ_cons, List.getLast?_cons, Option.elim_some]
        refine ⟨by simp only [Nat.add_le_add_iff_right], ?_⟩
        cases ((printable chars).take n).getLast? with
        | none => rfl
        | some last => exact Function.update_idem ..
    next hge =>
      obtain rfl : sz = size := by omega
      rw [Nat.sub_self, List.take_zero]
      exact ⟨(if_pos (Nat.zero_le _)).symm, rfl⟩

end

namespace ReadArgs
variable {a : ReadArgs} {seen : List Byte}

theorem read_result (hu : a.user.isUser a.buf = true) (seen : List Byte) :
    (a.read seen).1 = if a.size ≤ (printable seen).length then some (a.size : Int) else none := by
  have h := (@conReadLoop_eq seen a.buf a.size 0 ⟨a.user, []⟩ hu (Nat.zero_le a.size)).1
  rwa [Nat.sub_zero] at h

theorem read_byte (hu : a.user.isUser a.buf = true) (seen : List Byte) :
    (a.read seen).2.user.byte = ((printable seen).take a.size).getLast?.elim a.user.byte
      (Function.update a.user.byte a.buf) := by
  have h := (@conReadLoop_eq seen a.buf a.size 0 ⟨a.user, []⟩ hu (Nat.zero_le a.size)).2
  rwa [Nat.sub_zero] at h

/-- Of the characters typed, the first is the last one of the read, and the others are those that
are in the buffer anyway. -/
def Repeats (a : ReadArgs) (typed : List Byte) : Prop := ∀ i < a.size,
  typed[i]? = if i = 0 then typed[a.size - 1]? else some (a.user.byte (a.buf + i))

theorem repeats_of_le (h : a.size ≤ 1) (typed : List Byte) : a.Repeats typed := by
  intro i hi
  obtain rfl : i = 0 := by omega
  rw [if_pos rfl, show a.size - 1 = 0 by omega]

/-- A buffer with the last character at its first byte holds all of them just when they repeat. -/
theorem slice_last_iff {typed : List Byte} (hlen : a.size ≤ typed.length) {m : Nat → Byte}
    (hm : m = (typed.take a.size).getLast?.elim a.user.byte (Function.update a.user.byte a.buf)) :
    slice m a.buf a.size = typed.take a.size ↔ a.Repeats typed := by
  have hbyte : ∀ i < a.size,
      some (m (a.buf + i)) =
        if i = 0 then typed[a.size - 1]? else some (a.user.byte (a.buf + i)) := by
    intro i hi
    obtain ⟨last, hlast⟩ : ∃ ch, typed[a.size - 1]? = some ch :=
      ⟨_, List.getElem?_eq_getElem (by omega)⟩
    rw [List.getLast?_take, if_neg (by omega), hlast, Option.some_or, Option.elim_some] at hm
    rw [hm, hlast]
    split
    next h0 => rw [h0, Nat.add_zero, Function.update_self]
    next h0 => rw [Function.update_of_ne (by omega)]
  have hslice : ∀ i < a.size, (slice m a.buf a.size)[i]? = some (m (a.buf + i)) := fun i hi => by
    rw [slice, List.getElem?_map, List.getElem?_range hi, Option.map_some]
  constructor
  · intro h i hi
    rw [← hbyte i hi, ← hslice i hi, h, List.getElem?_take_of_lt hi]
  · intro h
    refine List.ext_getElem? fun i => ?_
    by_cases hi : i < a.size
    · rw [hslice i hi, List.getElem?_take_of_lt hi, h i hi, hbyte i hi]
    · rw [List.getElem?_eq_none (by rw [Circular.length_slice]; omega),
        List.getElem?_eq_none (by rw [List.length_take]; omega)]

end ReadArgs

/-! ## Runs -/

namespace KeyInput
variable {a : ReadArgs} {s s' : KeyInput} {l : KeyLabel}

/-- The characters typed are those that the reader has seen, with the one that waits for it if it
was woken. -/
structure Tracks (a : ReadArgs) (s : KeyInput) : Prop where
  seen : printable s.seen <+: s.typed
  le : (printable s.seen).length ≤ a.size
  typed : (printable s.seen).length < a.size → s.typed = printable s.seen ++
    if s.queued = true ∨ s.kbd.charBuf = 0 then [] else [s.kbd.charBuf]

theorem read_isNone (hu : a.user.isUser a.buf = true) (seen : List Byte) :
    (a.read seen).1 = none ↔ (printable seen).length < a.size := by
  rw [ReadArgs.read_result hu]
  split
  · exact iff_of_false nofun (by omega)
  · exact iff_of_true rfl (by omega)

/-- A key finds all characters seen. -/
theorem Tracks.key_typed (h : Tracks a s) (hu : a.user.isUser a.buf = true) {sc : Byte}
    (hok : Spared a s (.key sc)) (hlt : (printable s.seen).length < a.size) :
    s.typed = printable s.seen := by
  have htyped := h.typed hlt
  rwa [if_pos, List.append_nil] at htyped
  cases hq : s.queued with
  | true => exact .inl rfl
  | false => exact .inr (hok ⟨hq, (read_isNone hu _).2 hlt⟩).1

theorem Tracks.key (h : Tracks a s) (hu : a.user.isUser a.buf = true) {sc : Byte}
    (hok : Spared a s (.key sc)) (hkey : s.key a sc = some s') : Tracks a s' := by
  have htyped := h.key_typed hu hok
  rw [KeyInput.key] at hkey
  cases hcur : s.con.current with
  | none =>
    rw [hcur] at hkey
    cases hkey
    exact h
  | some cur =>
    rw [hcur] at hkey
    dsimp only at hkey
    generalize hk : updateKbdState sc s.kbd = k at hkey
    have hcombo (hno : k.charBuf = 0) (con : Con) : Tracks a { s with
        con := con, kbd := k
        typed := if cur = a.c ∧ k.charBuf ≠ 0 then s.typed ++ [k.charBuf] else s.typed } := by
      rw [if_neg fun hch => hch.2 hno]
      refine ⟨h.seen, h.le, fun hlt => ?_⟩
      dsimp only
      rw [if_pos (.inr hno), List.append_nil]
      exact htyped hlt
    split at hkey
    next hleft =>
      obtain ⟨con, -, rfl⟩ := Option.map_eq_some_iff.1 hkey
      exact hcombo (hk ▸ updateKbdState_arrow (.inl (hk ▸ hleft.2.2))) con
    next =>
      split at hkey
      next hright =>
        obtain ⟨con, -, rfl⟩ := Option.map_eq_some_iff.1 hkey
        exact hcombo (hk ▸ updateKbdState_arrow (.inr (hk ▸ hright.2.2))) con
      next =>
        split at hkey
        next hc =>
          -- the key is for the console, and wakes the reader
          cases hkey
          refine ⟨?_, h.le, fun hlt => ?_⟩
          · dsimp only
            split
            · exact h.seen.trans (List.prefix_append ..)
            · exact h.seen
          · dsimp only at hlt ⊢
            rw [htyped hlt]
            by_cases hch : k.charBuf = 0 <;> simp [hc, hch]
        next hc =>
          cases hkey
          rw [if_neg fun hch => hc hch.1]
          refine ⟨h.seen, h.le, fun hlt => ?_⟩
          dsimp only at hlt ⊢
          rw [htyped hlt]
          cases hq : s.queued with
          | true => simp
          | false =>
            obtain ⟨-, hcur' | hno⟩ := hok ⟨hq, (read_isNone hu _).2 hlt⟩
            · exact absurd (Option.some.inj (hcur.symm.trans hcur')) hc
            · rw [hk] at hno
              simp [hno]

theorem Tracks.run (h : Tracks a s) (hu : a.user.isUser a.buf = true) (hrun : s.run a = some s') :
    Tracks a s' := by
  rw [KeyInput.run] at hrun
  split at hrun
  next => cases hrun
  next hno =>
    rw [not_or, Bool.not_eq_true, Option.not_isSome_iff_eq_none, read_isNone hu] at hno
    obtain ⟨hq, hlt⟩ := hno
    cases hrun
    have htyped := h.typed hlt
    have hseen : printable (s.seen ++ [s.kbd.charBuf]) = s.typed := by
      rw [htyped, printable_append, hq]
      by_cases hch : s.kbd.charBuf = 0 <;> simp [hch]
    refine ⟨hseen ▸ List.prefix_rfl, ?_, fun hmore => ?_⟩
    · dsimp only
      rw [printable_append, List.length_append]
      split <;> simp only [List.length_cons, List.length_nil] <;> omega
    · dsimp only
      rw [(read_isNone hu _).2 hmore, hseen, if_pos (.inl rfl), List.append_nil]

theorem Tracks.step (h : Tracks a s) (hu : a.user.isUser a.buf = true) (hok : Spared a s l)
    (hstep : Step a s l s') : Tracks a s' := by
  cases hstep with
  | key hkey => exact h.key hu hok hkey
  | run hrun => exact h.run hu hrun
  | other => exact ⟨h.seen, h.le, h.typed⟩

theorem tracks (hu : a.user.isUser a.buf = true) (h : Reach (system a) (Spared a) s) :
    Tracks a s :=
  Reach.invariant (M := system a)
    (fun {s} hs => ⟨by rw [hs.seen, hs.typed]; exact List.prefix_rfl,
      by rw [hs.seen]; exact Nat.zero_le _,
      fun _ => by rw [hs.seen, hs.typed, if_pos (.inl hs.queued)]; rfl⟩)
    (fun hs hok hstep => hs.step hu hok hstep) h

theorem Tracks.returns (h : Tracks a s) (hu : a.user.isUser a.buf = true)
    (hlen : a.size ≤ s.typed.length) (hwait : (a.read s.seen).1 = none) :
    ∃ s', s.run a = some s' ∧ (a.read s'.seen).1 = some (a.size : Int) := by
  have hlt := (read_isNone hu _).1 hwait
  have htyped := h.typed hlt
  split at htyped
  next =>
    rw [htyped, List.append_nil] at hlen
    omega
  next hch =>
    rw [not_or, Bool.not_eq_true] at hch
    have hseen : printable (s.seen ++ [s.kbd.charBuf]) = s.typed := by
      rw [htyped, printable_append, if_pos hch.2]
    have hrun : ¬(s.queued = true ∨ (a.read s.seen).1.isSome = true) := by simp [hch.1, hwait]
    refine ⟨_, by rw [KeyInput.run, if_neg hrun], ?_⟩
    dsimp only
    rw [ReadArgs.read_result hu, hseen, if_pos hlen]

theorem Tracks.done (h : Tracks a s) (hu : a.user.isUser a.buf = true) {n : Int}
    (hread : (a.read s.seen).1 = some n) :
    n = a.size ∧ a.size ≤ s.typed.length ∧
      (a.read s.seen).2.user.byte = (s.typed.take a.size).getLast?.elim a.user.byte
        (Function.update a.user.byte a.buf) := by
  have hge : ¬(printable s.seen).length < a.size := fun hlt => by
    rw [(read_isNone hu _).2 hlt] at hread
    cases hread
  have hall : (printable s.seen).length = a.size := Nat.le_antisymm h.le (by omega)
  have htake : s.typed.take a.size = printable s.seen :=
    hall ▸ (List.prefix_iff_eq_take.1 h.seen).symm
  rw [ReadArgs.read_result hu, if_pos (by omega)] at hread
  refine ⟨(Option.some.inj hread).symm, hall ▸ h.seen.length_le, ?_⟩
  rw [ReadArgs.read_byte hu, htake, List.take_of_length_le h.le]

end KeyInput

/-- In every run in which no interrupt takes a character away from a reader that was woken, or
gives it one that is not for it: a read of one character delivers the first one typed, and a longer
one only what would be in the buffer anyway. -/
theorem input_delivered_iff {a : ReadArgs} (hu : a.user.isUser a.buf = true) {s : KeyInput}
    (h : Reach (KeyInput.system a) (KeyInput.Spared a) s) :
    (a.size ≤ 1 → s.Delivers a) ∧
      ((a.read s.seen).1.isSome → (s.Delivers a ↔ a.Repeats s.typed)) := by
  have ht := KeyInput.tracks hu h
  have hiff : ∀ n, (a.read s.seen).1 = some n →
      (slice (a.read s.seen).2.user.byte a.buf a.size = s.typed.take a.size ↔
        a.Repeats s.typed) := fun n hn => by
    obtain ⟨-, hlen, hbyte⟩ := ht.done hu hn
    exact ReadArgs.slice_last_iff hlen hbyte
  have hdelivers (hrep : a.Repeats s.typed) : s.Delivers a :=
    ⟨ht.returns hu, fun n hn => ⟨(ht.done hu hn).1, (ht.done hu hn).2.1, (hiff n hn).2 hrep⟩⟩
  refine ⟨fun hsize => hdelivers (a.repeats_of_le hsize _), fun hsome => ⟨fun hd => ?_, hdelivers⟩⟩
  obtain ⟨n, hn⟩ := Option.isSome_iff_exists.1 hsome
  exact (hiff n hn).1 (hd.done n hn).2.2

/-- A read of `size` bytes from the only console, to an empty buffer. -/
def readKeys (size : Nat) : ReadArgs := ⟨firstConsole, 0, size, userPages⟩

/-- The call has blocked, with the focus on the console. -/
def blockedKeys : KeyInput where
  con := { Con.boot with current := some firstConsole }
  kbd := ⟨0, 0, false, 0⟩
  queued := true
  seen := []
  typed := []

/-- After the key of `a`, and after the reader got the CPU. -/
def pressedA : KeyInput :=
  { blockedKeys with kbd := ⟨0x1e, 0, false, 0x61⟩, queued := false, typed := [0x61] }

def seenA (queued : Bool) : KeyInput := { pressedA with queued, seen := [0x61] }

theorem pressedA_key (a : ReadArgs) (hc : a.c = firstConsole) :
    blockedKeys.key a 0x1e = some pressedA := by
  rw [KeyInput.key]
  dsimp only [blockedKeys]
  rw [hc]
  rfl

/-- A read of one character gets the `a`. -/
theorem input_delivered_one : (seenA false).Delivers (readKeys 1) := by
  have hblocked : KeyInput.Blocked (readKeys 1) blockedKeys := ⟨rfl, rfl, rfl, rfl⟩
  have hkey : Reach (KeyInput.system (readKeys 1)) (KeyInput.Spared (readKeys 1)) pressedA :=
    .step (M := KeyInput.system _) (a := .key 0x1e) (.init hblocked)
      (fun hwoken => nomatch hwoken.1) (.key (pressedA_key _ rfl))
  exact (input_delivered_iff rfl (.step (M := KeyInput.system _) (a := .run) hkey trivial
    (.run rfl))).1 (Nat.le_refl 1)

/-- A read of two characters finds `b` where `a` should be, and nothing behind it; and a read of one
misses an `a` whose key is released before it gets the CPU. -/
theorem keys_overwritten :
    (∃ s, Reach (KeyInput.system (readKeys 2)) anyStep s ∧ ¬s.Delivers (readKeys 2)) ∧
      ∃ s, Reach (KeyInput.system (readKeys 1)) anyStep s ∧ ¬s.Delivers (readKeys 1) := by
  have hpressed (size : Nat) : Reach (KeyInput.system (readKeys size)) anyStep pressedA :=
    .step (M := KeyInput.system _) (a := .key 0x1e) (.init ⟨rfl, rfl, rfl, rfl⟩) trivial
      (.key (pressedA_key _ rfl))
  constructor
  · have hseen : Reach (KeyInput.system (readKeys 2)) anyStep (seenA true) :=
      .step (M := KeyInput.system _) (a := .run) (hpressed 2) trivial (.run rfl)
    have hkey : Reach (KeyInput.system (readKeys 2)) anyStep { seenA true with
        kbd := ⟨0x30, 0, false, 0x62⟩, queued := false, typed := [0x61, 0x62] } :=
      .step (M := KeyInput.system _) (a := .key 0x30) hseen trivial (.key rfl)
    refine ⟨_, .step (M := KeyInput.system _) (a := .run) hkey trivial (.run rfl), fun h => ?_⟩
    exact absurd (h.done 2 rfl).2.2 (by decide)
  · have hreleased : Reach (KeyInput.system (readKeys 1)) anyStep { pressedA with
        kbd := ⟨0x9e, 0, false, 0⟩ } :=
      .step (M := KeyInput.system _) (a := .key 0x9e) (hpressed 1) trivial (.key rfl)
    refine ⟨_, .step (M := KeyInput.system _) (a := .run) hreleased trivial (.run rfl), fun h => ?_⟩
    obtain ⟨s', hrun, -⟩ := h.returns (Nat.le_refl 1) rfl
    cases hrun

end SpuriOS
