import SpuriOS.Mm.Entries

/-! # Page tables as words (`kernel/mm.c`)

The functions on page tables as the code has them: a directory and its tables are frames of 1024
words of 32 bits, in memory that the kernel reaches at its own addresses. A place in it goes by its
frame and the number of the word. `DirWf` says that the frames of a directory are used for
nothing else; then the two levels are a finite map from pages to words, and the writers do to it
what they do to the entries of an address space. -/

namespace SpuriOS

/-- Physical memory by words, and the bitmap of `mm_mem_kalloc`. -/
structure PageMem where
  word : Nat → BitVec 32
  bitmap : Bitmap

namespace PageMem

/-! ## The bit fields of `mm_page` -/

def attr (e : BitVec 32) : BitVec 12 := e.extractLsb' 0 12

def base (e : BitVec 32) : BitVec 20 := e.extractLsb' 12 20

def setAttr (a : BitVec 12) (e : BitVec 32) : BitVec 32 := base e ++ a

def setBase (b : BitVec 20) (e : BitVec 32) : BitVec 32 := b ++ attr e

@[simp] theorem attr_append (b : BitVec 20) (a : BitVec 12) : attr (b ++ a) = a :=
  BitVec.extractLsb'_append_eq_right

@[simp] theorem base_append (b : BitVec 20) (a : BitVec 12) : base (b ++ a) = b :=
  BitVec.extractLsb'_append_eq_left

/-- `MM_ATTR_P`, `MM_ATTR_RW` and `MM_ATTR_US_U`. -/
def mmAttrP : BitVec 12 := 1
def mmAttrRw : BitVec 12 := 2
def mmAttrUsU : BitVec 12 := 4

/-- `PL_KERNEL` and `PL_USER`. -/
def plKernel : Nat := 0
def plUser : Nat := 3

def Present (e : BitVec 32) : Prop := attr e &&& mmAttrP ≠ 0

instance (e : BitVec 32) : Decidable (Present e) := inferInstanceAs (Decidable (_ ≠ _))

/-- `PD_ENTRY_FOR` and `PT_ENTRY_FOR`. -/
def pdEntryFor (x : BitVec 32) : Nat := (x >>> 22).toNat
def ptEntryFor (x : BitVec 32) : Nat := ((x &&& 0x3FF000#32) >>> 12).toNat

/-- The test of the assertions about addresses. -/
def Aligned (x : BitVec 32) : Prop := x &&& 0xFFF#32 = 0#32

instance (x : BitVec 32) : Decidable (Aligned x) := inferInstanceAs (Decidable (_ = _))

/-! ## The functions -/

def set (i : Nat) (e : BitVec 32) (s : PageMem) : PageMem :=
  { s with word := Function.update s.word i e }

theorem set_word_self {i : Nat} {e : BitVec 32} {s : PageMem} : (s.set i e).word i = e :=
  Function.update_self _ _ _

theorem set_word_of_ne {i j : Nat} {e : BitVec 32} {s : PageMem} (h : j ≠ i) :
    (s.set i e).word j = s.word j := Function.update_of_ne h _ _

/-- `memset` of a page with zeros. -/
def clearPage (frame : Nat) (s : PageMem) : PageMem :=
  { s with word := fun i => if i / 1024 = frame then 0 else s.word i }

/-- Where the entry of a page in the directory is. -/
def pdEntry (vaddr : BitVec 32) (pdt : Nat) : Nat := pdt * 1024 + pdEntryFor vaddr

/-- `page_table[PT_ENTRY_FOR(vaddr)]`, for the table in the directory. -/
def ptEntry (vaddr : BitVec 32) (pdt : Nat) (s : PageMem) : Nat :=
  (base (s.word (pdEntry vaddr pdt))).toNat * 1024 + ptEntryFor vaddr

/-- None for a false `kassert`, and for the null pointer the none inside. -/
def mmPtEntryFor (vaddr : BitVec 32) (pdt : Nat) (s : PageMem) : Option (Option Nat) :=
  if ¬Aligned vaddr then none
  else if ¬Present (s.word (pdEntry vaddr pdt)) then some none
  else some (some (s.ptEntry vaddr pdt))

/-- Page 0 is not mapped, so that the null pointer cannot be followed. -/
def mmFrameFromPage (virtAddr : BitVec 32) (pdt : Nat) (s : PageMem) : Option (BitVec 32) :=
  match s.mmPtEntryFor virtAddr pdt with
  | some (some entry) => some (base (s.word entry) ++ 0#12)
  | _ => none

def mmPlOfVaddr (vaddr : BitVec 32) (pdt : Nat) (s : PageMem) : Option Nat :=
  (s.mmPtEntryFor (vaddr &&& ~~~0xFFF#32) pdt).map fun
    | none => plKernel
    | some entry =>
      if attr (s.word entry) &&& mmAttrUsU ≠ 0 ∨
          (attr (s.word entry) &&& mmAttrP = 0 ∧ s.word entry &&& 2 ≠ 0) then plUser
      else plKernel

/-- A new page table in a frame, at an entry of the directory. -/
def newTable (pd : Nat) (frame : Nat) (s : PageMem) : PageMem :=
  let s := s.set pd (BitVec.ofNat 32 frame)
  let s := s.set pd (setAttr (mmAttrP ||| mmAttrRw ||| mmAttrUsU) (s.word pd))
  s.clearPage (base (s.word pd)).toNat

def mmMapFrame (physAddr virtAddr : BitVec 32) (pdt pl : Nat) (s : PageMem) : Option PageMem :=
  if ¬Aligned physAddr ∨ ¬Aligned virtAddr then none
  else
    (if ¬Present (s.word (pdEntry virtAddr pdt)) then
      (mmMemKalloc s.bitmap).map fun (frame, bitmap) =>
        { s with bitmap }.newTable (pdEntry virtAddr pdt) frame
    else some s).map fun s =>
      let entry := s.ptEntry virtAddr pdt
      let s := s.set entry (setBase ((physAddr >>> 12).setWidth 20) (s.word entry))
      let us := if pl = plKernel then 0 else mmAttrUsU
      s.set entry (setAttr (mmAttrP ||| mmAttrRw ||| us) (s.word entry))

def mmUnmapPage (virtAddr : BitVec 32) (pdt : Nat) (s : PageMem) : Option PageMem :=
  if ¬Aligned virtAddr then none
  else if ¬Present (s.word (pdEntry virtAddr pdt)) then none
  else some (s.set (s.ptEntry virtAddr pdt) 0)

def mmSetPtEntry (vaddr entryValue : BitVec 32) (pdt : Nat) (s : PageMem) :
    Option (Bool × PageMem) :=
  if ¬Aligned vaddr ∨ Present entryValue then none
  else if ¬Present (s.word (pdEntry vaddr pdt)) then do
    let (frame, bitmap) ← mmMemKalloc s.bitmap
    let s := { s with bitmap }
    if frame = 0 then return (false, s)
    else
      let s := s.newTable (pdEntry vaddr pdt) frame
      return (true, s.set (s.ptEntry vaddr pdt) entryValue)
  else some (true, s.set (s.ptEntry vaddr pdt) entryValue)

/-! ## Addresses -/

section
variable {x u v : BitVec 32}

theorem pdEntryFor_eq (x : BitVec 32) : pdEntryFor x = x.toNat / 2 ^ 22 := by
  rw [pdEntryFor, BitVec.toNat_ushiftRight, Nat.shiftRight_eq_div_pow]

theorem ptEntryFor_eq (x : BitVec 32) : ptEntryFor x = x.toNat / 2 ^ 12 % 1024 := by
  have hmask : (0x3FF000#32).toNat >>> 12 = 2 ^ 10 - 1 := rfl
  rw [ptEntryFor, BitVec.toNat_ushiftRight, BitVec.toNat_and, Nat.shiftRight_and_distrib, hmask,
    Nat.and_two_pow_sub_one_eq_mod, Nat.shiftRight_eq_div_pow]

theorem pdEntryFor_lt (x : BitVec 32) : pdEntryFor x < 1024 := by
  have := x.isLt
  rw [pdEntryFor_eq]
  omega

theorem ptEntryFor_lt (x : BitVec 32) : ptEntryFor x < 1024 := by
  rw [ptEntryFor_eq]
  exact Nat.mod_lt _ (by decide)

theorem aligned_iff : Aligned x ↔ x.toNat % 2 ^ 12 = 0 := by
  have hmask : (0xFFF#32).toNat = 2 ^ 12 - 1 := rfl
  rw [Aligned, ← BitVec.toNat_inj, BitVec.toNat_and, hmask, Nat.and_two_pow_sub_one_eq_mod]
  rfl

/-- The start of the page of an address. -/
theorem aligned_page (x : BitVec 32) : Aligned (x &&& ~~~0xFFF#32) := by
  rw [Aligned, BitVec.and_assoc, BitVec.and_comm (~~~0xFFF#32), BitVec.and_not_self]
  exact BitVec.and_zero

/-- Two pages have the same place in the two levels only if they are one. -/
theorem page_ext (hu : Aligned u) (hv : Aligned v) (hpd : pdEntryFor u = pdEntryFor v)
    (hpt : ptEntryFor u = ptEntryFor v) : u = v := by
  rw [aligned_iff] at hu hv
  rw [pdEntryFor_eq, pdEntryFor_eq] at hpd
  rw [ptEntryFor_eq, ptEntryFor_eq] at hpt
  exact BitVec.eq_of_toNat_eq (by omega)

end

/-! ## The finite map -/

/-- The frame of the table in entry `i` of a directory. -/
def tableAt (pdt i : Nat) (s : PageMem) : Nat := (base (s.word (pdt * 1024 + i))).toNat

/-- The frames of a directory, itself and its tables, are different frames that are not free. -/
structure DirWf (pdt : Nat) (s : PageMem) : Prop where
  ne_pdt : ∀ i < 1024, Present (s.word (pdt * 1024 + i)) → s.tableAt pdt i ≠ pdt
  inj : ∀ i < 1024, ∀ j < 1024, Present (s.word (pdt * 1024 + i)) →
    Present (s.word (pdt * 1024 + j)) → s.tableAt pdt i = s.tableAt pdt j → i = j
  marked : ∀ p, p / 8 < kernelBytes → s.bitmap.bit p = false → frameAt p ≠ pdt * pageSize ∧
    ∀ i < 1024, Present (s.word (pdt * 1024 + i)) → frameAt p ≠ s.tableAt pdt i * pageSize

/-- The word of a page, 0 without a table. -/
def rawEntry (vaddr : BitVec 32) (pdt : Nat) (s : PageMem) : BitVec 32 :=
  if Present (s.word (pdEntry vaddr pdt)) then s.word (s.ptEntry vaddr pdt) else 0

/-- The frame to which the processor takes a page. -/
def translate (vaddr : BitVec 32) (pdt : Nat) (s : PageMem) : Option (BitVec 20) :=
  match s.mmPtEntryFor vaddr pdt with
  | some (some entry) => if Present (s.word entry) then some (base (s.word entry)) else none
  | _ => none

/-- The level that a word gives to its page. -/
def levelOf (e : BitVec 32) : Nat :=
  if attr e &&& mmAttrUsU ≠ 0 ∨ (attr e &&& mmAttrP = 0 ∧ e &&& 2 ≠ 0) then plUser else plKernel

/-- What changes when the word of the page `v` becomes `e`: nothing for the other pages. -/
structure Replaced (pdt : Nat) (v e : BitVec 32) (s s' : PageMem) : Prop where
  wf : DirWf pdt s'
  entry : ∃ a, s'.mmPtEntryFor v pdt = some (some a) ∧ s'.word a = e
  raw : ∀ u, Aligned u → u ≠ v → s'.rawEntry u pdt = s.rawEntry u pdt
  translation : ∀ u, Aligned u → u ≠ v → s'.translate u pdt = s.translate u pdt
  frame : ∀ u, Aligned u → u ≠ v → Present (s.word (pdEntry u pdt)) →
    s'.mmFrameFromPage u pdt = s.mmFrameFromPage u pdt
  level : ∀ x, x &&& ~~~0xFFF#32 ≠ v → s'.mmPlOfVaddr x pdt = s.mmPlOfVaddr x pdt

/-- The page `v` has its table, and all pages their words. -/
structure HasTable (pdt : Nat) (v : BitVec 32) (s s' : PageMem) : Prop where
  wf : DirWf pdt s'
  here : Present (s'.word (pdEntry v pdt))
  dir : ∀ u, Present (s.word (pdEntry u pdt)) → Present (s'.word (pdEntry u pdt))
  raw : ∀ u, s'.rawEntry u pdt = s.rawEntry u pdt

section
variable {pdt pl frame pd j : Nat} {s s' : PageMem} {u v x e f : BitVec 32} {bitmap : Bitmap}

theorem mmPtEntryFor_eq (hu : Aligned u) (hp : Present (s.word (pdEntry u pdt))) :
    s.mmPtEntryFor u pdt = some (some (s.ptEntry u pdt)) := by
  rw [mmPtEntryFor, if_neg (not_not_intro hu), if_neg (not_not_intro hp)]

theorem mmPtEntryFor_absent (hu : Aligned u) (hp : ¬Present (s.word (pdEntry u pdt))) :
    s.mmPtEntryFor u pdt = some none := by
  rw [mmPtEntryFor, if_neg (not_not_intro hu), if_pos hp]

/-! Each reader sees the word of a page. -/

theorem mmPlOfVaddr_eq :
    s.mmPlOfVaddr x pdt = some (levelOf (s.rawEntry (x &&& ~~~0xFFF#32) pdt)) := by
  have hx := aligned_page x
  rw [mmPlOfVaddr, rawEntry]
  by_cases hp : Present (s.word (pdEntry (x &&& ~~~0xFFF#32) pdt))
  · rw [mmPtEntryFor_eq hx hp, if_pos hp]
    rfl
  · rw [mmPtEntryFor_absent hx hp, if_neg hp]
    rfl

theorem translate_eq (hu : Aligned u) : s.translate u pdt =
    if Present (s.rawEntry u pdt) then some (base (s.rawEntry u pdt)) else none := by
  rw [translate, rawEntry]
  by_cases hp : Present (s.word (pdEntry u pdt))
  · rw [mmPtEntryFor_eq hu hp, if_pos hp]
  · rw [mmPtEntryFor_absent hu hp, if_neg hp]
    rfl

theorem mmFrameFromPage_eq (hu : Aligned u) (hp : Present (s.word (pdEntry u pdt))) :
    s.mmFrameFromPage u pdt = some (base (s.rawEntry u pdt) ++ 0#12) := by
  rw [mmFrameFromPage, mmPtEntryFor_eq hu hp, rawEntry, if_pos hp]

/-! ## Writing a word -/

/-- A directory word keeps its place when a word of a table is set. -/
theorem set_word_pd (h : DirWf pdt s) {i j : Nat} (hi : i < 1024)
    (hp : Present (s.word (pdt * 1024 + i))) (hj : j < 1024) {k : Nat} (hk : k < 1024) :
    (s.set (s.tableAt pdt i * 1024 + k) e).word (pdt * 1024 + j) = s.word (pdt * 1024 + j) := by
  have hne := h.ne_pdt i hi hp
  exact set_word_of_ne (by omega)

/-- The frames of a directory are told by its words. -/
theorem DirWf.congr (h : DirWf pdt s)
    (hpd : ∀ i < 1024, s'.word (pdt * 1024 + i) = s.word (pdt * 1024 + i))
    (hb : s'.bitmap = s.bitmap) : DirWf pdt s' := by
  refine ⟨fun i hi hpi => ?_, fun i hi j hj hpi hpj hij => ?_, fun p hk hp => ?_⟩
  · rw [tableAt, hpd i hi] at *
    exact h.ne_pdt i hi hpi
  · rw [tableAt, tableAt, hpd i hi, hpd j hj] at *
    exact h.inj i hi j hj hpi hpj hij
  · rw [hb] at hp
    refine ⟨(h.marked p hk hp).1, fun i hi hpi => ?_⟩
    rw [tableAt, hpd i hi] at *
    exact (h.marked p hk hp).2 i hi hpi

/-- Setting the word of a page whose table is there. -/
theorem HasTable.replaced (h : HasTable pdt v s s') (hv : Aligned v) :
    Replaced pdt v e s (s'.set (s'.ptEntry v pdt) e) := by
  have hpd : ∀ j < 1024, (s'.set (s'.ptEntry v pdt) e).word (pdt * 1024 + j) =
      s'.word (pdt * 1024 + j) := fun j hj =>
    set_word_pd h.wf (pdEntryFor_lt v) h.here hj (ptEntryFor_lt v)
  have hpde : ∀ u, (s'.set (s'.ptEntry v pdt) e).word (pdEntry u pdt) = s'.word (pdEntry u pdt) :=
    fun u => hpd _ (pdEntryFor_lt u)
  have hplace : ∀ u, (s'.set (s'.ptEntry v pdt) e).ptEntry u pdt = s'.ptEntry u pdt := fun u => by
    rw [ptEntry, hpde, ← ptEntry]
  have hraw : ∀ u, Aligned u → u ≠ v →
      (s'.set (s'.ptEntry v pdt) e).rawEntry u pdt = s.rawEntry u pdt := by
    intro u hu hne
    rw [← h.raw u, rawEntry, rawEntry, hpde, hplace]
    split
    next hpu =>
      -- two pages with one word would have one table, and be one page
      refine set_word_of_ne fun heq => hne ?_
      have hlt := ptEntryFor_lt u
      have hlt' := ptEntryFor_lt v
      rw [ptEntry, ptEntry] at heq
      have htable : s'.tableAt pdt (pdEntryFor u) = s'.tableAt pdt (pdEntryFor v) := by
        unfold tableAt
        unfold pdEntry at heq
        omega
      exact page_ext hu hv (h.wf.inj _ (pdEntryFor_lt u) _ (pdEntryFor_lt v) hpu h.here htable)
        (by omega)
    next => rfl
  refine ⟨h.wf.congr hpd rfl, ⟨s'.ptEntry v pdt, ?_, set_word_self⟩, hraw, fun u hu hne => ?_,
    fun u hu hne hpu => ?_, fun x hx => ?_⟩
  · rw [mmPtEntryFor_eq hv (by rw [hpde]; exact h.here), hplace]
  · rw [translate_eq hu, translate_eq hu, hraw u hu hne]
  · rw [mmFrameFromPage_eq hu hpu, mmFrameFromPage_eq hu (by rw [hpde]; exact h.dir u hpu),
      hraw u hu hne]
  · rw [mmPlOfVaddr_eq, mmPlOfVaddr_eq, hraw _ (aligned_page x) hx]

/-! ## A new table -/

theorem base_ofNat (h : frame < 2 ^ 32) :
    (base (BitVec.ofNat 32 frame)).toNat = frame / pageSize := by
  rw [base, BitVec.extractLsb'_toNat, BitVec.toNat_ofNat, Nat.mod_eq_of_lt h,
    Nat.shiftRight_eq_div_pow, pageSize_eq]
  omega

/-- The words of a new table: its entry in the directory, and zeros. -/
theorem newTable_word (h : frame < 2 ^ 32) : (s.newTable pd frame).word j =
    if j / 1024 = frame / pageSize then 0
    else if j = pd then base (BitVec.ofNat 32 frame) ++ (mmAttrP ||| mmAttrRw ||| mmAttrUsU)
    else s.word j := by
  have hbase : (base (((s.set pd (BitVec.ofNat 32 frame)).set pd (setAttr
      (mmAttrP ||| mmAttrRw ||| mmAttrUsU) ((s.set pd (BitVec.ofNat 32 frame)).word pd))).word
        pd)).toNat = frame / pageSize := by
    rw [set_word_self, set_word_self, setAttr, base_append, base_ofNat h]
  rw [newTable, clearPage, hbase]
  refine if_congr Iff.rfl rfl ?_
  by_cases hj : j = pd
  · rw [if_pos hj, hj, set_word_self, set_word_self, setAttr]
  · rw [if_neg hj, set_word_of_ne hj, set_word_of_ne hj]

theorem present_table (b : BitVec 20) : Present (b ++ (mmAttrP ||| mmAttrRw ||| mmAttrUsU)) := by
  rw [Present, attr_append]
  decide

/-- A frame that comes from the bitmap is none of a directory's, and no longer free. -/
theorem DirWf.kalloc (h : DirWf pdt s) (hk : mmMemKalloc s.bitmap = some (frame, bitmap))
    (hne : frame ≠ 0) : frame < 2 ^ 32 ∧ frame / pageSize ≠ pdt ∧
      (∀ i < 1024, Present (s.word (pdt * 1024 + i)) → s.tableAt pdt i ≠ frame / pageSize) ∧
      ∀ p, p / 8 < kernelBytes → bitmap.bit p = false →
        s.bitmap.bit p = false ∧ frameAt p ≠ frame / pageSize * pageSize := by
  obtain ⟨q, -, hq, -, hclear, -, rfl, rfl⟩ :=
    (mmMemSeek_cases hk).resolve_left fun hfull => hne hfull.1
  have hmax : ∀ p, p / 8 < kernelBytes → p / 8 < maxByteLen := fun p hp =>
    Nat.lt_of_lt_of_le hp (show kernelBytes ≤ maxByteLen by decide)
  have hframe := frameAt_eq (hmax q hq)
  have hmul : frameAt q / pageSize * pageSize = frameAt q := by
    rw [hframe, pageSize_eq, himemBegin]
    omega
  obtain ⟨hpdt, htables⟩ := h.marked q hq hclear
  refine ⟨?_, fun he => hpdt (by rw [← he, hmul]), fun i hi hpi he =>
    htables i hi hpi (by rw [he, hmul]), fun p hp hb => ?_⟩
  · have hqmax := hmax q hq
    rw [maxByteLen_eq] at hqmax
    rw [hframe, pageSize_eq, himemBegin]
    omega
  · rw [Bitmap.bit_mark, Bool.or_eq_false_iff, decide_eq_false_iff_not] at hb
    refine ⟨hb.1, fun he => hb.2 ?_⟩
    rw [hmul] at he
    exact (frameAt_inj (hmax p hp) (hmax q hq) he).symm

/-- With a frame that was free for a table, every page keeps its word. -/
theorem HasTable.new (h : DirWf pdt s) (hp : ¬Present (s.word (pdEntry v pdt)))
    (hk : mmMemKalloc s.bitmap = some (frame, bitmap)) (hne : frame ≠ 0) :
    HasTable pdt v s ({ s with bitmap }.newTable (pdEntry v pdt) frame) := by
  obtain ⟨hlt, hpdt, htables, hfree⟩ := h.kalloc hk hne
  have hv := pdEntryFor_lt v
  have hword : ∀ j, ({ s with bitmap }.newTable (pdEntry v pdt) frame).word j = _ := fun _ =>
    newTable_word hlt
  have hbitmap : ({ s with bitmap }.newTable (pdEntry v pdt) frame).bitmap = bitmap := rfl
  generalize { s with bitmap }.newTable (pdEntry v pdt) frame = s' at hword hbitmap
  -- the words of the directory: the new one, and the others as before
  have hnew : s'.word (pdEntry v pdt) =
      base (BitVec.ofNat 32 frame) ++ (mmAttrP ||| mmAttrRw ||| mmAttrUsU) := by
    rw [hword, if_neg (by unfold pdEntry; omega), if_pos rfl]
  have hold : ∀ i < 1024, i ≠ pdEntryFor v →
      s'.word (pdt * 1024 + i) = s.word (pdt * 1024 + i) := by
    intro i hi hne
    rw [hword, if_neg (by omega), if_neg (by unfold pdEntry; omega)]
  have hhere : Present (s'.word (pdEntry v pdt)) := by
    rw [hnew]
    exact present_table _
  have htable : s'.tableAt pdt (pdEntryFor v) = frame / pageSize := by
    rw [tableAt, ← pdEntry, hnew, base_append, base_ofNat hlt]
  have hcases : ∀ i < 1024, Present (s'.word (pdt * 1024 + i)) →
      i = pdEntryFor v ∨
        Present (s.word (pdt * 1024 + i)) ∧ s'.tableAt pdt i = s.tableAt pdt i := by
    intro i hi hpi
    by_cases he : i = pdEntryFor v
    · exact .inl he
    · rw [hold i hi he] at hpi
      exact .inr ⟨hpi, by rw [tableAt, hold i hi he, ← tableAt]⟩
  refine ⟨⟨fun i hi hpi => ?_, fun i hi j hj hpi hpj hij => ?_, fun p hk hb => ?_⟩, hhere,
    fun u hpu => ?_, fun u => ?_⟩
  · rcases hcases i hi hpi with rfl | ⟨hpi', he⟩
    · rwa [htable]
    · rw [he]
      exact h.ne_pdt i hi hpi'
  · rcases hcases i hi hpi with rfl | ⟨hpi', hei⟩ <;> rcases hcases j hj hpj with rfl | ⟨hpj', hej⟩
    · rfl
    · rw [htable, hej] at hij
      exact absurd hij.symm (htables j hj hpj')
    · rw [htable, hei] at hij
      exact absurd hij (htables i hi hpi')
    · rw [hei, hej] at hij
      exact h.inj i hi j hj hpi' hpj' hij
  · rw [hbitmap] at hb
    obtain ⟨hb, hnew⟩ := hfree p hk hb
    refine ⟨(h.marked p hk hb).1, fun i hi hpi => ?_⟩
    rcases hcases i hi hpi with rfl | ⟨hpi', he⟩
    · rwa [htable]
    · rw [he]
      exact (h.marked p hk hb).2 i hi hpi'
  · by_cases he : pdEntryFor u = pdEntryFor v
    · rw [pdEntry, he]
      exact hhere
    · rw [pdEntry, hold _ (pdEntryFor_lt u) he]
      exact hpu
  · have hu := ptEntryFor_lt u
    by_cases he : pdEntryFor u = pdEntryFor v
    · -- a page of the new table
      have hpu : pdEntry u pdt = pdEntry v pdt := congrArg _ he
      rw [rawEntry, rawEntry, hpu, if_pos hhere, if_neg hp, ptEntry, hpu, hword, if_pos]
      rw [← htable, tableAt, ← pdEntry]
      omega
    · have hpde : s'.word (pdEntry u pdt) = s.word (pdEntry u pdt) := hold _ (pdEntryFor_lt u) he
      rw [rawEntry, rawEntry, hpde]
      split
      next hpu =>
        have hne' := htables _ (pdEntryFor_lt u) hpu
        have hne'' := h.ne_pdt _ (pdEntryFor_lt u) hpu
        rw [tableAt, ← pdEntry] at hne' hne''
        rw [ptEntry, hpde, ← ptEntry, hword, if_neg, if_neg] <;>
          unfold ptEntry pdEntry at * <;> omega
      next => rfl

theorem HasTable.refl (h : DirWf pdt s) (hp : Present (s.word (pdEntry v pdt))) :
    HasTable pdt v s s := ⟨h, hp, fun _ => id, fun _ => rfl⟩

/-! ## The three writers -/

theorem append_base (hf : Aligned f) : (f >>> 12).setWidth 20 ++ 0#12 = f := by
  rw [aligned_iff] at hf
  have := f.isLt
  refine BitVec.eq_of_toNat_eq ?_
  rw [BitVec.toNat_append, BitVec.toNat_setWidth, BitVec.toNat_ushiftRight, BitVec.toNat_ofNat,
    Nat.shiftRight_eq_div_pow, Nat.shiftLeft_eq]
  simp only [Nat.zero_mod, Nat.or_zero]
  omega

/-- The attributes that `mm_map_frame` gives to a page. -/
def mapAttr (pl : Nat) : BitVec 12 :=
  mmAttrP ||| mmAttrRw ||| if pl = plKernel then 0 else mmAttrUsU

theorem levelOf_map (b : BitVec 20) :
    levelOf (b ++ mapAttr pl) = if pl = plKernel then plKernel else plUser := by
  rw [levelOf, attr_append, mapAttr]
  by_cases hpl : pl = plKernel
  · rw [if_pos hpl, if_pos hpl]
    refine if_neg (not_or_intro (by decide) fun hp => ?_)
    exact absurd hp.1 (by decide)
  · rw [if_neg hpl, if_neg hpl]
    exact if_pos (.inl (by decide))

theorem present_map (b : BitVec 20) : Present (b ++ mapAttr pl) := by
  rw [Present, attr_append, mapAttr]
  split <;> decide

/-- The two fields of an entry, written one after the other. -/
theorem set_base_attr (i : Nat) (b : BitVec 20) (a : BitVec 12) :
    (s.set i (setBase b (s.word i))).set i
      (setAttr a ((s.set i (setBase b (s.word i))).word i)) = s.set i (b ++ a) := by
  rw [set_word_self, setAttr, setBase, base_append]
  exact congrArg (PageMem.mk · s.bitmap) (Function.update_idem _ _ _)

theorem mmMapFrame_present (hf : Aligned f) (hv : Aligned v)
    (hp : Present (s.word (pdEntry v pdt))) : s.mmMapFrame f v pdt pl =
      some (s.set (s.ptEntry v pdt) ((f >>> 12).setWidth 20 ++ mapAttr pl)) := by
  rw [mmMapFrame, if_neg (not_or_intro (not_not_intro hf) (not_not_intro hv)),
    if_neg (not_not_intro hp)]
  exact congrArg some (set_base_attr _ _ _)

theorem mmMapFrame_absent (hf : Aligned f) (hv : Aligned v)
    (hp : ¬Present (s.word (pdEntry v pdt))) (hk : mmMemKalloc s.bitmap = some (frame, bitmap))
    (hs : { s with bitmap }.newTable (pdEntry v pdt) frame = s') : s.mmMapFrame f v pdt pl =
      some (s'.set (s'.ptEntry v pdt) ((f >>> 12).setWidth 20 ++ mapAttr pl)) := by
  rw [mmMapFrame, if_neg (not_or_intro (not_not_intro hf) (not_not_intro hv)), if_pos hp, hk,
    ← hs]
  exact congrArg some (set_base_attr _ _ _)

/-- What the readers see of the page that was replaced. -/
theorem Replaced.rawEntry (h : Replaced pdt v e s s') (hv : Aligned v) :
    Present (s'.word (pdEntry v pdt)) ∧ s'.rawEntry v pdt = e := by
  obtain ⟨a, ha, he⟩ := h.entry
  by_cases hp : Present (s'.word (pdEntry v pdt))
  · rw [mmPtEntryFor_eq hv hp] at ha
    cases ha
    exact ⟨hp, (if_pos hp).trans he⟩
  · rw [mmPtEntryFor_absent hv hp] at ha
    exact nomatch ha

/-- The table of a page is there, or a frame for it is. -/
theorem mmMapFrame_spec (h : DirWf pdt s) (hf : Aligned f) (hv : Aligned v)
    (hk : ¬Present (s.word (pdEntry v pdt)) →
      ∃ frame bitmap, mmMemKalloc s.bitmap = some (frame, bitmap) ∧ frame ≠ 0) :
    ∃ s', s.mmMapFrame f v pdt pl = some s' ∧
      Replaced pdt v ((f >>> 12).setWidth 20 ++ mapAttr pl) s s' := by
  by_cases hp : Present (s.word (pdEntry v pdt))
  · exact ⟨_, mmMapFrame_present hf hv hp, (HasTable.refl h hp).replaced hv⟩
  · obtain ⟨frame, bitmap, hk, hne⟩ := hk hp
    exact ⟨_, mmMapFrame_absent hf hv hp hk rfl, (HasTable.new h hp hk hne).replaced hv⟩

theorem mmUnmapPage_spec (h : DirWf pdt s) (hv : Aligned v)
    (hp : Present (s.word (pdEntry v pdt))) :
    ∃ s', s.mmUnmapPage v pdt = some s' ∧ Replaced pdt v 0 s s' := by
  refine ⟨_, ?_, (HasTable.refl h hp).replaced hv⟩
  rw [mmUnmapPage, if_neg (not_not_intro hv), if_neg (not_not_intro hp)]

theorem mmSetPtEntry_spec (h : DirWf pdt s) (hv : Aligned v) (he : ¬Present e)
    (hk : ¬Present (s.word (pdEntry v pdt)) →
      ∃ frame bitmap, mmMemKalloc s.bitmap = some (frame, bitmap) ∧ frame ≠ 0) :
    ∃ s', s.mmSetPtEntry v e pdt = some (true, s') ∧ Replaced pdt v e s s' := by
  rw [mmSetPtEntry, if_neg (not_or_intro (not_not_intro hv) he)]
  by_cases hp : Present (s.word (pdEntry v pdt))
  · rw [if_neg (not_not_intro hp)]
    exact ⟨_, rfl, (HasTable.refl h hp).replaced hv⟩
  · obtain ⟨frame, bitmap, hk, hne⟩ := hk hp
    rw [if_pos hp, hk]
    exact ⟨_, if_neg hne, (HasTable.new h hp hk hne).replaced hv⟩

end

/-- The directory and its tables are a finite map from pages to words. -/
theorem page_tables_map (pdt : Nat) (s : PageMem) (v : BitVec 32) (h : DirWf pdt s)
    (hv : Aligned v) (hk : ¬Present (s.word (pdEntry v pdt)) →
      ∃ frame bitmap, mmMemKalloc s.bitmap = some (frame, bitmap) ∧ frame ≠ 0) :
    (∀ f pl, Aligned f → ∃ s', s.mmMapFrame f v pdt pl = some s' ∧
      Replaced pdt v ((f >>> 12).setWidth 20 ++ mapAttr pl) s s' ∧
      s'.translate v pdt = some ((f >>> 12).setWidth 20) ∧ s'.mmFrameFromPage v pdt = some f ∧
      ∀ x, x &&& ~~~0xFFF#32 = v →
        s'.mmPlOfVaddr x pdt = some (if pl = plKernel then plKernel else plUser)) ∧
    (Present (s.word (pdEntry v pdt)) → ∃ s', s.mmUnmapPage v pdt = some s' ∧
      Replaced pdt v 0 s s') ∧
    ∀ e, ¬Present e → ∃ s', s.mmSetPtEntry v e pdt = some (true, s') ∧ Replaced pdt v e s s' := by
  refine ⟨fun f pl hf => ?_, mmUnmapPage_spec h hv, fun e he => mmSetPtEntry_spec h hv he hk⟩
  obtain ⟨s', hs, hr⟩ : ∃ s', s.mmMapFrame f v pdt pl = some s' ∧ _ := mmMapFrame_spec h hf hv hk
  obtain ⟨hp, he⟩ := hr.rawEntry hv
  refine ⟨s', hs, hr, ?_, ?_, fun x hx => ?_⟩
  · rw [translate_eq hv, he, if_pos (present_map _), base_append]
  · rw [mmFrameFromPage_eq hv hp, he, base_append, append_base hf]
  · rw [mmPlOfVaddr_eq, hx, he, levelOf_map]

/-- No frame is used but that of the directory, which has no tables. -/
def noTables : PageMem := ⟨fun _ => 0, ⟨fun _ => 0, kernelBytes⟩⟩

theorem noTables_wf : DirWf 2 noTables := by
  have hp : ∀ i, ¬Present (noTables.word i) := fun _ => (by decide : ¬Present 0)
  refine ⟨fun i _ h => absurd h (hp _), fun i _ _ _ h => absurd h (hp _), fun p hk _ =>
    ⟨?_, fun i _ h => absurd h (hp _)⟩⟩
  rw [frameAt_eq (Nat.lt_of_lt_of_le hk (by decide)), himemBegin, pageSize_eq]
  omega

/-- The first page of a new table, in all three ways of writing it. -/
theorem page_tables_map_noTables :
    (∃ s', noTables.mmMapFrame 0x400000#32 0x800000#32 2 plUser = some s' ∧
      s'.mmFrameFromPage 0x800000#32 2 = some 0x400000#32 ∧
      s'.mmPlOfVaddr 0x800FFF#32 2 = some plUser ∧ s'.translate 0x801000#32 2 = none) ∧
    ∃ s', noTables.mmSetPtEntry 0x800000#32 2#32 2 = some (true, s') ∧
      Replaced 2 0x800000#32 2#32 noTables s' := by
  have hk : ∃ frame bitmap, mmMemKalloc noTables.bitmap = some (frame, bitmap) ∧ frame ≠ 0 :=
    ⟨_, _, mmMemSeek_first (p := 0) (Nat.le_refl _) (by decide) (by decide)
      (fun _ _ hq => absurd hq (Nat.not_lt_zero _)) (Nat.zero_le _), by decide⟩
  obtain ⟨hmap, -, hset⟩ := page_tables_map 2 noTables 0x800000#32 noTables_wf (by decide)
    fun _ => hk
  obtain ⟨s', hs, hr, -, hf, hpl⟩ := hmap 0x400000#32 plUser (by decide)
  exact ⟨⟨s', hs, hf, hpl 0x800FFF#32 (by decide),
    (hr.translation 0x801000#32 (by decide) (by decide)).trans rfl⟩, hset 2#32 (by decide)⟩

/-! ## Page tables of processes -/

/-- The entry that a word stands for. -/
def mmPage (e : BitVec 32) : MmPage :=
  ⟨e.getLsbD 0, e.getLsbD 1, e.getLsbD 2, e.getLsbD 5, e.getLsbD 6, e.getLsbD 9, e.getLsbD 10,
    (base e).toNat⟩

/-- The entry of a page, from its word. -/
def entryOf (pdt : Nat) (s : PageMem) (page : Nat) : MmPage :=
  mmPage (s.rawEntry (BitVec.ofNat 32 (page * pageSize)) pdt)

section
variable {pdt pl : Nat} {s s' : PageMem} {v x e f : BitVec 32}

theorem and_twoPow_ne_zero {w : Nat} (a : BitVec w) {i : Nat} (hi : i < w) :
    a &&& BitVec.twoPow w i ≠ 0 ↔ a.getLsbD i = true := by
  rw [BitVec.and_twoPow]
  cases a.getLsbD i with
  | false => simp
  | true =>
    have hne : BitVec.twoPow w i ≠ 0#w := fun he => by
      have := congrArg (·.getLsbD i) he
      simp [hi] at this
    simpa using hne

theorem present_iff : Present e ↔ e.getLsbD 0 = true := by
  rw [Present, show mmAttrP = BitVec.twoPow 12 0 from rfl, and_twoPow_ne_zero _ (by decide), attr,
    BitVec.getLsbD_extractLsb']
  simp

theorem levelOf_eq : levelOf e = plUser ↔ (mmPage e).us = true ∨
    (¬(mmPage e).p = true ∧ (mmPage e).rw = true) := by
  have hus : attr e &&& mmAttrUsU ≠ 0 ↔ e.getLsbD 2 = true := by
    rw [show mmAttrUsU = BitVec.twoPow 12 2 from rfl, and_twoPow_ne_zero _ (by decide), attr,
      BitVec.getLsbD_extractLsb']
    simp
  have hrw : e &&& 2 ≠ 0 ↔ e.getLsbD 1 = true := and_twoPow_ne_zero e (i := 1) (by decide)
  have hp : attr e &&& mmAttrP = 0 ↔ ¬e.getLsbD 0 = true := by
    rw [← present_iff, Present, not_not]
  have hiff : (attr e &&& mmAttrUsU ≠ 0 ∨ (attr e &&& mmAttrP = 0 ∧ e &&& 2 ≠ 0)) ↔ _ :=
    or_congr hus (and_congr hp hrw)
  rw [levelOf, mmPage, ← hiff]
  split
  next h => exact ⟨fun _ => h, fun _ => rfl⟩
  next h => exact ⟨fun he => absurd he (by decide), fun he => absurd he h⟩

theorem page_toNat (x : BitVec 32) :
    BitVec.ofNat 32 (x.toNat / pageSize * pageSize) = x &&& ~~~0xFFF#32 := by
  have hmask : ∀ i < 32, (~~~0xFFF#32).getLsbD i = decide (i ≥ 12) := by decide
  have hshift : x.toNat / pageSize * pageSize = x.toNat >>> 12 <<< 12 := by
    rw [Nat.shiftLeft_eq, Nat.shiftRight_eq_div_pow, pageSize_eq]
  refine BitVec.eq_of_getLsbD_eq fun i hi => ?_
  rw [BitVec.getLsbD_ofNat, decide_eq_true hi, Bool.true_and, hshift, Nat.testBit_shiftLeft,
    Nat.testBit_shiftRight, BitVec.getLsbD_and, hmask i hi, Bool.and_comm]
  by_cases h : i ≥ 12
  · rw [Nat.add_sub_cancel' h, BitVec.testBit_toNat]
  · rw [decide_eq_false h, Bool.and_false, Bool.and_false]

/-- A word that is replaced is an entry that is set. -/
theorem Replaced.entryOf (h : Replaced pdt v e s s') (hv : Aligned v) {page : Nat}
    (hpage : page < 2 ^ 20) : s'.entryOf pdt page =
      Function.update (s.entryOf pdt) (v.toNat / pageSize) (mmPage e) page := by
  rw [aligned_iff] at hv
  have hof : (BitVec.ofNat 32 (page * pageSize)).toNat = page * pageSize := by
    rw [BitVec.toNat_ofNat, pageSize_eq]
    exact Nat.mod_eq_of_lt (by omega)
  by_cases he : page = v.toNat / pageSize
  · have hv' : BitVec.ofNat 32 (page * pageSize) = v := by
      refine BitVec.eq_of_toNat_eq ?_
      rw [hof, he, pageSize_eq]
      omega
    rw [he, Function.update_self, ← he]
    refine congrArg mmPage ?_
    rw [hv', (h.rawEntry (aligned_iff.2 hv)).2]
  · rw [Function.update_of_ne he]
    refine congrArg mmPage (h.raw _ (aligned_iff.2 ?_) fun hv' => he ?_)
    · rw [hof, pageSize_eq]
      omega
    · rw [← hv', hof, pageSize_eq]
      omega

theorem mmPage_map : mmPage ((f >>> 12).setWidth 20 ++ mapAttr pl) =
    ⟨true, true, pl ≠ plKernel, false, false, false, false, f.toNat / pageSize⟩ := by
  have hbits : ∀ i < 12, ((f >>> 12).setWidth 20 ++ mapAttr pl).getLsbD i =
      (mapAttr pl).getLsbD i := fun i hi => by
    rw [BitVec.getLsbD_append, if_pos hi]
  have hbase : ((f >>> 12).setWidth 20).toNat = f.toNat / pageSize := by
    have := f.isLt
    rw [BitVec.toNat_setWidth, BitVec.toNat_ushiftRight, Nat.shiftRight_eq_div_pow, pageSize_eq]
    omega
  rw [mmPage, hbits 0 (by decide), hbits 1 (by decide), hbits 2 (by decide), hbits 5 (by decide),
    hbits 6 (by decide), hbits 9 (by decide), hbits 10 (by decide), base_append, hbase, mapAttr]
  by_cases hpl : pl = plKernel
  · rw [if_pos hpl, decide_eq_false (not_not_intro hpl)]
    rfl
  · rw [if_neg hpl, decide_eq_true hpl]
    rfl

/-- The words of the directory are the entries that process `p` has from 4 MB on. The page table of
the kernel is in no address space. -/
def Stands (p : Pid) (pdt : Nat) (s : PageMem) (m : Mm) : Prop :=
  ∀ page, 1024 ≤ page → page < 2 ^ 20 → m.word p page = s.entryOf pdt page

theorem Stands.replaced {p : Pid} {m m' : Mm} (hs : Stands p pdt s m) (hv : Aligned v)
    (h : Replaced pdt v e s s')
    (hm : m'.word = Mm.setWord m.word p (v.toNat / pageSize) (mmPage e)) : Stands p pdt s' m' := by
  intro page hlo hhi
  rw [hm, h.entryOf hv hhi]
  by_cases hpage : page = v.toNat / pageSize
  · rw [hpage, Mm.setWord_self, Function.update_self]
  · rw [Mm.setWord_of_page hpage, Function.update_of_ne hpage, hs page hlo hhi]

/-- An entry is cleared, or its page has no table. -/
theorem word_mmUnmapPage {p : Pid} {page : Nat} {m : Mm} :
    (m.mmUnmapPage page p).word = Mm.setWord m.word p page .zero := by
  by_cases hpde : (m.procs p).dir.pde (SpuriOS.pdEntryFor page) = none
  · have hself : (m.mmUnmapPage page p).procs p = { m.procs p with
        dir := { (m.procs p).dir with
          pte := Function.update (m.procs p).dir.pte page .zero } } := Mm.setPcb_self
    have hzero : (m.mmUnmapPage page p).word p page = .zero :=
      Mm.word_of_no_pde (by rw [hself]; exact hpde)
    funext q page'
    by_cases hq : q = p
    · subst hq
      by_cases hpage : page' = page
      · rw [hpage, hzero, Mm.setWord_self]
      · rw [Mm.setWord_of_page hpage, Mm.word, Mm.word, Mm.entry, Mm.entry, hself,
          SpuriOS.mmPtEntryFor, SpuriOS.mmPtEntryFor]
        dsimp only
        rw [Function.update_of_ne hpage]
    · rw [Mm.setWord_of_proc hq]
      exact congrFun (Mm.word_congr (congrArg MmPcb.dir (Mm.setPcb_of_ne hq))) page'
  · exact (Mm.setPte_spec hpde).1

/-- What the writers do to the words of a directory is what they do to the entries of a process. -/
theorem tables_stand {p : Pid} {m : Mm} (h : DirWf pdt s) (hs : Stands p pdt s m) (hv : Aligned v)
    (hk : ¬Present (s.word (pdEntry v pdt)) →
      ∃ frame bitmap, mmMemKalloc s.bitmap = some (frame, bitmap) ∧ frame ≠ 0) :
    (∀ f pl m', Aligned f → m.mmMapFrame (f.toNat / pageSize) (v.toNat / pageSize) p
        (if pl = plKernel then .kernel else .user) = some m' →
      ∃ s', s.mmMapFrame f v pdt pl = some s' ∧ Stands p pdt s' m') ∧
    (Present (s.word (pdEntry v pdt)) → ∃ s', s.mmUnmapPage v pdt = some s' ∧
      Stands p pdt s' (m.mmUnmapPage (v.toNat / pageSize) p)) ∧
    ∀ e m', ¬Present e → m.mmSetPtEntry (v.toNat / pageSize) (mmPage e) p = some m' →
      ∃ s', s.mmSetPtEntry v e pdt = some (true, s') ∧ Stands p pdt s' m' := by
  refine ⟨fun f pl m' hf hm => ?_, fun hp => ?_, fun e m' he hm => ?_⟩
  · obtain ⟨s', hmap, hr⟩ : ∃ s', s.mmMapFrame f v pdt pl = some s' ∧ _ :=
      mmMapFrame_spec h hf hv hk
    refine ⟨s', hmap, hs.replaced hv hr ?_⟩
    rw [(Mm.mmMapFrame_spec hm).1, mmPage_map, Mm.mappedEntry]
    by_cases hpl : pl = plKernel
    · simp [hpl]
    · simp [hpl]
  · obtain ⟨s', hunmap, hr⟩ := mmUnmapPage_spec h hv hp
    exact ⟨s', hunmap, hs.replaced hv hr word_mmUnmapPage⟩
  · obtain ⟨s', hset, hr⟩ := mmSetPtEntry_spec h hv he hk
    exact ⟨s', hset, hs.replaced hv hr (Mm.mmSetPtEntry_spec hm).2.1⟩

/-- Both see the same level for an address. -/
theorem Stands.mmPlOfVaddr {p : Pid} {m : Mm} (hs : Stands p pdt s m)
    (hx : 1024 ≤ x.toNat / pageSize) : s.mmPlOfVaddr x pdt = some plUser ↔
      SpuriOS.mmPlOfVaddr x.toNat (m.procs p).dir = .user := by
  have hlt := x.isLt
  have hword := hs (x.toNat / pageSize) hx (by rw [pageSize_eq]; omega)
  rw [PageMem.entryOf, page_toNat] at hword
  rw [mmPlOfVaddr_eq, Option.some_inj, levelOf_eq, ← hword, Mm.word, Mm.entry,
    SpuriOS.mmPlOfVaddr]
  cases SpuriOS.mmPtEntryFor (x.toNat / pageSize) (m.procs p).dir with
  | none => exact iff_of_false (by decide) (by decide)
  | some e =>
    dsimp only [Option.getD_some]
    split
    next h => exact iff_of_true h rfl
    next h => exact iff_of_false h (by decide)

end

end PageMem

end SpuriOS
