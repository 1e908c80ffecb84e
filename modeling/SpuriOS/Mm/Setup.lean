import SpuriOS.Lib.Memory
import SpuriOS.Lib.Transition
import SpuriOS.Mm.Bitmap

/-! # The frame bitmap at boot (`mm_setup_bitmap` of `kernel/mm.c`)

The bitmap built from the memory map of the BIOS, and what the searches that follow may return. -/

namespace SpuriOS

open Transition

/-- `mmap_entry_t`. -/
structure MmapEntry where
  addr : Nat
  len : Nat
  type : Nat
  addr_lt : addr < 2 ^ 64 := by decide
  len_lt : len < 2 ^ 64 := by decide

def mmapMemoryAvailable : Nat := 1

def mmMmapLastValidEntry (mmap : List MmapEntry) : Nat :=
  mmap.zipIdx.foldl (fun lastValidEntry (entry, i) =>
    if himemBegin ≤ entry.addr ∧ entry.type = mmapMemoryAvailable then i else lastValidEntry) 0

def mmMemLength (mmap : List MmapEntry) (lastValidEntry : Nat) : Nat :=
  (mmap.take (lastValidEntry + 1)).foldl (fun memLength entry =>
    if himemBegin ≤ entry.addr then Word32.add memLength entry.len else memLength) 0

/-- `set_bit` for one position after the other. -/
def setBits (positions : List Nat) (b : Bitmap) : Option Bitmap :=
  positions.foldlM (fun b position => setBit (toInt32 position) b) b

def reservePositions (bitmapByteLen : Nat) : List Nat :=
  let i := bitmapByteLen / pageSize
  List.range i ++ if bitmapByteLen - i * pageSize > 0 then [i] else []

def mmReserveBitmapPages (bitmapByteLen : Nat) : Bitmap → Option Bitmap :=
  setBits (reservePositions bitmapByteLen)

/-- The positions that `mm_mark_used` sets for an entry. -/
def usedPositions (entry : MmapEntry) : List Nat :=
  if himemBegin ≤ entry.addr then
    if entry.type ≠ mmapMemoryAvailable then
      let position := Word32.wrap ((entry.addr - himemBegin) / pageSize)
      let length := Word32.wrap (entry.len / pageSize)
      -- the difference of two unsigned words is positive unless they are equal
      let length := if entry.len ≠ Word32.mul length pageSize then Word32.add length 1 else length
      (List.range length).map (Word32.add position)
    else []
  else []

def mmMarkUsed (mmap : List MmapEntry) (lastValidEntry : Nat) : Bitmap → Option Bitmap :=
  setBits ((mmap.take (lastValidEntry + 1)).flatMap usedPositions)

def mmBitmapByteLen (mmap : List MmapEntry) : Nat :=
  mmMemLength mmap (mmMmapLastValidEntry mmap) / pageSize / 8

/-- The bitmap after its `memset`. -/
def clearedBitmap (byteLen : Nat) (mem : Int → BitVec 8) : Bitmap where
  byte i := if 0 ≤ i ∧ i < byteLen then 0#8 else mem i
  byteLen

/-- `mm_setup_bitmap`, where `mem` is the memory from the bitmap on. -/
def mmSetupBitmap (mmap : List MmapEntry) (mem : Int → BitVec 8) : Option Bitmap := do
  let byteLen := mmBitmapByteLen mmap
  let b ← mmReserveBitmapPages byteLen (clearedBitmap byteLen mem)
  mmMarkUsed mmap (mmMmapLastValidEntry mmap) b

/-- The positions `mm_setup_bitmap` calls `set_bit` for. -/
def setupPositions (mmap : List MmapEntry) : List Nat :=
  reservePositions (mmBitmapByteLen mmap) ++
    (mmap.take (mmMmapLastValidEntry mmap + 1)).flatMap usedPositions

/-! ## What the bitmap is for -/

/-- Two ranges of bytes have one in common. -/
def Overlap (a m b n : Nat) : Prop := ∃ x, a ≤ x ∧ x < a + m ∧ b ≤ x ∧ x < b + n

/-- The frame is available memory and nothing else. -/
def Backed (mmap : List MmapEntry) (frame : Nat) : Prop :=
  (∃ entry ∈ mmap, entry.type = mmapMemoryAvailable ∧ entry.addr ≤ frame ∧
    frame + pageSize ≤ entry.addr + entry.len) ∧
  ∀ entry ∈ mmap, entry.type ≠ mmapMemoryAvailable →
    ¬Overlap frame pageSize entry.addr entry.len

/-- The bitmap after calls of `mm_mem_kalloc` and `mm_mem_alloc`. -/
def afterRequests (b : Bitmap) (requests : List MmRequest) : Option Bitmap :=
  runList (fun b r => (mmMemSeek r b).map Prod.snd) b requests

/-- `mm_setup_bitmap` comes back having set bits of the bitmap only, and whatever a request then
returns is available memory outside of the bitmap. -/
def SetupSound (mmap : List MmapEntry) (mem : Int → BitVec 8) : Prop :=
  ∃ b, mmSetupBitmap mmap mem = some b ∧
    (∀ position ∈ setupPositions mmap,
      0 ≤ toInt32 position ∧ toInt32 position < 8 * mmBitmapByteLen mmap) ∧
    ∀ requests b' r frame b'', afterRequests b requests = some b' →
      mmMemSeek r b' = some (frame, b'') → frame ≠ 0 →
        Backed mmap frame ∧ ¬Overlap frame pageSize himemBegin (mmBitmapByteLen mmap)

/-- The positions a search can come upon: in a bitmap that ends before the kernel zone does, those
of the byte behind it too. -/
def searched (byteLen : Nat) : Nat :=
  if kernelBytes ≤ byteLen then 8 * byteLen else 8 * byteLen + 8

/-- The entries marked as used lie within the bitmap, and whatever page of it is neither marked nor
the bitmap's own is available memory. -/
structure MapFits (mmap : List MmapEntry) : Prop where
  inside : ∀ entry ∈ mmap.take (mmMmapLastValidEntry mmap + 1), ∀ p ∈ usedPositions entry,
    p < 8 * mmBitmapByteLen mmap
  backed : ∀ p < searched (mmBitmapByteLen mmap), p ∉ reservePositions (mmBitmapByteLen mmap) →
    (∀ entry ∈ mmap.take (mmMmapLastValidEntry mmap + 1), p ∉ usedPositions entry) →
    frameAt p ≠ 0 → Backed mmap (frameAt p)

/-! ## Marked positions -/

section
variable {b b' : Bitmap} {mmap : List MmapEntry} {mem : Int → BitVec 8} {p n : Nat}

theorem toInt32_of_nonneg (hp : p < 2 ^ 32) (h : 0 ≤ toInt32 p) : toInt32 p = p := by
  rw [toInt32] at h ⊢
  split at h
  next hlt => exact if_pos hlt
  next => omega

def Bitmap.markAll (b : Bitmap) (positions : List Nat) : Bitmap := positions.foldl Bitmap.mark b

@[simp] theorem Bitmap.markAll_byteLen (ps : List Nat) : (b.markAll ps).byteLen = b.byteLen := by
  induction ps generalizing b with
  | nil => rfl
  | cons p ps ih => exact ih

@[simp] theorem Bitmap.bit_markAll (ps : List Nat) :
    (b.markAll ps).bit p = (b.bit p || decide (p ∈ ps)) := by
  induction ps generalizing b with
  | nil => simp [markAll]
  | cons q ps ih =>
    rw [markAll, List.foldl_cons]
    refine ih.trans ?_
    rw [bit_mark, Bool.or_assoc]
    congr 1
    simp [eq_comm]

theorem Bitmap.markAll_append (ps qs : List Nat) :
    b.markAll (ps ++ qs) = (b.markAll ps).markAll qs := List.foldl_append

theorem setBits_eq {ps : List Nat} (h : ∀ p ∈ ps, p / 8 ≤ b.byteLen ∧ p < 2 ^ 31) :
    setBits ps b = some (b.markAll ps) := by
  induction ps generalizing b with
  | nil => rfl
  | cons p ps ih =>
    obtain ⟨hlen, hp⟩ := h p List.mem_cons_self
    rw [setBits, List.foldlM_cons, toInt32_of_lt hp, Bitmap.setBit_eq hlen]
    exact ih fun q hq => h q (List.mem_cons_of_mem _ hq)

theorem mmMemLength_lt (last : Nat) : mmMemLength mmap last < 2 ^ 32 := by
  rw [mmMemLength]
  generalize mmap.take (last + 1) = entries
  have h : ∀ n < 2 ^ 32, entries.foldl (fun memLength entry =>
      if himemBegin ≤ entry.addr then Word32.add memLength entry.len else memLength) n <
      2 ^ 32 := by
    induction entries with
    | nil => exact fun n hn => hn
    | cons e es ih =>
      intro n hn
      rw [List.foldl_cons]
      split
      · exact ih _ (Word32.wrap_lt _)
      · exact ih n hn
  exact h 0 (by decide)

theorem mmBitmapByteLen_lt : mmBitmapByteLen mmap < 2 ^ 17 := by
  have : mmMemLength mmap (mmMmapLastValidEntry mmap) < 2 ^ 32 := mmMemLength_lt _
  rw [mmBitmapByteLen, pageSize_eq]
  omega

theorem mem_reservePositions : p ∈ reservePositions n ↔ p * pageSize < n := by
  simp only [reservePositions, List.mem_append, List.mem_range]
  have h4096 := pageSize_eq
  by_cases h : n - n / pageSize * pageSize > 0
  · rw [if_pos h, List.mem_singleton]
    rw [h4096] at h ⊢
    omega
  · rw [if_neg h]
    rw [h4096] at h ⊢
    simp only [List.not_mem_nil, or_false]
    omega

theorem usedPositions_lt {entry : MmapEntry} (h : p ∈ usedPositions entry) : p < 2 ^ 32 := by
  rw [usedPositions] at h
  split at h
  next =>
    split at h
    next =>
      obtain ⟨j, -, rfl⟩ := List.mem_map.1 h
      exact Word32.wrap_lt _
    next => cases h
  next => cases h

/-- What the map says about the positions that are set. -/
theorem MapFits.positions_lt (h : MapFits mmap) :
    ∀ p ∈ setupPositions mmap, p < 8 * mmBitmapByteLen mmap := by
  intro p hp
  rcases List.mem_append.1 hp with hp | hp
  · rw [mem_reservePositions, pageSize_eq] at hp
    omega
  · obtain ⟨entry, he, hp⟩ := List.mem_flatMap.1 hp
    exact h.inside entry he p hp

/-- The bitmap after `mm_setup_bitmap`, when no position lies outside. -/
theorem mmSetupBitmap_eq (h : ∀ p ∈ setupPositions mmap, p < 8 * mmBitmapByteLen mmap) :
    mmSetupBitmap mmap mem =
      some ((clearedBitmap (mmBitmapByteLen mmap) mem).markAll (setupPositions mmap)) := by
  have hlt : mmBitmapByteLen mmap < 2 ^ 17 := mmBitmapByteLen_lt
  have hsmall : ∀ p ∈ setupPositions mmap, p / 8 ≤ mmBitmapByteLen mmap ∧ p < 2 ^ 31 :=
    fun p hp => by have := h p hp; omega
  have hreserve : mmReserveBitmapPages (mmBitmapByteLen mmap)
      (clearedBitmap (mmBitmapByteLen mmap) mem) = _ :=
    setBits_eq fun p hp => hsmall p (List.mem_append_left _ hp)
  simp only [mmSetupBitmap, Option.bind_eq_bind]
  rw [hreserve, Option.bind_some, mmMarkUsed, setBits_eq]
  · rw [setupPositions, Bitmap.markAll_append]
  · rw [Bitmap.markAll_byteLen]
    exact fun p hp => hsmall p (List.mem_append_right _ hp)

/-- Enough requests reach every clear position that a zone has. -/
theorem afterRequests_reach {r : MmRequest} {d q : Nat} (hd : q + d = p)
    (hq : 8 * zoneBegin r ≤ q) (hhi : p / 8 < zoneEnd b r) (hlen : p / 8 ≤ b.byteLen)
    (hfull : ∀ i, zoneBegin r ≤ i / 8 → i < q → b.bit i = true) (hp : b.bit p = false) :
    ∃ requests b' b'', afterRequests b requests = some b' ∧
      mmMemSeek r b' = some (frameAt p, b'') := by
  induction d generalizing q b with
  | zero =>
    obtain rfl : q = p := hd
    exact ⟨[], b, _, rfl, mmMemSeek_first (by omega) hhi hp hfull hlen⟩
  | succ d ih =>
    cases hb : b.bit q with
    | true =>
      refine ih (q := q + 1) (by omega) (by omega) hhi hlen (fun i hi hlt => ?_) hp
      rcases Nat.lt_succ_iff_lt_or_eq.1 hlt with hlt | rfl
      · exact hfull i hi hlt
      · exact hb
    | false =>
      have hseek := mmMemSeek_first (p := q) (by omega) (by omega) hb hfull (by omega)
      have hend : zoneEnd (b.mark q) r = zoneEnd b r := by cases r <;> rfl
      have hfull' : ∀ i, zoneBegin r ≤ i / 8 → i < q + 1 → (b.mark q).bit i = true := by
        intro i hi hlt
        rw [Bitmap.bit_mark]
        rcases Nat.lt_succ_iff_lt_or_eq.1 hlt with hlt | rfl
        · rw [hfull i hi hlt, Bool.true_or]
        · rw [decide_eq_true rfl, Bool.or_true]
      have hp' : (b.mark q).bit p = false := by
        rw [Bitmap.bit_mark, hp, decide_eq_false (by omega), Bool.or_false]
      obtain ⟨requests, b', b'', hrun, hlast⟩ := ih (b := b.mark q) (q := q + 1) (by omega)
        (by omega) (by rwa [hend]) hlen hfull' hp'
      refine ⟨r :: requests, b', b'', ?_, hlast⟩
      rw [afterRequests, runList, hseek]
      exact hrun

/-- Requests only set bits. -/
theorem afterRequests_mono {requests : List MmRequest} (h : afterRequests b requests = some b') :
    b'.byteLen = b.byteLen ∧ ∀ p, b.bit p = true → b'.bit p = true := by
  induction requests generalizing b with
  | nil => cases h; exact ⟨rfl, fun _ h => h⟩
  | cons r requests ih =>
    simp only [afterRequests, runList, Option.bind_eq_some_iff, Option.map_eq_some_iff] at h
    obtain ⟨b₁, ⟨⟨f, _⟩, hseek, rfl⟩, hrun⟩ := h
    obtain ⟨hlen, hbits⟩ := ih hrun
    rcases mmMemSeek_cases hseek with ⟨-, hb, -⟩ | ⟨p, -, -, -, -, -, -, hb⟩
    · cases hb
      exact ⟨hlen, hbits⟩
    · cases hb
      refine ⟨hlen, fun q hq => hbits q ?_⟩
      rw [Bitmap.bit_mark, hq, Bool.true_or]

/-- A frame behind the bitmap, or one whose address has passed `2 ^ 32`, is no part of it. -/
theorem not_overlap_bitmap (hp : p < 8 * mmBitmapByteLen mmap + 8)
    (hr : p ∉ reservePositions (mmBitmapByteLen mmap)) :
    ¬Overlap (frameAt p) pageSize himemBegin (mmBitmapByteLen mmap) := by
  have hlt : mmBitmapByteLen mmap < 2 ^ 17 := mmBitmapByteLen_lt
  rw [mem_reservePositions, pageSize_eq] at hr
  rintro ⟨x, hx⟩
  rw [frameAt, himemBegin, pageSize_eq] at hx
  omega

theorem lt_searched {r : MmRequest} (hhi : p / 8 < zoneEnd b r) (hlen : p / 8 ≤ b.byteLen) :
    p < searched b.byteLen := by
  rw [searched]
  split
  next h =>
    cases r with
    | kernel => have : p / 8 < kernelBytes := hhi; omega
    | user => have : p / 8 < b.byteLen := hhi; omega
  next => omega

/-- Every position that is searched belongs to a zone. -/
theorem zone_of_searched (h : p < searched b.byteLen) :
    p / 8 ≤ b.byteLen ∧ ∃ r, 8 * zoneBegin r ≤ p ∧ p / 8 < zoneEnd b r := by
  rw [searched] at h
  split at h
  next hk =>
    refine ⟨by omega, ?_⟩
    rcases Nat.lt_or_ge (p / 8) kernelBytes with hlt | hge
    · exact ⟨.kernel, Nat.zero_le _, hlt⟩
    · exact ⟨.user, by rw [zoneBegin]; omega, by rw [zoneEnd]; omega⟩
  next hk =>
    exact ⟨by omega, .kernel, Nat.zero_le _, by rw [zoneEnd]; omega⟩

theorem MapFits.sound (h : MapFits mmap) (mem : Int → BitVec 8) : SetupSound mmap mem := by
  have hlt : mmBitmapByteLen mmap < 2 ^ 17 := mmBitmapByteLen_lt
  refine ⟨_, mmSetupBitmap_eq h.positions_lt, fun p hp => ?_, ?_⟩
  · have := h.positions_lt p hp
    rw [toInt32_of_lt (by omega)]
    exact ⟨Int.natCast_nonneg p, by exact_mod_cast this⟩
  · intro requests b' r frame b'' hrun hseek hne
    obtain ⟨hlen, hbits⟩ := afterRequests_mono hrun
    rcases mmMemSeek_cases hseek with ⟨h0, -, -⟩ | ⟨p, -, hhi, hle, hp, -, rfl, -⟩
    · exact absurd h0 hne
    have hs := lt_searched hhi hle
    rw [hlen, Bitmap.markAll_byteLen] at hs hle
    change p / 8 ≤ mmBitmapByteLen mmap at hle
    have hclear : p ∉ setupPositions mmap := fun hmem => by
      rw [hbits p (by rw [Bitmap.bit_markAll, decide_eq_true hmem, Bool.or_true])] at hp
      cases hp
    rw [setupPositions, List.mem_append, not_or, List.mem_flatMap] at hclear
    refine ⟨h.backed p hs hclear.1 (fun e he hu => hclear.2 ⟨e, he, hu⟩) hne, ?_⟩
    exact not_overlap_bitmap (by omega) hclear.1

theorem SetupSound.positions_lt (h : SetupSound mmap mem) :
    ∀ p ∈ setupPositions mmap, p < 8 * mmBitmapByteLen mmap := by
  obtain ⟨b, hsetup, hpos, -⟩ := h
  have hlt : mmBitmapByteLen mmap < 2 ^ 17 := mmBitmapByteLen_lt
  intro p hp
  have hp32 : p < 2 ^ 32 := by
    rcases List.mem_append.1 hp with hp | hp
    · rw [mem_reservePositions, pageSize_eq] at hp
      omega
    · obtain ⟨e, -, hp⟩ := List.mem_flatMap.1 hp
      exact usedPositions_lt hp
  obtain ⟨h0, hb⟩ := hpos p hp
  rw [toInt32_of_nonneg hp32 h0] at hb
  omega

/-- The map does fit where the bitmap is sound for memory that is clear. -/
theorem SetupSound.fits (h : SetupSound mmap fun _ => 0) : MapFits mmap := by
  have hpos := h.positions_lt
  obtain ⟨b, hsetup, -, hreq⟩ := h
  rw [mmSetupBitmap_eq hpos] at hsetup
  cases hsetup
  refine ⟨fun e he p hp => hpos p (List.mem_append_right _ (List.mem_flatMap.2 ⟨e, he, hp⟩)),
    fun p hp hr hu hne => ?_⟩
  have hmem : p ∉ setupPositions mmap := by
    rw [setupPositions, List.mem_append, List.mem_flatMap]
    rintro (hp | ⟨e, he, hp⟩)
    · exact hr hp
    · exact hu e he hp
  have hclear : ((clearedBitmap (mmBitmapByteLen mmap) fun _ => 0).markAll
      (setupPositions mmap)).bit p = false := by
    rw [Bitmap.bit_markAll, decide_eq_false hmem, Bool.or_false, Bitmap.bit, clearedBitmap]
    simp
  obtain ⟨hlen, r, hlo, hhi⟩ := zone_of_searched
    (b := (clearedBitmap (mmBitmapByteLen mmap) fun _ => 0).markAll (setupPositions mmap))
    (p := p) (by rwa [Bitmap.markAll_byteLen])
  obtain ⟨requests, b', b'', hrun, hlast⟩ := afterRequests_reach
    (Nat.add_sub_cancel' hlo) (Nat.le_refl _) hhi hlen (fun i hi hlt => by omega) hclear
  exact (hreq requests b' r _ b'' hrun hlast hne).1

/-- The bitmap is sound, whatever the memory under it held, exactly for the maps that fit. -/
theorem setupSound_iff_fits (mmap : List MmapEntry) :
    (∀ mem, SetupSound mmap mem) ↔ MapFits mmap :=
  ⟨fun h => (h _).fits, MapFits.sound⟩

end

/-! ## Maps that fit

The length of the bitmap is a sum of lengths, entries below 1 MB and behind the last available one
are passed over, the length and the begin of a reserved entry are rounded each on its own, and
those of an available one are not rounded at all. Where the entries that count follow on one
another and meet at suitable addresses, none of this matters. -/

/-- The entries lie one behind the other from `a` to `b`. -/
def Adjacent : Nat → List MmapEntry → Nat → Prop
  | a, [], b => a = b
  | a, e :: entries, b => e.addr = a ∧ Adjacent (a + e.len) entries b

namespace MmapEntry

def Reserved (e : MmapEntry) : Prop := e.type ≠ mmapMemoryAvailable

/-- The entry is not empty and begins at 1 MB or behind. -/
def High (e : MmapEntry) : Prop := himemBegin ≤ e.addr ∧ 0 < e.len

instance (e : MmapEntry) : Decidable e.Reserved := inferInstanceAs (Decidable (_ ≠ _))

instance (e : MmapEntry) : Decidable e.High := inferInstanceAs (Decidable (_ ∧ _))

def stop (e : MmapEntry) : Nat := e.addr + e.len

/-- The page of the last byte. -/
def lastPage (e : MmapEntry) : Nat := (e.stop - 1) / pageSize

/-- The length rounded up to pages. -/
def pages (e : MmapEntry) : Nat := (e.len + (pageSize - 1)) / pageSize

end MmapEntry

/-- Of the memory from 1 MB to `stop`, modulo 4 GB, what whole bytes of a bitmap describe. -/
def describedBytes (stop : Nat) : Nat := (stop - himemBegin) % 2 ^ 32 / 0x8000 * 0x8000

/-- The map `listed ++ last :: rest`, with `last` the last available entry from 1 MB on. -/
structure OrderlyMap (listed : List MmapEntry) (last : MmapEntry) (rest : List MmapEntry)
    (stop : Nat) : Prop where
  valid : himemBegin ≤ last.addr ∧ ¬last.Reserved
  behind : ∀ e ∈ rest, himemBegin ≤ e.addr → e.Reserved
  /-- What is listed from 1 MB on, up to the last available entry, is the memory up to `stop`,
  each byte once. -/
  tiled : ∃ tiles, tiles.Perm ((listed ++ [last]).filter (·.High)) ∧
    Adjacent himemBegin tiles stop
  /-- At least 3 MB, modulo 4 GB, and none with an address that passes 4 GB. -/
  size : mmKernelLimit - himemBegin ≤ (stop - himemBegin) % 2 ^ 32 ∧
    himemBegin + describedBytes stop ≤ 2 ^ 32
  /-- A reserved entry that is passed over lies outside. -/
  passedOver : ∀ e ∈ listed ++ last :: rest, e.Reserved → e.addr < himemBegin ∨ e ∈ rest →
    ¬Overlap himemBegin (describedBytes stop) e.addr e.len
  /-- A reserved entry that counts ends inside, with its length rounded up. -/
  inside : ∀ e ∈ listed, e.High → e.Reserved →
    (e.addr / pageSize + e.pages) * pageSize ≤ himemBegin + describedBytes stop
  /-- It has bytes in as many pages as its length makes, or another one begins in its last page. -/
  reserved : ∀ e ∈ listed, e.High → e.Reserved → e.lastPage < e.addr / pageSize + e.pages ∨
    ∃ e' ∈ listed, e'.High ∧ e'.Reserved ∧ e'.addr / pageSize = e.lastPage
  /-- An available entry ends with a page, or in a page with bytes of a reserved one, or it is the
  end. -/
  available : ∀ e ∈ listed ++ [last], e.High → ¬e.Reserved →
    e.stop % pageSize = 0 ∨ e.stop = stop ∨
      ∃ e' ∈ listed, e'.High ∧ e'.Reserved ∧ e'.addr / pageSize ≤ e.lastPage ∧
        e.lastPage ≤ e'.lastPage

section
variable {entries listed rest : List MmapEntry} {last e : MmapEntry} {a b x n stop p : Nat}

theorem Adjacent.sum (h : Adjacent a entries b) : a + (entries.map (·.len)).sum = b := by
  induction entries generalizing a with
  | nil => exact h
  | cons e entries ih =>
    rw [List.map_cons, List.sum_cons, ← Nat.add_assoc]
    exact ih h.2

/-- Every byte in between is in one of the entries. -/
theorem Adjacent.mem (h : Adjacent a entries b) (ha : a ≤ x) (hb : x < b) :
    ∃ e ∈ entries, e.addr ≤ x ∧ x < e.stop := by
  induction entries generalizing a with
  | nil =>
    obtain rfl : a = b := h
    omega
  | cons e entries ih =>
    obtain ⟨rfl, h⟩ := h
    by_cases hx : x < e.stop
    · exact ⟨e, List.mem_cons_self, ha, hx⟩
    · rw [MmapEntry.stop] at hx
      obtain ⟨e', he', hmem⟩ := ih h (by omega)
      exact ⟨e', List.mem_cons_of_mem _ he', hmem⟩

/-- Entries from 1 MB on are reserved from some index on. -/
theorem lastValidEntry_of_reserved (h : ∀ e ∈ entries, himemBegin ≤ e.addr → e.Reserved) :
    (entries.zipIdx n).foldl (fun lastValidEntry (entry, i) =>
      if himemBegin ≤ entry.addr ∧ entry.type = mmapMemoryAvailable then i else lastValidEntry)
      a = a := by
  induction entries generalizing n with
  | nil => rfl
  | cons e entries ih =>
    have he := h e List.mem_cons_self
    have hnot : ¬(himemBegin ≤ e.addr ∧ e.type = mmapMemoryAvailable) := fun hv => he hv.1 hv.2
    rw [List.zipIdx_cons, List.foldl_cons]
    dsimp only
    rw [if_neg hnot]
    exact ih fun e' he' => h e' (List.mem_cons_of_mem _ he')

/-- The accumulator of `mm_mem_length`. -/
theorem memLength_foldl (hn : n < 2 ^ 32) : entries.foldl (fun memLength entry =>
    if himemBegin ≤ entry.addr then Word32.add memLength entry.len else memLength) n =
      (n + ((entries.filter (·.High)).map (·.len)).sum) % 2 ^ 32 := by
  induction entries generalizing n with
  | nil => exact (Nat.mod_eq_of_lt hn).symm
  | cons e entries ih =>
    rw [List.foldl_cons, List.filter_cons]
    by_cases ha : himemBegin ≤ e.addr
    · have hadd : Word32.add n e.len < 2 ^ 32 := Word32.wrap_lt _
      rw [if_pos ha, ih hadd, Word32.add, Word32.wrap]
      by_cases hlen : 0 < e.len
      · rw [if_pos (by exact decide_eq_true ⟨ha, hlen⟩), List.map_cons, List.sum_cons]
        omega
      · rw [if_neg (by simp [MmapEntry.High, hlen])]
        omega
    · rw [if_neg ha, ih hn, if_neg (by simp [MmapEntry.High, ha])]

namespace OrderlyMap

theorem lastValidEntry (h : OrderlyMap listed last rest stop) :
    mmMmapLastValidEntry (listed ++ last :: rest) = listed.length := by
  rw [mmMmapLastValidEntry, List.zipIdx_append, List.foldl_append, List.zipIdx_cons,
    List.foldl_cons, Nat.zero_add]
  dsimp only
  rw [if_pos ⟨h.valid.1, Decidable.not_not.1 h.valid.2⟩]
  exact lastValidEntry_of_reserved h.behind

theorem take (h : OrderlyMap listed last rest stop) :
    (listed ++ last :: rest).take (mmMmapLastValidEntry (listed ++ last :: rest) + 1) =
      listed ++ [last] := by
  rw [h.lastValidEntry, List.take_append, List.take_of_length_le (Nat.le_succ _),
    Nat.add_sub_cancel_left, List.take_succ_cons, List.take_zero]

theorem byteLen (h : OrderlyMap listed last rest stop) :
    8 * mmBitmapByteLen (listed ++ last :: rest) * pageSize = describedBytes stop := by
  obtain ⟨tiles, hperm, htiles⟩ := h.tiled
  have hsum := htiles.sum
  rw [(hperm.map (·.len)).sum_nat] at hsum
  rw [mmBitmapByteLen, mmMemLength, h.take, memLength_foldl (by decide), describedBytes, ← hsum,
    pageSize_eq]
  omega

/-- The pages that are marked for a reserved entry that counts. -/
theorem mem_usedPositions (h : OrderlyMap listed last rest stop) (he : e ∈ listed) (hh : e.High)
    (hr : e.Reserved) : p ∈ usedPositions e ↔ e.addr / pageSize ≤ p + himemBegin / pageSize ∧
      p + himemBegin / pageSize < e.addr / pageSize + e.pages := by
  have hinside := h.inside e he hh hr
  have hsize := h.size.2
  have hdesc : describedBytes stop < 2 ^ 32 := by
    rw [describedBytes]
    omega
  obtain ⟨ha, hlen⟩ := hh
  rw [MmapEntry.pages, pageSize_eq] at hinside ⊢
  rw [usedPositions, if_pos ha, if_pos (show e.type ≠ mmapMemoryAvailable from hr)]
  rw [himemBegin] at ha hsize hinside ⊢
  have hposition : Word32.wrap ((e.addr - 0x100000) / pageSize) = (e.addr - 0x100000) / 4096 := by
    rw [pageSize_eq, Word32.wrap_of_lt (by omega)]
  have hlength : Word32.wrap (e.len / pageSize) = e.len / 4096 := by
    rw [pageSize_eq, Word32.wrap_of_lt (by omega)]
  have hmul : Word32.mul (e.len / 4096) pageSize = e.len / 4096 * 4096 := by
    rw [pageSize_eq, Word32.mul, Word32.wrap_of_lt (by omega)]
  have hadd : Word32.add (e.len / 4096) 1 = e.len / 4096 + 1 := by
    rw [Word32.add, Word32.wrap_of_lt (by omega)]
  dsimp only
  rw [hposition, hlength, hmul, hadd]
  have hpages : (if e.len ≠ e.len / 4096 * 4096 then e.len / 4096 + 1 else e.len / 4096) =
      (e.len + (4096 - 1)) / 4096 := by
    split <;> omega
  rw [hpages, List.mem_map]
  constructor
  · rintro ⟨j, hj, rfl⟩
    rw [List.mem_range] at hj
    rw [Word32.add, Word32.wrap_of_lt (by omega)]
    omega
  · intro hp
    refine ⟨p - (e.addr - 0x100000) / 4096, List.mem_range.2 (by omega), ?_⟩
    rw [Word32.add, Word32.wrap_of_lt (by omega)]
    omega

/-- Every page with a byte of a reserved entry that counts is marked. -/
theorem marked (h : OrderlyMap listed last rest stop) (he : e ∈ listed) (hh : e.High)
    (hr : e.Reserved) (hlo : e.addr / pageSize ≤ p + himemBegin / pageSize)
    (hhi : p + himemBegin / pageSize ≤ e.lastPage) :
    ∃ e' ∈ listed ++ [last], p ∈ usedPositions e' := by
  by_cases hlt : p + himemBegin / pageSize < e.addr / pageSize + e.pages
  · exact ⟨e, List.mem_append_left _ he, (h.mem_usedPositions he hh hr).2 ⟨hlo, hlt⟩⟩
  obtain hfit | ⟨e', he', hh', hr', heq⟩ := h.reserved e he hh hr
  · omega
  · -- the page is the last one of the entry, and `e'` begins in it
    have hlast : e.lastPage ≤ e.addr / pageSize + e.pages := by
      rw [MmapEntry.lastPage, MmapEntry.pages, MmapEntry.stop, pageSize_eq]
      omega
    have hpages : 0 < e'.pages := by
      have := hh'.2
      rw [MmapEntry.pages, pageSize_eq]
      omega
    exact ⟨e', List.mem_append_left _ he', (h.mem_usedPositions he' hh' hr').2 (by omega)⟩

theorem fits (h : OrderlyMap listed last rest stop) : MapFits (listed ++ last :: rest) := by
  have hlen := h.byteLen
  have hcounted : ∀ e ∈ listed ++ [last], e.Reserved → e ∈ listed := fun e he hr =>
    (List.mem_append.1 he).resolve_right fun hl => h.valid.2 (List.mem_singleton.1 hl ▸ hr)
  have hsearched : searched (mmBitmapByteLen (listed ++ last :: rest)) =
      8 * mmBitmapByteLen (listed ++ last :: rest) := by
    have hsize := h.size.1
    rw [describedBytes, pageSize_eq] at hlen
    rw [mmKernelLimit, himemBegin] at hsize
    rw [himemBegin] at hlen
    rw [searched, if_pos]
    rw [kernelBytes, mmKernelLimit, himemBegin, pageSize_eq]
    omega
  constructor
  · rw [h.take]
    intro e he p hp
    have hh : e.High ∧ e.Reserved := by
      rw [usedPositions] at hp
      split at hp
      next ha =>
        split at hp
        next hr =>
          refine ⟨⟨ha, Nat.pos_of_ne_zero fun h0 => ?_⟩, hr⟩
          simp [h0, Word32.wrap, Word32.mul] at hp
        next => cases hp
      next => cases hp
    have he := hcounted e he hh.2
    have hp := (h.mem_usedPositions he hh.1 hh.2).1 hp
    have hinside := h.inside e he hh.1 hh.2
    rw [pageSize_eq] at hlen hinside hp
    rw [himemBegin] at hp hinside
    omega
  · rw [h.take, hsearched]
    intro p hp _ hclear hne
    have hbound : himemBegin + p * pageSize + pageSize ≤ himemBegin + describedBytes stop := by
      rw [← hlen, pageSize_eq]
      omega
    have hframe : frameAt p = himemBegin + p * pageSize := by
      have hsize := h.size.2
      rw [frameAt]
      rw [himemBegin] at hsize hbound ⊢
      rw [pageSize_eq] at hbound ⊢
      omega
    have hdesc : describedBytes stop ≤ stop - himemBegin := by
      rw [describedBytes]
      omega
    -- a reserved entry with a byte in the frame would have had it marked
    have hfree : ∀ e ∈ listed, e.High → e.Reserved →
        ¬Overlap (frameAt p) pageSize e.addr e.len := by
      rintro e he hh hr ⟨x, hx⟩
      obtain ⟨e', he', hu⟩ := h.marked (p := p) he hh hr
        (by rw [hframe, himemBegin, pageSize_eq] at hx; rw [himemBegin, pageSize_eq]; omega)
        (by
          rw [hframe, himemBegin, pageSize_eq] at hx
          rw [MmapEntry.lastPage, MmapEntry.stop, himemBegin, pageSize_eq]
          omega)
      exact hclear e' he' hu
    refine ⟨?_, fun e he hr hover => ?_⟩
    · obtain ⟨tiles, hperm, htiles⟩ := h.tiled
      obtain ⟨e, he, hlo, hhi⟩ := htiles.mem (x := frameAt p) (by omega)
        (by rw [hframe]; rw [pageSize_eq] at hbound ⊢; omega)
      obtain ⟨he, hh⟩ := List.mem_filter.1 (hperm.mem_iff.1 he)
      have hh : e.High := of_decide_eq_true hh
      have hav : ¬e.Reserved := fun hr => hfree e (hcounted e he hr) hh hr
        ⟨frameAt p, Nat.le_refl _, by rw [pageSize_eq]; omega, hlo, hhi⟩
      refine ⟨e, List.mem_append.2 ((List.mem_append.1 he).imp_right fun hl => ?_),
        Decidable.not_not.1 hav, hlo, ?_⟩
      · rw [List.mem_singleton.1 hl]
        exact List.mem_cons_self
      · -- otherwise the entry ends inside of the frame
        by_contra hcut
        have hcut : e.stop < frameAt p + pageSize := Nat.lt_of_not_le hcut
        obtain hend | hend | ⟨e', he', hh', hr', hlo', hhi'⟩ := h.available e he hh hav
        · rw [hframe, himemBegin, pageSize_eq] at *
          omega
        · rw [hframe] at hcut
          omega
        · refine hfree e' he' hh' hr' ⟨max (frameAt p) e'.addr, ?_⟩
          have := hh'.2
          rw [MmapEntry.lastPage, MmapEntry.lastPage] at hhi'
          rw [MmapEntry.lastPage] at hlo'
          rw [MmapEntry.stop] at hcut hhi hhi' hlo'
          rw [MmapEntry.stop] at hhi'
          rw [hframe, himemBegin, pageSize_eq] at *
          omega
    · by_cases hskip : e.addr < himemBegin ∨ e ∈ rest
      · obtain ⟨x, hx⟩ := hover
        refine h.passedOver e he hr hskip ⟨x, ?_⟩
        rw [hframe] at hx
        omega
      · rw [not_or, Nat.not_lt] at hskip
        have hlen : 0 < e.len := by
          obtain ⟨x, hx⟩ := hover
          omega
        have he : e ∈ listed ++ [last] := by
          rcases List.mem_append.1 he with he | he
          · exact List.mem_append_left _ he
          · exact List.mem_append_right _ (List.mem_singleton.2
              ((List.mem_cons.1 he).resolve_right hskip.2))
        exact hfree e (hcounted e he hr) ⟨hskip.1, hlen⟩ hr hover

end OrderlyMap

/-- The bitmap is sound for every map whose entries follow on one another and meet at suitable
addresses. -/
theorem mmSetupBitmap_sound (h : OrderlyMap listed last rest stop) (mem : Int → BitVec 8) :
    SetupSound (listed ++ last :: rest) mem := h.fits.sound mem

end

/-- A reserved megabyte below 16 MB, with available memory before and behind it. -/
def holeMap : List MmapEntry :=
  [{ addr := 0, len := 0x9FC00, type := 1 },
   { addr := 0x9FC00, len := 0x400, type := 2 },
   { addr := 0xF0000, len := 0x10000, type := 2 },
   { addr := 0x100000, len := 0xE00000, type := 1 },
   { addr := 0xF00000, len := 0x100000, type := 2 }]

def holeMapLast : MmapEntry := { addr := 0x1000000, len := 0x6FE0000, type := 1 }

def holeMapRest : List MmapEntry :=
  [{ addr := 0x7FE0000, len := 0x20000, type := 2 },
   { addr := 0xFFFC0000, len := 0x40000, type := 2 }]

theorem mmSetupBitmap_sound_hole :
    SetupSound (holeMap ++ holeMapLast :: holeMapRest) fun _ => 0xA5#8 := by
  have horderly : OrderlyMap holeMap holeMapLast holeMapRest 0x7FE0000 →
      SetupSound (holeMap ++ holeMapLast :: holeMapRest) fun _ => 0xA5#8 :=
    fun h => mmSetupBitmap_sound h _
  refine horderly ⟨by decide, by decide,
    ⟨_, List.Perm.refl _, ⟨rfl, rfl, rfl, rfl⟩⟩, by decide, ?_, by decide, by decide, by decide⟩
  intro e he hr hskip
  have hout : e.stop ≤ himemBegin ∨ 0x7FE0000 ≤ e.addr := by
    revert e
    simp [holeMap, holeMapLast, holeMapRest, MmapEntry.Reserved, MmapEntry.stop, himemBegin,
      mmapMemoryAvailable]
  rintro ⟨x, hx⟩
  simp only [describedBytes, MmapEntry.stop, himemBegin] at hx hout
  omega

/-- Available memory with a reserved page in it that begins in the middle of a frame. -/
def splitMap : List MmapEntry :=
  [{ addr := 0x100000, len := 0x300800, type := 1 },
   { addr := 0x400800, len := 0x1000, type := 2 },
   { addr := 0x401800, len := 0x3FE800, type := 1 }]

/-- The reserved page touches two frames, and `mm_mark_used` sets the bit of the first only. -/
theorem reserved_page_split :
    0x300000 ≤ ((splitMap.filter fun e => e.type = mmapMemoryAvailable).map (·.len)).sum ∧
      ¬∀ mem, SetupSound splitMap mem := by
  refine ⟨by decide, fun h => ?_⟩
  have hbacked := (h _).fits.backed 769 (by decide) (by decide) (by decide) (by decide)
  refine hbacked.2 _ (List.mem_cons_of_mem _ List.mem_cons_self) (by decide) ⟨0x401000, ?_⟩
  decide

end SpuriOS
