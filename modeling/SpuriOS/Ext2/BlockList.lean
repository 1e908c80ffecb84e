import SpuriOS.Ext2.Stream

/-! # The block list that `ext2_open` builds

The block map of the format takes block 0 for a hole, and the number of a block for a number. The
code reads block 0 like any other, and its byte offsets are products of 32 bits. So the two agree
where the blocks of pointers are there and below 4 GB, and only there: any other number makes the
list depend on a block that is none of the file's, or leaves out one that is. -/

namespace SpuriOS

/-- `uint_32` number `i` of the array at `a`. -/
def Ram.word (r : Ram) (a i : Nat) : Nat := Memory.le r.mem (a + 4 * i) 4

/-- `file_size / block_size`, rounded up. -/
def ext2BlockCount (fileSize blockSize : Nat) : Nat :=
  if fileSize % blockSize ≠ 0 then fileSize / blockSize + 1 else fileSize / blockSize

/-- The part of `ext2_open` that builds `block_list`, for an inode with the fields `iBlock` and
`fileSize`; `page` is what `mm_mem_kalloc` returns. The pointer comes back as `none` where it is
null, and a false `kassert` as `none` for all. -/
def ext2OpenBlockList (dev : BlockDev) (blockSize : Nat) (iBlock : Nat → Nat)
    (fileSize page : Nat) (r : Ram) : Option (Option Nat × Ram) :=
  let blockCount := ext2BlockCount fileSize blockSize
  -- kassert(block_count <= 1036)
  if blockCount ≤ 1036 then
    let (blockList, r) :=
      if blockCount > 12 then
        (some page, hddEnhancedRead dev (Word32.mul (iBlock 12) blockSize) page blockSize r)
      else (none, r)
    let (doublyIndirectBlock, r) :=
      if blockCount > 268 then
        let r := hddEnhancedRead dev (Word32.mul (iBlock 13) blockSize) (page + 4 * 256) blockSize r
        let doublyIndirectBlock := fun i => r.word page (256 + i)
        (doublyIndirectBlock, hddEnhancedRead dev (Word32.mul (doublyIndirectBlock 0) blockSize)
          (page + 4 * 256) blockSize r)
      -- not initialised, and not used below
      else (fun _ => 0, r)
    let r :=
      if blockCount > 524 then
        hddEnhancedRead dev (Word32.mul (doublyIndirectBlock 1) blockSize) (page + 4 * 512)
          blockSize r
      else r
    let r :=
      if blockCount > 780 then
        hddEnhancedRead dev (Word32.mul (doublyIndirectBlock 2) blockSize) (page + 4 * 768)
          blockSize r
      else r
    some (blockList, r)
  else none

/-- The open file of a regular inode. Only the words of the list are there for its `blockList`:
none when the pointer is null, and none past the page. -/
def ext2OpenFile (dev : BlockDev) (logBlockSize : Nat) (iBlock : Nat → Nat)
    (fileSize page buffer : Nat) (r : Ram) : Option (Ext2File × Ram) := do
  let (blockList, r) ←
    ext2OpenBlockList dev (Word32.wrap (1024 <<< logBlockSize)) iBlock fileSize page r
  return ({
    dev, logBlockSize, iBlock, fileSize, buffer
    blockList := fun i => if i < 1024 then blockList.map (r.word · i) else none
    streamPos := 0
    bufPos := 0
    bufLen := pageSize
    bufferEmpty := true }, r)

/-! ## The map of the format -/

/-- The block of a file, in blocks of 1024 bytes: `pointer x i` is entry `i` of block `x`. -/
def blockMap (pointer : Nat → Nat → Nat) (iBlock : Nat → Nat) (b : Nat) : Nat :=
  if b < 12 then iBlock b
  else if b < 268 then pointer (iBlock 12) (b - 12)
  else pointer (pointer (iBlock 13) ((b - 268) / 256)) ((b - 268) % 256)

namespace BlockDev

/-- `uint_32` number `i` of block `x`. -/
def entry (dev : BlockDev) (x i : Nat) : Nat := Memory.le dev.byte (x * 1024 + 4 * i) 4

/-- An entry of a block of pointers. Block 0 stands for a missing one, which has only holes. -/
def pointer (dev : BlockDev) (x i : Nat) : Nat := if x = 0 then 0 else dev.entry x i

/-- The block that the format assigns to block `b` of a file, 0 for a hole. -/
def block (dev : BlockDev) : (iBlock : Nat → Nat) → (b : Nat) → Nat := blockMap dev.pointer

/-- The entry that the code reads, at the byte offset `x * 1024` of 32 bits. -/
def wrappedEntry (dev : BlockDev) (x : Nat) : Nat → Nat := dev.entry (x % 2 ^ 22)

end BlockDev

/-- The number of a block that is there and starts below 4 GB. -/
def NearBlock (x : Nat) : Prop := 0 < x ∧ x < 2 ^ 22

instance {x : Nat} : Decidable (NearBlock x) := inferInstanceAs (Decidable (_ ∧ _))

/-- The blocks of pointers of a file of `n` blocks are there and below 4 GB. -/
structure BlockDev.Near (dev : BlockDev) (iBlock : Nat → Nat) (n : Nat) : Prop where
  single : 12 < n → NearBlock (iBlock 12)
  double : 268 < n → NearBlock (iBlock 13)
  entry : ∀ k, 268 + 256 * k < n → NearBlock (dev.pointer (iBlock 13) k)

/-- A disk with the same blocks of pointers for a file of `n` blocks, and anything in them. -/
structure BlockDev.SameBlocks (dev : BlockDev) (iBlock : Nat → Nat) (n : Nat) (dev' : BlockDev) :
    Prop where
  size : dev'.size = dev.size
  entry : ∀ k, 268 + 256 * k < n → dev'.pointer (iBlock 13) k = dev.pointer (iBlock 13) k

section
variable {pointer pointer' : Nat → Nat → Nat} {iBlock : Nat → Nat} {n i k x y : Nat}
  {dev dev' : BlockDev}

theorem blockMap_single (hi : i < 256) : blockMap pointer iBlock (12 + i) =
    pointer (iBlock 12) i := by
  rw [blockMap, if_neg (by omega), if_pos (by omega), Nat.add_sub_cancel_left]

theorem blockMap_double (hi : i < 256) : blockMap pointer iBlock (268 + (256 * k + i)) =
    pointer (pointer (iBlock 13) k) i := by
  rw [blockMap, if_neg (by omega), if_neg (by omega),
    show (268 + (256 * k + i) - 268) / 256 = k by omega,
    show (268 + (256 * k + i) - 268) % 256 = i by omega]

/-- Two maps agree where their blocks of pointers do. -/
theorem blockMap_congr (hsingle : 12 < n → ∀ i, pointer (iBlock 12) i = pointer' (iBlock 12) i)
    (hdouble : 268 < n → ∀ i, pointer (iBlock 13) i = pointer' (iBlock 13) i)
    (hentry : ∀ k, 268 + 256 * k < n → ∀ i,
      pointer (pointer' (iBlock 13) k) i = pointer' (pointer' (iBlock 13) k) i) :
    ∀ b < n, blockMap pointer iBlock b = blockMap pointer' iBlock b := by
  intro b hb
  by_cases h12 : b < 12
  · rw [blockMap, blockMap, if_pos h12, if_pos h12]
  by_cases h268 : b < 268
  · obtain ⟨i, rfl⟩ := Nat.exists_eq_add_of_le (Nat.le_of_not_lt h12)
    rw [blockMap_single (by omega), blockMap_single (by omega), hsingle (by omega)]
  · obtain ⟨k, i, hi, rfl⟩ : ∃ k i, i < 256 ∧ b = 268 + (256 * k + i) :=
      ⟨(b - 268) / 256, (b - 268) % 256, Nat.mod_lt _ (by decide), by omega⟩
    rw [blockMap_double hi, blockMap_double hi, hdouble (by omega), hentry k (by omega)]

theorem NearBlock.wrappedEntry (h : NearBlock x) (i : Nat) :
    dev.wrappedEntry x i = dev.pointer x i := by
  rw [BlockDev.wrappedEntry, Nat.mod_eq_of_lt h.2, BlockDev.pointer, if_neg (Nat.ne_of_gt h.1)]

namespace BlockDev

/-- Below 4 GB the code reads what the format says. -/
theorem Near.block (h : dev.Near iBlock n) :
    ∀ b < n, blockMap dev.wrappedEntry iBlock b = dev.block iBlock b :=
  blockMap_congr (fun hn => (h.single hn).wrappedEntry) (fun hn => (h.double hn).wrappedEntry)
    fun k hn => (h.entry k hn).wrappedEntry

theorem SameBlocks.near (h : dev.SameBlocks iBlock n dev') (hnear : dev.Near iBlock n) :
    dev'.Near iBlock n :=
  ⟨hnear.single, hnear.double, fun k hk => h.entry k hk ▸ hnear.entry k hk⟩

/-! ## Other disks -/

/-- The disk with the number `v` as the first entry of block `x`. -/
def poke (dev : BlockDev) (x v : Nat) : BlockDev where
  size := dev.size
  sector pos i := Memory.write dev.byte (x * 1024) 4
    (fun j => if j = 0 then UInt8.ofNat v else 0) (pos * dev.size + i)

theorem byte_poke (v : Nat) : (dev.poke x v).byte = Memory.write dev.byte (x * 1024) 4
    fun j => if j = 0 then UInt8.ofNat v else 0 := by
  funext a
  rw [byte, poke]
  dsimp only
  rw [Nat.div_add_mod']

theorem entry_poke {v : Nat} (hv : v < 256) : (dev.poke x v).entry x 0 = v := by
  rw [entry, byte_poke, Memory.le_write (by decide)]
  exact (Nat.add_zero _).trans ((UInt8.toNat_ofNat' ..).trans (Nat.mod_eq_of_lt hv))

theorem entry_poke_of_ne {v : Nat} (h : y ≠ x) (hi : i < 256) :
    (dev.poke x v).entry y i = dev.entry y i := by
  rw [entry, byte_poke, Memory.le_write_of_not (by omega)]
  rfl

theorem pointer_poke_of_ne {v : Nat} (h : y = 0 ∨ y ≠ x) (hi : i < 256) :
    (dev.poke x v).pointer y i = dev.pointer y i := by
  rw [pointer, pointer]
  split
  next => rfl
  next h0 => exact entry_poke_of_ne (h.resolve_left h0) hi

/-- A block of pointers of which the code reads the first entry, whatever it is. -/
theorem nearBlock_of_poke
    (h : ∀ v, (dev.poke x v).wrappedEntry x 0 = (dev.poke x v).pointer x 0) : NearBlock x := by
  refine ⟨Nat.pos_of_ne_zero fun h0 => ?_, Nat.lt_of_not_le fun hfar => ?_⟩
  · -- the code reads the entry in block 0 of the disk
    subst h0
    have h1 := h 1
    rw [wrappedEntry, Nat.zero_mod, entry_poke (by decide)] at h1
    cases h1
  · -- the code reads a block below 4 GB instead
    have hne : x % 2 ^ 22 ≠ x := by omega
    have hentry : ∀ v < 256, dev.entry (x % 2 ^ 22) 0 = v := fun v hv => by
      have hv' := h v
      rwa [wrappedEntry, entry_poke_of_ne hne (by decide), pointer, if_neg (by omega),
        entry_poke hv] at hv'
    cases (hentry 0 (by decide)).symm.trans (hentry 1 (by decide))

/-- If the code resolves the file whatever else is on the disk, all its blocks of pointers are near.
For the doubly indirect block two disks differ in a block that only the code comes to. -/
theorem near_of_sameBlocks (hn : n ≤ 1036) (h : ∀ dev', dev.SameBlocks iBlock n dev' →
    ∀ b < n, blockMap dev'.wrappedEntry iBlock b = dev'.block iBlock b) : dev.Near iBlock n := by
  have hdouble : 268 < n → NearBlock (iBlock 13) := by
    intro hlt
    refine Decidable.by_contra fun hfar => ?_
    have hapart : ∀ {y}, y < 2 ^ 22 → iBlock 13 = 0 ∨ iBlock 13 ≠ y := fun hy =>
      (Nat.eq_zero_or_pos _).imp_right fun hpos hxy => hfar ⟨hpos, hxy ▸ hy⟩
    have hw := Nat.mod_lt (iBlock 13) (show 0 < 2 ^ 22 by decide)
    obtain ⟨e, he, hew, hez⟩ : ∃ e, e < 4 ∧ e ≠ iBlock 13 % 2 ^ 22 ∧
        (dev.pointer (iBlock 13) 0 = 0 ∨ dev.pointer (iBlock 13) 0 ≠ e) := by
      by_cases h1 : 1 ≠ iBlock 13 % 2 ^ 22 ∧ dev.pointer (iBlock 13) 0 ≠ 1
      · exact ⟨1, by decide, h1.1, .inr h1.2⟩
      by_cases h2 : 2 ≠ iBlock 13 % 2 ^ 22 ∧ dev.pointer (iBlock 13) 0 ≠ 2
      · exact ⟨2, by decide, h2.1, .inr h2.2⟩
      · exact ⟨3, by decide, by omega, by omega⟩
    have hread : ∀ v < 256, v = (dev.poke (iBlock 13 % 2 ^ 22) e).pointer
        (dev.pointer (iBlock 13) 0) 0 := by
      intro v hv
      have hkeep : ∀ k < 256, ((dev.poke (iBlock 13 % 2 ^ 22) e).poke e v).pointer (iBlock 13) k =
          dev.pointer (iBlock 13) k := fun k hk => by
        rw [pointer_poke_of_ne (hapart (by omega)) hk, pointer_poke_of_ne (hapart hw) hk]
      have hb := h ((dev.poke (iBlock 13 % 2 ^ 22) e).poke e v)
        ⟨rfl, fun k hk => hkeep k (by omega)⟩ (268 + (256 * 0 + 0)) hlt
      rwa [BlockDev.block, blockMap_double (by decide), blockMap_double (by decide),
        hkeep 0 (by decide), pointer_poke_of_ne hez (by decide), wrappedEntry, wrappedEntry,
        entry_poke_of_ne hew.symm (by decide), entry_poke (by omega),
        Nat.mod_eq_of_lt (show e < 2 ^ 22 by omega), entry_poke hv] at hb
    cases (hread 0 (by decide)).trans (hread 1 (by decide)).symm
  -- for the others they differ in the block itself, to which the code does not come
  have hsame : ∀ {x}, ¬NearBlock x → ∀ v, dev.SameBlocks iBlock n (dev.poke x v) := fun hfar v =>
    ⟨rfl, fun k hk => pointer_poke_of_ne
      (.inr fun heq => hfar (heq ▸ hdouble (by omega))) (by omega)⟩
  refine ⟨fun hlt => ?_, hdouble, fun k hk => ?_⟩
  · refine Decidable.by_contra fun hfar => hfar (@nearBlock_of_poke _ dev fun v => ?_)
    have hb := h _ (hsame hfar v) (12 + 0) hlt
    rwa [BlockDev.block, blockMap_single (by decide), blockMap_single (by decide)] at hb
  · refine Decidable.by_contra fun hfar => hfar (@nearBlock_of_poke _ dev fun v => ?_)
    have hb := h _ (hsame hfar v) (268 + (256 * k + 0)) hk
    rwa [BlockDev.block, blockMap_double (by decide), blockMap_double (by decide),
      (hdouble (by omega)).wrappedEntry, (hsame hfar v).entry k hk] at hb

end BlockDev

end

/-! ## The reads into the list -/

section
variable {dev : BlockDev} {iBlock : Nat → Nat} {page x k n : Nat} {r : Ram}

/-- An indirect block read into one of the four parts of the list. -/
def Ram.readPart (dev : BlockDev) (x page k : Nat) (r : Ram) : Ram :=
  hddEnhancedRead dev (Word32.mul x 1024) (page + 4 * (256 * k)) 1024 r

theorem Ram.readPart_mem (h0 : 0 < dev.size) (hs : dev.size ≤ 512) (hpage : page + 4096 ≤ 2 ^ 32)
    (hk : k < 4) : (r.readPart dev x page k).mem =
      Memory.write r.mem (page + 4 * (256 * k)) 1024 fun i =>
        dev.byte (x % 2 ^ 22 * 1024 + i) := by
  have hstart : Word32.mul x 1024 = x % 2 ^ 22 * 1024 := by
    rw [Word32.mul, Word32.wrap]
    omega
  have hmod := Nat.mod_lt (x % 2 ^ 22 * 1024) h0
  rw [readPart, hstart]
  exact hddEnhancedRead_mem h0 (by omega) (by omega) (by omega) (by omega)

/-- The first `k` parts of the list are as they should be, and nothing outside the page of the
list has changed since `r₀`. -/
structure Listed (dev : BlockDev) (iBlock : Nat → Nat) (page n : Nat) (r₀ : Ram) (k : Nat)
    (r : Ram) : Prop where
  words : ∀ i < 256 * k, 12 + i < n → r.word page i = blockMap dev.wrappedEntry iBlock (12 + i)
  outside : ∀ a, ¬(page ≤ a ∧ a < page + 4096) → r.mem a = r₀.mem a

section
variable (h0 : 0 < dev.size) (hs : dev.size ≤ 512) (hpage : page + 4096 ≤ 2 ^ 32) (hk : k < 4)
  {r₀ : Ram}
include h0 hs hpage hk

theorem Ram.word_readPart {i : Nat} (hi : i < 256) :
    (r.readPart dev x page k).word page (256 * k + i) = dev.wrappedEntry x i := by
  rw [Ram.word, readPart_mem h0 hs hpage hk,
    show page + 4 * (256 * k + i) = page + 4 * (256 * k) + 4 * i by omega,
    Memory.le_write (by omega)]
  exact Memory.le_congr fun j _ => by rw [Nat.add_assoc]

theorem Ram.word_readPart_of_lt {i : Nat} (hi : i < 256 * k) :
    (r.readPart dev x page k).word page i = r.word page i := by
  rw [Ram.word, readPart_mem h0 hs hpage hk]
  exact Memory.le_write_of_not (by omega)

theorem Listed.readPart (h : Listed dev iBlock page n r₀ k r) :
    Listed dev iBlock page n r₀ k (r.readPart dev x page k) where
  words i hi hn := by rw [Ram.word_readPart_of_lt h0 hs hpage hk hi, h.words i hi hn]
  outside a ha := by
    rw [Ram.readPart_mem h0 hs hpage hk, Memory.write_of_not (by omega), h.outside a ha]

/-- One more part is filled, if the file has blocks there. -/
theorem Listed.next (h : Listed dev iBlock page n r₀ k r)
    (hx : 12 + 256 * k < n → ∀ i < 256,
      dev.wrappedEntry x i = blockMap dev.wrappedEntry iBlock (12 + (256 * k + i))) :
    Listed dev iBlock page n r₀ (k + 1)
      (if n > 12 + 256 * k then r.readPart dev x page k else r) := by
  split
  next hn =>
    have hkeep := h.readPart h0 hs hpage hk (x := x)
    refine ⟨fun i hi hin => ?_, hkeep.outside⟩
    by_cases hlt : i < 256 * k
    · exact hkeep.words i hlt hin
    · obtain ⟨j, rfl⟩ := Nat.exists_eq_add_of_le (Nat.le_of_not_lt hlt)
      rw [Ram.word_readPart h0 hs hpage hk (by omega), hx hn j (by omega)]
  next hn => exact ⟨fun i hi hin => h.words i (by omega) hin, h.outside⟩

end

/-- What `ext2_open` puts in the list: the map with the entries that it reads. -/
theorem ext2OpenBlockList_spec (h0 : 0 < dev.size) (hs : dev.size ≤ 512)
    (hpage : page + 4096 ≤ 2 ^ 32) {fileSize : Nat} (hn : ext2BlockCount fileSize 1024 ≤ 1036) :
    ∃ r', ext2OpenBlockList dev 1024 iBlock fileSize page r =
        some (if ext2BlockCount fileSize 1024 > 12 then some page else none, r') ∧
      Listed dev iBlock page (ext2BlockCount fileSize 1024) r 4 r' := by
  rw [ext2OpenBlockList]
  generalize ext2BlockCount fileSize 1024 = n at hn ⊢
  have hstart : Listed dev iBlock page n r 0 r :=
    ⟨fun i hi _ => absurd hi (by omega), fun _ _ => rfl⟩
  have hsingle := hstart.next h0 hs hpage (by decide) (x := iBlock 12) fun _ i hi => by
    rw [Nat.mul_zero, Nat.zero_add, blockMap_single hi]
  dsimp only
  rw [if_pos hn]
  have hpart (a k : Nat) (ha : page + 4 * (256 * k) = a) (x : Nat) (r : Ram) :
      hddEnhancedRead dev (Word32.mul x 1024) a 1024 r = r.readPart dev x page k := by
    rw [← ha]; rfl
  simp only [hpart page 0 rfl, hpart (page + 4 * 256) 1 rfl, hpart (page + 4 * 512) 2 rfl,
    hpart (page + 4 * 768) 3 rfl]
  by_cases h268 : n > 268
  · rw [if_pos (by omega)] at hsingle ⊢
    rw [if_pos h268, if_pos (show n > 12 by omega)]
    dsimp only
    generalize Ram.readPart dev (iBlock 12) page 0 r = r₁ at hsingle ⊢
    -- the doubly indirect block is read into the part that its first entry is then read into
    have hentry : ∀ i < 256, (r₁.readPart dev (iBlock 13) page 1).word page (256 + i) =
        dev.wrappedEntry (iBlock 13) i := fun i hi =>
      Ram.word_readPart h0 hs hpage (by decide) hi
    have hkeep : Listed dev iBlock page n r 1 (r₁.readPart dev (iBlock 13) page 1) :=
      hsingle.readPart h0 hs hpage (by decide)
    have hnext : ∀ {k u}, Listed dev iBlock page n r (k + 1) u → k < 3 →
        Listed dev iBlock page n r (k + 2) (if n > 12 + 256 * (k + 1) then
          u.readPart dev ((r₁.readPart dev (iBlock 13) page 1).word page (256 + k)) page (k + 1)
          else u) := fun h hk =>
      h.next h0 hs hpage (by omega) fun _ i hi => by
        rw [hentry _ (by omega)]
        exact (blockMap_double hi).symm.trans (congrArg _ (by omega))
    have hlist := hnext (hnext (hnext hkeep (by decide)) (by decide)) (by decide)
    rw [if_pos (show n > 12 + 256 * (0 + 1) from h268)] at hlist
    exact ⟨_, rfl, hlist⟩
  · have hfull : ∀ {u}, Listed dev iBlock page n r 1 u → Listed dev iBlock page n r 4 u :=
      fun h => ⟨fun i _ hi => h.words i (by omega) hi, h.outside⟩
    rw [if_neg h268, if_neg (show ¬n > 524 by omega), if_neg (show ¬n > 780 by omega)]
    dsimp only
    by_cases h12 : n > 12
    · rw [if_pos h12] at hsingle
      rw [if_pos h12, if_pos h12]
      dsimp only
      exact ⟨_, rfl, hfull hsingle⟩
    · rw [if_neg h12] at hsingle
      rw [if_neg h12, if_neg h12]
      dsimp only
      exact ⟨_, rfl, hfull hsingle⟩

theorem ext2OpenFile_lookup (h0 : 0 < dev.size) (hs : dev.size ≤ 512)
    (hpage : page + 4096 ≤ 2 ^ 32) {fileSize buffer : Nat}
    (hn : ext2BlockCount fileSize 1024 ≤ 1036) :
    ∃ f r', ext2OpenFile dev 0 iBlock fileSize page buffer r = some (f, r') ∧
      (∀ a, ¬(page ≤ a ∧ a < page + 4096) → r'.mem a = r.mem a) ∧
      ∀ b < ext2BlockCount fileSize 1024,
        f.lookup b = some (blockMap dev.wrappedEntry iBlock b) := by
  obtain ⟨r', hlist, hlisted⟩ :=
    @ext2OpenBlockList_spec dev iBlock page r h0 hs hpage fileSize hn
  have hopen : ext2OpenFile dev 0 iBlock fileSize page buffer r = _ :=
    congrArg (Option.bind · _) hlist
  refine ⟨_, r', hopen, hlisted.outside, fun b hb => ?_⟩
  by_cases h12 : b < 12
  · rw [Ext2File.lookup, if_pos h12, blockMap, if_pos h12]
  · obtain ⟨i, rfl⟩ := Nat.exists_eq_add_of_le (Nat.le_of_not_lt h12)
    rw [Ext2File.lookup, if_neg h12, Nat.add_sub_cancel_left]
    dsimp only
    rw [if_pos (by omega), if_pos (by omega), Option.map_some, hlisted.words i (by omega) hb]

/-- `ext2_open` writes the list inside its page. It gives every block of the file the number that
the format gives it if the blocks of pointers are there and below 4 GB, and only then does it so
whatever else is on the disk. -/
theorem ext2OpenFile_resolves_iff (h0 : 0 < dev.size) (hs : dev.size ≤ 512)
    (hpage : page + 4096 ≤ 2 ^ 32) {fileSize buffer : Nat}
    (hn : ext2BlockCount fileSize 1024 ≤ 1036) :
    (∃ f r', ext2OpenFile dev 0 iBlock fileSize page buffer r = some (f, r') ∧
      (∀ a, ¬(page ≤ a ∧ a < page + 4096) → r'.mem a = r.mem a) ∧
      (dev.Near iBlock (ext2BlockCount fileSize 1024) → ∀ b < ext2BlockCount fileSize 1024,
        f.lookup b = some (dev.block iBlock b))) ∧
    ((∀ dev', dev.SameBlocks iBlock (ext2BlockCount fileSize 1024) dev' →
      ∀ f r', ext2OpenFile dev' 0 iBlock fileSize page buffer r = some (f, r') →
        ∀ b < ext2BlockCount fileSize 1024, f.lookup b = some (dev'.block iBlock b)) ↔
      dev.Near iBlock (ext2BlockCount fileSize 1024)) := by
  have hopen := fun dev' (h : dev'.size = dev.size) => @ext2OpenFile_lookup dev' iBlock page r
    (h ▸ h0) (h ▸ hs) hpage fileSize buffer hn
  constructor
  · obtain ⟨f, r', heq, houtside, hlookup⟩ := hopen dev rfl
    exact ⟨f, r', heq, houtside, fun hnear b hb => by rw [hlookup b hb, hnear.block b hb]⟩
  constructor
  · intro h
    refine BlockDev.near_of_sameBlocks hn fun dev' hsame b hb => ?_
    obtain ⟨f, r', heq, -, hlookup⟩ := hopen dev' hsame.size
    exact Option.some.inj ((hlookup b hb).symm.trans (h dev' hsame f r' heq b hb))
  · intro hnear dev' hsame f r' heq b hb
    obtain ⟨f', r'', heq', -, hlookup⟩ := hopen dev' hsame.size
    cases heq.symm.trans heq'
    rw [hlookup b hb, (hsame.near hnear).block b hb]

/-- A disk where the entries of each block are that block and the three that follow it. -/
def nextBlocks : BlockDev where
  size := 512
  sector pos i := if pos % 2 = 0 ∧ i < 16 ∧ i % 4 = 0 then UInt8.ofNat (pos / 2 + i / 4) else 0

/-- A file of 600 blocks: its doubly indirect block is block 40, which names 40, 41 and 42. -/
theorem ext2OpenFile_resolves_next : ∃ f r',
    ext2OpenFile nextBlocks 0 (fun k => 27 + k) (600 * 1024) 4096 8192
      ⟨fun _ => 0, fun _ => 0⟩ = some (f, r') ∧
    (∀ b < 600, f.lookup b = some (nextBlocks.block (fun k => 27 + k) b)) ∧
    nextBlocks.block (fun k => 27 + k) 525 = 42 := by
  obtain ⟨⟨f, r', hopen, -, hlookup⟩, -⟩ := @ext2OpenFile_resolves_iff nextBlocks (fun k => 27 + k)
    4096 ⟨fun _ => 0, fun _ => 0⟩ (by decide) (by decide) (by decide) (600 * 1024) 8192 (by decide)
  have hentry : ∀ k < 2, NearBlock (nextBlocks.pointer 40 k) := by decide
  refine ⟨f, r', hopen, hlookup ⟨fun _ => by decide, fun _ => by decide, fun k hk => ?_⟩, by decide⟩
  have hcount : ext2BlockCount (600 * 1024) 1024 = 600 := by decide
  exact hentry k (by omega)

/-- A disk of zeros up to 4 GB and of ones from there on. -/
def farOnes : BlockDev where
  size := 512
  sector pos _ := if pos < 2 ^ 23 then 0 else 1

/-- The block numbers of an inode whose singly indirect block is the first one past 4 GB. -/
def farIndirect (b : Nat) : Nat := if b = 12 then 2 ^ 22 else b

/-- A disk of ones. -/
def allOnes : BlockDev where
  size := 512
  sector _ _ := 1

/-- A file of 13 blocks: its last block is looked up in block 0 of the disk, if the singly indirect
block is past 4 GB, and also if there is none and the last block is a hole. -/
theorem far_indirect_block :
    (∃ f r', ext2OpenFile farOnes 0 farIndirect (13 * 1024) 4096 8192
        ⟨fun _ => 0, fun _ => 0⟩ = some (f, r') ∧
      f.lookup 12 ≠ some (farOnes.block farIndirect 12)) ∧
    ∃ f r', ext2OpenFile allOnes 0 (fun _ => 0) (13 * 1024) 4096 8192
        ⟨fun _ => 0, fun _ => 0⟩ = some (f, r') ∧
      f.lookup 12 ≠ some (allOnes.block (fun _ => 0) 12) := by
  constructor
  · obtain ⟨f, r', hopen, -, hlookup⟩ := @ext2OpenFile_lookup farOnes farIndirect 4096
      ⟨fun _ => 0, fun _ => 0⟩ (by decide) (by decide) (by decide) (13 * 1024) 8192 (by decide)
    refine ⟨f, r', hopen, ?_⟩
    rw [hlookup 12 (by decide)]
    decide
  · obtain ⟨f, r', hopen, -, hlookup⟩ := @ext2OpenFile_lookup allOnes (fun _ => 0) 4096
      ⟨fun _ => 0, fun _ => 0⟩ (by decide) (by decide) (by decide) (13 * 1024) 8192 (by decide)
    refine ⟨f, r', hopen, ?_⟩
    rw [hlookup 12 (by decide)]
    decide

end

end SpuriOS
