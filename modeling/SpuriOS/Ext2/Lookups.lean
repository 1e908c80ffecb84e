import SpuriOS.Ext2.BlockList

/-! # The lookups of an open file

The `blockList` of a file that `ext2_open` returns has words for the page of the list only, and
none for a null pointer. So a call comes back just when every block number that `e2f_load_buffer`
looks up in it is in the inode or in the list. -/

namespace SpuriOS

open Transition

/-- A call on an open file, with what it leaves. -/
def FileOp.call (s : Ext2File × Ram) : FileOp → Option (Ext2File × Ram)
  | .read buf size u => (ext2FileRead s.1 buf size s.2 u).map fun x => (x.2.1, x.2.2.1)
  | .seek position => (ext2FileSeek s.1 position s.2).map Prod.snd

/-- The runs of an open file, whatever the memory of the callers is. -/
def openFile (f : Ext2File) : System (Ext2File × Ram) FileOp :=
  .ofFun (fun s => s.1 = f) fun s op => op.call s

/-- The calls that look no block up outside the list: a read does not wrap the position, and no
seek comes to the end of a file that fills the direct blocks or the whole list. -/
def FileOp.Inside (s : Ext2File × Ram) : FileOp → Prop
  | .read _ size _ => s.1.streamPos + size < 2 ^ 32
  | .seek position => ¬(position = s.1.fileSize ∧ s.1.streamPos ≠ position ∧
      (s.1.fileSize = 12 * 1024 ∨ s.1.fileSize = 1036 * 1024))

namespace Ext2File
variable {f : Ext2File} {r : Ram} {u : UserMem} {pos bp : Nat}

/-- An open file after calls on it: the position is in the file, the buffer in its page. -/
def Used (f g : Ext2File) : Prop := g = f ∨ ∃ pos ≤ f.fileSize, ∃ bp ≤ pageSize, g = f.at' pos bp

theorem Fresh.pageMapped_iff (hf : f.Fresh) (hlist : ∀ i, 1024 ≤ i → f.blockList i = none)
    {p : Nat} (hp : p ≤ f.fileSize) : f.PageMapped p ↔
      ¬(p = f.fileSize ∧ (f.fileSize = 12 * 1024 ∨ f.fileSize = 1036 * 1024)) := by
  have hsize := hf.fileSize
  rw [PageMapped, pageSize_eq]
  constructor
  · rintro hmapped ⟨rfl, hfull⟩
    have hlast := hmapped 0 (by decide)
    rw [lookup, if_neg (by omega), Option.isSome_iff_ne_none] at hlast
    obtain hdirect | hpage := hfull
    · exact hlast (hf.blockList_null (by omega) _ (by omega))
    · exact hlast (hlist _ (by omega))
  · intro hfull j hj
    rw [lookup]
    split
    · rfl
    · exact hf.blockList_page (by omega) _ (by omega)

theorem loadLoop_isSome_iff (hf : f.Static) {k fuel b ptr : Nat} (hfuel : k ≤ fuel)
    (hk : k ≤ 4) : (e2fLoadBufferLoop f fuel b (k * 1024) ptr r).isSome ↔
      ∀ j < k, (f.lookup (b + j)).isSome := by
  induction k generalizing fuel b ptr r with
  | zero => cases fuel <;> simp [e2fLoadBufferLoop]
  | succ k ih =>
    obtain ⟨fuel, rfl⟩ : ∃ n, fuel = n + 1 := ⟨fuel - 1, by omega⟩
    have hsub : Word32.sub ((k + 1) * 1024) 1024 = k * 1024 := by
      rw [Word32.sub_of_le (by omega) (by omega)]; omega
    have hsplit : (∀ j < k + 1, (f.lookup (b + j)).isSome) ↔
        (f.lookup b).isSome ∧ ∀ j < k, (f.lookup (b + 1 + j)).isSome := by
      rw [Nat.forall_lt_succ_left, Nat.add_zero]
      refine and_congr_right' (forall₂_congr fun j _ => ?_)
      rw [Nat.add_assoc, Nat.add_comm 1]
    rw [e2fLoadBufferLoop, if_neg (by omega), hsplit]
    cases f.lookup b with
    | none => simp
    | some block =>
      simp only [Option.bind_eq_bind, Option.bind_some, hf.blockSize,
        if_neg (show ¬(k + 1) * 1024 < 1024 by omega), hsub, Option.isSome_some, true_and]
      exact ih (by omega) (by omega)

/-- A load comes back just when it looks up blocks that are there. -/
theorem load_isSome_iff (hf : f.Static) :
    (e2fLoadBuffer f r).isSome ↔ f.PageMapped f.streamPos := by
  have hb : f.streamPos / pageSize * pageSize / 1024 = f.streamPos / pageSize * 4 := by
    rw [pageSize_eq]; omega
  rw [e2fLoadBuffer, hf.bufLen, hf.blockSize, hb, PageMapped,
    ← @loadLoop_isSome_iff f r hf 4 pageSize (f.streamPos / pageSize * 4) f.buffer (by decide)
      (by decide)]
  rw [show 4 * 1024 = pageSize from rfl]
  cases e2fLoadBufferLoop f pageSize (f.streamPos / pageSize * 4) pageSize f.buffer r <;> rfl

/-- The copy loop comes back from wherever it starts, as long as the request ends in the file. -/
theorem readLoop_isSome (hf : f.Fresh) {fuel size rem total buf : Nat} (hbp : bp ≤ pageSize)
    (hfuel : rem < fuel) (hfull : bp = pageSize → 0 < rem → rem + 1 < fuel)
    (hend : pos + rem ≤ f.fileSize) (htotal : total + rem = size) :
    ∃ n g r' u', ext2FileReadLoop size fuel rem total buf (f.at' pos bp) r u =
      some (n, g, r', u') ∧ f.Used g := by
  have hsize := hf.fileSize
  have hps := pageSize_eq
  induction fuel generalizing pos bp rem total buf r u with
  | zero => omega
  | succ fuel ih =>
    have hhere : f.Used (f.at' pos bp) := .inr ⟨pos, by omega, bp, hbp, rfl⟩
    by_cases h0 : rem = 0
    · refine ⟨total, f.at' pos bp, r, u, ?_, hhere⟩
      rw [ext2FileReadLoop, if_pos h0, if_pos (by omega)]
    cases huser : u.isUser buf with
    | false =>
      -- the copy fails, and the call returns with the file as it is
      refine ⟨-1, f.at' pos bp, r, u, ?_, hhere⟩
      rw [ext2FileReadLoop, if_neg h0]
      simp only [copy2user, huser, Bool.false_eq_true, if_false]
      exact if_pos (by split <;> omega)
    | true =>
      rw [readLoop_round hf.toStatic h0 rfl hbp (by omega) huser]
      generalize hc : min rem (pageSize - bp) = c
      split
      next hmore =>
        have hmod := Nat.mod_lt (pos + c) (show 0 < pageSize by omega)
        obtain ⟨r', hload, -⟩ := @load_at f r (pos + c) (bp + c) hf.toStatic false
          (hf.pageMapped (.inl (by omega)))
        rw [at', hload, Option.bind_some]
        exact ih (by omega) (by omega) (by omega) (by omega) (by omega)
      next hmore =>
        exact ih (by omega) (by omega) (by omega) (by omega) (by omega)

theorem read_isSome (hf : f.Fresh) {g : Ext2File} (hg : f.Used g) {buf size : Nat}
    (hwrap : g.streamPos + size < 2 ^ 32) :
    ∃ n g' r' u', ext2FileRead g buf size r u = some (n, g', r', u') ∧ f.Used g' := by
  have hsize := hf.fileSize
  by_cases h0 : size = 0
  · exact ⟨0, g, r, u, if_pos h0, hg⟩
  have hat : ∀ {pos bp r}, pos ≤ f.fileSize → bp ≤ pageSize → pos + size < 2 ^ 32 →
      ∃ n g' r' u', ext2FileRead (f.at' pos bp) buf size r u = some (n, g', r', u') ∧
        f.Used g' := by
    intro pos bp r hpos hbp hwrap
    have hcorr : (if Word32.add (f.at' pos bp).streamPos size > (f.at' pos bp).fileSize then
        Word32.sub (f.at' pos bp).fileSize (f.at' pos bp).streamPos else size) =
        min size (f.fileSize - pos) := by
      rw [at'_streamPos, at'_fileSize, Word32.add_of_lt hwrap, Word32.sub_of_le hpos (by omega)]
      split <;> omega
    rw [ext2FileRead, if_neg h0, at'_bufferEmpty, if_neg (by simp), Option.bind_eq_bind,
      Option.bind_some]
    dsimp only
    rw [hcorr]
    exact readLoop_isSome hf hbp (by omega) (by omega) (by omega) (by omega)
  obtain rfl | ⟨pos, hpos, bp, hbp, rfl⟩ := hg
  · obtain ⟨r', hread, -⟩ := @read_fresh g r u hf size buf h0
    rw [hread]
    rw [hf.streamPos] at hwrap
    exact hat (Nat.zero_le _) (Nat.zero_le _) hwrap
  · exact hat hpos hbp hwrap

/-- A seek comes back just when it does not stop at the end of a file that fills the direct blocks
or the whole list. -/
theorem seek_isSome_iff (hf : f.Fresh) (hlist : ∀ i, 1024 ≤ i → f.blockList i = none)
    {g : Ext2File} (hg : f.Used g) {position : Nat} :
    (ext2FileSeek g position r).isSome ↔ (FileOp.seek position).Inside (g, r) := by
  have hps := pageSize_eq
  obtain ⟨hsize, hpos, hstatic, hmapped, hempty⟩ : g.fileSize = f.fileSize ∧
      g.streamPos ≤ g.fileSize ∧ g.Static ∧ (∀ p, g.PageMapped p ↔ f.PageMapped p) ∧
      (g.bufferEmpty = true → g.streamPos = 0) := by
    obtain rfl | ⟨pos, hpos, bp, -, rfl⟩ := hg
    · exact ⟨rfl, by rw [hf.streamPos]; omega, hf.toStatic, fun _ => Iff.rfl,
        fun _ => hf.streamPos⟩
    · exact ⟨rfl, hpos, ⟨hf.devSize, hf.blockSize, hf.bufLen, hf.buffer⟩, fun _ => Iff.rfl,
        fun he => absurd he Bool.false_ne_true⟩
  have hiff := fun h => hf.pageMapped_iff hlist (p := position) h
  have hload : ∀ bp, (e2fLoadBuffer { g with streamPos := position, bufPos := bp } r).isSome ↔
      g.PageMapped position := fun bp =>
    @load_isSome_iff { g with streamPos := position, bufPos := bp } r
      ⟨hstatic.1, hstatic.2, hstatic.3, hstatic.4⟩
  have hback : ∀ (o : Option (Ext2File × Ram))
      (k : Ext2File × Ram → Option (Int × Ext2File × Ram)), (∀ x, (k x).isSome = true) →
      (o >>= k).isSome = o.isSome := by
    rintro (_ | x) k hk
    · rfl
    · exact hk x
  have hinside : (FileOp.seek position).Inside (g, r) ↔
      ¬(position = g.fileSize ∧ g.streamPos ≠ position ∧
        (g.fileSize = 12 * 1024 ∨ g.fileSize = 1036 * 1024)) := Iff.rfl
  rw [hinside, ext2FileSeek]
  split
  next hpast => exact iff_of_true rfl (by omega)
  next hin =>
    rw [← hsize] at hiff
    have hiff := (hmapped position).trans (hiff (by omega))
    split
    next hpage =>
      rw [hstatic.bufLen, hps] at hpage
      rw [hback _ _ fun _ => rfl, hload g.bufPos, hiff]
      omega
    next hpage =>
      -- the page of the position is in the buffer, or it is page 0 and the first to be loaded
      rw [hstatic.bufLen, hps] at hpage
      dsimp only
      split
      next hnew =>
        have hzero := hempty hnew
        rw [hback _ _ fun _ => rfl, hload (position % g.bufLen), hiff]
        omega
      next hold => exact iff_of_true rfl (by omega)

theorem load_file {g : Ext2File} {r' : Ram} (h : e2fLoadBuffer f r = some (g, r')) :
    g = { f with bufPos := f.streamPos % f.bufLen, bufferEmpty := false } := by
  simp only [e2fLoadBuffer, Option.bind_eq_bind, Option.bind_eq_some_iff, Option.pure_def,
    Option.some.injEq, Prod.mk.injEq] at h
  obtain ⟨-, -, rfl, -⟩ := h
  rfl

theorem Used.seek (hf : f.bufLen = pageSize) {g : Ext2File} (hg : f.Used g) {position : Nat}
    {n : Int}
    {g' : Ext2File} {r' : Ram} (h : ext2FileSeek g position r = some (n, g', r')) :
    f.Used g' := by
  obtain ⟨hsize, hat⟩ : g.fileSize = f.fileSize ∧ ∀ bp,
      { g with streamPos := position, bufPos := bp, bufferEmpty := false } = f.at' position bp := by
    obtain rfl | ⟨pos, -, bp, -, rfl⟩ := hg <;> exact ⟨rfl, fun _ => rfl⟩
  have hlen : g.bufLen = pageSize := (congrArg bufLen (hat 0)).trans hf
  have hmod : position % pageSize ≤ pageSize := Nat.le_of_lt (Nat.mod_lt _ (by decide))
  have hload : ∀ {bp be r'}, e2fLoadBuffer
      { g with streamPos := position, bufPos := bp, bufferEmpty := be } r = some (g', r') →
      g' = f.at' position (position % pageSize) := fun h => by
    rw [load_file h, ← hat, hlen]
  rw [ext2FileSeek] at h
  split at h
  next hpast =>
    cases h
    exact hg
  next hin =>
    have hused : ∀ {bp}, bp ≤ pageSize → f.Used (f.at' position bp) := fun hbp =>
      .inr ⟨position, by omega, _, hbp, rfl⟩
    split at h
    next hpage =>
      simp only [Option.bind_eq_bind, Option.bind_eq_some_iff] at h
      obtain ⟨⟨g₁, r₁⟩, hl, h⟩ := h
      cases h
      rw [hload hl]
      exact hused hmod
    next hpage =>
      dsimp only at h
      split at h
      next hnew =>
        simp only [Option.bind_eq_bind, Option.bind_eq_some_iff] at h
        obtain ⟨⟨g₁, r₁⟩, hl, h⟩ := h
        cases h
        rw [hload hl]
        exact hused hmod
      next hold =>
        cases h
        have hkeep : { g with streamPos := position, bufPos := position % g.bufLen } =
            f.at' position (position % g.bufLen) := by
          rw [← hat]
          congr
          exact Bool.eq_false_iff.2 hold
        rw [hkeep, hlen]
        exact hused hmod

/-- A file that `ext2_open` returns is a fresh one, and its list ends with its page. -/
theorem fresh_of_open {dev : BlockDev} {iBlock : Nat → Nat} {fileSize page buffer : Nat}
    {r₀ : Ram} (h0 : 0 < dev.size) (hs : dev.size ≤ 512) (hpage : page + 4096 ≤ 2 ^ 32)
    (hbuffer : buffer + 4096 < 2 ^ 32)
    (hopen : ext2OpenFile dev 0 iBlock fileSize page buffer r₀ = some (f, r)) :
    f.Fresh ∧ ∀ i, 1024 ≤ i → f.blockList i = none := by
  have hn : ext2BlockCount fileSize 1024 ≤ 1036 := by
    by_contra hn
    rw [ext2OpenFile, show Word32.wrap (1024 <<< 0) = 1024 from rfl, ext2OpenBlockList,
      if_neg hn] at hopen
    cases hopen
  have hcount : 12 < ext2BlockCount fileSize 1024 ↔ 12 * 1024 < fileSize := by
    rw [ext2BlockCount]; split <;> omega
  obtain ⟨r', hblocks, -⟩ := @ext2OpenBlockList_spec dev iBlock page r₀ h0 hs hpage fileSize hn
  rw [ext2OpenFile, show Word32.wrap (1024 <<< 0) = 1024 from rfl, hblocks] at hopen
  cases hopen
  refine ⟨⟨⟨⟨h0, hs⟩, rfl, rfl, hbuffer⟩, ?_, fun hnull i hi => ?_, fun hlist i hi => ?_, rfl, rfl,
    rfl⟩, fun i hi => if_neg (by omega)⟩
  · rw [ext2BlockCount] at hn
    dsimp only
    split at hn <;> omega
  · dsimp only at hnull ⊢
    rw [if_pos hi, if_neg (by omega)]
    rfl
  · dsimp only at hlist ⊢
    rw [if_pos hi, if_pos (hcount.2 hlist)]
    rfl

end Ext2File

section
variable {dev : BlockDev} {iBlock : Nat → Nat} {fileSize page buffer : Nat} {r₀ r : Ram}
  {f : Ext2File} {s : Ext2File × Ram} {op : FileOp}

theorem Ext2File.Used.call (hf : f.Fresh) (hs : f.Used s.1) (hop : op.Inside s)
    {s' : Ext2File × Ram} (h : op.call s = some s') : f.Used s'.1 := by
  cases op with
  | read buf size u =>
    obtain ⟨n, g, r', u', hread, hg⟩ := @Ext2File.read_isSome f s.2 u hf _ hs buf size hop
    rw [FileOp.call, hread] at h
    cases h
    exact hg
  | seek position =>
    obtain ⟨⟨n, g, r'⟩, hseek, rfl⟩ := Option.map_eq_some_iff.1 h
    exact hs.seek hf.bufLen hseek

/-- In every run of calls that meet the condition, every call comes back: each block number that
is looked up is one of the inode, or of the list and there is a list. -/
theorem lookups_inside (h0 : 0 < dev.size) (hs : dev.size ≤ 512) (hpage : page + 4096 ≤ 2 ^ 32)
    (hbuffer : buffer + 4096 < 2 ^ 32)
    (hopen : ext2OpenFile dev 0 iBlock fileSize page buffer r₀ = some (f, r))
    (hrun : Reach (openFile f) (fun s op => op.Inside s) s) (hop : op.Inside s) :
    (op.call s).isSome := by
  obtain ⟨hf, hlist⟩ := Ext2File.fresh_of_open h0 hs hpage hbuffer hopen
  have hused : f.Used s.1 := Reach.invariant (M := openFile f) (I := fun s => f.Used s.1)
    (fun h => .inl h) (fun hs hop h => hs.call hf hop h) hrun
  cases op with
  | read buf size u =>
    obtain ⟨n, g, r', u', hread, -⟩ := @Ext2File.read_isSome f s.2 u hf _ hused buf size hop
    rw [FileOp.call, hread]
    rfl
  | seek position =>
    rw [FileOp.call, Option.isSome_map]
    exact (Ext2File.seek_isSome_iff hf hlist hused).2 hop

/-- A disk of zeros. -/
def zeroDisk : BlockDev := ⟨512, fun _ _ => 0⟩

/-- A seek to the end of a file of 13 blocks, which has a list. -/
theorem lookups_inside_thirteen : ∃ f r,
    ext2OpenFile zeroDisk 0 id (13 * 1024) 4096 8192 zeroRam = some (f, r) ∧
      ((FileOp.seek (13 * 1024)).call (f, r)).isSome := by
  obtain ⟨f, r, hopen, -, -⟩ := @ext2OpenFile_lookup zeroDisk id 4096 zeroRam (by decide)
    (by decide) (by decide) (13 * 1024) 8192 (by decide)
  have hsize : f.fileSize = 13 * 1024 := by
    cases hopen
    rfl
  refine ⟨f, r, hopen, ?_⟩
  exact lookups_inside (by decide) (by decide) (by decide) (by decide) hopen (.init rfl)
    fun h => by rw [hsize] at h; exact absurd h.2.2 (by decide)

/-- A seek to the end of a file of 12 blocks, all of them direct: the load that follows takes block
numbers from a list that is not there. -/
theorem seek_past_direct_blocks : ∃ f r,
    ext2OpenFile zeroDisk 0 id (12 * 1024) 4096 8192 zeroRam = some (f, r) ∧
      Reach (openFile f) anyStep (f, r) ∧ (FileOp.seek (12 * 1024)).call (f, r) = none := by
  obtain ⟨f, r, hopen, -, -⟩ := @ext2OpenFile_lookup zeroDisk id 4096 zeroRam (by decide)
    (by decide) (by decide) (12 * 1024) 8192 (by decide)
  obtain ⟨hsize, hpos⟩ : f.fileSize = 12 * 1024 ∧ f.streamPos = 0 := by
    cases hopen
    exact ⟨rfl, rfl⟩
  refine ⟨f, r, hopen, .init rfl, ?_⟩
  obtain ⟨hf, hlist⟩ := Ext2File.fresh_of_open (by decide) (by decide) (by decide) (by decide) hopen
  rw [← Option.not_isSome_iff_eq_none, FileOp.call, Option.isSome_map,
    Ext2File.seek_isSome_iff hf hlist (.inl rfl), FileOp.Inside, not_not, hsize, hpos]
  decide

end

end SpuriOS
