import SpuriOS.Device.Opens
import SpuriOS.Device.Reads
import SpuriOS.Ext2.Listing

/-! # The disk under the opens

`open` is over a disk of which only the answers are known. Here the answers are those that the
functions of `ext2.c` give, on the file system as it is in memory: looking a path up and loading a
file come to the same on both. -/

namespace SpuriOS

open Relation (ReflTransGen)

/-- `EXT2_S_IFDIR`. -/
def ext2SIfdir : Nat := 0x4000

/-- `mi_inodo.i_mode`. -/
def iMode (bufs : Ext2Buffers) (r : Ram) : Nat := Memory.le r.mem bufs.miInodo 2

/-- The test of `ext2_open` for a directory. -/
def isDirectory (bufs : Ext2Buffers) (r : Ram) : Bool := iMode bufs r &&& ext2SIfdir ≠ 0

/-- What the functions of `ext2.c` find. -/
def Disk.ofExt2 (fs : Ext2) (bufs : Ext2Buffers) (buffer : Nat) (r : Ram) : Disk where
  mounts := (ext2FinallyCreate fs bufs.sbPage r).isSome
  inode inode := (inodeStartingByte fs inode r).map fun _ =>
    let r := readInode fs bufs inode r
    (iSize bufs r, isDirectory bufs r)
  search inode name := do
    let r ← dirLoad fs bufs (fs.blockSize r) (readInode fs bufs inode r)
    dirScan (tmpBytes bufs r) (iSize bufs r) name.byte name.length
  blockSize := fs.blockSize r
  lists inode := (readDir fs bufs buffer (readInode fs bufs inode r)).isSome

/-- A file system that `ext2_finally_create` has loaded. -/
structure Ext2.Ready (fs : Ext2) (bufs : Ext2Buffers) : Prop where
  loaded : fs.loaded = true
  devSize : fs.dev.size = 512
  sb : fs.sb = bufs.sbPage
  bgdt : fs.bgdt = bufs.sbPage + 1024

/-- The page with the superblock is the same. -/
def SamePage (bufs : Ext2Buffers) (r r' : Ram) : Prop :=
  ∀ i < pageSize, r'.mem (bufs.sbPage + i) = r.mem (bufs.sbPage + i)

/-- The group of an inode has its descriptor in that page. -/
def Ext2.InPage (fs : Ext2) (inode : Nat) (r : Ram) : Prop :=
  Word32.sub inode 1 / fs.inodesPerGroup r < 96

section
variable {fs fs' : Ext2} {bufs : Ext2Buffers} {buffer inode size : Nat} {r r' : Ram}
  {name filename : PathString} {str : Nat → Byte}

theorem SamePage.refl : SamePage bufs r r := fun _ _ => rfl

theorem SamePage.trans {r₁ : Ram} (h : SamePage bufs r r₁) (h' : SamePage bufs r₁ r') :
    SamePage bufs r r' := fun i hi => (h' i hi).trans (h i hi)

theorem ext2Load_ready (hdev : fs.dev.size = 512) (hf : fs.loaded = true → fs.Ready bufs)
    (h : ext2Load fs bufs r = some (fs', r')) : fs'.Ready bufs := by
  rw [ext2Load] at h
  split at h
  next hl =>
    cases h
    exact hf hl
  next =>
    simp only [ext2FinallyCreate] at h
    split at h
    · cases h
    · split at h
      · cases h
      · cases h
        exact ⟨rfl, hdev, rfl, rfl⟩

/-! ## What the page tells -/

theorem SamePage.le (h : SamePage bufs r r') (hf : fs.Ready bufs) {off n : Nat}
    (hoff : off + n ≤ pageSize) :
    Memory.le r'.mem (fs.sb + off) n = Memory.le r.mem (fs.sb + off) n :=
  Memory.le_congr fun i hi => by rw [hf.sb, Nat.add_assoc, h _ (by omega)]

theorem SamePage.blockSize (h : SamePage bufs r r') (hf : fs.Ready bufs) :
    fs.blockSize r' = fs.blockSize r := by
  rw [Ext2.blockSize, Ext2.blockSize, h.le hf (by decide)]

theorem SamePage.inodesPerGroup (h : SamePage bufs r r') (hf : fs.Ready bufs) :
    fs.inodesPerGroup r' = fs.inodesPerGroup r := h.le hf (by decide)

theorem SamePage.inodeStartingByte (h : SamePage bufs r r') (hf : fs.Ready bufs)
    (hpage : fs.InPage inode r) : inodeStartingByte fs inode r' = inodeStartingByte fs inode r := by
  have hlt := bufs.sbPage_lt
  rw [Ext2.InPage] at hpage
  rw [pageSize_eq] at hlt
  have htable : fs.inodeTable (Word32.sub inode 1 / fs.inodesPerGroup r) r' =
      fs.inodeTable (Word32.sub inode 1 / fs.inodesPerGroup r) r := by
    generalize Word32.sub inode 1 / fs.inodesPerGroup r = group at hpage
    have hmul : Word32.mul group 32 = 32 * group := by
      rw [Word32.mul, Word32.wrap_of_lt (by omega), Nat.mul_comm]
    rw [Ext2.inodeTable, Ext2.inodeTable, hf.bgdt, hmul, Word32.add_of_lt (by omega)]
    refine Memory.le_congr fun i hi => ?_
    have hi := h (1024 + 32 * group + 8 + i) (by rw [pageSize_eq]; omega)
    rwa [← Nat.add_assoc, ← Nat.add_assoc, ← Nat.add_assoc] at hi
  rw [SpuriOS.inodeStartingByte, SpuriOS.inodeStartingByte, h.inodesPerGroup hf, h.blockSize hf]
  dsimp only
  rw [htable]

theorem inodeStartingByte_lt {start : Nat} (h : inodeStartingByte fs inode r = some start) :
    start < 2 ^ 32 := by
  rw [inodeStartingByte] at h
  split at h
  · cases h
  · exact Option.some.inj h ▸ Word32.wrap_lt _

theorem readInode_mem (hf : fs.Ready bufs) : (readInode fs bufs inode r).mem =
    Memory.write r.mem bufs.miInodo 128 fun i =>
      fs.dev.byte ((inodeStartingByte fs inode r).getD 0 + i) := by
  have hlt := bufs.miInodo_lt
  have hdev := hf.devSize
  have hstart : (inodeStartingByte fs inode r).getD 0 < 2 ^ 32 := by
    cases hs : inodeStartingByte fs inode r with
    | none => exact Nat.two_pow_pos 32
    | some start => exact inodeStartingByte_lt hs
  have hmod := Nat.mod_lt ((inodeStartingByte fs inode r).getD 0) (show 0 < fs.dev.size by omega)
  exact hddEnhancedRead_mem (by omega) (by omega) (by omega) (by omega) (by omega)

/-- The inode of a group in the page is read as it is on the disk. -/
theorem SamePage.readInode (h : SamePage bufs r r') (hf : fs.Ready bufs)
    (hpage : fs.InPage inode r) {i : Nat} (hi : i < 128) :
    (readInode fs bufs inode r').mem (bufs.miInodo + i) =
      (readInode fs bufs inode r).mem (bufs.miInodo + i) := by
  rw [readInode_mem hf, readInode_mem hf, Memory.write_add hi, Memory.write_add hi,
    h.inodeStartingByte hf hpage]

theorem SamePage.iSize (h : SamePage bufs r r') (hf : fs.Ready bufs) (hpage : fs.InPage inode r) :
    iSize bufs (SpuriOS.readInode fs bufs inode r') =
      iSize bufs (SpuriOS.readInode fs bufs inode r) :=
  Memory.le_congr fun i hi => by rw [Nat.add_assoc, h.readInode hf hpage (by omega)]

theorem samePage_readInode (hf : fs.Ready bufs) : SamePage bufs r (readInode fs bufs inode r) := by
  have hapart := bufs.sbPage_miInodo
  intro i hi
  rw [readInode_mem hf, Memory.write_of_not (by omega)]

/-! ## A name -/

theorem strncmp_congr {p : Nat → Option Byte} {q q' : Nat → Byte} {i n : Nat}
    (h : ∀ j, i ≤ j → j < i + n → q j = q' j) : strncmp p q i n = strncmp p q' i n := by
  induction n generalizing i with
  | zero => rfl
  | succ n ih =>
    rw [strncmp, strncmp, ih fun j hlo hhi => h j (by omega) (by omega),
      h i (Nat.le_refl i) (by omega)]

/-- The search compares as many bytes as the name has. -/
theorem dirScan_name {e : Nat → Byte} (h : ∀ i < name.length, str i = name.byte i) :
    dirScan e size str name.length = dirScan e size name.byte name.length := by
  have hround : dirScanRound e size str name.length = dirScanRound e size name.byte name.length := by
    funext off
    rw [dirScanRound, dirScanRound, entryCompare, entryCompare,
      strncmp_congr fun j _ hj => h j (by omega)]
  rw [dirScan, dirScan, hround]

namespace Disk

/-- What the search of a directory finds, by the bytes on the disk. -/
theorem ofExt2_search (hf : fs.Ready bufs)
    (hsize : iSize bufs (readInode fs bufs inode r) ≤ pageSize) :
    (ofExt2 fs bufs buffer r).search inode name =
      if iSize bufs (readInode fs bufs inode r) ≠ 0 ∧ fs.blockSize r = 0 then none
      else dirScan (inodeByte fs.dev bufs (fs.blockSize r) (readInode fs bufs inode r))
        (iSize bufs (readInode fs bufs inode r)) name.byte name.length := by
  have hbs := blockSize_cases fs r
  rw [ofExt2]
  dsimp only
  split
  next h =>
    rw [h.2, dirLoad_none h.1]
    rfl
  next h =>
    obtain ⟨r', hr', hsame, hbytes, -⟩ := @dirLoad_spec bufs (fs.blockSize r)
      (readInode fs bufs inode r) fs hf.devSize (by omega) hsize
    rw [hr', Option.bind_eq_bind, Option.bind_some, hsame, dirScan_congr hbytes]

/-- `str_get_inode` finds what the disk answers, if it gets a page. -/
theorem ofExt2_lookup (hf : fs.Ready bufs) (hstr : ∀ i < name.length, str i = name.byte i) :
    (strGetInode fs bufs str name.length inode r).map (·.1) =
      ((ofExt2 fs bufs buffer r).lookup true name inode ()).map (·.1) := by
  rw [lookup, ofExt2]
  dsimp only
  by_cases hipg : fs.inodesPerGroup r = 0
  · rw [strGetInode_none hf.loaded (.inl hipg), inodeStartingByte, if_pos hipg]
    rfl
  obtain ⟨start, hstart⟩ : ∃ start, inodeStartingByte fs inode r = some start :=
    ⟨_, if_neg hipg⟩
  rw [hstart, Option.map_some, Option.bind_eq_bind, Option.bind_some]
  dsimp only
  by_cases hsize : iSize bufs (readInode fs bufs inode r) ≤ pageSize
  · rw [strGetInode_eq hf.loaded hipg hsize, if_pos ⟨hsize, .inl rfl⟩]
    cases dirLoad fs bufs (fs.blockSize r) (readInode fs bufs inode r) with
    | none => rfl
    | some r' =>
      simp only [Option.bind_eq_bind, Option.bind_some, dirScan_name hstr]
      cases dirScan (tmpBytes bufs r') (iSize bufs r') name.byte name.length <;> rfl
  · rw [if_neg fun h => hsize h.1, strGetInode_none hf.loaded (.inr (Nat.not_le.1 hsize))]
    rfl

/-- The disk answers the same as long as the page with the superblock is the same. -/
theorem ofExt2_lookup_congr (hf : fs.Ready bufs) (h : SamePage bufs r r')
    (hpage : fs.InPage inode r) :
    (ofExt2 fs bufs buffer r').lookup true name inode () =
      (ofExt2 fs bufs buffer r).lookup true name inode () := by
  have hinode : ∀ r, (ofExt2 fs bufs buffer r).inode inode =
      (inodeStartingByte fs inode r).map fun _ => (iSize bufs (readInode fs bufs inode r),
        isDirectory bufs (readInode fs bufs inode r)) := fun _ => rfl
  have hbytes : ∀ i < pageSize, fs.blockSize r ≠ 0 →
      inodeByte fs.dev bufs (fs.blockSize r) (readInode fs bufs inode r') i =
        inodeByte fs.dev bufs (fs.blockSize r) (readInode fs bufs inode r) i := fun i hi hbs =>
    inodeByte_congr ((blockSize_cases fs r).resolve_left hbs) hi fun i hi =>
      h.readInode hf hpage hi
  rw [lookup, lookup, hinode, hinode, h.inodeStartingByte hf hpage]
  cases inodeStartingByte fs inode r with
  | none => simp only [Option.map_none, Option.bind_eq_bind, Option.bind_none]
  | some start =>
    simp only [Option.map_some, Option.bind_eq_bind, Option.bind_some, h.iSize hf hpage]
    split
    next hsize =>
      rw [ofExt2_search hf (by rw [h.iSize hf hpage]; exact hsize.1),
        ofExt2_search hf hsize.1, h.blockSize hf, h.iSize hf hpage]
      split
      · rfl
      next hbs =>
        rw [dirScan_congr fun i hi =>
          hbytes i (by omega) fun h0 => hbs ⟨by omega, h0⟩]
    · rfl

end Disk

/-- Looking a name up leaves the page with the superblock. -/
theorem strGetInode_samePage {strLen n : Nat} (hf : fs.Ready bufs)
    (h : strGetInode fs bufs str strLen inode r = some (n, fs', r')) :
    fs' = fs ∧ SamePage bufs r r' := by
  refine ⟨strGetInode_loaded hf.loaded h, ?_⟩
  have hapart := bufs.sbPage_tmpPage
  have hsome : (strGetInode fs bufs str strLen inode r).isSome := by rw [h]; rfl
  by_cases hipg : fs.inodesPerGroup r = 0
  · rw [strGetInode_none hf.loaded (.inl hipg)] at h
    cases h
  by_cases hsize : iSize bufs (readInode fs bufs inode r) ≤ pageSize
  · have hok := (strGetInode_isSome_iff hf.devSize hf.loaded hsize).1 hsome
    have hbs := blockSize_cases fs r
    obtain ⟨r₁, hr₁, -, -, houtside⟩ := @dirLoad_spec bufs (fs.blockSize r)
      (readInode fs bufs inode r) fs hf.devSize (fun h0 => hbs.resolve_left (hok.blockSize h0))
      hsize
    rw [strGetInode_eq hf.loaded hipg hsize, hr₁, Option.bind_some, Option.bind_eq_some_iff] at h
    obtain ⟨x, -, h⟩ := h
    cases h
    exact (samePage_readInode hf).trans fun i hi => houtside _ (by omega)
  · rw [strGetInode_none hf.loaded (.inr (Nat.not_le.1 hsize))] at h
    cases h

/-! ## A path -/

/-- The name at a place of the path. -/
def component (filename : PathString) (iFrom : Nat) : PathString :=
  let iTo := filename.charPos slash iFrom
  (filename.drop iFrom).take (if iTo ≠ 0 then iTo - iFrom - 1 else filename.length - iFrom)

theorem component_byte {iFrom i : Nat} (hi : i < (component filename iFrom).length) :
    componentByte filename iFrom i = (component filename iFrom).byte i := by
  rw [component, List.length_take] at hi
  rw [componentByte, component, PathString.byte, PathString.byte, List.getD_eq_getElem?_getD,
    List.getD_eq_getElem?_getD, List.getElem?_take_of_lt (by omega), List.getElem?_drop]

theorem component_length {iFrom : Nat} (hfrom : iFrom ≤ filename.length)
    (hlen : filename.length < 2 ^ 32) :
    componentLen filename iFrom = (component filename iFrom).length := by
  rw [componentLen, component, List.length_take, List.length_drop]
  split
  next hto =>
    have hbounds := charPos_bounds hto
    have hsub : Word32.sub (filename.charPos slash iFrom) iFrom =
        filename.charPos slash iFrom - iFrom := Word32.sub_of_le (by omega) (by omega)
    rw [hsub, Word32.sub_of_le (by omega) (by omega)]
    omega
  next => rw [Word32.sub_of_le hfrom hlen, Nat.min_self]

theorem pathRound_eq {σ : Type} {look : PathString → Nat → σ → Option (Nat × σ)} {iFrom last : Nat}
    {x : σ} : pathRound look filename filename.length (iFrom, last, x) =
      (look (component filename iFrom) last x).map fun y =>
        if filename.charPos slash iFrom ≠ 0 ∧ y.1 ≠ 0 then
          .again (filename.charPos slash iFrom, y.1, y.2)
        else .done y := by
  rw [pathRound, component]
  by_cases hto : filename.charPos slash iFrom ≠ 0
  · rw [if_pos hto, if_pos hto]
    refine congrArg (Option.map · _) (funext fun y => ?_)
    obtain ⟨n, x'⟩ := y
    dsimp only
    by_cases hn : n = 0
    · rw [if_pos hn, if_neg fun h => h.2 hn, hn]
    · rw [if_neg hn, if_pos ⟨hto, hn⟩]
  · rw [if_neg hto, if_neg hto]
    exact congrArg (Option.map · _) (funext fun y => (if_neg fun h => hto h.1).symm)

theorem getFileInodeRound_eq {s : PathState} :
    getFileInodeRound bufs filename filename.length s =
      (strGetInode s.fs bufs (componentByte filename s.iFrom) (componentLen filename s.iFrom)
        s.lastFoundInode s.ram).map fun x =>
          if filename.charPos slash s.iFrom ≠ 0 ∧ x.1 ≠ 0 then
            .again ⟨filename.charPos slash s.iFrom, x.1, x.2.1, x.2.2⟩
          else .done x := by
  have hbyte : (fun i => filename.byte (s.iFrom + i)) = componentByte filename s.iFrom := rfl
  rw [getFileInodeRound, componentLen, hbyte]
  dsimp only
  by_cases hto : filename.charPos slash s.iFrom ≠ 0
  · rw [if_pos hto, if_pos hto, Option.map_eq_bind]
    refine congrArg (Option.bind _) (funext fun x => ?_)
    by_cases hx : x.1 = 0
    · simp only [hx, if_true, ne_eq, not_true_eq_false, and_false, if_false, Function.comp_apply]
      rw [← hx]
    · simp only [hx, if_false, ne_eq, hto, not_false_eq_true, and_self, if_true,
        Function.comp_apply]
  · rw [if_neg hto, if_neg hto, Option.map_eq_bind]
    refine congrArg (Option.bind _) (funext fun x => ?_)
    simp only [hto, false_and, if_false, Function.comp_apply]
    rfl

/-- One place after another, the loop of `get_file_inode` finds what the disk answers. -/
theorem getFileInodeLoop_resolve (hf : fs'.Ready bufs) (hlen : filename.length < 2 ^ 32)
    (hgroups : ∀ s, LooksUp fs bufs filename r s → fs'.InPage s.lastFoundInode r') {fuel : Nat}
    {s : PathState} (hs : LooksUp fs bufs filename r s) (hfs : s.fs = fs')
    (hsame : SamePage bufs r' s.ram) (hfrom : s.iFrom ≤ filename.length) :
    (Loop.run (getFileInodeRound bufs filename filename.length) fuel s).map (·.1) =
      (Loop.run (pathRound ((Disk.ofExt2 fs' bufs buffer r').lookup true) filename
        filename.length) fuel (s.iFrom, s.lastFoundInode, ())).map (·.1) := by
  induction fuel generalizing s with
  | zero => rfl
  | succ fuel ih =>
    obtain ⟨iFrom, last, fs₁, r₁⟩ := s
    obtain rfl : fs₁ = fs' := hfs
    have hlook := @Disk.ofExt2_lookup fs₁ bufs buffer last r₁ _ (componentByte filename iFrom) hf
      fun i hi => @component_byte filename iFrom i hi
    rw [Disk.ofExt2_lookup_congr hf hsame (hgroups _ hs), ← component_length hfrom hlen] at hlook
    have hround := @getFileInodeRound_eq bufs filename ⟨iFrom, last, fs₁, r₁⟩
    rw [Loop.run, Loop.run, pathRound_eq]
    cases hget : strGetInode fs₁ bufs (componentByte filename iFrom)
      (componentLen filename iFrom) last r₁ with
    | none =>
      rw [hget, Option.map_none, eq_comm, Option.map_eq_none_iff] at hlook
      rw [hround, hget, hlook]
      rfl
    | some x =>
      obtain ⟨n, fs₂, r₂⟩ := x
      rw [hget, Option.map_some, eq_comm, Option.map_eq_some_iff] at hlook
      obtain ⟨⟨n', ⟨⟩⟩, hlook, hn⟩ := hlook
      obtain rfl : n' = n := hn
      rw [hget, Option.map_some] at hround
      rw [hround, hlook]
      dsimp only [Option.map_some]
      by_cases hgo : filename.charPos slash iFrom ≠ 0 ∧ n' ≠ 0
      · rw [if_pos hgo] at hround ⊢
        rw [if_pos hgo]
        obtain ⟨hfs₂, hsame₂⟩ := strGetInode_samePage hf hget
        obtain ⟨fs₀, r₀, hload₀, hne, hreach⟩ := hs
        exact ih ⟨fs₀, r₀, hload₀, hne, hreach.tail hround⟩ hfs₂ (hsame.trans hsame₂)
          (charPos_bounds hgo.1).2
      · rw [if_neg hgo, if_neg hgo]
        rfl

/-- A path comes to the inode that the disk answers, if there is a page for each lookup. -/
theorem getFileInode_resolve (hload : ext2Load fs bufs r = some (fs', r')) (hf : fs'.Ready bufs)
    (hlen : filename.length < 2 ^ 32)
    (hgroups : ∀ s, LooksUp fs bufs filename r s → fs'.InPage s.lastFoundInode r') :
    (getFileInode fs bufs filename filename.length r).map (·.1) =
      (Disk.ofExt2 fs' bufs buffer r').resolve true filename := by
  rw [getFileInode, hload, Disk.resolve, walkPath, Option.bind_eq_bind, Option.bind_some]
  dsimp only
  split
  next =>
    split
    next => rfl
    next hne =>
      refine getFileInodeLoop_resolve hf hlen hgroups ⟨fs', r', hload, hne, .refl⟩ rfl .refl ?_
      by_cases h0 : filename.charPos slash 0 = 0
      · exact h0.trans_le (Nat.zero_le _)
      · exact (charPos_bounds h0).2
  next => rfl

/-- So does `open`, when a frame of the kernel is free. -/
theorem OpenSystem.getFileInode_ofExt2 {s : OpenSystem} (h : kernelBytes ≤ s.bitmap.byteLen)
    (hfree : s.bitmap.kernelFree.Nonempty) (hdev : fs.dev.size = 512)
    (hf : fs.loaded = true → fs.Ready bufs) (hload : ext2Load fs bufs r = some (fs', r'))
    (hlen : filename.length < 2 ^ 32)
    (hgroups : ∀ s, LooksUp fs bufs filename r s → fs'.InPage s.lastFoundInode r') :
    (s.getFileInode (Disk.ofExt2 fs' bufs buffer r') filename).map (·.1) =
      (SpuriOS.getFileInode fs bufs filename filename.length r).map (·.1) := by
  obtain ⟨s', -, heq⟩ := getFileInode_spec h (iff_of_true rfl hfree)
  rw [getFileInode_resolve hload (ext2Load_ready hdev hf hload) hlen hgroups, heq, Option.map_map]
  exact Option.map_id'

/-! ## The file system and a file -/

/-- The file system can be loaded just if it has a superblock. -/
theorem mounts_ofExt2 (hdev : fs.dev.size = 512) :
    (Disk.ofExt2 fs bufs buffer r).mounts = true ↔ fs.dev.SuperblockOk := by
  have hload : ext2Load { fs with loaded := false } bufs r = ext2FinallyCreate fs bufs.sbPage r :=
    rfl
  have hiff := @ext2Load_isSome_iff { fs with loaded := false } bufs r hdev
  rw [hload] at hiff
  exact hiff.trans (or_iff_right Bool.false_ne_true)

theorem blockCount_ofExt2 : OpenSystem.blockCount (Disk.ofExt2 fs bufs buffer r) size =
    if fs.blockSize r = 0 then none else some (ext2BlockCount size (fs.blockSize r)) := by
  have hbs : (Disk.ofExt2 fs bufs buffer r).blockSize = fs.blockSize r := rfl
  rw [OpenSystem.blockCount, ext2BlockCount, hbs]
  by_cases h0 : fs.blockSize r = 0
  · rw [if_pos h0, if_pos h0]
  · rw [if_neg h0, if_neg h0]
    split <;> rfl

/-- A regular file can be loaded just if `ext2_open` makes an open file of it. -/
theorem loads_iff_opened {k page buf n : Nat} {iBlk : Nat → Nat} (hf : fs.Ready bufs) (hk : k ≤ 6)
    (hbs : fs.blockSize r = Word32.wrap (1024 <<< k)) (hbuf : buf + pageSize < 2 ^ 32) (hn : 0 < n)
    (hinode : (Disk.ofExt2 fs bufs buffer r).inode inode = some (size, false)) :
    (Disk.ofExt2 fs bufs buffer r).Loads inode n ↔
      ∃ f r', ext2OpenFile fs.dev k iBlk size page buf r = some (f, r') ∧ f.Opened := by
  have hpos : Word32.wrap (1024 <<< k) ≠ 0 := by
    interval_cases k <;> decide
  have hcount := @blockCount_ofExt2 fs bufs buffer size r
  rw [hbs, if_neg hpos] at hcount
  rw [Disk.loads_iff hinode hcount]
  constructor
  · rintro ⟨hle, -, -⟩
    obtain ⟨f, r', hopen⟩ : ∃ f r', ext2OpenFile fs.dev k iBlk size page buf r = some (f, r') := by
      rw [ext2OpenFile, ext2OpenBlockList]
      dsimp only
      rw [if_pos hle]
      exact ⟨_, _, rfl⟩
    exact ⟨f, r', hopen, (Ext2File.opened_of_open hf.devSize hk hbuf hopen).1⟩
  · rintro ⟨f, r', hopen, -⟩
    rw [ext2OpenFile, Option.bind_eq_bind, Option.bind_eq_some_iff] at hopen
    obtain ⟨⟨list, r₁⟩, hblocks, -⟩ := hopen
    exact ⟨(Ext2File.blockList_of_open hblocks).1, fun _ => hn, fun h => absurd h (by decide)⟩

end

end SpuriOS
