import SpuriOS.Ext2.Directory

/-! # When looking a path up comes to an end

The search of a directory trusts the lengths in the entries. It ends inside the bytes that were
loaded just if every entry it comes to does its part. -/

namespace SpuriOS

open Relation (ReflTransGen)

/-- The offsets the search of a directory of `size` bytes for a name comes to. -/
inductive EntryAt (e : Nat → Byte) (size : Nat) (str : Nat → Byte) (strLen : Nat) : Nat → Prop
  | first : EntryAt e size str strLen 0
  | next {off d} : EntryAt e size str strLen off → off + 6 < size →
    entryCompare e size str strLen off = some d → d ≠ 0 →
    EntryAt e size str strLen (off + entryRecLen e off)

/-- What is asked of the entry at an offset: its fields and as much of its name as is compared are
among the bytes of the directory, and it is the one that is looked for or has a length. -/
structure EntryOk (e : Nat → Byte) (size : Nat) (str : Nat → Byte) (strLen off : Nat) : Prop where
  fields : off + 6 < size
  name : (entryCompare e size str strLen off).isSome
  recLen : entryCompare e size str strLen off = some 0 ∨ entryRecLen e off ≠ 0

/-- Every entry that the search comes to is in order. -/
def EntriesOk (e : Nat → Byte) (size : Nat) (str : Nat → Byte) (strLen : Nat) : Prop :=
  ∀ off, EntryAt e size str strLen off → off < size → EntryOk e size str strLen off

section
variable {e : Nat → Byte} {size : Nat} {str : Nat → Byte} {strLen off t : Nat}

theorem entryRecLen_lt : entryRecLen e off < 2 ^ 16 := Memory.le_lt

theorem dirScanRound_again (hsize : size ≤ pageSize) :
    dirScanRound e size str strLen off = some (.again t) ↔ off + 6 < size ∧
      (∃ d, entryCompare e size str strLen off = some d ∧ d ≠ 0) ∧
      t = off + entryRecLen e off := by
  have hps := pageSize_eq
  have hrec := @entryRecLen_lt e off
  rw [dirScanRound]
  split
  next hin =>
    rw [Word32.add_of_lt (by omega)]
    split
    next hfields =>
      cases hc : entryCompare e size str strLen off with
      | none => simp
      | some d =>
        simp only [Option.bind_eq_bind, Option.bind_some, Option.some.injEq]
        by_cases hd : d = 0
        · simp [hd]
        · simp [hd, hfields, eq_comm]
    next hfields => simp [hfields]
  next hin =>
    simp only [Option.some.injEq, reduceCtorEq, false_iff]
    omega

theorem dirScanRound_isSome : (dirScanRound e size str strLen off).isSome ↔
    (off < size → off + 6 < size ∧ (entryCompare e size str strLen off).isSome) := by
  rw [dirScanRound]
  split
  next hin =>
    split
    next hfields =>
      cases entryCompare e size str strLen off with
      | none => simp [hin]
      | some d =>
        simp only [Option.bind_eq_bind, Option.bind_some, Option.isSome_some, hfields, and_self,
          implies_true, iff_true]
        split <;> rfl
    next hfields => simp [hin, hfields]
  next hin => simp [hin]

theorem entryAt_iff (hsize : size ≤ pageSize) : EntryAt e size str strLen off ↔
    ReflTransGen (Loop.Next (dirScanRound e size str strLen)) 0 off := by
  constructor
  · intro h
    induction h with
    | first => exact .refl
    | next _ hfields hc hd ih =>
      exact ih.tail ((dirScanRound_again hsize).2 ⟨hfields, ⟨_, hc, hd⟩, rfl⟩)
  · intro h
    induction h with
    | refl => exact .first
    | tail _ hnext ih =>
      obtain ⟨hfields, ⟨d, hc, hd⟩, rfl⟩ := (dirScanRound_again hsize).1 hnext
      exact .next ih hfields hc hd

/-- The search of a directory comes to its end inside the bytes of the directory just if every
entry it comes to is in order. -/
theorem dirScan_isSome_iff (hsize : size ≤ pageSize) :
    (dirScan e size str strLen).isSome ↔ EntriesOk e size str strLen := by
  have hdecr : ∀ s t, dirScanRound e size str strLen s = some (.again t) → t ≠ s →
      size - t < size - s := by
    intro s t h hne
    obtain ⟨hfields, -, rfl⟩ := (dirScanRound_again hsize).1 h
    omega
  rw [dirScan, Loop.run_isSome_iff (fun off => size - off) hdecr (by omega)]
  refine forall_congr' fun off => ?_
  rw [← entryAt_iff hsize]
  refine imp_congr_right fun _ => ?_
  rw [dirScanRound_isSome, ne_eq, dirScanRound_again hsize]
  constructor
  · rintro ⟨hsome, hgo⟩ hin
    obtain ⟨hfields, hname⟩ := hsome hin
    obtain ⟨d, hd⟩ := Option.isSome_iff_exists.1 hname
    refine ⟨hfields, hname, ?_⟩
    by_contra hstuck
    push Not at hstuck
    exact hgo ⟨hfields, ⟨d, hd, fun h0 => hstuck.1 (h0 ▸ hd)⟩, by omega⟩
  · intro h
    refine ⟨fun hin => ⟨(h hin).fields, (h hin).name⟩, ?_⟩
    rintro ⟨hfields, ⟨d, hd, hne⟩, hrec⟩
    obtain hmatch | hlen := (h (by omega)).recLen
    · rw [hd] at hmatch
      exact hne (Option.some.inj hmatch)
    · omega

end

/-! ## Loading a directory -/

section
variable {dev : BlockDev} {bufs : Ext2Buffers} {bs : Nat} {r : Ram}

/-- The bytes of the inode in `mi_inodo`, block by block, as the code computes their places. -/
def inodeByte (dev : BlockDev) (bufs : Ext2Buffers) (bs : Nat) (r : Ram) (i : Nat) : Byte :=
  dev.byte (Word32.mul (iBlock bufs (i / bs) r) bs + i % bs)

theorem iBlock_congr {r' : Ram} {k : Nat} (hk : k ≤ 4)
    (h : ∀ i < 128, r'.mem (bufs.miInodo + i) = r.mem (bufs.miInodo + i)) :
    iBlock bufs k r' = iBlock bufs k r :=
  Memory.le_congr fun i hi => by
    rw [Nat.add_assoc, h _ (by omega)]

theorem dirLoadLoop_none {fuel b size ptr : Nat} (h : size ≠ 0) :
    dirLoadLoop dev bufs 0 fuel b size ptr r = none := by
  induction fuel generalizing b ptr r with
  | zero => rw [dirLoadLoop, if_neg h]
  | succ fuel ih => rw [dirLoadLoop, if_neg h]; exact ih

theorem inodeByte_congr {r' : Ram} {i : Nat} (hbs : 1024 ≤ bs) (hi : i < pageSize)
    (h : ∀ i < 128, r'.mem (bufs.miInodo + i) = r.mem (bufs.miInodo + i)) :
    inodeByte dev bufs bs r' i = inodeByte dev bufs bs r i := by
  have hk : i / bs ≤ 4 :=
    (Nat.div_le_div_left hbs (by decide)).trans (by rw [pageSize_eq] at hi; omega)
  rw [inodeByte, inodeByte, iBlock_congr hk h]

/-- What the loop loads, from block `b` of the inode on. -/
theorem dirLoadLoop_spec (hdev : dev.size = 512) (hbs : 1024 ≤ bs) {fuel b size ptr : Nat}
    (hfuel : size ≤ fuel) (hb : size ≠ 0 → b * bs + size ≤ pageSize)
    (hptr : bufs.tmpPage ≤ ptr) (hend : ptr + size ≤ bufs.tmpPage + pageSize) :
    ∃ r', dirLoadLoop dev bufs bs fuel b size ptr r = some r' ∧
      r'.mem = Memory.write r.mem ptr size fun i => inodeByte dev bufs bs r (b * bs + i) := by
  have hlt := bufs.tmpPage_lt
  have hapart := bufs.tmpPage_miInodo
  have hps := pageSize_eq
  induction fuel generalizing b size ptr r with
  | zero =>
    obtain rfl : size = 0 := by omega
    exact ⟨r, rfl, Memory.write_zero.symm⟩
  | succ fuel ih =>
    rw [dirLoadLoop]
    by_cases h0 : size = 0
    · subst h0
      exact ⟨r, rfl, Memory.write_zero.symm⟩
    rw [if_neg h0]
    have hb := hb h0
    generalize hn : (if size < bs then size else bs) = n
    have hn' : n ≤ size ∧ n ≤ bs ∧ 0 < n ∧ (size - n ≠ 0 → n = bs) := by
      rw [← hn]
      split <;> omega
    dsimp only
    have hstart : Word32.mul (iBlock bufs b r) bs < 2 ^ 32 := Word32.wrap_lt _
    have hspan := Nat.mod_lt (Word32.mul (iBlock bufs b r) bs) (show 0 < dev.size by omega)
    have hread := @hddEnhancedRead_mem dev (by omega) (by omega) (Word32.mul (iBlock bufs b r) bs)
      ptr n r (by omega) (by omega) (by omega)
    generalize hddEnhancedRead dev (Word32.mul (iBlock bufs b r) bs) ptr n r = r₁ at hread ⊢
    have hinode : ∀ i < 128, r₁.mem (bufs.miInodo + i) = r.mem (bufs.miInodo + i) := fun i hi => by
      rw [hread, Memory.write_of_not (by omega)]
    have hmul : (b + 1) * bs = b * bs + bs := Nat.succ_mul b bs
    obtain ⟨r', hr', hmem⟩ := @ih r₁ (b + 1) (size - n) (ptr + n) (by omega) (by omega) (by omega)
      (by omega)
    refine ⟨r', hr', ?_⟩
    rw [hmem, hread, Memory.write_append (h := fun i => inodeByte dev bufs bs r (b * bs + i))
      (fun i hi => ?_) (fun i hi => ?_), Nat.add_sub_cancel' hn'.1]
    · -- a byte of block `b`
      have hdiv : (b * bs + i) / bs = b := by
        rw [Nat.mul_comm, Nat.mul_add_div (by omega), Nat.div_eq_of_lt (by omega), Nat.add_zero]
      have hmod : (b * bs + i) % bs = i := by
        rw [Nat.mul_comm, Nat.mul_add_mod, Nat.mod_eq_of_lt (by omega)]
      rw [inodeByte, hdiv, hmod]
    · have hfull := hn'.2.2.2 (by omega)
      rw [inodeByte_congr hbs (by omega) hinode, hmul]
      congr 1
      omega

theorem blockSize_cases (fs : Ext2) (r : Ram) : fs.blockSize r = 0 ∨ 1024 ≤ fs.blockSize r := by
  have hshift : ∀ k < 32, Word32.wrap (1024 <<< k) = 0 ∨ 1024 ≤ Word32.wrap (1024 <<< k) := by
    decide
  exact hshift _ (Nat.mod_lt _ (by decide))

/-- A directory that fits in a page is loaded, and nothing outside the page changes. -/
theorem dirLoad_spec {fs : Ext2} (hdev : fs.dev.size = 512) (hbs : iSize bufs r ≠ 0 → 1024 ≤ bs)
    (hsize : iSize bufs r ≤ pageSize) :
    ∃ r', dirLoad fs bufs bs r = some r' ∧ iSize bufs r' = iSize bufs r ∧
      (∀ i < iSize bufs r, tmpBytes bufs r' i = inodeByte fs.dev bufs bs r i) ∧
      ∀ a, ¬(bufs.tmpPage ≤ a ∧ a < bufs.tmpPage + pageSize) → r'.mem a = r.mem a := by
  have hlt := bufs.tmpPage_lt
  have hapart := bufs.tmpPage_miInodo
  have hps := pageSize_eq
  have hkeep : ∀ {r'}, (∀ a, ¬(bufs.tmpPage ≤ a ∧ a < bufs.tmpPage + pageSize) →
      r'.mem a = r.mem a) → iSize bufs r' = iSize bufs r := fun h =>
    Memory.le_congr fun i hi => h _ (by omega)
  rw [dirLoad]
  generalize hn : iSize bufs r = n at hbs hsize hkeep ⊢
  generalize hr₀ : Ram.mk (Memory.write r.mem bufs.tmpPage n fun _ => 0) r.hddEnhancedBuffer = r₀
  have hmem₀ : r₀.mem = Memory.write r.mem bufs.tmpPage n fun _ => 0 := by rw [← hr₀]
  by_cases h0 : n = 0
  · subst h0
    have hsame : ∀ a, r₀.mem a = r.mem a := fun a => by rw [hmem₀, Memory.write_zero]
    exact ⟨r₀, rfl, hkeep fun a _ => hsame a, fun i hi => absurd hi (by omega), fun a _ => hsame a⟩
  · obtain ⟨r', hr', hmem⟩ := @dirLoadLoop_spec fs.dev bufs bs r₀ hdev (hbs h0) n 0 n bufs.tmpPage
      (by omega) (by omega) (by omega) (by omega)
    have houtside : ∀ a, ¬(bufs.tmpPage ≤ a ∧ a < bufs.tmpPage + pageSize) →
        r'.mem a = r.mem a := fun a ha => by
      rw [hmem, Memory.write_of_not (by omega), hmem₀, Memory.write_of_not (by omega)]
    refine ⟨r', hr', hkeep houtside, fun i hi => ?_, houtside⟩
    rw [tmpBytes, hmem, Memory.write_add hi, Nat.zero_mul, Nat.zero_add]
    exact inodeByte_congr (hbs h0) (by omega) fun i hi => by
      rw [hmem₀, Memory.write_of_not (by omega)]

theorem dirLoad_none {fs : Ext2} (h : iSize bufs r ≠ 0) : dirLoad fs bufs 0 r = none :=
  dirLoadLoop_none h

end

/-! ## Looking a name up -/

section
variable {e e' : Nat → Byte} {size : Nat} {str : Nat → Byte} {strLen : Nat}

/-- The search reads the bytes of the directory only. -/
theorem dirScan_congr (h : ∀ i < size, e i = e' i) :
    dirScan e size str strLen = dirScan e' size str strLen := by
  have hround : dirScanRound e size str strLen = dirScanRound e' size str strLen := by
    funext off
    rw [dirScanRound, dirScanRound]
    split
    next hin =>
      split
      next hfields =>
        have hname : entryName e size off = entryName e' size off := by
          funext i
          rw [entryName, entryName]
          split
          next hi => rw [h _ hi]
          next => rfl
        have hlen : entryNameLen e off = entryNameLen e' off := by
          rw [entryNameLen, entryNameLen, h _ hfields]
        have hinode : entryInode e off = entryInode e' off :=
          Memory.le_congr fun i hi => h _ (by omega)
        have hrec : entryRecLen e off = entryRecLen e' off :=
          Memory.le_congr fun i hi => h _ (by omega)
        rw [entryCompare, entryCompare, hname, hlen, hinode, hrec]
      next => rfl
    next => rfl
  rw [dirScan, dirScan, hround]

end

section
variable {fs : Ext2} {bufs : Ext2Buffers} {str : Nat → Byte} {strLen dirInode : Nat} {r : Ram}

/-- The memory after `str_get_inode` has read the inode. -/
def readInode (fs : Ext2) (bufs : Ext2Buffers) (dirInode : Nat) (r : Ram) : Ram :=
  hddEnhancedRead fs.dev ((inodeStartingByte fs dirInode r).getD 0) bufs.miInodo 128 r

/-- What looking a name up asks of the disk: no division by zero, a block size if there is a block,
and entries in order wherever the search comes to. -/
structure LookupOk (fs : Ext2) (bufs : Ext2Buffers) (str : Nat → Byte) (strLen dirInode : Nat)
    (r : Ram) : Prop where
  inodesPerGroup : fs.inodesPerGroup r ≠ 0
  blockSize : iSize bufs (readInode fs bufs dirInode r) ≠ 0 → fs.blockSize r ≠ 0
  entries : EntriesOk (inodeByte fs.dev bufs (fs.blockSize r) (readInode fs bufs dirInode r))
    (iSize bufs (readInode fs bufs dirInode r)) str strLen

theorem strGetInode_eq (hloaded : fs.loaded = true) (hipg : fs.inodesPerGroup r ≠ 0)
    (hsize : iSize bufs (readInode fs bufs dirInode r) ≤ pageSize) :
    strGetInode fs bufs str strLen dirInode r =
      (dirLoad fs bufs (fs.blockSize r) (readInode fs bufs dirInode r)).bind fun r' =>
        (dirScan (tmpBytes bufs r') (iSize bufs r') str strLen).bind fun inode =>
          some (inode, fs, r') := by
  obtain ⟨start, hstart⟩ : ∃ start, inodeStartingByte fs dirInode r = some start :=
    ⟨_, if_neg hipg⟩
  rw [readInode, hstart, Option.getD_some] at hsize ⊢
  rw [strGetInode, ext2Load, if_pos hloaded, Option.bind_eq_bind, Option.bind_some]
  dsimp only
  rw [hstart, Option.bind_eq_bind, Option.bind_some, if_pos hsize]
  rfl

theorem strGetInode_none (hloaded : fs.loaded = true)
    (h : fs.inodesPerGroup r = 0 ∨ pageSize < iSize bufs (readInode fs bufs dirInode r)) :
    strGetInode fs bufs str strLen dirInode r = none := by
  rw [strGetInode, ext2Load, if_pos hloaded, Option.bind_eq_bind, Option.bind_some]
  dsimp only
  cases hstart : inodeStartingByte fs dirInode r with
  | none => rfl
  | some start =>
    have hipg : fs.inodesPerGroup r ≠ 0 := fun h0 => by
      rw [inodeStartingByte, if_pos h0] at hstart
      cases hstart
    have hsize := h.resolve_left hipg
    rw [readInode, hstart, Option.getD_some] at hsize
    rw [Option.bind_eq_bind, Option.bind_some, if_neg (Nat.not_le.2 hsize)]

/-- Looking a name up in an inode of at most a page comes back just if the disk does its part. -/
theorem strGetInode_isSome_iff (hdev : fs.dev.size = 512) (hloaded : fs.loaded = true)
    (hsize : iSize bufs (readInode fs bufs dirInode r) ≤ pageSize) :
    (strGetInode fs bufs str strLen dirInode r).isSome ↔
      LookupOk fs bufs str strLen dirInode r := by
  by_cases hipg : fs.inodesPerGroup r = 0
  · refine iff_of_false ?_ fun h => h.inodesPerGroup hipg
    rw [strGetInode_none hloaded (.inl hipg)]
    simp
  rw [strGetInode_eq hloaded hipg hsize]
  by_cases hbs : iSize bufs (readInode fs bufs dirInode r) ≠ 0 ∧ fs.blockSize r = 0
  · rw [hbs.2, dirLoad_none hbs.1]
    exact iff_of_false (by simp) fun h => h.blockSize hbs.1 hbs.2
  have hcases := blockSize_cases fs r
  obtain ⟨r', hr', hsame, hbytes, -⟩ := @dirLoad_spec bufs (fs.blockSize r)
    (readInode fs bufs dirInode r) fs hdev (by omega) hsize
  have hback : ∀ o : Option Nat, (o.bind fun inode => some (inode, fs, r')).isSome = o.isSome := by
    rintro (_ | _) <;> rfl
  rw [hr', Option.bind_some, hsame, dirScan_congr hbytes, hback, dirScan_isSome_iff hsize]
  exact ⟨fun h => ⟨hipg, fun h0 h1 => hbs ⟨h0, h1⟩, h⟩, fun h => h.entries⟩

end

/-! ## Looking a path up -/

/-- What `get_file_inode` calls `str_get_inode` with at a place of the path: the bytes from there
on, and how many of them are the name. -/
def componentLen (filename : PathString) (iFrom : Nat) : Nat :=
  if filename.charPos slash iFrom ≠ 0 then
    Word32.sub (Word32.sub (filename.charPos slash iFrom) iFrom) 1
  else Word32.sub filename.length iFrom

def componentByte (filename : PathString) (iFrom i : Nat) : Byte := filename.byte (iFrom + i)

/-- The places at which `get_file_inode` looks a name up. -/
def LooksUp (fs : Ext2) (bufs : Ext2Buffers) (filename : PathString) (r : Ram) (s : PathState) :
    Prop :=
  ∃ fs' r', ext2Load fs bufs r = some (fs', r') ∧ filename.charPos slash 0 ≠ filename.length ∧
    ReflTransGen (Loop.Next (getFileInodeRound bufs filename filename.length))
      ⟨filename.charPos slash 0, 2, fs', r'⟩ s

section
variable {fs fs' : Ext2} {bufs : Ext2Buffers} {filename : PathString} {r r' : Ram} {s t : PathState}

theorem charPosLoop_bounds {c : Byte} {l : PathString} {i : Nat}
    (h : PathString.charPosLoop c l i ≠ 0) :
    i < PathString.charPosLoop c l i ∧ PathString.charPosLoop c l i ≤ i + l.length := by
  induction l generalizing i with
  | nil => exact absurd rfl h
  | cons x l ih =>
    rw [PathString.charPosLoop] at h ⊢
    rw [List.length_cons]
    split
    · omega
    next hx =>
      rw [if_neg hx] at h
      have := ih h
      omega

theorem charPos_bounds {c : Byte} {i : Nat} (h : filename.charPos c i ≠ 0) :
    i < filename.charPos c i ∧ filename.charPos c i ≤ filename.length := by
  have hb := charPosLoop_bounds h
  rw [List.length_drop] at hb
  exact ⟨hb.1, by rw [PathString.charPos]; omega⟩

theorem ext2Load_loaded (h : ext2Load fs bufs r = some (fs', r')) :
    fs'.loaded = true ∧ fs'.dev = fs.dev := by
  rw [ext2Load] at h
  split at h
  next hl =>
    cases h
    exact ⟨hl, rfl⟩
  next =>
    simp only [ext2FinallyCreate] at h
    split at h
    · cases h
    · split at h
      · cases h
      · cases h
        exact ⟨rfl, rfl⟩

theorem strGetInode_loaded {str : Nat → Byte} {strLen dirInode n : Nat}
    (hloaded : fs.loaded = true)
    (h : strGetInode fs bufs str strLen dirInode r = some (n, fs', r')) : fs' = fs := by
  rw [strGetInode, ext2Load, if_pos hloaded] at h
  simp only [Option.bind_eq_bind, Option.bind_some, Option.bind_eq_some_iff] at h
  obtain ⟨start, -, h⟩ := h
  split at h
  · simp only [Option.bind_eq_some_iff, Option.pure_def, Option.some.injEq, Prod.mk.injEq] at h
    obtain ⟨_, -, _, -, -, rfl, -⟩ := h
    rfl
  · cases h

theorem getFileInodeRound_again
    (h : getFileInodeRound bufs filename filename.length s = some (.again t)) :
    filename.charPos slash s.iFrom ≠ 0 ∧ t.iFrom = filename.charPos slash s.iFrom ∧
      ∃ str strLen, strGetInode s.fs bufs str strLen s.lastFoundInode s.ram =
        some (t.lastFoundInode, t.fs, t.ram) := by
  rw [getFileInodeRound] at h
  dsimp only at h
  split at h
  next hto =>
    simp only [Option.bind_eq_bind, Option.bind_eq_some_iff] at h
    obtain ⟨⟨n, fs', r'⟩, hget, h⟩ := h
    split at h
    · cases h
    · cases h
      exact ⟨hto, rfl, _, _, hget⟩
  · simp only [Option.bind_eq_bind, Option.bind_eq_some_iff, Option.pure_def, Option.some.injEq,
      reduceCtorEq, and_false, exists_false] at h

/-! ## The superblock -/

/-- The word at the offset `off` of the superblock. -/
def BlockDev.sbWord (dev : BlockDev) (off : Nat) : Nat := Memory.le dev.byte (1024 + off) 4

/-- The superblock has the magic number, and its groups have blocks. -/
structure BlockDev.SuperblockOk (dev : BlockDev) : Prop where
  magic : Memory.le dev.byte (1024 + 56) 2 = 0xEF53
  blocksPerGroup : dev.sbWord 32 ≠ 0

/-- The sectors of the superblock are read one after the other. -/
theorem readSuperblockLoop_mem {dev : BlockDev} (hdev : dev.size = 512) {sb : Nat} :
    (readSuperblockLoop dev (1024 / dev.size) (1024 / dev.size) sb r).mem =
      Memory.write r.mem sb 1024 fun i => dev.byte (1024 + i) := by
  have hread : ∀ pos buf, ∀ i < 512, (dev.read pos buf 512).2 i = dev.byte (pos * 512 + i) := by
    intro pos buf i hi
    rw [← hdev, BlockDev.byte_add (by omega)]
    simp [BlockDev.read, Memory.write, hdev, hi]
  rw [hdev, show 1024 / 512 = 2 from rfl, readSuperblockLoop, readSuperblockLoop,
    readSuperblockLoop, hdev]
  exact Memory.write_append (n := 512) (fun i hi => hread 2 _ i hi) fun i hi => by
    rw [hread 3 _ i hi, ← Nat.add_assoc]

/-- Loading the file system asks for a superblock, unless it is loaded. -/
theorem ext2Load_isSome_iff (hdev : fs.dev.size = 512) :
    (ext2Load fs bufs r).isSome ↔ fs.loaded = true ∨ fs.dev.SuperblockOk := by
  rw [ext2Load]
  split
  next hl => exact iff_of_true rfl (.inl hl)
  next hl =>
    rw [or_iff_right hl, ext2FinallyCreate]
    dsimp only
    generalize hr₁ : readSuperblockLoop fs.dev (1024 / fs.dev.size) _ bufs.sbPage _ = r₁
    have hfield : ∀ {off n}, off + n ≤ 1024 →
        Memory.le r₁.mem (bufs.sbPage + off) n = Memory.le fs.dev.byte (1024 + off) n := fun h =>
      Memory.le_congr fun i hi => by
        rw [Nat.add_assoc, ← hr₁, readSuperblockLoop_mem hdev, Memory.write_add (by omega),
          ← Nat.add_assoc]
    have hper : Ext2.blocksPerGroup { fs with sb := bufs.sbPage } r₁ = fs.dev.sbWord 32 :=
      hfield (by decide)
    have hmagic : Ext2.magic { fs with sb := bufs.sbPage } r₁ =
        Memory.le fs.dev.byte (1024 + 56) 2 := hfield (by decide)
    rw [hper, hmagic]
    split
    next hbad => exact iff_of_false (by simp) fun h => hbad h.magic
    next hok =>
      split
      next h0 => exact iff_of_false (by simp) fun h => h.blocksPerGroup h0
      next h0 => exact iff_of_true rfl ⟨not_not.1 hok, h0⟩

/-! ## The walk -/

/-- At every place the file system is loaded, from the same disk. -/
theorem LooksUp.loaded (h : LooksUp fs bufs filename r s) :
    s.fs.loaded = true ∧ s.fs.dev = fs.dev := by
  obtain ⟨fs', r', hload, -, hreach⟩ := h
  induction hreach with
  | refl => exact ext2Load_loaded hload
  | tail _ hnext ih =>
    obtain ⟨-, -, str, strLen, hget⟩ := getFileInodeRound_again hnext
    rw [strGetInode_loaded ih.1 hget]
    exact ih

end

def twoPageBuffers : Ext2Buffers where
  sbPage := 0x1000
  tmpPage := 0x2000
  miInodo := 0x8000
  sbPage_lt := by decide
  tmpPage_lt := by decide
  miInodo_lt := by decide
  sbPage_tmpPage := by decide
  sbPage_miInodo := by decide
  tmpPage_miInodo := by decide

end SpuriOS
