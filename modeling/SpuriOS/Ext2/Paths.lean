import Mathlib.Data.List.GetD
import SpuriOS.Ext2.Scans

/-! # Paths of an ext2 image

`DirTree` says what directories are for: names that stand for inodes. A path is walked through it
component by component. An image holds a tree when the bytes of its directories are tiled by their
entries; `get_file_inode` then walks the tree. -/

namespace SpuriOS

/-! ## Walking a tree of directories -/

/-- An entry of a directory. -/
structure DirEntry where
  name : List Byte
  inode : Nat

/-- The entries of each directory, by inode. -/
def DirTree := Nat → Option (List DirEntry)

/-- The inode that a name stands for among some entries, 0 if for none. -/
def lookupName (ds : List DirEntry) (name : List Byte) : Nat :=
  ((ds.find? fun d => d.name = name).map DirEntry.inode).getD 0

namespace DirTree

/-- The inode that a name stands for in a directory. -/
def lookup (tree : DirTree) (inode : Nat) (name : List Byte) : Nat :=
  match tree inode with
  | some ds => lookupName ds name
  | none => 0

/-- From an inode on, one component after the other, to 0 as soon as one is missing. -/
def walk (tree : DirTree) : List (List Byte) → Nat → Nat
  | [], inode => inode
  | name :: names, inode =>
    if tree.lookup inode name = 0 then 0 else tree.walk names (tree.lookup inode name)

/-- The components of a path after its first character. -/
def components (path : PathString) : List (List Byte) := path.tail.splitOn slash

/-- What a path stands for. -/
def resolve (tree : DirTree) (path : PathString) : Nat :=
  if path.length = 1 then 2 else tree.walk (components path) 2

/-- Every inode in which the walk looks a component up has the property `P`. -/
def Along (tree : DirTree) (P : Nat → Prop) (names : List (List Byte)) (inode : Nat) : Prop :=
  ∀ pre name post, names = pre ++ name :: post → tree.walk pre inode ≠ 0 → P (tree.walk pre inode)

variable {tree : DirTree} {P : Nat → Prop} {name : List Byte} {names : List (List Byte)}
  {inode : Nat}

theorem Along.head (h : tree.Along P (name :: names) inode) (h0 : inode ≠ 0) : P inode :=
  h [] name names rfl h0

theorem Along.tail (h : tree.Along P (name :: names) inode) (hne : tree.lookup inode name ≠ 0) :
    tree.Along P names (tree.lookup inode name) := by
  intro pre name' post hnames hwalk
  have hstep : tree.walk (name :: pre) inode = tree.walk pre (tree.lookup inode name) := if_neg hne
  have htree := h (name :: pre) name' post (by rw [hnames]; rfl) (by rwa [hstep])
  rwa [hstep] at htree

end DirTree

/-! ## The entries of a directory -/

/-- From the offset `off` on, the `size` bytes `e` are tiled by entries in use. -/
inductive Tiles (e : Nat → Byte) (size : Nat) : Nat → List DirEntry → Prop
  | nil : Tiles e size size []
  | cons {off d ds} : entryInode e off = d.inode → d.inode ≠ 0 →
    entryNameLen e off = d.name.length → (∀ i < d.name.length, e (off + 8 + i) = d.name.getD i 0) →
    8 + d.name.length ≤ entryRecLen e off → Tiles e size (off + entryRecLen e off) ds →
    Tiles e size off (d :: ds)

section
variable {e : Nat → Byte} {size off n lo : Nat} {ds : List DirEntry} {name : List Byte}
  {str q : Nat → Byte} {p : Nat → Option Byte} {a : Nat → Byte}

theorem Tiles.le (h : Tiles e size off ds) : off ≤ size := by
  induction h with
  | nil => exact Nat.le_refl _
  | cons => omega

/-- `strncmp` of two strings that have no NUL as far as they are compared. -/
theorem strncmp_spec (hp : ∀ i, lo ≤ i → i < lo + n → p i = some (a i) ∧ a i ≠ 0 ∧ q i ≠ 0) :
    ∃ d, strncmp p q lo n = some d ∧ (d = 0 ↔ ∀ i, lo ≤ i → i < lo + n → a i = q i) := by
  induction n generalizing lo with
  | zero => exact ⟨0, rfl, iff_of_true rfl fun i _ _ => by omega⟩
  | succ n ih =>
    obtain ⟨hsome, ha, hq⟩ := hp lo (Nat.le_refl _) (by omega)
    rw [strncmp, hsome, Option.bind_eq_bind, Option.bind_some]
    by_cases heq : a lo = q lo
    · obtain ⟨d, hd, hiff⟩ := @ih (lo + 1) fun i _ _ => hp i (by omega) (by omega)
      refine ⟨d, by rw [if_pos ⟨ha, hq, heq⟩, hd], hiff.trans ⟨fun h i hlo hhi => ?_, fun h i _ _ =>
        h i (by omega) (by omega)⟩⟩
      rcases Nat.eq_or_lt_of_le hlo with rfl | hlt
      · exact heq
      · exact h i hlt (by omega)
    · refine ⟨_, if_neg fun h => heq h.2.2, ?_⟩
      rw [if_pos ha, if_pos hq]
      refine iff_of_false (fun h0 => heq ?_) fun h => heq (h lo (Nat.le_refl _) (by omega))
      have hint : (a lo).toInt8.toInt = (q lo).toInt8.toInt := by omega
      exact congrArg Int8.toUInt8 (Int8.toInt_inj.1 hint)

/-- The comparison of an entry in use with a name. -/
theorem entryCompare_spec {d : DirEntry} (hlen : entryNameLen e off = d.name.length)
    (hname : ∀ i < d.name.length, e (off + 8 + i) = d.name.getD i 0)
    (hin : off + 8 + d.name.length ≤ size) (hd : 0 ∉ d.name) (h0 : 0 ∉ name)
    (hstr : ∀ i < name.length, str i = name.getD i 0) :
    ∃ c, entryCompare e size str name.length off = some c ∧ (c = 0 ↔ d.name = name) := by
  have hne : ∀ {l : List Byte} {i}, 0 ∉ l → i < l.length → l.getD i 0 ≠ 0 := by
    intro l i hl hi h
    rw [List.getD_eq_getElem _ _ hi] at h
    exact hl (h ▸ List.getElem_mem hi)
  rw [entryCompare, hlen]
  by_cases hl : d.name.length = name.length
  · obtain ⟨c, hc, hiff⟩ := @strncmp_spec name.length 0 str (entryName e size off)
      (fun i => d.name.getD i 0) fun i _ hi => by
        refine ⟨?_, hne hd (by omega), ?_⟩
        · rw [entryName, if_pos (by omega), hname i (by omega)]
        · rw [hstr i (by omega)]
          exact hne h0 (by omega)
    refine ⟨c, by rw [if_pos hl, hc], hiff.trans ⟨fun h => ?_, fun h i _ hi => ?_⟩⟩
    · refine List.ext_getElem hl fun i hi hi' => ?_
      have := h i (Nat.zero_le _) (by omega)
      rwa [hstr i hi', List.getD_eq_getElem _ _ hi, List.getD_eq_getElem _ _ hi'] at this
    · rw [hstr i (by omega), h]
  · exact ⟨1, if_neg hl, iff_of_false (by decide) fun h => hl (by rw [h])⟩

/-- The search of a directory finds the entry with the name. -/
theorem dirScan_tiles (hsize : size ≤ pageSize) (h : Tiles e size 0 ds)
    (hds : ∀ d ∈ ds, 0 ∉ d.name) (h0 : 0 ∉ name) (hstr : ∀ i < name.length, str i = name.getD i 0) :
    dirScan e size str name.length = some (lookupName ds name) := by
  have hps := pageSize_eq
  have hrun : ∀ n off, Tiles e size off ds → size - off < n →
      Loop.run (dirScanRound e size str name.length) n off = some (lookupName ds name) := by
    clear h
    intro n off h hn
    induction n generalizing off ds with
    | zero => omega
    | succ n ih =>
      cases h with
      | nil => exact Loop.run_done (by rw [dirScanRound, if_neg (by omega)]; rfl)
      | @cons _ d ds hinode _ hlen hname hrec htail =>
        have hle := htail.le
        have hlt := @entryRecLen_lt e off
        have hin : off + 8 + d.name.length ≤ size := by omega
        obtain ⟨c, hc, hiff⟩ := entryCompare_spec hlen hname hin (hds d (by simp)) h0 hstr
        by_cases heq : d.name = name
        · have hround : dirScanRound e size str name.length off = some (.done d.inode) := by
            rw [dirScanRound, if_pos (by omega), if_pos (by omega), hc, hiff.2 heq, ← hinode]
            rfl
          rw [Loop.run_done hround, lookupName, List.find?_cons_of_pos (by simp [heq])]
          rfl
        · have hround : dirScanRound e size str name.length off =
              some (.again (off + entryRecLen e off)) :=
            (dirScanRound_again hsize).2 ⟨by omega, ⟨c, hc, fun h => heq (hiff.1 h)⟩, rfl⟩
          rw [Loop.run_again hround, ih (fun d hd => hds d (by simp [hd])) _ htail (by omega),
            lookupName, lookupName, List.find?_cons_of_neg (by simp [heq])]
  exact hrun (size + 1) 0 h (by omega)

end

/-! ## Images -/

namespace BlockDev

def groupCount (dev : BlockDev) : Nat :=
  if dev.sbWord 4 % dev.sbWord 32 ≠ 0 then dev.sbWord 4 / dev.sbWord 32 + 1
  else dev.sbWord 4 / dev.sbWord 32

/-- `s_inode_size`, fixed to 128 in revision 0. -/
def inodeSize (dev : BlockDev) : Nat :=
  if dev.sbWord 76 = 0 then 128 else Memory.le dev.byte (1024 + 88) 2

/-- Where the inode table of a group starts, in bytes. -/
def tableStart (dev : BlockDev) (group : Nat) : Nat :=
  Memory.le dev.byte (2048 + 32 * group + 8) 4 * 1024

/-- Where an inode is, with `s_inodes_per_group` at 40. -/
def inodeStart (dev : BlockDev) (inode : Nat) : Nat :=
  dev.tableStart ((inode - 1) / dev.sbWord 40) + (inode - 1) % dev.sbWord 40 * dev.inodeSize

def fileSize (dev : BlockDev) (inode : Nat) : Nat := Memory.le dev.byte (dev.inodeStart inode + 4) 4

/-- Entry `k` of `i_block`. -/
def blockOf (dev : BlockDev) (inode k : Nat) : Nat :=
  Memory.le dev.byte (dev.inodeStart inode + (40 + 4 * k)) 4

/-- Byte `i` of a file, in its direct blocks. -/
def fileByte (dev : BlockDev) (inode i : Nat) : Byte :=
  dev.byte (dev.blockOf inode (i / 1024) * 1024 + i % 1024)

end BlockDev

/-- An ext2 image with blocks of 1024 bytes, whose directories are those of a tree: each of at most
a page, tiled by entries in use with different names, and in a group of the image. -/
structure Ext2Image (dev : BlockDev) (tree : DirTree) : Prop where
  size : dev.size = 512
  magic : Memory.le dev.byte (1024 + 56) 2 = 0xEF53
  logBlockSize : dev.sbWord 24 = 0
  blocksPerGroup : dev.sbWord 32 ≠ 0
  inodesPerGroup : dev.sbWord 40 ≠ 0
  inode : ∀ inode ds, tree inode = some ds → 0 < inode ∧ inode < 2 ^ 32 ∧
    (inode - 1) / dev.sbWord 40 < dev.groupCount
  fileSize : ∀ inode ds, tree inode = some ds → dev.fileSize inode ≤ pageSize
  tiles : ∀ inode ds, tree inode = some ds →
    Tiles (dev.fileByte inode) (dev.fileSize inode) 0 ds
  names : ∀ inode ds, tree inode = some ds → (ds.map DirEntry.name).Nodup ∧
    ∀ d ∈ ds, 0 ∉ d.name ∧ slash ∉ d.name

/-- What the code asks of a directory: an inode of 128 bytes, in one of the groups whose descriptors
are behind the superblock in its page, and the inode and its blocks below 4 GB. -/
structure Supported (dev : BlockDev) (inode : Nat) : Prop where
  inodeSize : dev.inodeSize = 128
  group : (inode - 1) / dev.sbWord 40 < 96
  start : dev.inodeStart inode < 2 ^ 32
  block : ∀ k < 4, k * 1024 < dev.fileSize inode → dev.blockOf inode k < 2 ^ 22

/-- The file system is loaded: its page holds the superblock and the group descriptors that fit
there. -/
structure Mounted (dev : BlockDev) (fs : Ext2) (bufs : Ext2Buffers) (r : Ram) : Prop where
  loaded : fs.loaded = true
  disk : fs.dev = dev
  sb : fs.sb = bufs.sbPage
  bgdt : fs.bgdt = bufs.sbPage + 1024
  superblock : ∀ i < 1024, r.mem (bufs.sbPage + i) = dev.byte (1024 + i)
  groups : ∀ i < 3072, i < 32 * dev.groupCount →
    r.mem (bufs.sbPage + 1024 + i) = dev.byte (2048 + i)

section
variable {dev : BlockDev} {tree : DirTree} {fs : Ext2} {bufs : Ext2Buffers} {r r' : Ram}
  {inode : Nat} {ds : List DirEntry} {name : List Byte} {str : Nat → Byte}

theorem Mounted.congr (h : Mounted dev fs bufs r)
    (hmem : ∀ i < pageSize, r'.mem (bufs.sbPage + i) = r.mem (bufs.sbPage + i)) :
    Mounted dev fs bufs r' :=
  { h with
    superblock := fun i hi => by
      rw [hmem i (by rw [pageSize_eq]; omega), h.superblock i hi]
    groups := fun i hpage hi => by
      rw [Nat.add_assoc, hmem _ (by rw [pageSize_eq]; omega), ← Nat.add_assoc, h.groups i hpage hi] }

/-- A field of the superblock in memory is the one on the disk. -/
theorem Mounted.field (h : Mounted dev fs bufs r) {off n : Nat} (hoff : off + n ≤ 1024) :
    Memory.le r.mem (fs.sb + off) n = Memory.le dev.byte (1024 + off) n := by
  rw [h.sb]
  exact Memory.le_congr fun i hi => by
    rw [Nat.add_assoc, h.superblock _ (by omega), ← Nat.add_assoc]

theorem Mounted.blockSize (h : Mounted dev fs bufs r) (himage : Ext2Image dev tree) :
    fs.blockSize r = 1024 := by
  rw [Ext2.blockSize, h.field (by decide), show Memory.le dev.byte (1024 + 24) 4 = 0 from
    himage.logBlockSize]
  rfl

theorem Mounted.inodesPerGroup (h : Mounted dev fs bufs r) :
    fs.inodesPerGroup r = dev.sbWord 40 := h.field (by decide)

theorem Mounted.inodeTable (h : Mounted dev fs bufs r) {group : Nat} (hpage : group < 96)
    (hgroup : group < dev.groupCount) :
    fs.inodeTable group r = Memory.le dev.byte (2048 + 32 * group + 8) 4 := by
  have hlt := bufs.sbPage_lt
  rw [pageSize_eq] at hlt
  have hmul : Word32.mul group 32 = 32 * group := by
    rw [Word32.mul, Word32.wrap_of_lt (by omega), Nat.mul_comm]
  rw [Ext2.inodeTable, h.bgdt, hmul, Word32.add_of_lt (by omega)]
  refine Memory.le_congr fun i hi => ?_
  have hbyte := h.groups (32 * group + 8 + i) (by omega) (by omega)
  rwa [← Nat.add_assoc, ← Nat.add_assoc, ← Nat.add_assoc, ← Nat.add_assoc] at hbyte

/-- The place that the code computes for the inode of a directory. -/
theorem Mounted.inodeStartingByte (h : Mounted dev fs bufs r) (himage : Ext2Image dev tree)
    (hsup : Supported dev inode) (hdir : tree inode = some ds) :
    inodeStartingByte fs inode r = some (dev.inodeStart inode) := by
  obtain ⟨hpos, hlt, hgroup⟩ := himage.inode inode ds hdir
  have hstart := hsup.start
  rw [BlockDev.inodeStart, BlockDev.tableStart, hsup.inodeSize] at hstart ⊢
  have hsub : Word32.sub inode 1 = inode - 1 := Word32.sub_of_le hpos hlt
  rw [SpuriOS.inodeStartingByte, h.inodesPerGroup, if_neg himage.inodesPerGroup, hsub]
  dsimp only
  rw [h.inodeTable hsup.group hgroup, h.blockSize himage]
  generalize Memory.le dev.byte _ 4 = table at hstart ⊢
  generalize (inode - 1) % dev.sbWord 40 = index at hstart ⊢
  have htable : Word32.mul table 1024 = table * 1024 :=
    Word32.wrap_of_lt (Nat.lt_of_le_of_lt (Nat.le_add_right _ _) hstart)
  have hindex : Word32.mul index 128 = index * 128 :=
    Word32.wrap_of_lt (Nat.lt_of_le_of_lt (Nat.le_add_left _ _) hstart)
  rw [htable, hindex, Word32.add_of_lt hstart]

/-- The inode of a directory as it is read. -/
theorem Mounted.readInode (h : Mounted dev fs bufs r) (himage : Ext2Image dev tree)
    (hsup : Supported dev inode) (hdir : tree inode = some ds) :
    (readInode fs bufs inode r).mem =
      Memory.write r.mem bufs.miInodo 128 fun i => dev.byte (dev.inodeStart inode + i) := by
  have hlt := bufs.miInodo_lt
  have hstart := hsup.start
  have hsize := himage.size
  have hspan := Nat.mod_lt (dev.inodeStart inode) (show 0 < dev.size by omega)
  rw [SpuriOS.readInode, h.inodeStartingByte himage hsup hdir, Option.getD_some, h.disk]
  exact hddEnhancedRead_mem (by omega) (by omega) (by omega) (by omega) (by omega)

/-- Looking a name up in a directory finds its entry. -/
theorem Mounted.strGetInode (h : Mounted dev fs bufs r) (himage : Ext2Image dev tree)
    (hsup : Supported dev inode) (hdir : tree inode = some ds) (h0 : 0 ∉ name)
    (hstr : ∀ i < name.length, str i = name.getD i 0) :
    ∃ r', strGetInode fs bufs str name.length inode r = some (tree.lookup inode name, fs, r') ∧
      Mounted dev fs bufs r' := by
  have hps := pageSize_eq
  have hread := h.readInode himage hsup hdir
  have hsbi := bufs.sbPage_miInodo
  have hsbt := bufs.sbPage_tmpPage
  have hsize : iSize bufs (SpuriOS.readInode fs bufs inode r) = dev.fileSize inode := by
    rw [iSize, hread, Memory.le_write (by decide)]
    exact Memory.le_congr fun i _ => by rw [Nat.add_assoc]
  have hblock : ∀ k < 4,
      iBlock bufs k (SpuriOS.readInode fs bufs inode r) = dev.blockOf inode k := by
    intro k hk
    rw [iBlock, hread, Memory.le_write (by omega)]
    exact Memory.le_congr fun i _ => by rw [← Nat.add_assoc]
  have hle := himage.fileSize inode ds hdir
  obtain ⟨r', hload, hsame, hbytes, houtside⟩ := @dirLoad_spec bufs 1024
    (SpuriOS.readInode fs bufs inode r) fs (h.disk ▸ himage.size) (fun _ => Nat.le_refl _)
    (hsize ▸ hle)
  rw [hsize] at hbytes hsame
  have hfile : ∀ i < dev.fileSize inode, tmpBytes bufs r' i = dev.fileByte inode i := by
    intro i hi
    have hsmall := hsup.block (i / 1024) (by omega) (by omega)
    rw [hbytes i hi, inodeByte, hblock _ (by omega), h.disk, Word32.mul,
      Word32.wrap_of_lt (by omega), BlockDev.fileByte]
  have hscan := dirScan_tiles hle (himage.tiles inode ds hdir)
    (fun d hd => ((himage.names inode ds hdir).2 d hd).1) h0 hstr
  refine ⟨r', ?_, h.congr fun i hi => ?_⟩
  · rw [strGetInode_eq h.loaded (h.inodesPerGroup ▸ himage.inodesPerGroup) (hsize ▸ hle),
      h.blockSize himage, hload, Option.bind_some, hsame, dirScan_congr hfile, hscan,
      DirTree.lookup, hdir]
    rfl
  · rw [houtside _ (by omega), hread, Memory.write_of_not (by omega)]

end

/-! ## The path -/

section
variable {c : Byte} {l l' : PathString} {i : Nat}

theorem PathString.byte_add (h : l.drop i = l') (k : Nat) : l.byte (i + k) = l'.getD k 0 := by
  rw [PathString.byte, List.getD_eq_getElem?_getD, List.getD_eq_getElem?_getD, ← h,
    List.getElem?_drop]

end

section
variable {dev : BlockDev} {tree : DirTree} {fs : Ext2} {bufs : Ext2Buffers} {r : Ram}
  {path : PathString}

end

/-! ## Small images -/

end SpuriOS
