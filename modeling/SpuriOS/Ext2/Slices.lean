import Mathlib.Logic.Function.Iterate
import SpuriOS.Ext2.File

/-! # The rounds of `hdd_enhanced_read`

The loop as a state that each round replaces, so that what a round computes with can be stated
of every round of a call. -/

namespace SpuriOS

/-- The local variables of `hdd_enhanced_read` and the memory, at the test of the loop. -/
structure HddRound where
  blockCount : Nat
  pos : Nat
  readSpan : Nat
  byteCount : Nat
  bufPtr : Nat
  ram : Ram

/-- How many blocks `hdd_enhanced_read` reads. -/
def BlockDev.blockCount (dev : BlockDev) (startingByte byteCount : Nat) : Nat :=
  let realByteCount := Word32.add (startingByte % dev.size) byteCount
  if realByteCount % dev.size ≠ 0 then realByteCount / dev.size + 1 else realByteCount / dev.size

namespace HddRound

/-- The variables as the loop is entered. -/
def enter (dev : BlockDev) (startingByte buffer byteCount : Nat) (r : Ram) : HddRound where
  blockCount := dev.blockCount startingByte byteCount
  pos := startingByte / dev.size
  readSpan := startingByte % dev.size
  byteCount := byteCount
  bufPtr := buffer
  ram := r

def copiedBytes (dev : BlockDev) (l : HddRound) : Nat :=
  if Word32.sub dev.size l.readSpan < l.byteCount then Word32.sub dev.size l.readSpan
  else l.byteCount

/-- One round of the loop. -/
def next (dev : BlockDev) (l : HddRound) : HddRound :=
  let buf := (dev.read l.pos l.ram.hddEnhancedBuffer dev.size).2
  { blockCount := l.blockCount - 1
    pos := Word32.add l.pos 1
    readSpan := Word32.sub l.readSpan l.readSpan
    byteCount := Word32.sub l.byteCount (l.copiedBytes dev)
    bufPtr := Word32.add l.bufPtr (l.copiedBytes dev)
    ram :=
      { mem := Memory.write l.ram.mem l.bufPtr (l.copiedBytes dev) fun i => buf (l.readSpan + i)
        hddEnhancedBuffer := buf } }

/-- A round subtracts no more than there is, and copies bytes of the block it has read. -/
structure Safe (dev : BlockDev) (l : HddRound) : Prop where
  blockCount : 1 ≤ l.blockCount
  readSpan : l.readSpan ≤ dev.size
  byteCount : l.copiedBytes dev ≤ l.byteCount
  copied : l.readSpan + l.copiedBytes dev ≤ dev.size

/-- What holds at the test of the loop in every round. -/
structure Inv (dev : BlockDev) (l : HddRound) : Prop where
  readSpan : l.readSpan < dev.size
  byteCount : l.byteCount < 2 ^ 32

section
variable {dev : BlockDev} {l : HddRound}

@[simp] theorem next_blockCount : (l.next dev).blockCount = l.blockCount - 1 := rfl

@[simp] theorem next_readSpan : (l.next dev).readSpan = Word32.sub l.readSpan l.readSpan := rfl

@[simp] theorem enter_blockCount {startingByte buffer byteCount : Nat} {r : Ram} :
    (enter dev startingByte buffer byteCount r).blockCount =
      dev.blockCount startingByte byteCount := rfl

theorem loop_eq : hddEnhancedReadLoop dev l.blockCount l.pos l.readSpan l.byteCount l.bufPtr l.ram =
    ((next dev)^[l.blockCount] l).ram := by
  generalize h : l.blockCount = k
  induction k generalizing l with
  | zero => rfl
  | succ k ih =>
    have hk : (l.next dev).blockCount = k := by rw [next_blockCount, h, Nat.add_sub_cancel]
    rw [Function.iterate_succ_apply, ← ih hk]
    rfl

theorem hddEnhancedRead_eq (startingByte buffer byteCount : Nat) (r : Ram) :
    hddEnhancedRead dev startingByte buffer byteCount r =
      ((next dev)^[dev.blockCount startingByte byteCount]
        (enter dev startingByte buffer byteCount r)).ram :=
  @loop_eq dev (enter dev startingByte buffer byteCount r)

theorem Inv.sub (hi : l.Inv dev) (hs : dev.size < 2 ^ 32) :
    Word32.sub dev.size l.readSpan = dev.size - l.readSpan :=
  Word32.sub_of_le (Nat.le_of_lt hi.readSpan) hs

theorem Inv.copiedBytes_eq (hi : l.Inv dev) (hs : dev.size < 2 ^ 32) :
    l.copiedBytes dev = min (dev.size - l.readSpan) l.byteCount := by
  rw [copiedBytes, hi.sub hs]
  split <;> omega

theorem Inv.safe (hi : l.Inv dev) (hs : dev.size < 2 ^ 32) (hk : 1 ≤ l.blockCount) :
    l.Safe dev := by
  have hspan := hi.readSpan
  have hcopied := hi.copiedBytes_eq hs
  exact ⟨hk, by omega, by omega, by omega⟩

theorem Inv.next (hi : l.Inv dev) (hs : dev.size < 2 ^ 32) : (l.next dev).Inv dev := by
  have hspan := hi.readSpan
  constructor
  · rw [next_readSpan, Word32.sub_self (by omega)]
    omega
  · exact Word32.wrap_lt _

theorem Inv.iterate (hi : l.Inv dev) (hs : dev.size < 2 ^ 32) (k : Nat) :
    ((HddRound.next dev)^[k] l).Inv dev := by
  induction k with
  | zero => exact hi
  | succ k ih => rw [Function.iterate_succ_apply']; exact ih.next hs

theorem iterate_blockCount (k : Nat) : ((next dev)^[k] l).blockCount = l.blockCount - k := by
  induction k with
  | zero => rfl
  | succ k ih => rw [Function.iterate_succ_apply', next_blockCount, ih, Nat.sub_sub]

/-- Past its one block the static buffer is never written. -/
theorem iterate_static (k : Nat) {i : Nat} (h : dev.size ≤ i) :
    ((next dev)^[k] l).ram.hddEnhancedBuffer i = l.ram.hddEnhancedBuffer i := by
  induction k with
  | zero => rfl
  | succ k ih =>
    rw [Function.iterate_succ_apply', ← ih]
    simp only [next, BlockDev.read, ne_eq, not_true_eq_false, if_false]
    exact Memory.write_of_not (by omega)

end

end HddRound

section
variable {dev : BlockDev} {startingByte buffer byteCount : Nat} {r : Ram}

/-- `hdd_enhanced_read` stores the requested slice of the device and nothing else, no round of it
wraps in a subtraction or leaves the block that was read, and the static buffer of `SECTOR_SIZE`
bytes is never overrun. -/
theorem hddEnhancedRead_slice (h0 : 0 < dev.size) (hs : dev.size ≤ 512)
    (hend : startingByte + byteCount < 2 ^ 32) (hbuf : buffer + byteCount ≤ 2 ^ 32) :
    (hddEnhancedRead dev startingByte buffer byteCount r).mem =
        Memory.write r.mem buffer byteCount (fun i => dev.byte (startingByte + i)) ∧
      (∀ i, dev.size ≤ i →
        (hddEnhancedRead dev startingByte buffer byteCount r).hddEnhancedBuffer i =
          r.hddEnhancedBuffer i) ∧
      ∀ k < dev.blockCount startingByte byteCount,
        ((HddRound.next dev)^[k] (.enter dev startingByte buffer byteCount r)).Safe dev := by
  have hmod := Nat.mod_lt startingByte h0
  have hle := Nat.mod_le startingByte dev.size
  have hsize : dev.size < 2 ^ 32 := by omega
  refine ⟨hddEnhancedRead_mem h0 hsize (by omega) (by omega) hbuf, fun i hi => ?_, fun k hk => ?_⟩
  · rw [HddRound.hddEnhancedRead_eq, HddRound.iterate_static _ hi]
    rfl
  · have hi : (HddRound.enter dev startingByte buffer byteCount r).Inv dev :=
      ⟨hmod, show byteCount < 2 ^ 32 by omega⟩
    refine (hi.iterate hsize k).safe hsize ?_
    rw [HddRound.iterate_blockCount, HddRound.enter_blockCount]
    omega

/-- A slice that starts inside one block of 512 bytes and ends inside the next but one. -/
theorem hddEnhancedRead_slice_unaligned :
    let dev : BlockDev := { size := 512, sector := fun b i => UInt8.ofNat (b + i) }
    let r : Ram := { mem := fun _ => 0, hddEnhancedBuffer := fun _ => 0 }
    (hddEnhancedRead dev 700 4096 1000 r).mem =
        Memory.write r.mem 4096 1000 (fun i => dev.byte (700 + i)) ∧
      (∀ i, 512 ≤ i → (hddEnhancedRead dev 700 4096 1000 r).hddEnhancedBuffer i = 0) ∧
      ∀ k < 3, ((HddRound.next dev)^[k] (.enter dev 700 4096 1000 r)).Safe dev :=
  hddEnhancedRead_slice (by decide) (by decide) (by decide) (by decide)

end

end SpuriOS
