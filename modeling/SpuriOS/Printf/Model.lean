import SpuriOS.Device.Buffers
import SpuriOS.Lib.Stores
import SpuriOS.Printf.Numbers

/-! # Formatted output (`kernel/lib.c`)

The format is the list of its characters, and a `%` at its end stands before the NUL. An argument
is a word of the stack together with the string that it points to if it is a pointer; the format and
the strings are not in the buffer. -/

namespace SpuriOS.Printf

open Circular (slice)

/-- The memory and the pointer that `char** str` points to. -/
structure Out where
  mem : Nat → Byte
  str : Nat

/-- `**str = c; (*str)++`. -/
def Out.put (o : Out) (c : Byte) : Out := ⟨Function.update o.mem o.str c, o.str + 1⟩

def putDec (number : Int) (o : Out) : Nat × Out := emitDec Out.put number o

def putUhex (number : Nat) (o : Out) : Nat × Out := emitUhex Out.put number o

def printUdec (number : Nat) (o : Out) : Nat × Out := emitUdec Out.put number o

/-! ## Formats -/

structure VarArg where
  word : UInt32
  str : List Byte

/-- The test of the two loops; a negative size is no bound. -/
def Room (buffSize : Int) (sz : Nat) : Prop := buffSize < 0 ∨ (sz : Int) < buffSize

instance (buffSize : Int) (sz : Nat) : Decidable (Room buffSize sz) :=
  inferInstanceAs (Decidable (_ ∨ _))

/-- The loop of `%s`. -/
def putStr (buffSize : Int) : List Byte → (sz : Nat) → Out → Nat × Out
  | [], sz, o => (sz, o)
  | c :: s, sz, o =>
    if Room buffSize sz ∧ c ≠ 0 then putStr buffSize s (Word32.add sz 1) (o.put c) else (sz, o)

/-- `*buffer = 0; return sz`. -/
def Out.finish (sz : Nat) (o : Out) : Int × Out :=
  (toInt32 sz, { o with mem := Function.update o.mem o.str 0 })

/-- The loop of `vsnprintf`, with what follows it. -/
def vsnprintfLoop (buffSize : Int) (args : Nat → VarArg) :
    (format : List Byte) → (argPtr sz : Nat) → Out → Int × Out
  | [], _, sz, o => o.finish sz
  | c :: format, argPtr, sz, o =>
    if ¬Room buffSize sz ∨ c = 0 then o.finish sz
    else if c = '%'.toUInt8 then
      match format with
      | [] => (-1, o)
      | spec :: format =>
        let arg := args argPtr
        if spec = 'c'.toUInt8 then
          vsnprintfLoop buffSize args format (argPtr + 1) (Word32.add sz 1) (o.put arg.word.toUInt8)
        else if spec = 's'.toUInt8 then
          let r := putStr buffSize arg.str sz o
          vsnprintfLoop buffSize args format (argPtr + 1) r.1 r.2
        else if spec = 'd'.toUInt8 then
          let r := putDec (toInt32 arg.word.toNat) o
          vsnprintfLoop buffSize args format (argPtr + 1) (Word32.add sz r.1) r.2
        else if spec = 'u'.toUInt8 then
          let r := printUdec arg.word.toNat o
          vsnprintfLoop buffSize args format (argPtr + 1) (Word32.add sz r.1) r.2
        else if spec = 'x'.toUInt8 ∨ spec = 'p'.toUInt8 then
          let r := putUhex arg.word.toNat o
          vsnprintfLoop buffSize args format (argPtr + 1) (Word32.add sz r.1) r.2
        else if spec = '%'.toUInt8 then
          vsnprintfLoop buffSize args format argPtr (Word32.add sz 1) (o.put '%'.toUInt8)
        else (-1, o)
    else vsnprintfLoop buffSize args format argPtr (Word32.add sz 1) (o.put c)

def vsnprintf (buffer : Nat) (buffSize : Int) (format : List Byte) (args : Nat → VarArg)
    (mem : Nat → Byte) : Int × (Nat → Byte) :=
  let r := vsnprintfLoop buffSize args format 0 0 ⟨mem, buffer⟩
  (r.1, r.2.mem)

def sprintf (buffer : Nat) (format : List Byte) (args : Nat → VarArg) (mem : Nat → Byte) :
    Int × (Nat → Byte) :=
  vsnprintf buffer (-1) format args mem

def snprintf (buffer : Nat) (buffSize : Int) (format : List Byte) (args : Nat → VarArg)
    (mem : Nat → Byte) : Int × (Nat → Byte) :=
  vsnprintf buffer buffSize format args mem

/-- `FPRINTF_BUFFER_SIZE`. -/
def fprintfBufferSize : Int := 4096

/-- What `fprintf` hands to `write`, with its page at `libFpBuffer`. -/
def fprintfHands (libFpBuffer : Nat) (format : List Byte) (args : Nat → VarArg)
    (mem : Nat → Byte) : List Byte :=
  let r := vsnprintf libFpBuffer fprintfBufferSize format args mem
  slice r.2 libFpBuffer (ofInt32 r.1)

/-- The format of `proc_cpuid_open`. -/
def cpuidFormat : List Byte :=
  "free kernel mem = %uKB, user = %uKB\n".toList.map Char.toUInt8

/-- The text that `proc_cpuid_open` puts into the buffer of the device, where `kernel` and `user`
are the two amounts of free memory. -/
def procCpuidOpen (kernel user : UInt32) (mem : Nat → Byte) : DevProcCpuid :=
  let args i := if i = 0 then ⟨kernel, []⟩ else ⟨user, []⟩
  let r := sprintf 0 cpuidFormat args mem
  ⟨r.2, ofInt32 r.1, 0⟩

end SpuriOS.Printf
