import SpuriOS.Common
import SpuriOS.Lib.Memory

/-! The memory of a process as the kernel sees it when it copies to it (`common.c`). -/

namespace SpuriOS

/-- The bytes of a process, and which addresses `mm_pl_of_vaddr` puts at user level. -/
structure UserMem where
  byte : Nat → Byte
  isUser : Nat → Bool

def copy2user (src : Nat → Byte) (dst size : Nat) (u : UserMem) : Int × UserMem :=
  if u.isUser dst then (size, { u with byte := Memory.write u.byte dst size src }) else (-1, u)

theorem copy2user_eq {u : UserMem} {src : Nat → Byte} {dst n : Nat} (h : u.isUser dst = true) :
    copy2user src dst n u = ((n : Int), { u with byte := Memory.write u.byte dst n src }) :=
  if_pos h

end SpuriOS
