import Mathlib.Algebra.Group.Int.Defs
import Mathlib.Algebra.Ring.Nat

/-! Constants of `common.h`, `loader.h`, `device.h` and `errors.h`, and the outcome of a kernel
function: it returns, or a false `kassert` halts the machine. -/

namespace SpuriOS

/-- `MAX_PID` of `loader.h`. -/
def maxPid : Nat := 32

/-- `MAX_FD` of `device.h`. -/
def maxFd : Nat := 32

/-- `PAGE_SIZE`. -/
def pageSize : Nat := 4096

theorem pageSize_eq : pageSize = 4096 := rfl

def idlePid : Nat := 0

def einvalid : Int := 2
def enofunc : Int := 3
def enomem : Int := 5

abbrev Byte := UInt8

abbrev Pid := Nat

/-- The device classes `CLASS_DEV_*`. -/
inductive Klass where
  | none
  | procCpuid
  | console
  | serial
  | hdd
  | ext2File
  | pipe
  deriving DecidableEq, Repr

/-- How a kernel function ends. Both ways keep the state, so that what was done before the
machine halted can be inspected. -/
inductive Outcome (σ : Type) where
  /-- A `kassert` was false: interrupts off and an endless loop. -/
  | halt (s : σ)
  | ret (value : Int) (s : σ)

def Outcome.state {σ : Type} : Outcome σ → σ
  | .halt s => s
  | .ret _ s => s

@[simp] theorem Outcome.state_halt {σ : Type} (s : σ) : (Outcome.halt s).state = s := rfl
@[simp] theorem Outcome.state_ret {σ : Type} (v : Int) (s : σ) : (Outcome.ret v s).state = s := rfl

end SpuriOS
