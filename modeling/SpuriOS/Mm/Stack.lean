import SpuriOS.Common
import Mathlib.Logic.Function.Basic

/-! # Kernel stacks (`kernel/loader.c`, `kernel/taskswitch.asm`, `kernel/interrup.asm`)

The kernel stack of a process is a page of 1024 words. A system call leaves the registers of the
process there, and a new process is started from what was written there. -/

namespace SpuriOS

/-- Word `i` of a page, with the low byte first. -/
def wordAt (page : Nat → Byte) (i : Nat) : Nat :=
  (page (4 * i)).toNat + 0x100 * (page (4 * i + 1)).toNat + 0x10000 * (page (4 * i + 2)).toNat +
    0x1000000 * (page (4 * i + 3)).toNat

/-- The page with these words. -/
def pageOf (stack : Nat → Nat) (k : Nat) : Byte := UInt8.ofNat (stack (k / 4) / 0x100 ^ (k % 4))

theorem wordAt_lt (page : Nat → Byte) (i : Nat) : wordAt page i < 2 ^ 32 := by
  have h : ∀ k, (page k).toNat < 0x100 := fun k => (page k).toNat_lt
  have h₀ := h (4 * i)
  have h₁ := h (4 * i + 1)
  have h₂ := h (4 * i + 2)
  have h₃ := h (4 * i + 3)
  rw [wordAt]
  omega

theorem wordAt_pageOf {stack : Nat → Nat} {i : Nat} (h : stack i < 2 ^ 32) :
    wordAt (pageOf stack) i = stack i := by
  have hbyte : ∀ j < 4, (pageOf stack (4 * i + j)).toNat = stack i / 0x100 ^ j % 0x100 := by
    intro j hj
    rw [pageOf, Nat.mul_add_div (by decide), Nat.mul_add_mod, Nat.div_eq_of_lt hj,
      Nat.mod_eq_of_lt hj, Nat.add_zero, UInt8.toNat_ofNat']
  have h₀ := hbyte 0 (by decide)
  have h₁ := hbyte 1 (by decide)
  have h₂ := hbyte 2 (by decide)
  have h₃ := hbyte 3 (by decide)
  rw [Nat.add_zero] at h₀
  rw [wordAt, h₀, h₁, h₂, h₃]
  omega

/-- `STACK_TOP`. -/
def stackTop : Nat := 1023

def ssUCode : Nat := 0x18
def ssUData : Nat := 0x20

/-- `PL_USER`. -/
def plUser : Nat := 3

/-- `TASK_U_STACK_ADDRESS` and `TASK_K_STACK_ADDRESS`. -/
def taskUStackAddress : Nat := 0xff7fe000
def taskKStackAddress : Nat := 0xff7ff000

/-- The word of the kernel stack that `K_IN_SWITCH_ESP` points at. -/
def kInSwitchEsp : Nat := 1012

/-- The word of the kernel stack that `U_IN_SWITCH_ESP` points at. -/
def uInSwitchEsp : Nat := 1010

/-- `create_user_stack`. -/
def createUserStack (taskInit : Nat) (stack : Nat → Nat) (eflags eip userEsp : Nat) : Nat → Nat :=
  let stack := Function.update stack stackTop (ssUData ||| plUser)
  let stack := Function.update stack (stackTop - 1) userEsp
  let stack := Function.update stack (stackTop - 2) eflags
  let stack := Function.update stack (stackTop - 3) (ssUCode ||| plUser)
  let stack := Function.update stack (stackTop - 4) eip
  let stack := Function.update stack (stackTop - 5) taskInit
  let stack := Function.update stack (stackTop - 10) (taskKStackAddress + 1017 * 4)
  Function.update stack (stackTop - 11) (taskUStackAddress + 1024 * 4)

/-- The registers with which a process goes on at user level. -/
structure Context where
  edi : Nat
  esi : Nat
  ebp : Nat
  ebx : Nat
  edx : Nat
  ecx : Nat
  eax : Nat
  eip : Nat
  cs : Nat
  eflags : Nat
  esp : Nat
  ss : Nat

/-- The end of `task_switch` with `esp` at word `i` of the kernel stack: `popad` and `ret`, at
`task_init` followed by `iret`. The kernel's own return addresses are left out. -/
def resume (taskInit : Nat) (stack : Nat → Nat) (i : Nat) : Option Context :=
  if stack (i + 8) = taskInit then
    some {
      edi := stack i, esi := stack (i + 1), ebp := stack (i + 2), ebx := stack (i + 4),
      edx := stack (i + 5), ecx := stack (i + 6), eax := stack (i + 7),
      eip := stack (i + 9), cs := stack (i + 10), eflags := stack (i + 11),
      esp := stack (i + 12), ss := stack (i + 13) }
  else none

/-- The end of `isr_common`, after the handler of a system call put the result into `eax`. The
frame of the processor, two words and that of `pushad` are at the top of the kernel stack. -/
def syscallReturn (stack : Nat → Nat) (result : Nat) : Context where
  edi := stack (stackTop - 14)
  esi := stack (stackTop - 13)
  ebp := stack (stackTop - 12)
  ebx := stack (stackTop - 10)
  edx := stack (stackTop - 9)
  ecx := stack (stackTop - 8)
  eax := result
  eip := stack (stackTop - 4)
  cs := stack (stackTop - 3)
  eflags := stack (stackTop - 2)
  esp := stack (stackTop - 1)
  ss := stack stackTop

/-- What `create_user_stack` wrote to an empty page is a context of user level. -/
theorem resume_createUserStack {taskInit eflags eip userEsp : Nat} :
    resume taskInit (createUserStack taskInit (fun _ => 0) eflags eip userEsp) uInSwitchEsp =
      some ⟨0, 0, taskUStackAddress + 1024 * 4, 0, 0, 0, 0, eip, ssUCode ||| plUser, eflags,
        userEsp, ssUData ||| plUser⟩ := by
  simp [resume, createUserStack, uInSwitchEsp, stackTop, Function.update]

end SpuriOS
