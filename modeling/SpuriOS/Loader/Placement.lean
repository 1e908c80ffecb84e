import SpuriOS.Loader.Places

/-! # Every process is in one place (`kernel/loader.c`, `kernel/sched.c`)

The run theorem is about the runs in which no flush function called by `loader_exit` waits: one
that does takes the slot of another process away, since the process that exits has already given
up its own. -/

namespace SpuriOS

open Transition

section
variable {Q : Type}

/-- Every process is in one place, and the scheduler was always called for its `actual`. The
machine only halts when `get_new_pid` finds no free pid. -/
structure Kernel.Sound (k : Kernel Q) : Prop where
  placement : k.halted = false → ∃ r w z, k.Placement r w z []
  halted : k.halted = true → getNewPid k = none
  schedCalls : ∀ c ∈ k.schedCalls, c.Ok

theorem Kernel.Settled.sound {k : Kernel Q} (h : k.Settled) : k.Sound := by
  rcases h with ⟨r, w, z, hinv⟩ | ⟨hhalt, hfree, hcalls⟩
  · exact ⟨fun _ => ⟨r, w, z, hinv.toPlacement⟩,
      fun hhalt => absurd (hinv.running.symm.trans hhalt) (by decide), hinv.schedCalls⟩
  · exact ⟨fun hrun => absurd (hrun.symm.trans hhalt) (by decide), fun _ => hfree, hcalls⟩

/-- In every run in which no flush function called by `loader_exit` waits, every live process but
the idle one is in one place, and `sched_block` and `sched_exit` take the slot of the process they
are called for. -/
theorem placement_sound [DecidableEq Q] {k : Kernel Q}
    (h : Reach (kernelSystem Q) noFlushWaits k) : k.Sound :=
  (Kernel.settled h).sound

end

/-! ## Runs of two processes -/

/-- Two processes have been loaded, and the first one runs. -/
def Kernel.twoLoaded : Kernel Unit :=
  .after (timerSwitch (.after (loaderLoad (.after (loaderLoad .boot)))))

theorem Kernel.twoLoaded_reach {ok : Kernel Unit → KernelLabel Unit → Prop}
    (hload : ∀ k, ok k .load) (hswitch : ∀ k, ok k .timerSwitch) :
    Reach (kernelSystem Unit) ok .twoLoaded :=
  .step (.step (.step (.init Kernel.boot_initial) (hload _) (.load rfl rfl)) (hload _)
    (.load rfl rfl)) (hswitch _) (.timerSwitch rfl)

theorem Kernel.twoLoaded_calls : Kernel.twoLoaded.calls := ⟨by decide, rfl⟩

/-- The first of two processes waits, the second one wakes it up and exits. -/
theorem placement_sound_exit :
    (Kernel.after (loaderExit [.unqueue ()] (.after (loaderEnqueue () .twoLoaded)))).Sound := by
  have hwait : Reach (kernelSystem Unit) noFlushWaits (.after (loaderEnqueue () .twoLoaded)) :=
    .step (Kernel.twoLoaded_reach (fun _ => trivial) fun _ => trivial)
      (show noFlushWaits Kernel.twoLoaded (.enqueue ()) from trivial)
      (.enqueue rfl Kernel.twoLoaded_calls)
  have hops : noWait [FlushOp.unqueue ()] := fun q hq => by simp at hq
  exact placement_sound (.step hwait (show noFlushWaits _ (.exit _) from hops)
    (.exit rfl ⟨by decide, rfl⟩))

/-- A process that waits for the disk while it exits takes away the slot of the other process. -/
theorem flush_waits : ∃ k, Reach (kernelSystem Unit) anyStep k ∧ ¬k.Sound := by
  let ops : List (FlushOp Unit) := [.enqueue (), .load]
  have hexit : KernelStep .twoLoaded (.exit ops) (.after (loaderExit ops .twoLoaded)) :=
    .exit rfl Kernel.twoLoaded_calls
  refine ⟨_, .step (Kernel.twoLoaded_reach (fun _ => trivial) fun _ => trivial) trivial hexit,
    fun h => ?_⟩
  have hcalls : (Kernel.after (loaderExit ops .twoLoaded)).schedCalls =
      [⟨1, some 1, 2⟩, ⟨1, some 2, 1⟩] := rfl
  have hok := h.schedCalls ⟨1, some 2, 1⟩ (by rw [hcalls]; simp)
  exact absurd hok.1 (by decide)

end SpuriOS
