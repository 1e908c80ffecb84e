import SpuriOS.Vga.Model
import SpuriOS.Lib.Transition
import Mathlib.Data.List.FinRange

/-! # The consoles (`kernel/con.c`)

The page of a console's buffer is its own from `con_open` to `con_flush`, so that a console holds
its screen by value. The links are pointers: an operation that follows a null one has no result.
Left out are the fields that only `device.c` and the readers of the keyboard use, and the task of
the screen saver. -/

namespace SpuriOS

/-- `MAX_CONSOLES`. -/
def maxConsoles : Nat := 8

abbrev ConId := Fin maxConsoles

structure ConDevice where
  klass : Klass
  /-- `buffer` and `state`. -/
  screen : Screen
  prev : Option ConId
  next : Option ConId

structure Con where
  consoles : ConId → ConDevice
  current : Option ConId
  /-- `vga_addr` and `vga_state`. -/
  vga : Screen

namespace Con

def next (s : Con) (c : ConId) : Option ConId := (s.consoles c).next
def prev (s : Con) (c : ConId) : Option ConId := (s.consoles c).prev
def klass (s : Con) (c : ConId) : Klass := (s.consoles c).klass
def screen (s : Con) (c : ConId) : Screen := (s.consoles c).screen

def setNext (s : Con) (c : ConId) (n : Option ConId) : Con :=
  { s with consoles := Function.update s.consoles c { s.consoles c with next := n } }

def setPrev (s : Con) (c : ConId) (p : Option ConId) : Con :=
  { s with consoles := Function.update s.consoles c { s.consoles c with prev := p } }

def setKlass (s : Con) (c : ConId) (k : Klass) : Con :=
  { s with consoles := Function.update s.consoles c { s.consoles c with klass := k } }

def setScreen (s : Con) (c : ConId) (scr : Screen) : Con :=
  { s with consoles := Function.update s.consoles c { s.consoles c with screen := scr } }

end Con

/-- The attribute `VGA_BC_BLACK | VGA_FC_WHITE`. -/
def defaultAttr : Byte := 0x07

/-- An empty buffer with the state of a new console. -/
def emptyScreen : Screen := ⟨fun _ => blankCell, 0, 0, defaultAttr⟩

def switchConsole (c : ConId) (s : Con) : Con :=
  if s.current = some c then s
  else
    let s := match s.current with
      | some cur => s.setScreen cur s.vga
      | none => s
    { s with current := some c, vga := vgaUpdateCursor (s.screen c) }

def addConsoleAfterCurrent (c : ConId) (s : Con) : Option Con :=
  match s.current with
  | some cur => do
    let s := (s.setPrev c (some cur)).setNext c (s.next cur)
    let n ← s.next cur
    return (s.setPrev n (some c)).setNext cur (some c)
  | none => some ((s.setPrev c (some c)).setNext c (some c))

def removeConsole (c : ConId) (s : Con) : Option Con :=
  if s.prev c = some c ∧ s.next c = some c then some s
  else do
    let p ← s.prev c
    let s := s.setNext p (s.next c)
    let n ← s.next c
    return s.setPrev n (s.prev c)

/-- The first console of the array that is not open. -/
def Con.freeConsole (s : Con) : Option ConId :=
  (List.finRange maxConsoles).find? fun c => s.klass c = .none

/-- `con_open`; `page` says whether `mm_mem_kalloc` has a page for the buffer. -/
def conOpen (page : Bool) (s : Con) : Option (Option ConId × Con) :=
  match s.freeConsole with
  | none => some (none, s)
  | some c =>
    if page then do
      let scr := if s.current = none then s.vga else emptyScreen
      let s ← addConsoleAfterCurrent c ((s.setScreen c scr).setKlass c .console)
      return (some c, switchConsole c s)
    else some (none, s)

/-- What `run_screen_saver` does before it runs a task: `vga_clear` and the two resets. -/
def runScreenSaver (s : Con) : Con :=
  let cells i := if i < vgaRows * vgaCols then blankCell else s.vga.cells i
  { s with vga := vgaUpdateCursor ⟨cells, 0, 0, defaultAttr⟩ }

/-- What `con_flush` does with the focus of the console that it closes. -/
def passFocus (c : ConId) (s : Con) : Option Con :=
  if s.current = some c then
    let s := { s with current := none }
    if s.prev c = some c ∧ s.next c = some c then some (runScreenSaver s)
    else (s.prev c).map fun p => switchConsole p s
  else some s

def conFlush (c : ConId) (s : Con) : Option Con := do
  let s ← removeConsole c s
  let s ← passFocus c s
  return s.setKlass c .none

def Con.conWrite (c : ConId) (buf : Nat → Byte) (size : Nat) (s : Con) : Nat × Con :=
  if s.current = some c then
    let r := vgaWritebuf true s.vga buf size
    (r.1, { s with vga := vgaUpdateCursor r.2 })
  else
    let r := vgaWritebuf false (s.screen c) buf size
    (r.1, s.setScreen c r.2)

/-- The two combinations of keys that `keyboard_handler` looks for. -/
def switchPrev (s : Con) : Option Con :=
  match s.current with
  | some cur => (s.prev cur).map fun p => switchConsole p s
  | none => some s

def switchNext (s : Con) : Option Con :=
  match s.current with
  | some cur => (s.next cur).map fun n => switchConsole n s
  | none => some s

inductive ConLabel where
  | open (page : Bool)
  | flush (c : ConId)
  | prev
  | next
  | write (c : ConId) (buf : Nat → Byte) (size : Nat)

/-- Only the consoles that are open can be closed or written to. -/
def ConLabel.Enabled (s : Con) : ConLabel → Prop
  | .flush c | .write c _ _ => s.klass c = .console
  | _ => True

def conStep (s : Con) : ConLabel → Option Con
  | .open page => (conOpen page s).map (·.2)
  | .flush c => conFlush c s
  | .prev => switchPrev s
  | .next => switchNext s
  | .write c buf size => some (Con.conWrite c buf size s).2

/-- After `con_init`, with the cursor anywhere on the screen. -/
structure Con.Initial (s : Con) : Prop where
  klass : ∀ c, s.klass c = .none
  current : s.current = none
  onScreen : s.vga.OnScreen

open Transition in
def conSystem : System Con ConLabel where
  init := Con.Initial
  step s a s' := a.Enabled s ∧ conStep s a = some s'

/-! ## The fields after an assignment -/

namespace Con
variable {s : Con} {c : ConId} {o : Option ConId} {k : Klass} {scr : Screen}

@[simp] theorem next_setNext : (s.setNext c o).next = Function.update s.next c o := by
  funext d
  by_cases h : d = c <;> simp [next, setNext, h]

@[simp] theorem prev_setNext : (s.setNext c o).prev = s.prev := by
  funext d
  by_cases h : d = c <;> simp [prev, setNext, h]

@[simp] theorem klass_setNext : (s.setNext c o).klass = s.klass := by
  funext d
  by_cases h : d = c <;> simp [klass, setNext, h]

@[simp] theorem screen_setNext : (s.setNext c o).screen = s.screen := by
  funext d
  by_cases h : d = c <;> simp [screen, setNext, h]

@[simp] theorem current_setNext : (s.setNext c o).current = s.current := rfl
@[simp] theorem vga_setNext : (s.setNext c o).vga = s.vga := rfl

@[simp] theorem next_setPrev : (s.setPrev c o).next = s.next := by
  funext d
  by_cases h : d = c <;> simp [next, setPrev, h]

@[simp] theorem prev_setPrev : (s.setPrev c o).prev = Function.update s.prev c o := by
  funext d
  by_cases h : d = c <;> simp [prev, setPrev, h]

@[simp] theorem klass_setPrev : (s.setPrev c o).klass = s.klass := by
  funext d
  by_cases h : d = c <;> simp [klass, setPrev, h]

@[simp] theorem screen_setPrev : (s.setPrev c o).screen = s.screen := by
  funext d
  by_cases h : d = c <;> simp [screen, setPrev, h]

@[simp] theorem current_setPrev : (s.setPrev c o).current = s.current := rfl
@[simp] theorem vga_setPrev : (s.setPrev c o).vga = s.vga := rfl

@[simp] theorem next_setKlass : (s.setKlass c k).next = s.next := by
  funext d
  by_cases h : d = c <;> simp [next, setKlass, h]

@[simp] theorem prev_setKlass : (s.setKlass c k).prev = s.prev := by
  funext d
  by_cases h : d = c <;> simp [prev, setKlass, h]

@[simp] theorem klass_setKlass : (s.setKlass c k).klass = Function.update s.klass c k := by
  funext d
  by_cases h : d = c <;> simp [klass, setKlass, h]

@[simp] theorem screen_setKlass : (s.setKlass c k).screen = s.screen := by
  funext d
  by_cases h : d = c <;> simp [screen, setKlass, h]

@[simp] theorem current_setKlass : (s.setKlass c k).current = s.current := rfl
@[simp] theorem vga_setKlass : (s.setKlass c k).vga = s.vga := rfl

@[simp] theorem next_setScreen : (s.setScreen c scr).next = s.next := by
  funext d
  by_cases h : d = c <;> simp [next, setScreen, h]

@[simp] theorem prev_setScreen : (s.setScreen c scr).prev = s.prev := by
  funext d
  by_cases h : d = c <;> simp [prev, setScreen, h]

@[simp] theorem klass_setScreen : (s.setScreen c scr).klass = s.klass := by
  funext d
  by_cases h : d = c <;> simp [klass, setScreen, h]

@[simp] theorem screen_setScreen : (s.setScreen c scr).screen = Function.update s.screen c scr := by
  funext d
  by_cases h : d = c <;> simp [screen, setScreen, h]

@[simp] theorem current_setScreen : (s.setScreen c scr).current = s.current := rfl
@[simp] theorem vga_setScreen : (s.setScreen c scr).vga = s.vga := rfl

/-- The screen that a console shows, or would show with the focus. -/
def shown (s : Con) (c : ConId) : Screen := if s.current = some c then s.vga else s.screen c

end Con

/-- A switch only moves screens and the focus. -/
structure Switched (s : Con) (c : ConId) (s' : Con) : Prop where
  next : s'.next = s.next
  prev : s'.prev = s.prev
  klass : s'.klass = s.klass
  current : s'.current = some c

theorem switchConsole_switched (s : Con) (c : ConId) : Switched s c (switchConsole c s) := by
  unfold switchConsole
  split
  case isTrue h => exact ⟨rfl, rfl, rfl, h⟩
  case isFalse =>
    cases hcur : s.current with
    | none => exact ⟨rfl, rfl, rfl, rfl⟩
    | some cur =>
      exact ⟨s.next_setScreen, s.prev_setScreen, s.klass_setScreen, rfl⟩

end SpuriOS
