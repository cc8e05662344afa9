/-
  X8664/State.lean --- the state that `bootstrap.c` works on.

  `BootOptions` is `boot_options_t`; `BootState` holds the physical memory, the C
  globals (`global_options`, `kernel_entry`, `g_error`) and three observations: the
  characters written to the console, the addresses that `memset` stored to and the
  page-table events of the run, each in order.  Every function of the file maps
  a state to a state or halts: `error` prints its message and never returns, and a
  loop may fail to end.

  The program's own variables and its stack are not part of `mem`: `global_options`,
  `kernel_entry` and `g_error` are fields of the state, and so is the display at
  0xB8000, as what was written to it, `console`.  The progress reports under `#if DEBUG` print only, and are left
  out.
-/
import HosBoot.Foundation.Memory

set_option autoImplicit false

namespace HosBoot.X8664

open HosBoot.Foundation

/-! ## Constants -/

/-- `ONE_GIGABYTE` -/
def oneGigabyte : UInt32 := 1024 * 1024 * 1024
/-- `PAGE_SIZE` -/
def pageSize : UInt32 := 0x1000
/-- `PAGE_ACCESS_WRITABLE` -/
def pageAccessWritable : UInt16 := 0x2
/-- `PAGE_ACCESS_PRESENT` -/
def pageAccessPresent : UInt16 := 0x1
/-- `PAGE_ACCESS_BITS` -/
def pageAccessBits : UInt32 := 0x3
/-- `KERNEL_LOAD_ADDRESS` -/
def kernelLoadAddress : UInt64 := 0xffff800000000000
/-- `PML4_ENTRY` -/
def pml4Entry : Nat := 256

/-! ## The state -/

/-- `boot_options_t`. -/
structure BootOptions where
  /-- A `char *`. -/
  kernelName : Nat
  kernelStart : UInt32 := 0
  kernelEnd : UInt32 := 0
  pageTableStart : UInt32 := 0
  pageTableEnd : UInt32 := 0
  highestModuleAddress : UInt32 := 0
  bssPages : UInt32 := 0
  pml4Ptr : UInt32 := 0
  deriving DecidableEq, Repr

/-- What the page-table builder does that can be observed from outside. -/
inductive PageEvent where
  /-- `alloc_page` hands out a page for a PML4, PDPT, PD or page table. -/
  | table (page : UInt32)
  /-- `alloc_page` hands out a frame for a bss page. -/
  | bss (page : UInt32)
  /-- A 64-bit store through `pml4`, `pdpt`, `pdt` or `pt`. -/
  | store (addr : Nat)
  /-- `map_page` is called. -/
  | map (realAddr virtAddr : UInt64) (accessBits : UInt16)
  deriving DecidableEq, Repr

/-- The machine as the C code of the bootstrapper sees it. -/
structure BootState where
  /-- Physical memory, without the variables and the stack of the program and without
  the display. -/
  mem : Mem
  /-- `global_options`. -/
  options : BootOptions
  /-- `kernel_entry`. -/
  kernelEntry : UInt64 := 0
  /-- `g_error`, null at first. -/
  gError : Option String := none
  /-- The characters passed to `putc`, in order. -/
  console : List UInt8 := []
  /-- The addresses that `memset` stored to, in order. -/
  zeroed : List UInt32 := []
  /-- The events of `build_page_tables`, newest first. -/
  pageLog : List PageEvent := []

/-- Why a function of `bootstrap.c` does not return. -/
inductive Halt where
  /-- `error(msg)`: the message is printed and `for (;;);` is entered. -/
  | error (msg : String) (s : BootState)
  /-- A loop of the source runs forever. -/
  | diverges

/-- The bytes of a message. -/
def bytesOf (msg : String) : List UInt8 := msg.toList.map fun c => UInt8.ofNat c.toNat

namespace BootState

/-- Pass characters to the terminal. -/
def print (s : BootState) (text : List UInt8) : BootState :=
  { s with console := s.console ++ text }

@[simp] theorem print_mem (s : BootState) (text : List UInt8) :
    (s.print text).mem = s.mem := rfl
@[simp] theorem print_options (s : BootState) (text : List UInt8) :
    (s.print text).options = s.options := rfl

/-- `error`: print the message and never return. -/
def error {α : Type} (s : BootState) (msg : String) : Except Halt α :=
  .error (.error msg (s.print (bytesOf msg)))

theorem error_ne_ok {α : Type} (s : BootState) (msg : String) (x : α) :
    s.error msg ≠ .ok x := by
  simp [error]

end BootState

end HosBoot.X8664
