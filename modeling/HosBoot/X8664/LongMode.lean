/-
  X8664/LongMode.lean --- the jump to the kernel.

  `boot.S` is straight-line code: `_enterLongMode` turns on paging with the tables
  that `edi` points to and jumps to `Realm64`, which jumps to the kernel.  The
  instructions are executed on the registers they name.  `boot` is the whole
  bootstrapper, from `initMultiboot64` to that last jump.
-/
import HosBoot.X8664.KernelHalf

set_option autoImplicit false

namespace HosBoot.X8664

open HosBoot.Foundation HosBoot.Common

/-! ## The machine -/

/-- The registers that the code uses. -/
structure Cpu where
  rax : UInt64
  ebx : UInt32
  ecx : UInt32
  edx : UInt32
  edi : UInt32
  cr0 : UInt32
  cr3 : UInt32
  cr4 : UInt32
  /-- The model-specific registers, by number. -/
  msr : UInt32 → UInt64
  /-- The address that `lgdt` was given. -/
  gdt : UInt32
  cs : UInt16
  /-- `ds`, `es`, `fs` and `gs`, which are loaded together. -/
  dataSegments : UInt16
  interrupts : Bool
  rip : UInt64

/-- The instructions of the two routines. -/
inductive Instr where
  | movEaxCr4
  | movCr4Eax
  | movEaxCr0
  | movCr0Eax
  | movCr3Edi
  | movEcx (imm : UInt32)
  | movEax (imm : UInt32)
  /-- `bts $bit, %eax` -/
  | btsEax (bit : UInt32)
  | orEax (imm : UInt32)
  | rdmsr
  | wrmsr
  /-- `lgdt (%eax)` -/
  | lgdtEax
  | ljmp (selector : UInt16) (target : UInt32)
  | cli
  /-- `mov $imm, %ax` and the moves of `%ax` to the data segments. -/
  | loadDataSegments (imm : UInt16)
  /-- `movabs $imm, %rax` -/
  | movabsRax (imm : UInt64)
  /-- `jmp *%rax` -/
  | jmpRax

namespace Cpu

/-- The low half of `rax`. -/
def eax (c : Cpu) : UInt32 := c.rax.toUInt32

/-- A write to `eax` clears the high half. -/
def setEax (c : Cpu) (v : UInt32) : Cpu := { c with rax := v.toUInt64 }

/-- One instruction. -/
def exec (c : Cpu) : Instr → Cpu
  | .movEaxCr4 => c.setEax c.cr4
  | .movCr4Eax => { c with cr4 := c.eax }
  | .movEaxCr0 => c.setEax c.cr0
  | .movCr0Eax => { c with cr0 := c.eax }
  | .movCr3Edi => { c with cr3 := c.edi }
  | .movEcx imm => { c with ecx := imm }
  | .movEax imm => c.setEax imm
  | .btsEax bit => c.setEax (c.eax ||| 1 <<< bit)
  | .orEax imm => c.setEax (c.eax ||| imm)
  | .rdmsr =>
      { c.setEax (c.msr c.ecx).toUInt32 with edx := (c.msr c.ecx >>> 32).toUInt32 }
  | .wrmsr =>
      { c with msr := fun r =>
          if r = c.ecx then c.edx.toUInt64 <<< 32 ||| c.eax.toUInt64 else c.msr r }
  | .lgdtEax => { c with gdt := c.eax }
  | .ljmp selector target => { c with cs := selector, rip := target.toUInt64 }
  | .cli => { c with interrupts := false }
  | .loadDataSegments imm => { c with dataSegments := imm }
  | .movabsRax imm => { c with rax := imm }
  | .jmpRax => { c with rip := c.rax }

/-- A sequence of instructions. -/
def run (c : Cpu) (code : List Instr) : Cpu := code.foldl exec c

end Cpu

/-! ## The code -/

/-- The addresses that the linker fills in. -/
structure BootSymbols where
  gdtPointer : UInt32
  realm64 : UInt32

/-- The number of EFER. -/
def efer : UInt32 := 0xc0000080

/-- `_enterLongMode`. -/
def enterLongMode (sym : BootSymbols) : List Instr :=
  [ -- Enable 64-bit page translation.
    .movEaxCr4, .btsEax 5, .movCr4Eax,
    -- Set up the long-mode page tables.
    .movCr3Edi,
    -- Enable long mode.
    .movEcx efer, .rdmsr, .orEax 0x100, .wrmsr,
    -- Enable paging.
    .movEaxCr0, .btsEax 31, .movCr0Eax,
    -- Load the 64-bit GDT, and jump.
    .movEax sym.gdtPointer, .lgdtEax, .ljmp 0x08 sym.realm64]

/-- `Realm64`.  The instructions that load `kernel_entry` are commented out in the
source; the address is a constant. -/
def realm64 : List Instr :=
  [.cli, .loadDataSegments 0x10, .movabsRax 0xffff800000000001, .jmpRax]

/-- The bootstrapper: `initMultiboot64`, whose last statement jumps to `_enterLongMode`
with `pml4_ptr` in `edi` and `multiboot` in `ebx`. -/
def boot (sym : BootSymbols) (cpu : Cpu) (s : BootState) (multiboot : UInt32) :
    Except Halt (BootState × Cpu) := do
  let s ← initMultiboot64 s multiboot
  let cpu := { cpu with edi := s.options.pml4Ptr, ebx := multiboot }
  return (s, (cpu.run (enterLongMode sym)).run realm64)

/-- A register put together from its halves, with bits of the low half set. -/
theorem join_halves_or (x : UInt64) (bits : UInt32) :
    (x >>> 32).toUInt32.toUInt64 <<< 32 ||| (x.toUInt32 ||| bits).toUInt64 =
      x ||| bits.toUInt64 := by
  have hlt := x.toNat_lt
  have hshift : (32 : UInt64).toNat % 64 = 32 := rfl
  have hhigh : ((x >>> 32).toUInt32.toUInt64 <<< 32).toNat = 2 ^ 32 * (x.toNat / 2 ^ 32) := by
    rw [UInt64.toNat_shiftLeft, UInt32.toNat_toUInt64, UInt64.toNat_toUInt32,
      UInt64.toNat_shiftRight, hshift, Nat.shiftRight_eq_div_pow, Nat.shiftLeft_eq]
    omega
  have hlow : x.toUInt32.toUInt64.toNat = x.toNat % 2 ^ 32 := by
    rw [UInt32.toNat_toUInt64, UInt64.toNat_toUInt32]
  have hjoin : (x >>> 32).toUInt32.toUInt64 <<< 32 ||| x.toUInt32.toUInt64 = x := by
    refine UInt64.toNat_inj.mp ?_
    rw [UInt64.toNat_or, hhigh, hlow]
    have hor := or_of_lowBits_clear (k := 32) (Nat.dvd_mul_right (2 ^ 32) (x.toNat / 2 ^ 32))
      (Nat.mod_lt x.toNat (Nat.two_pow_pos 32))
    rw [hor]
    omega
  rw [UInt32.toUInt64_or, ← UInt64.or_assoc, hjoin]

/-- What the code leaves in the registers, whatever they held: paging in long mode, with
the tables of `edi`, and the address of the last jump. -/
theorem run_bootCode (sym : BootSymbols) (c : Cpu) :
    ((c.run (enterLongMode sym)).run realm64).cr3 = c.edi ∧
      ((c.run (enterLongMode sym)).run realm64).ebx = c.ebx ∧
      ((c.run (enterLongMode sym)).run realm64).cs = 0x08 ∧
      ((c.run (enterLongMode sym)).run realm64).rip = 0xffff800000000001 ∧
      ((c.run (enterLongMode sym)).run realm64).cr4 = c.cr4 ||| 0x20 ∧
      ((c.run (enterLongMode sym)).run realm64).cr0 = c.cr0 ||| 0x80000000 ∧
      ((c.run (enterLongMode sym)).run realm64).msr efer = c.msr efer ||| 0x100 := by
  refine ⟨rfl, rfl, rfl, rfl, ?_, ?_, ?_⟩
  · change (c.cr4.toUInt64.toUInt32 ||| 0x20).toUInt64.toUInt32 = c.cr4 ||| 0x20
    rw [UInt32.toUInt32_toUInt64, UInt32.toUInt32_toUInt64]
  · change (c.cr0.toUInt64.toUInt32 ||| 0x80000000).toUInt64.toUInt32 = c.cr0 ||| 0x80000000
    rw [UInt32.toUInt32_toUInt64, UInt32.toUInt32_toUInt64]
  · change (c.msr efer >>> 32).toUInt32.toUInt64 <<< 32 |||
      ((c.msr efer).toUInt32.toUInt64.toUInt32 ||| 0x100).toUInt64.toUInt32.toUInt64 =
        c.msr efer ||| 0x100
    rw [UInt32.toUInt32_toUInt64, UInt32.toUInt32_toUInt64]
    exact join_halves_or (c.msr efer) 0x100

/-! ## The hand-off -/

/-- A boot that reaches the jump. -/
theorem boot_eq_ok {sym : BootSymbols} {cpu cpu' : Cpu} {s s' : BootState}
    {multiboot : UInt32} :
    boot sym cpu s multiboot = .ok (s', cpu') ↔
      (∃ s₁, prepareBoot s multiboot = .ok s₁ ∧ loadKernel s₁ multiboot = .ok s') ∧
        cpu' = (Cpu.run { cpu with edi := s'.options.pml4Ptr, ebx := multiboot }
          (enterLongMode sym)).run realm64 := by
  constructor
  · intro h
    obtain ⟨s'', hinit, hret⟩ := bind_eq_ok.mp h
    obtain ⟨rfl, rfl⟩ := Prod.mk.inj (Except.ok.inj hret)
    exact ⟨bind_eq_ok.mp hinit, rfl⟩
  · rintro ⟨⟨s₁, hprepare, hload⟩, rfl⟩
    exact bind_eq_ok.mpr ⟨s', bind_eq_ok.mpr ⟨s₁, hprepare, hload⟩, rfl⟩

/-- `e_entry` of the kernel. -/
def entryPoint (s : BootState) : UInt64 := (kernelHeader s.mem s.options.kernelStart).eEntry

/-- At the jump, the tables are the ones that were built, the jump goes to `entry`, and
the tables translate that address to `target`. -/
structure HandsOff (s : BootState) (cpu : Cpu) (entry : UInt64) (target : Nat) : Prop where
  tables : cpu.cr3 = s.options.pml4Ptr
  jump : cpu.rip = entry
  translated : pageWalk s.mem cpu.cr3.toNat cpu.rip = some target

/-- The entry point is the byte `o` of an executable section that loads from the file,
and that byte is in the module. -/
structure EntryIn (s : BootState) (sec : Elf64Shdr) (o : Nat) : Prop where
  mem : sec ∈ kernelSections s.mem s.options.kernelStart
  loads : sec.willLoadNotBss = true
  executable : sec.hasFlag shfExecinstr = true
  lt : o < sec.shSize.toNat
  entry : (entryPoint s).toNat = sec.shAddr.toNat + o
  inModule : s.options.kernelStart.toNat + sec.shOffset.toNat + o < s.options.kernelEnd.toNat

/-- The page that the loop maps last at the entry point is the entry's own, or one with
the same frame. -/
def EntryPageStands (s : BootState) (sec : Elf64Shdr) (o : Nat) : Prop :=
  ∃ other n, lastPageAt (sectionPlan (kernelSections s.mem s.options.kernelStart))
      (pageSlot (entryPoint s)) = some (other, n) ∧
    other.willLoadNotBss = true ∧
    (s.options.kernelStart.toNat + other.shOffset.toNat + 4096 * n) % 2 ^ 52 =
      s.options.kernelStart.toNat + sec.shOffset.toNat + 4096 * (o / 4096)

/-- Without overlapping sections the page of the entry point stands. -/
theorem EntryIn.pageStands {s : BootState} {sec : Elf64Shdr} {o : Nat} (h : EntryIn s sec o)
    (htable : LinkedTable (kernelSections s.mem s.options.kernelStart)) :
    EntryPageStands s sec o := by
  have hwill : sec.willLoad = true := by
    rw [Elf64Shdr.willLoad_eq, h.loads, Bool.or_true]
  have hround : sec.shSize.toNat ≤ sec.pageRounded := le_roundUp (by omega) _
  have hentry := h.entry
  have hlt := h.lt
  have hload : LoadsAt sec (entryPoint s).toNat := ⟨hwill, by omega, by omega⟩
  have hoffset : (entryPoint s).toNat - sec.shAddr.toNat = o := by omega
  obtain ⟨_, hn, hslot⟩ := htable.page_of_loadsAt h.mem hload
  have hlast := lastPageAt_of_unique (mem_sectionPlan.mpr ⟨h.mem, hn⟩)
    (htable.page_unique h.mem hload)
  rw [hslot, hoffset] at hlast
  have hmodule := h.inModule
  have hend := s.options.kernelEnd.toNat_lt
  exact ⟨sec, o / 4096, hlast, h.loads, Nat.mod_eq_of_lt (by omega)⟩

/-- What the boot relies on, and the code does not check: the memory map has a sound
place for the tables, the sizes of the sections add up to no more than one gigabyte,
the headers lie in the module, and the sections in the window. -/
structure SoundBoot (s : BootState) (multiboot : UInt32) (entries : List MmapEntry) :
    Prop where
  map : MemoryMap s.mem multiboot entries
  size : exactSize (kernelSections s.mem s.options.kernelStart) ≤ 2 ^ 30
  fits : FitsBelow4G entries s.options.highestModuleAddress
    (Int32.ofNat (estimatedPages (kernelSections s.mem s.options.kernelStart)))
  header : s.options.kernelStart.toNat + sizeofEhdr ≤ s.options.kernelEnd.toNat
  sections : ∀ i < (kernelHeader s.mem s.options.kernelStart).eShnum.toNat, 1 ≤ i →
    (sectionHeaderAddr s.mem s.options.kernelStart i).toNat + sizeofShdr ≤
      s.options.kernelEnd.toNat
  inWindow : ∀ sec ∈ kernelSections s.mem s.options.kernelStart, ∀ a, LoadsAt sec a →
    InRange kernelLoadAddress.toNat (2 ^ 30) a

/-- The rest of a sound `load_kernel` is prepared. -/
theorem SoundBoot.loadsSoundly {s : BootState} {multiboot : UInt32} {entries : List MmapEntry}
    (h : SoundBoot s multiboot entries) (hs : Prepared s.options) :
    LoadsSoundly s multiboot entries where
  map := h.map
  start := hs.start
  finish := hs.finish
  size := h.size
  fits := h.fits
  image := by
    intro a ha
    exact (lt_of_imageByte (Nat.le_refl _) h.header h.sections ha).trans_le hs.kernel

namespace LoadedKernel

variable {entries : List MmapEntry} {s s' : BootState} {R : Reservation} {b : PageBuilder}

/-- The entry point is translated to its byte of the module exactly if its page stands. -/
theorem pageWalk_entry_iff (h : LoadedKernel entries s s' R b) {multiboot : UInt32}
    (hs : LoadsSoundly s multiboot entries) (hwindow : InWindow (entryPoint s))
    {sec : Elf64Shdr} {o : Nat} (hentry : EntryIn s sec o) :
    pageWalk s'.mem s'.options.pml4Ptr.toNat (entryPoint s) =
        some (s.options.kernelStart.toNat + sec.shOffset.toNat + o) ↔
      EntryPageStands s sec o := by
  have hwill : sec.willLoad = true := by
    rw [Elf64Shdr.willLoad_eq, hentry.loads, Bool.or_true]
  obtain ⟨⟨q, hq⟩, _⟩ := h.sectionsAligned sec hentry.mem hwill
  have heq := hentry.entry
  have hlow : (entryPoint s).toNat % 4096 = o % 4096 := by omega
  -- The walk of a file page, as a sum of exact quantities.
  have hfileWalk : ∀ other n, other.willLoadNotBss = true →
      lastPageAt (sectionPlan (kernelSections s.mem s.options.kernelStart))
        (pageSlot (entryPoint s)) = some (other, n) →
      pageWalk s'.mem s'.options.pml4Ptr.toNat (entryPoint s) =
        some ((s.options.kernelStart.toNat + other.shOffset.toNat + 4096 * n) % 2 ^ 52 +
          o % 4096) := by
    intro other n hfile hlast
    have hwalk := h.pageWalk_file hwindow hfile hlast
    rw [pageReal_toNat, hlow, Nat.mod_mod_of_dvd _ (by decide)] at hwalk
    exact hwalk
  constructor
  · intro hwalk
    cases hlast : lastPageAt (sectionPlan (kernelSections s.mem s.options.kernelStart))
        (pageSlot (entryPoint s)) with
    | none =>
      rw [h.pageWalk_none hwindow hlast] at hwalk
      cases hwalk
    | some page =>
      obtain ⟨other, n⟩ := page
      rcases file_or_bss_of_mem_sectionPlan (of_lastPageAt hlast).1 with hfile | hbss
      · have hsum := Option.some.inj ((hfileWalk other n hfile hlast).symm.trans hwalk)
        exact ⟨other, n, hlast, hfile, by omega⟩
      · -- A bss frame is not in the module.
        obtain ⟨frame, _, hframe, hbssWalk⟩ := h.pageWalk_bss hwindow hbss hlast
        have hsum := Option.some.inj (hbssWalk.symm.trans hwalk)
        have hin := hframe frame ⟨Nat.le_refl _, by omega⟩
        have hlo : R.start ≤ frame := hin.1
        have habove := h.aboveModules
        have hbyte := hentry.inModule
        have hbelow := hs.image _ (Or.inl ⟨Nat.le_add_right _ (sec.shOffset.toNat + o), by omega⟩)
        omega
  · rintro ⟨other, n, hlast, hfile, hframe⟩
    have hsum : s.options.kernelStart.toNat + sec.shOffset.toNat + 4096 * (o / 4096) + o % 4096 =
        s.options.kernelStart.toNat + sec.shOffset.toNat + o := by omega
    rw [hfileWalk other n hfile hlast, hframe, hsum]

end LoadedKernel

/-- In every boot that reaches the jump, `kernel_entry` is the entry point of the kernel
and the jump goes to `0xffff800000000001`.  On a sound boot the kernel is entered at
its entry point, on the byte that the image has there, exactly if that is the entry
point and its page stands. -/
theorem boot_handsOff_iff {sym : BootSymbols} {cpu cpu' : Cpu} {s s₁ s' : BootState}
    {multiboot : UInt32} {name : Nat} (hinit : s.options = { kernelName := name })
    (hprepare : prepareBoot s multiboot = .ok s₁)
    (hboot : boot sym cpu s multiboot = .ok (s', cpu')) :
    s'.kernelEntry = entryPoint s₁ ∧ cpu'.cr3 = s'.options.pml4Ptr ∧
      cpu'.rip = 0xffff800000000001 ∧
      ∀ entries, SoundBoot s₁ multiboot entries → ∀ sec o, EntryIn s₁ sec o →
        (HandsOff s' cpu' (entryPoint s₁)
            (s₁.options.kernelStart.toNat + sec.shOffset.toNat + o) ↔
          entryPoint s₁ = 0xffff800000000001 ∧ EntryPageStands s₁ sec o) := by
  obtain ⟨⟨s₂, hprepare', hload⟩, rfl⟩ := boot_eq_ok.mp hboot
  obtain rfl := Except.ok.inj (hprepare'.symm.trans hprepare)
  obtain ⟨hcr3, _, _, hrip, _⟩ := run_bootCode sym
    { cpu with edi := s'.options.pml4Ptr, ebx := multiboot }
  have hkernelEntry : s'.kernelEntry = entryPoint s₂ := by
    obtain ⟨_, _, _, _, hrun, rfl⟩ := loadKernel_eq_ok.mp hload
    rw [buildPageTables_kernelEntry]
    exact hrun.reserved_kernelEntry
  refine ⟨hkernelEntry, hcr3, hrip, ?_⟩
  intro entries hsound sec o hentry
  have hprepared : Prepared s₂.options := by
    refine prepareBoot_prepared hprepare ?_
    rw [hinit]
    exact ⟨rfl, rfl, Nat.le_refl _⟩
  have hs := hsound.loadsSoundly hprepared
  obtain ⟨R, b, h⟩ := loadKernel_loaded hload hs
  have hwindow : InWindow (entryPoint s₂) := by
    refine hsound.inWindow sec hentry.mem _ ⟨?_, ?_⟩
    · rw [Elf64Shdr.willLoad_eq, hentry.loads, Bool.or_true]
    · have hround : sec.shSize.toNat ≤ sec.pageRounded := le_roundUp (by omega) _
      have hlt := hentry.lt
      rw [hentry.entry]
      exact ⟨Nat.le_add_right _ _, by omega⟩
  have hwalk := h.pageWalk_entry_iff hs hwindow hentry
  constructor
  · rintro ⟨_, hjump, htranslated⟩
    have hconst : entryPoint s₂ = 0xffff800000000001 := hjump.symm.trans hrip
    rw [hcr3, hjump] at htranslated
    exact ⟨hconst, hwalk.mp htranslated⟩
  · rintro ⟨hconst, hstands⟩
    have hjump := hrip.trans hconst.symm
    refine ⟨hcr3, hjump, ?_⟩
    rw [hcr3, hjump]
    exact hwalk.mpr hstands

/-! ## Two kernels -/

/-- Where a bootstrapper might be linked. -/
def bootSymbols : BootSymbols := ⟨0x104000, 0x100400⟩

/-- A processor with empty registers. -/
def startCpu : Cpu :=
  ⟨0, 0, 0, 0, 0, 0, 0, 0, fun _ => 0, 0, 0, 0, true, 0⟩

section Machine

variable {image : SmallImage} (h : image ∈ bootImages)

include h

theorem bootMachine_boots :
    ∃ text s' cpu', prepareBoot (bootMachine image) bootMultiboot =
        .ok (preparedMachine image text) ∧
      boot bootSymbols startCpu (bootMachine image) bootMultiboot = .ok (s', cpu') := by
  obtain ⟨text, hprepare⟩ := prepareBoot_bootMachine h
  obtain ⟨s', hrun⟩ :=
    (preparedMachine_accepts h text).completes (preparedMachine_loadsSoundly h text)
  exact ⟨text, s', _, hprepare, boot_eq_ok.mpr ⟨⟨_, hprepare, hrun⟩, rfl⟩⟩

/-- The machine is sound for an image in the window. -/
theorem preparedMachine_soundBoot (text : List UInt8)
    (hwindow : ∀ a, LoadsAt image.text a → InRange kernelLoadAddress.toNat (2 ^ 30) a) :
    SoundBoot (preparedMachine image text) bootMultiboot bootMap := by
  have hs := preparedMachine_loadsSoundly h text
  have hheader : bootOptions.kernelStart.toNat + sizeofEhdr ≤ bootOptions.kernelEnd.toNat := by
    decide
  refine ⟨hs.map, hs.size, hs.fits, hheader, ?_, ?_⟩
  · rw [preparedMachine_header h]
    exact fun i hi _ => (bootImages_facts h).table i hi
  · rw [preparedMachine_sections h]
    intro sec hsec
    obtain rfl := List.mem_singleton.mp hsec
    exact hwindow

theorem preparedMachine_entryPoint (text : List UInt8) :
    entryPoint (preparedMachine image text) = image.entry := by
  unfold entryPoint
  rw [preparedMachine_header h]
  rfl

/-- An entry point in `.text` of an image that is linked as the stock image is. -/
theorem preparedMachine_entryIn (text : List UInt8) (htext : image.text = smallText) {o : Nat}
    (ho : o < 0x800) (hpoint : image.entry.toNat = kernelLoadAddress.toNat + o) :
    EntryIn (preparedMachine image text) smallText o where
  mem := by
    rw [preparedMachine_sections h, htext]
    exact List.mem_singleton.mpr rfl
  loads := by decide
  executable := by decide
  lt := by
    have hsize : smallText.shSize.toNat = 0x800 := rfl
    omega
  entry := by
    rw [preparedMachine_entryPoint h]
    exact hpoint
  inModule := by
    have hstart : bootOptions.kernelStart.toNat + smallText.shOffset.toNat = 0x201000 := rfl
    have hend : bootOptions.kernelEnd.toNat = 0x202000 := rfl
    change bootOptions.kernelStart.toNat + smallText.shOffset.toNat + o <
      bootOptions.kernelEnd.toNat
    omega

end Machine

/-- `.text` of the two kernels lies in the window. -/
theorem smallText_inWindow (a : Nat) (h : LoadsAt smallText a) :
    InRange kernelLoadAddress.toNat (2 ^ 30) a := by
  have haddr : smallText.shAddr.toNat = kernelLoadAddress.toNat := rfl
  have hsize : smallText.pageRounded = 0x1000 := rfl
  have hload := h.2
  unfold InRange at *
  omega

/-- The stock image is entered at its entry point. -/
theorem stockImage_handsOff :
    ∃ s' cpu', boot bootSymbols startCpu (bootMachine stockImage) bootMultiboot =
        .ok (s', cpu') ∧
      HandsOff s' cpu' stockImage.entry 0x201001 := by
  have himage : stockImage ∈ bootImages := by decide
  obtain ⟨text, s', cpu', hprepare, hboot⟩ := bootMachine_boots himage
  obtain ⟨_, _, _, hiff⟩ := boot_handsOff_iff rfl hprepare hboot
  have hsound := preparedMachine_soundBoot himage text smallText_inWindow
  have hentry := preparedMachine_entryIn himage text rfl (o := 1) (by decide) rfl
  have hpoint := preparedMachine_entryPoint himage text
  have htable : LinkedTable [smallText] :=
    { aligned := by
        intro sec hsec _
        obtain rfl := List.mem_singleton.mp hsec
        exact ⟨by decide, by decide⟩
      inWindow := by
        intro sec hsec
        obtain rfl := List.mem_singleton.mp hsec
        exact smallText_inWindow
      disjoint := List.pairwise_singleton _ _ }
  have hstands : EntryPageStands (preparedMachine stockImage text) smallText 1 := by
    refine hentry.pageStands ?_
    rw [preparedMachine_sections himage]
    exact htable
  have hhand := (hiff bootMap hsound smallText 1 hentry).mpr
  rw [hpoint] at hhand
  exact ⟨s', cpu', hboot, hhand ⟨rfl, hstands⟩⟩

/-- The image with the other entry point is not: the jump goes where the stock image is
entered. -/
theorem movedEntryImage_not_entered :
    ∃ s s' cpu', prepareBoot (bootMachine movedEntryImage) bootMultiboot = .ok s ∧
      boot bootSymbols startCpu (bootMachine movedEntryImage) bootMultiboot = .ok (s', cpu') ∧
      SoundBoot s bootMultiboot bootMap ∧ EntryIn s smallText 0x10 ∧
      entryPoint s = kernelLoadAddress + 0x10 ∧ cpu'.rip = kernelLoadAddress + 1 ∧
      ¬ HandsOff s' cpu' (entryPoint s) 0x201010 := by
  have himage : movedEntryImage ∈ bootImages := by decide
  obtain ⟨text, s', cpu', hprepare, hboot⟩ := bootMachine_boots himage
  have hsound := preparedMachine_soundBoot himage text smallText_inWindow
  have hentry := preparedMachine_entryIn himage text rfl (o := 0x10) (by decide) rfl
  have hpoint := preparedMachine_entryPoint himage text
  obtain ⟨_, hcpu⟩ := boot_eq_ok.mp hboot
  have hrip : cpu'.rip = kernelLoadAddress + 1 := by
    rw [hcpu]
    rfl
  refine ⟨_, s', cpu', hprepare, hboot, hsound, hentry, hpoint, hrip, fun hhand => ?_⟩
  have hjump := hhand.jump
  rw [hrip, hpoint] at hjump
  exact absurd hjump (by decide)

end HosBoot.X8664