/-
  X8664/LoadKernel.lean --- `verify_elf64` and `load_kernel`.

  `LoadRun` is a run of `load_kernel` that completes, stage by stage.  The checks
  of the stages say little about the image: `LoadsSoundly` lists what the rest of
  the boot relies on, and `LoadedKernel` is what a run leaves behind then.
-/
import HosBoot.Foundation.Fallible
import HosBoot.Common.CString
import HosBoot.X8664.Translation
import HosBoot.X8664.Reserve

set_option autoImplicit false

namespace HosBoot.X8664

open HosBoot.Foundation HosBoot.Common

/-! ## The functions -/

/-- `ELF_HDR` -/
def elfHdr : List UInt8 := [0x7f, 0x45, 0x4C, 0x46]

/-- The lines of `verify_elf64` that look at the magic number: they only print. -/
def reportMagic (s : BootState) : BootState :=
  if memcmp s.mem s.options.kernelStart.toNat elfHdr = 0 then
    s.print (bytesOf "Kernel is in elf file format...\n")
  else
    s

/-- `verify_elf64`. -/
def verifyElf64 (s : BootState) : Except Halt BootState :=
  let hdr := kernelHeader s.mem s.options.kernelStart
  let s := reportMagic s
  if hdr.eType ≠ etExec then
    s.error "Kernel is not an executable!"
  else if hdr.eIdent.getD eiClass 0 ≠ elfclass64 then
    s.error "Kernel is not a 64-bit executable!"
  else if hdr.eIdent.getD eiData 0 ≠ elfdata2lsb then
    s.error "Kernel is not little-endian!"
  else if hdr.eMachine ≠ emX86_64 then
    s.error "Kernel is not compiled for x86-64!"
  else
    .ok { s with kernelEntry := hdr.eEntry }

/-- `load_kernel`. -/
def loadKernel (s : BootState) (multiboot : UInt32) : Except Halt BootState :=
  if s.options.kernelStart = 0 ∨ s.options.kernelEnd = 0 then
    s.error "Kernel image not found"
  else do
    let s ← verifyElf64 s
    let (pages, s) ← estimatePagesNeededForKernel s
    let s ← reserveKernelSpace s multiboot pages
    return buildPageTables s

/-! ## The header check -/

/-- The header fields that `verify_elf64` insists on. -/
structure AcceptedHeader (hdr : Elf64Ehdr) : Prop where
  type : hdr.eType = etExec
  class64 : hdr.eIdent.getD eiClass 0 = elfclass64
  data : hdr.eIdent.getD eiData 0 = elfdata2lsb
  machine : hdr.eMachine = emX86_64

@[simp] theorem reportMagic_mem (s : BootState) : (reportMagic s).mem = s.mem := by
  unfold reportMagic
  split <;> rfl

@[simp] theorem reportMagic_options (s : BootState) : (reportMagic s).options = s.options := by
  unfold reportMagic
  split <;> rfl

theorem verifyElf64_eq_ok {s s₁ : BootState} :
    verifyElf64 s = .ok s₁ ↔
      AcceptedHeader (kernelHeader s.mem s.options.kernelStart) ∧
        s₁ = { reportMagic s with
          kernelEntry := (kernelHeader s.mem s.options.kernelStart).eEntry } := by
  unfold verifyElf64
  generalize kernelHeader s.mem s.options.kernelStart = hdr
  have hbad : ∀ msg, (reportMagic s).error msg ≠ .ok s₁ :=
    fun msg => BootState.error_ne_ok _ msg s₁
  constructor
  · intro h
    dsimp only at h ⊢
    split at h
    · exact absurd h (hbad _)
    · rename_i htype
      split at h
      · exact absurd h (hbad _)
      · rename_i hclass
        split at h
        · exact absurd h (hbad _)
        · rename_i hdata
          split at h
          · exact absurd h (hbad _)
          · rename_i hmachine
            have hstate := (Except.ok.inj h).symm
            exact ⟨⟨not_not.mp htype, not_not.mp hclass, not_not.mp hdata,
              not_not.mp hmachine⟩, hstate⟩
  · rintro ⟨⟨htype, hclass, hdata, hmachine⟩, rfl⟩
    simp only [htype, hclass, hdata, hmachine, ne_eq, not_true_eq_false, if_false]

/-- `verify_elf64` reports every error before it sets `kernel_entry`. -/
theorem verifyElf64_eq_error {s : BootState} {halt : Halt} (h : verifyElf64 s = .error halt) :
    ∃ msg, halt = .error msg ((reportMagic s).print (bytesOf msg)) := by
  unfold verifyElf64 BootState.error at h
  dsimp only at h
  split at h
  · exact ⟨_, (Except.error.inj h).symm⟩
  · split at h
    · exact ⟨_, (Except.error.inj h).symm⟩
    · split at h
      · exact ⟨_, (Except.error.inj h).symm⟩
      · split at h
        · exact ⟨_, (Except.error.inj h).symm⟩
        · cases h

/-! ## The magic number -/

/-- The first four bytes of the format. -/
def HasMagic (hdr : Elf64Ehdr) : Prop := hdr.eIdent.take 4 = elfHdr

/-- What a check of the header is for: it returns exactly on the headers of executables for
this machine, and only then is `kernel_entry` set. -/
structure HeaderChecked (s : BootState) : Prop where
  accepts : (∃ s', verifyElf64 s = .ok s') ↔
    HasMagic (kernelHeader s.mem s.options.kernelStart) ∧
      AcceptedHeader (kernelHeader s.mem s.options.kernelStart)
  entry : ∀ s', verifyElf64 s = .ok s' →
    s'.kernelEntry = (kernelHeader s.mem s.options.kernelStart).eEntry
  unset : ∀ halt, verifyElf64 s = .error halt →
    ∃ msg s', halt = .error msg s' ∧ s'.kernelEntry = s.kernelEntry

theorem reportMagic_kernelEntry (s : BootState) :
    (reportMagic s).kernelEntry = s.kernelEntry := by
  unfold reportMagic
  split <;> rfl

/-- The test of the magic number only prints: the check is one exactly on headers with the
magic number and on headers that another test rejects. -/
theorem verifyElf64_checked_iff (s : BootState) :
    HeaderChecked s ↔ (AcceptedHeader (kernelHeader s.mem s.options.kernelStart) →
      HasMagic (kernelHeader s.mem s.options.kernelStart)) := by
  constructor
  · intro hchecked haccepted
    exact (hchecked.accepts.mp ⟨_, verifyElf64_eq_ok.mpr ⟨haccepted, rfl⟩⟩).1
  · intro hcond
    refine { accepts := ⟨?_, ?_⟩, entry := ?_, unset := ?_ }
    · rintro ⟨s', hrun⟩
      obtain ⟨haccepted, _⟩ := verifyElf64_eq_ok.mp hrun
      exact ⟨hcond haccepted, haccepted⟩
    · rintro ⟨_, haccepted⟩
      exact ⟨_, verifyElf64_eq_ok.mpr ⟨haccepted, rfl⟩⟩
    · intro s' hrun
      rw [(verifyElf64_eq_ok.mp hrun).2]
    · intro halt hrun
      obtain ⟨msg, rfl⟩ := verifyElf64_eq_error hrun
      exact ⟨msg, _, rfl, reportMagic_kernelEntry s⟩

/-- A module that is not an ELF file, but agrees with one from the fifth byte on. -/
def foreignFile : Elf64Ehdr :=
  { elfHeader 0x100 0 with
    eIdent := [0x4D, 0x5A, 0x90, 0x00, elfclass64, elfdata2lsb] ++ List.replicate 10 0 }

/-- The machine that found it as its kernel. -/
def foreignMachine : BootState where
  mem := Mem.ofParts [(0x200000, foreignFile.bytes)]
  options := { kernelName := 0, kernelStart := 0x200000, kernelEnd := 0x201000 }

/-- It is accepted, and entered at what stands in the place of an entry point. -/
theorem foreignMachine_accepted :
    ¬ HasMagic (kernelHeader foreignMachine.mem foreignMachine.options.kernelStart) ∧
      (∃ s', verifyElf64 foreignMachine = .ok s' ∧ s'.kernelEntry = 0x100) ∧
      ¬ HeaderChecked foreignMachine := by
  have hheader : kernelHeader foreignMachine.mem foreignMachine.options.kernelStart =
      foreignFile := by decide +kernel
  have hmagic : ¬ HasMagic foreignFile := by
    unfold HasMagic
    decide
  have hrun := verifyElf64_eq_ok.mpr
    ⟨show AcceptedHeader (kernelHeader foreignMachine.mem foreignMachine.options.kernelStart) from
      hheader.symm ▸ ⟨rfl, rfl, rfl, rfl⟩, rfl⟩
  refine ⟨hheader.symm ▸ hmagic, ⟨_, hrun, by rw [hheader]; rfl⟩, fun hchecked => ?_⟩
  exact hmagic (hheader ▸ (hchecked.accepts.mp ⟨_, hrun⟩).1)

/-! ## A run by its stages -/

/-- A run of `load_kernel` that completes, by the states between its stages. -/
structure LoadRun (s : BootState) (multiboot : UInt32) (pages : Int32)
    (verified estimated reserved : BootState) : Prop where
  found : ¬ (s.options.kernelStart = 0 ∨ s.options.kernelEnd = 0)
  verify : verifyElf64 s = .ok verified
  estimate : estimatePagesNeededForKernel verified = .ok (pages, estimated)
  reserve : reserveKernelSpace estimated multiboot pages = .ok reserved

theorem loadKernel_eq_ok {s s' : BootState} {multiboot : UInt32} :
    loadKernel s multiboot = .ok s' ↔
      ∃ pages verified estimated reserved,
        LoadRun s multiboot pages verified estimated reserved ∧
          s' = buildPageTables reserved := by
  unfold loadKernel
  by_cases hfound : s.options.kernelStart = 0 ∨ s.options.kernelEnd = 0
  · rw [if_pos hfound]
    constructor
    · exact fun h => absurd h (BootState.error_ne_ok _ _ _)
    · rintro ⟨_, _, _, _, hrun, _⟩
      exact absurd hfound hrun.found
  · rw [if_neg hfound]
    constructor
    · intro h
      obtain ⟨verified, hverify, h⟩ := bind_eq_ok.mp h
      obtain ⟨⟨pages, estimated⟩, hestimate, h⟩ := bind_eq_ok.mp h
      obtain ⟨reserved, hreserve, h⟩ := bind_eq_ok.mp h
      exact ⟨pages, verified, estimated, reserved, ⟨hfound, hverify, hestimate, hreserve⟩,
        (Except.ok.inj h).symm⟩
    · rintro ⟨pages, verified, estimated, reserved, hrun, rfl⟩
      refine bind_eq_ok.mpr ⟨verified, hrun.verify, ?_⟩
      refine bind_eq_ok.mpr ⟨(pages, estimated), hrun.estimate, ?_⟩
      exact bind_eq_ok.mpr ⟨reserved, hrun.reserve, rfl⟩

namespace LoadRun

variable {s verified estimated reserved : BootState} {multiboot : UInt32} {pages : Int32}

theorem header (h : LoadRun s multiboot pages verified estimated reserved) :
    AcceptedHeader (kernelHeader s.mem s.options.kernelStart) :=
  (verifyElf64_eq_ok.mp h.verify).1

theorem verified_mem (h : LoadRun s multiboot pages verified estimated reserved) :
    verified.mem = s.mem := by
  rw [(verifyElf64_eq_ok.mp h.verify).2]
  exact reportMagic_mem s

theorem verified_options (h : LoadRun s multiboot pages verified estimated reserved) :
    verified.options = s.options := by
  rw [(verifyElf64_eq_ok.mp h.verify).2]
  exact reportMagic_options s

theorem verified_kernelEntry (h : LoadRun s multiboot pages verified estimated reserved) :
    verified.kernelEntry = (kernelHeader s.mem s.options.kernelStart).eEntry := by
  rw [(verifyElf64_eq_ok.mp h.verify).2]

/-- Up to the reservation only `kernel_entry` and `bss_pages` have changed. -/
theorem estimated_eq (h : LoadRun s multiboot pages verified estimated reserved) :
    estimated.mem = s.mem ∧ estimated.kernelEntry = verified.kernelEntry ∧
      ∃ bssPages, estimated.options = { s.options with bssPages := bssPages } := by
  obtain ⟨_, _, _, _, bssPages, rfl⟩ := estimate_eq_ok h.estimate
  refine ⟨h.verified_mem, rfl, bssPages, ?_⟩
  rw [← h.verified_options]

/-- The entry point reaches the end of the run. -/
theorem reserved_kernelEntry (h : LoadRun s multiboot pages verified estimated reserved) :
    reserved.kernelEntry = (kernelHeader s.mem s.options.kernelStart).eEntry := by
  rw [reserveKernelSpace_kernelEntry h.reserve, h.estimated_eq.2.1, h.verified_kernelEntry]

/-- The kernel and its sections are page aligned. -/
theorem aligned (h : LoadRun s multiboot pages verified estimated reserved) :
    4096 ∣ s.options.kernelStart.toNat ∧
      ∀ sec ∈ kernelSections s.mem s.options.kernelStart,
        sec.willLoad = true → sec.PageAligned := by
  obtain ⟨haligned, hkernel, _⟩ := estimate_eq_ok h.estimate
  rw [h.verified_mem, h.verified_options] at haligned
  rw [h.verified_options] at hkernel
  exact ⟨hkernel, haligned⟩

end LoadRun

/-! ## Sound runs -/

/-- What the boot relies on when `load_kernel` is entered, and `load_kernel` does not
check: nothing is reserved yet, the sizes of the sections add up to no more than
one gigabyte, the memory map has a sound place for the tables, and the image, with
every section header, lies below the highest module address. -/
structure LoadsSoundly (s : BootState) (multiboot : UInt32) (entries : List MmapEntry) :
    Prop where
  map : MemoryMap s.mem multiboot entries
  start : s.options.pageTableStart = 0
  finish : s.options.pageTableEnd = 0
  size : exactSize (kernelSections s.mem s.options.kernelStart) ≤ 2 ^ 30
  fits : FitsBelow4G entries s.options.highestModuleAddress
    (Int32.ofNat (estimatedPages (kernelSections s.mem s.options.kernelStart)))
  image : ∀ a, ImageByte s a → a < s.options.highestModuleAddress.toNat

/-- What a sound run leaves: the tables that `b` built in the reservation `R`, and the
rest of memory as it was. -/
structure LoadedKernel (entries : List MmapEntry) (s s' : BootState) (R : Reservation)
    (b : PageBuilder) : Prop where
  mem : s'.mem = b.mem
  log : s'.pageLog = b.log
  pml4 : s'.options.pml4Ptr.toNat = R.start
  pageTableStart : s'.options.pageTableStart.toNat = R.start
  kernelAligned : 4096 ∣ s.options.kernelStart.toNat
  sectionsAligned : ∀ sec ∈ kernelSections s.mem s.options.kernelStart,
    sec.willLoad = true → sec.PageAligned
  entry : s'.kernelEntry = (kernelHeader s.mem s.options.kernelStart).eEntry
  ownOptions : ∃ start finish bss, s'.options = { s.options with
    pageTableStart := start, pageTableEnd := finish, bssPages := bss, pml4Ptr := start }
  chosen : ∃ e, lastFit entries s.options.highestModuleAddress
      (Int32.ofNat (estimatedPages (kernelSections s.mem s.options.kernelStart))) = some e ∧
    s'.options.pageTableStart = e.chosenStart s.options.highestModuleAddress
  count : R.count = estimatedPages (kernelSections s.mem s.options.kernelStart)
  aboveModules : s.options.highestModuleAddress.toNat ≤ R.start
  inRegion : ∃ e ∈ entries, e.type = 1 ∧ e.Holds R.start R.count
  frame : SameOutside R.Contains s.mem s'.mem
  tables : ∃ m₀ k, FinalTables R m₀ k (mapCalls b.log) b
  built : Built s.options.kernelStart
    (sectionPlan (kernelSections s.mem s.options.kernelStart)).reverse
    (mapCalls b.log) (bssPages b.log)

namespace SoundReservation

variable {entries : List MmapEntry} {pages : Int32} {s s' : BootState}

/-- What was zeroed, address by address, lies below four gigabytes. -/
theorem below (h : SoundReservation entries pages s s') :
    s'.options.pageTableStart.toNat + 4096 * pages.toInt.toNat ≤ 2 ^ 32 := by
  have hlt := s'.options.pageTableStart.toNat_lt
  rcases Nat.eq_zero_or_pos (4096 * pages.toInt.toNat) with hzero | hpos
  · omega
  · have hmem : s'.options.pageTableStart.toNat + 4096 * pages.toInt.toNat - 1 ∈
        s'.zeroed.map UInt32.toNat := by
      rw [h.targets]
      exact List.mem_append_right _ (List.mem_range'_1.mpr (by omega))
    obtain ⟨x, _, hx⟩ := List.mem_map.mp hmem
    have hxlt := x.toNat_lt
    omega

/-- The reservation that was made. -/
def reservation (h : SoundReservation entries pages s s') : Reservation :=
  ⟨s'.options.pageTableStart.toNat, pages.toInt.toNat, h.aligned, h.below⟩

end SoundReservation

namespace LoadRun

variable {s verified estimated reserved : BootState} {multiboot : UInt32} {pages : Int32}
  {entries : List MmapEntry}

/-- On a sound boot the estimate is exact. -/
theorem pages_eq (h : LoadRun s multiboot pages verified estimated reserved)
    (hs : LoadsSoundly s multiboot entries) :
    pages.toInt = (estimatedPages (kernelSections s.mem s.options.kernelStart) : Nat) ∧
      pages = Int32.ofNat (estimatedPages (kernelSections s.mem s.options.kernelStart)) := by
  have hsize := hs.size
  rw [← h.verified_mem, ← h.verified_options] at hsize
  have hexact := estimate_exact h.estimate hsize
  rwa [h.verified_mem, h.verified_options] at hexact

/-- What `reserve_kernel_space` finds on a sound boot. -/
theorem reserve_entry (h : LoadRun s multiboot pages verified estimated reserved)
    (hs : LoadsSoundly s multiboot entries) :
    MemoryMap estimated.mem multiboot entries ∧ estimated.options.pageTableStart = 0 ∧
      estimated.options.pageTableEnd = 0 ∧ 0 < pages.toInt ∧
      estimated.options.kernelStart = s.options.kernelStart ∧
      estimated.options.highestModuleAddress = s.options.highestModuleAddress := by
  obtain ⟨hmem, _, bss, hoptions⟩ := h.estimated_eq
  have hpages := (h.pages_eq hs).1
  unfold estimatedPages at hpages
  rw [hmem, hoptions]
  exact ⟨hs.map, hs.start, hs.finish, by omega, rfl, rfl⟩

/-- On a sound boot the reservation is sound. -/
theorem reservation_sound (h : LoadRun s multiboot pages verified estimated reserved)
    (hs : LoadsSoundly s multiboot entries) :
    SoundReservation entries pages estimated reserved := by
  obtain ⟨hmap, hstart, hend, hpos, _, hmodules⟩ := h.reserve_entry hs
  have hfits := hs.fits
  rw [← (h.pages_eq hs).2, ← hmodules] at hfits
  exact (reserveKernelSpace_sound_iff hmap hstart hend hpos).mpr hfits reserved h.reserve

/-- The reservation is the last region that fits, and changes two options only. -/
theorem reserved_options (h : LoadRun s multiboot pages verified estimated reserved)
    (hs : LoadsSoundly s multiboot entries) :
    (∃ e, lastFit entries s.options.highestModuleAddress
        (Int32.ofNat (estimatedPages (kernelSections s.mem s.options.kernelStart))) = some e ∧
      reserved.options.pageTableStart = e.chosenStart s.options.highestModuleAddress) ∧
      ∃ start finish bss, reserved.options = { s.options with
        pageTableStart := start, pageTableEnd := finish, bssPages := bss } := by
  obtain ⟨hmap, hstart, hend, hpos, _, hmodules⟩ := h.reserve_entry hs
  obtain ⟨_, _, bss, hoptions⟩ := h.estimated_eq
  have hrun := h.reserve
  rw [reserveKernelSpace_eq pages hmap hstart hend hpos] at hrun
  rw [← (h.pages_eq hs).2, ← hmodules]
  cases hfit : lastFit entries estimated.options.highestModuleAddress pages with
  | none =>
    rw [hfit] at hrun
    exact absurd hrun (BootState.error_ne_ok _ _ _)
  | some e =>
    rw [hfit] at hrun
    rw [← Except.ok.inj hrun]
    have htaken : ∃ start finish, takeEntry pages estimated.options e = { s.options with
        pageTableStart := start, pageTableEnd := finish, bssPages := bss } := by
      rw [takeEntry, hoptions]
      exact ⟨_, _, rfl⟩
    obtain ⟨start, finish, htaken⟩ := htaken
    exact ⟨⟨e, rfl, rfl⟩, start, finish, bss, htaken⟩

/-- The reservation of the estimated size is clear of the image. -/
theorem reserved_clear (h : LoadRun s multiboot pages verified estimated reserved)
    (hs : LoadsSoundly s multiboot entries) :
    Reserved (h.reservation_sound hs).reservation verified reserved pages where
  count := by
    have hpages := (h.pages_eq hs).1
    have hnonneg : (pages.toInt.toNat : Int) = pages.toInt := Int.toNat_of_nonneg (by omega)
    exact hnonneg
  start := rfl
  kernelStart := by
    obtain ⟨_, _, _, _, hoptions⟩ := h.reserved_options hs
    rw [hoptions, h.verified_options]
  frame := by
    intro a ha
    rw [h.verified_mem, ← h.estimated_eq.1]
    exact ((h.reservation_sound hs).filled a).trans (if_neg ha)
  zero := fun a ha => ((h.reservation_sound hs).filled a).trans (if_pos ha)
  clear := by
    intro a himage ha
    unfold ImageByte at himage
    rw [h.verified_mem, h.verified_options] at himage
    obtain ⟨_, _, _, _, _, hmodules⟩ := h.reserve_entry hs
    have habove := (h.reservation_sound hs).aboveModules
    have hbelow := hs.image a himage
    have hlo : reserved.options.pageTableStart.toNat ≤ a := ha.1
    rw [hmodules] at habove
    omega

/-- What a sound run leaves behind. -/
theorem loaded (h : LoadRun s multiboot pages verified estimated reserved)
    (hs : LoadsSoundly s multiboot entries) :
    ∃ R, LoadedKernel entries s (buildPageTables reserved) R (finalBuilder reserved) := by
  have hsound := h.reservation_sound hs
  have hres := h.reserved_clear hs
  have hsize := hs.size
  rw [← h.verified_mem, ← h.verified_options] at hsize
  obtain ⟨k, htables, hbuilt⟩ := hres.built h.estimate hsize
  rw [h.verified_mem, h.verified_options] at hbuilt
  refine ⟨hsound.reservation, ?_⟩
  exact
    { mem := buildPageTables_mem reserved
      log := buildPageTables_pageLog reserved
      pml4 := by
        rw [buildPageTables_pml4Ptr]
        rfl
      pageTableStart := by
        rw [buildPageTables_eq]
        rfl
      kernelAligned := h.aligned.1
      sectionsAligned := h.aligned.2
      entry := by
        rw [buildPageTables_kernelEntry, h.reserved_kernelEntry]
      ownOptions := by
        obtain ⟨_, start, finish, bss, hoptions⟩ := h.reserved_options hs
        refine ⟨start, finish, bss, ?_⟩
        rw [buildPageTables_eq, hoptions]
      chosen := by
        obtain ⟨⟨e, hfit, hchosen⟩, _⟩ := h.reserved_options hs
        rw [buildPageTables_eq]
        exact ⟨e, hfit, hchosen⟩
      count := by
        have hcount := hres.count
        rw [(h.pages_eq hs).1] at hcount
        exact Int.ofNat_inj.mp hcount
      aboveModules := by
        obtain ⟨_, _, _, _, _, hmodules⟩ := h.reserve_entry hs
        exact hmodules ▸ hsound.aboveModules
      inRegion := hsound.inRegion
      frame := by
        rw [buildPageTables_mem, ← h.verified_mem]
        exact hres.frame.trans htables.alloc.sameOutside
      tables := ⟨reserved.mem, k, htables⟩
      built := hbuilt }

end LoadRun

/-- What `load_kernel` asks for on a sound boot: a module, an accepted header, page
aligned sections, and a region that fits. -/
structure Accepts (s : BootState) (entries : List MmapEntry) : Prop where
  found : s.options.kernelStart ≠ 0 ∧ s.options.kernelEnd ≠ 0
  header : AcceptedHeader (kernelHeader s.mem s.options.kernelStart)
  kernelAligned : 4096 ∣ s.options.kernelStart.toNat
  sectionsAligned : ∀ sec ∈ kernelSections s.mem s.options.kernelStart,
    sec.willLoad = true → sec.PageAligned
  fit : ∃ e, lastFit entries s.options.highestModuleAddress
    (Int32.ofNat (estimatedPages (kernelSections s.mem s.options.kernelStart))) = some e

/-- On a sound boot an image that `load_kernel` asks for is loaded. -/
theorem Accepts.completes {s : BootState} {multiboot : UInt32} {entries : List MmapEntry}
    (h : Accepts s entries) (hs : LoadsSoundly s multiboot entries) :
    ∃ s', loadKernel s multiboot = .ok s' := by
  have haligned := h.sectionsAligned
  have hkernel := h.kernelAligned
  have hsize := hs.size
  obtain ⟨e, hfit⟩ := h.fit
  have hverify := verifyElf64_eq_ok.mpr ⟨h.header, rfl⟩
  generalize hverified : ({ reportMagic s with
    kernelEntry := (kernelHeader s.mem s.options.kernelStart).eEntry } : BootState) =
      verified at hverify
  have hmem : verified.mem = s.mem := by rw [← hverified, reportMagic_mem]
  have hoptions : verified.options = s.options := by rw [← hverified, reportMagic_options]
  rw [← hmem, ← hoptions] at haligned hsize hfit
  rw [← hoptions] at hkernel
  obtain ⟨pages, estimated, hestimate⟩ := estimate_returns ⟨haligned, hkernel⟩
    ((Nat.mod_le _ _).trans hsize)
  obtain ⟨hpages, hofNat⟩ := estimate_exact hestimate hsize
  obtain ⟨_, _, _, _, bss, rfl⟩ := estimate_eq_ok hestimate
  rw [← hofNat] at hfit
  have hpos : 0 < pages.toInt := by
    unfold estimatedPages at hpages
    omega
  have hreserve := reserveKernelSpace_eq (s := { verified with
    options := { verified.options with bssPages := bss } }) pages (hmem ▸ hs.map)
    (hoptions ▸ hs.start) (hoptions ▸ hs.finish) hpos
  rw [hfit] at hreserve
  exact ⟨_, loadKernel_eq_ok.mpr
    ⟨_, _, _, _, ⟨not_or.mpr h.found, hverify, hestimate, hreserve⟩, rfl⟩⟩

end HosBoot.X8664
