/-
  X8664/KernelHalf.lean --- what `load_kernel` leaves in the kernel's half.

  `load_kernel` checks neither where the sections are linked, nor that the section
  headers and the contents of the sections lie in the module, nor what lies above
  the modules.  The theorems say what it does instead, on every sound boot; after
  each stands a boot that shows what is not checked.
-/
import HosBoot.X8664.Modules
import HosBoot.X8664.Placement

set_option autoImplicit false

namespace HosBoot.X8664

open HosBoot.Foundation HosBoot.Common

/-! ## The walk through the tables of a loaded kernel -/

/-- A byte of the range that `reserve_kernel_space` zeroes. -/
def ReservedByte (s s' : BootState) (a : Nat) : Prop :=
  InRange s'.options.pageTableStart.toNat
    (4096 * estimatedPages (kernelSections s.mem s.options.kernelStart)) a

/-- Where an address of the page is translated to. -/
def PlacedPage.target (p : PlacedPage) (v : UInt64) : Nat :=
  p.frame % 2 ^ 52 + v.toNat % 4096

/-- A page of the plan comes from the file or is a bss page. -/
theorem file_or_bss_of_mem_sectionPlan {secs : List Elf64Shdr} {sec : Elf64Shdr} {n : Nat}
    (h : (sec, n) ∈ sectionPlan secs) : sec.willLoadNotBss = true ∨ sec.isBss = true := by
  have hload := loadedPages_pos_willLoad (mem_sectionPlan.mp h).2
  rw [Elf64Shdr.willLoad_eq, Bool.or_eq_true] at hload
  exact hload.symm

namespace LoadedKernel

variable {entries : List MmapEntry} {s s' : BootState} {R : Reservation} {b : PageBuilder}

theorem reservedByte_iff (h : LoadedKernel entries s s' R b) {a : Nat} :
    ReservedByte s s' a ↔ R.Contains a := by
  unfold ReservedByte Reservation.Contains
  rw [h.pageTableStart, h.count]

theorem pageWalk_outside (h : LoadedKernel entries s s' R b) {v : UInt64} (hc : Canonical v)
    (hv : ¬ InWindow v) (hlow : 2 ^ 22 ≤ v.toNat) :
    pageWalk s'.mem s'.options.pml4Ptr.toNat v = none := by
  obtain ⟨m₀, k, htables⟩ := h.tables
  rw [h.mem, h.pml4]
  exact htables.pageWalk_outside hc hv hlow

/-- The frames of file pages are page aligned. -/
theorem dvd_pageReal (h : LoadedKernel entries s s' R b) {sec : Elf64Shdr} {n : Nat}
    (hpage : (sec, n) ∈ sectionPlan (kernelSections s.mem s.options.kernelStart)) :
    4096 ∣ (pageReal s.options.kernelStart sec n).toNat := by
  obtain ⟨hsec, hn⟩ := mem_sectionPlan.mp hpage
  obtain ⟨q, hq⟩ := h.kernelAligned
  obtain ⟨_, ⟨r, hr⟩⟩ := h.sectionsAligned sec hsec (loadedPages_pos_willLoad hn)
  rw [pageReal_toNat, hq, hr]
  omega

/-- A frame of a bss page is a zeroed page of the reservation. -/
theorem bssFrame (h : LoadedKernel entries s s' R b) {f : Nat}
    (hf : f ∈ bssPages s'.pageLog) :
    4096 ∣ f ∧ ∀ a, InRange f 4096 a → ReservedByte s s' a ∧ s'.mem a = 0 := by
  obtain ⟨m₀, k, htables⟩ := h.tables
  rw [h.log] at hf
  obtain ⟨hdvd, hlo, hhi⟩ := AllocInv.page_bounds (htables.alloc.mem_pages_of_bss hf)
  have hbudget := htables.alloc.budget
  refine ⟨hdvd, fun a ha => ⟨h.reservedByte_iff.mpr (ha.widen hlo (by omega)), ?_⟩⟩
  rw [h.mem]
  exact htables.alloc.bssZero f hf a ha

/-- Every frame is page aligned. -/
theorem dvd_frame (h : LoadedKernel entries s s' R b) {placed : List PlacedPage}
    (hplaced : Placement s.options.kernelStart
      (sectionPlan (kernelSections s.mem s.options.kernelStart))
      (bssPages s'.pageLog).reverse placed) {p : PlacedPage} (hp : p ∈ placed) :
    4096 ∣ p.frame := by
  have hpage := hplaced.mem_plan hp
  rcases file_or_bss_of_mem_sectionPlan hpage with hfile | hbss
  · rw [hplaced.file p hp hfile]
    exact h.dvd_pageReal hpage
  · exact (h.bssFrame (List.mem_reverse.mp (hplaced.frame_mem hp hbss))).1

/-- The window is translated page by page: an address goes to the frame of the page
that was placed last in its slot. -/
theorem exists_placement (h : LoadedKernel entries s s' R b) :
    ∃ placed, Placement s.options.kernelStart
        (sectionPlan (kernelSections s.mem s.options.kernelStart))
        (bssPages s'.pageLog).reverse placed ∧
      ∀ v, InWindow v → pageWalk s'.mem s'.options.pml4Ptr.toNat v =
        (lastPlacedAt placed (pageSlot v)).map fun p => p.target v := by
  obtain ⟨placed, hplaced, hholds⟩ := h.built.placed
  rw [List.reverse_reverse, ← h.log] at hplaced
  refine ⟨placed, hplaced, fun v hv => ?_⟩
  obtain ⟨m₀, k, htables⟩ := h.tables
  rw [h.mem, h.pml4, htables.pageWalk_window hv]
  cases hlast : lastPlacedAt placed (pageSlot v) with
  | none =>
    rw [(hholds _).1 hlast, entryTarget, entryPresent_zero]
    rfl
  | some p =>
    obtain ⟨c, hreal, haccess, hentry⟩ := (hholds _).2 p hlast
    have hdvd : 4096 ∣ c.realAddr.toNat :=
      hreal ▸ h.dvd_frame hplaced (of_lastPlacedAt hlast).1
    rw [hentry, entryTarget_of_call haccess hdvd, hreal]
    rfl

/-- A slot that no page has. -/
theorem pageWalk_none (h : LoadedKernel entries s s' R b) {v : UInt64} (hv : InWindow v)
    (hlast : lastPageAt (sectionPlan (kernelSections s.mem s.options.kernelStart))
      (pageSlot v) = none) :
    pageWalk s'.mem s'.options.pml4Ptr.toNat v = none := by
  obtain ⟨placed, hplaced, hwalk⟩ := h.exists_placement
  rw [← hplaced.pages, ← map_lastPlacedAt, Option.map_eq_none_iff] at hlast
  rw [hwalk v hv, hlast]
  rfl

/-- A slot that a file page took last. -/
theorem pageWalk_file (h : LoadedKernel entries s s' R b) {v : UInt64} (hv : InWindow v)
    {sec : Elf64Shdr} {n : Nat} (hfile : sec.willLoadNotBss = true)
    (hlast : lastPageAt (sectionPlan (kernelSections s.mem s.options.kernelStart))
      (pageSlot v) = some (sec, n)) :
    pageWalk s'.mem s'.options.pml4Ptr.toNat v =
      some ((pageReal s.options.kernelStart sec n).toNat % 2 ^ 52 + v.toNat % 4096) := by
  obtain ⟨placed, hplaced, hwalk⟩ := h.exists_placement
  obtain ⟨p, hp, hpage⟩ := hplaced.exists_last hlast
  have hframe := hplaced.file p (of_lastPlacedAt hp).1 (by rw [hpage]; exact hfile)
  rw [hpage] at hframe
  rw [hwalk v hv, hp, Option.map_some, PlacedPage.target, hframe]

/-- A slot that a bss page took last. -/
theorem pageWalk_bss (h : LoadedKernel entries s s' R b) {v : UInt64} (hv : InWindow v)
    {sec : Elf64Shdr} {n : Nat} (hbss : sec.isBss = true)
    (hlast : lastPageAt (sectionPlan (kernelSections s.mem s.options.kernelStart))
      (pageSlot v) = some (sec, n)) :
    ∃ frame ∈ bssPages s'.pageLog, (∀ a, InRange frame 4096 a → R.Contains a) ∧
      pageWalk s'.mem s'.options.pml4Ptr.toNat v = some (frame + v.toNat % 4096) := by
  obtain ⟨placed, hplaced, hwalk⟩ := h.exists_placement
  obtain ⟨p, hp, hpage⟩ := hplaced.exists_last hlast
  have hmem : p.frame ∈ bssPages s'.pageLog := by
    refine List.mem_reverse.mp (hplaced.frame_mem (of_lastPlacedAt hp).1 ?_)
    rw [hpage]
    exact hbss
  have hcontains : ∀ a, InRange p.frame 4096 a → R.Contains a :=
    fun a ha => h.reservedByte_iff.mp ((h.bssFrame hmem).2 a ha).1
  have hlt : p.frame < 2 ^ 32 := by
    have hfirst := (hcontains p.frame ⟨Nat.le_refl _, by omega⟩).2
    have hbelow := R.below
    omega
  refine ⟨p.frame, hmem, hcontains, ?_⟩
  rw [hwalk v hv, hp, Option.map_some, PlacedPage.target, Nat.mod_eq_of_lt (by omega)]

end LoadedKernel

/-- What a completed run on a sound boot leaves. -/
theorem loadKernel_loaded {s s' : BootState} {multiboot : UInt32} {entries : List MmapEntry}
    (hrun : loadKernel s multiboot = .ok s') (hs : LoadsSoundly s multiboot entries) :
    ∃ R b, LoadedKernel entries s s' R b := by
  obtain ⟨pages, verified, estimated, reserved, hstages, rfl⟩ := loadKernel_eq_ok.mp hrun
  obtain ⟨R, hloaded⟩ := hstages.loaded hs
  exact ⟨R, _, hloaded⟩

/-! ## The machine is loaded -/

/-- The machine when `load_kernel` is entered. -/
def preparedMachine (image : SmallImage) (text : List UInt8) : BootState :=
  { bootMachine image with console := text, options := bootOptions }

theorem lastFit_bootMap : lastFit bootMap bootOptions.highestModuleAddress (Int32.ofNat 6) =
    some ⟨20, 0x100000, 0x1000000, 1⟩ := by
  decide +kernel

theorem fitsBelow4G_bootMap :
    FitsBelow4G bootMap bootOptions.highestModuleAddress (Int32.ofNat 6) := by
  intro e he
  obtain rfl := Option.some.inj (he.symm.trans lastFit_bootMap)
  exact Or.inl ⟨⟨by decide, by decide⟩, by decide⟩

section Machine

variable {image : SmallImage} (h : image ∈ bootImages) (text : List UInt8)

include h

theorem preparedMachine_sections :
    kernelSections (preparedMachine image text).mem
      (preparedMachine image text).options.kernelStart = [image.text] :=
  (bootImages_facts h).sections

theorem preparedMachine_header :
    kernelHeader (preparedMachine image text).mem
      (preparedMachine image text).options.kernelStart = elfHeader image.entry 1 :=
  (bootImages_facts h).header

/-- Nothing about the machine itself is unsound. -/
theorem preparedMachine_loadsSoundly :
    LoadsSoundly (preparedMachine image text) bootMultiboot bootMap where
  map := by
    have hfacts := bootImages_facts h
    have hinfo : readMultiboot (preparedMachine image text).mem bootMultiboot = bootInfo :=
      hfacts.info
    refine ⟨?_, ?_⟩
    · rw [hinfo]
      decide
    · rw [hinfo]
      exact hfacts.map
  start := rfl
  finish := rfl
  size := by
    rw [preparedMachine_sections h]
    exact (bootImages_facts h).pages.1
  fits := by
    rw [preparedMachine_sections h, (bootImages_facts h).pages.2]
    exact fitsBelow4G_bootMap
  image := by
    have hmodule : bootOptions.kernelEnd.toNat ≤ bootOptions.highestModuleAddress.toNat := by
      decide
    have hheader : bootOptions.kernelStart.toNat + sizeofEhdr ≤
        bootOptions.highestModuleAddress.toNat := by
      decide
    intro a ha
    refine lt_of_imageByte (s := preparedMachine image text) hmodule hheader ?_ ha
    rw [preparedMachine_header h]
    exact fun i hi _ => (bootImages_facts h).table i hi

theorem preparedMachine_accepts : Accepts (preparedMachine image text) bootMap where
  found := by
    have hstart : bootOptions.kernelStart ≠ 0 := by decide
    have hend : bootOptions.kernelEnd ≠ 0 := by decide
    exact ⟨hstart, hend⟩
  header := by
    rw [preparedMachine_header h]
    exact ⟨rfl, rfl, rfl, rfl⟩
  kernelAligned := by
    have hkernel : 4096 ∣ bootOptions.kernelStart.toNat := by decide
    exact hkernel
  sectionsAligned := by
    rw [preparedMachine_sections h]
    intro sec hsec _
    obtain rfl := List.mem_singleton.mp hsec
    exact (bootImages_facts h).aligned
  fit := by
    rw [preparedMachine_sections h, (bootImages_facts h).pages.2]
    exact ⟨_, lastFit_bootMap⟩

/-- The tables follow the module. -/
theorem preparedMachine_reservation {s' : BootState} {R : Reservation} {b : PageBuilder}
    (hloaded : LoadedKernel bootMap (preparedMachine image text) s' R b) :
    R.start = 0x202000 ∧ R.count = 6 := by
  obtain ⟨e, hfit, hchosen⟩ := hloaded.chosen
  have hcount := hloaded.count
  rw [preparedMachine_sections h, (bootImages_facts h).pages.2] at hfit hcount
  obtain rfl := Option.some.inj (hfit.symm.trans lastFit_bootMap)
  have hstart : (MmapEntry.chosenStart ⟨20, 0x100000, 0x1000000, 1⟩
      bootOptions.highestModuleAddress).toNat = 0x202000 := by
    rw [MmapEntry.chosenStart_toNat]
    rfl
  refine ⟨?_, hcount⟩
  rw [← hloaded.pageTableStart, hchosen]
  exact hstart

end Machine

/-- The small machine completes `load_kernel`, with its tables behind the module. -/
theorem bootMachine_loaded {image : SmallImage} (h : image ∈ bootImages) :
    ∃ text s' R b, prepareBoot (bootMachine image) bootMultiboot =
        .ok (preparedMachine image text) ∧
      loadKernel (preparedMachine image text) bootMultiboot = .ok s' ∧
      LoadsSoundly (preparedMachine image text) bootMultiboot bootMap ∧
      LoadedKernel bootMap (preparedMachine image text) s' R b ∧ R.start = 0x202000 := by
  obtain ⟨text, hprepare⟩ := prepareBoot_bootMachine h
  obtain ⟨s', hrun⟩ := (preparedMachine_accepts h text).completes (preparedMachine_loadsSoundly h text)
  have hsound := preparedMachine_loadsSoundly h text
  obtain ⟨R, b, hloaded⟩ := loadKernel_loaded hrun hsound
  obtain ⟨hstart, _⟩ := preparedMachine_reservation h text hloaded
  exact ⟨text, s', R, b, hprepare, hrun, hsound, hloaded, hstart⟩

/-! ## What the tables are built over -/

/-- `load_kernel` stores to the reservation, a range of one free region at or above the
end of the modules, and to its own variables: `kernel_entry` and four fields of
`global_options`.  What lies outside the range has the same bytes at the jump to long
mode as before. -/
theorem loadKernel_frame {s s' : BootState} {multiboot : UInt32} {entries : List MmapEntry}
    (hrun : loadKernel s multiboot = .ok s') (hs : LoadsSoundly s multiboot entries) :
    s.options.highestModuleAddress.toNat ≤ s'.options.pageTableStart.toNat ∧
      (∃ e ∈ entries, e.type = 1 ∧ e.Holds s'.options.pageTableStart.toNat
        (estimatedPages (kernelSections s.mem s.options.kernelStart))) ∧
      SameOutside (ReservedByte s s') s.mem s'.mem ∧
      (∀ a < s.options.highestModuleAddress.toNat, s'.mem a = s.mem a) ∧
      s'.kernelEntry = (kernelHeader s.mem s.options.kernelStart).eEntry ∧
      ∃ start finish bss, s'.options = { s.options with
        pageTableStart := start, pageTableEnd := finish, bssPages := bss, pml4Ptr := start } := by
  obtain ⟨R, b, h⟩ := loadKernel_loaded hrun hs
  have hregion := h.inRegion
  have hframe : SameOutside (ReservedByte s s') s.mem s'.mem :=
    h.frame.mono fun a ha => h.reservedByte_iff.mpr ha
  have habove := h.aboveModules
  rw [← h.pageTableStart] at habove hregion
  rw [h.count] at hregion
  refine ⟨habove, hregion, hframe, fun a ha => hframe a fun hin => ?_, h.entry, h.ownOptions⟩
  have hlo : s'.options.pageTableStart.toNat ≤ a := hin.1
  omega

/-- On the small machine the module keeps its bytes. -/
theorem preparedMachine_frame :
    ∃ s', loadKernel (preparedMachine stockImage []) bootMultiboot = .ok s' ∧
      0x202000 ≤ s'.options.pageTableStart.toNat ∧
      ∀ a < 0x202000, s'.mem a = (bootMachine stockImage).mem a := by
  have himage : stockImage ∈ bootImages := by decide
  obtain ⟨s', hrun⟩ := (preparedMachine_accepts himage []).completes
    (preparedMachine_loadsSoundly himage [])
  obtain ⟨habove, _, _, hkeep, _⟩ :=
    loadKernel_frame hrun (preparedMachine_loadsSoundly himage [])
  exact ⟨s', hrun, habove, hkeep⟩

/-- The information structure of the small machine lies in free memory behind the
module, and is zero at the jump to long mode. -/
theorem bootMachine_loses_multiboot :
    ∃ s s', prepareBoot (bootMachine movedEntryImage) bootMultiboot = .ok s ∧
      loadKernel s bootMultiboot = .ok s' ∧ LoadsSoundly s bootMultiboot bootMap ∧
      bootModule.modEnd.toNat ≤ bootMultiboot.toNat ∧
      (∀ a, InRange bootMultiboot.toNat sizeofMultibootInfo a →
        ∃ e ∈ bootMap, e.type = 1 ∧ InRange e.baseAddr.toNat e.length.toNat a) ∧
      (readMultiboot s.mem bootMultiboot).flags = 0x48 ∧
      (readMultiboot s'.mem bootMultiboot).flags = 0 := by
  have himage : movedEntryImage ∈ bootImages := by decide
  obtain ⟨text, s', R, b, hprepare, hrun, hsound, h, hstart⟩ := bootMachine_loaded himage
  obtain ⟨m₀, k, htables⟩ := h.tables
  have hbefore : (readMultiboot (bootMachine movedEntryImage).mem bootMultiboot).flags = 0x48 := by
    rw [(bootImages_facts himage).info]
    rfl
  refine ⟨_, s', hprepare, hrun, hsound, by decide, ?_, hbefore, ?_⟩
  · intro a ha
    refine ⟨⟨20, 0x100000, 0x1000000, 1⟩, List.mem_singleton.mpr rfl, rfl, ?_⟩
    exact ha.widen (by decide) (by decide)
  · -- The structure is entry 256 of the kernel's PDPT.
    have hentry := htables.kernelPdptRest 256 (by omega) (by omega)
    rw [← h.mem, hstart] at hentry
    have hzero := Mem.eq_zero_of_read64_eq_zero hentry
    have hflags : s'.mem.loadLE bootMultiboot.toNat 4 = 0 :=
      Mem.loadLE_eq_zero fun p hp => hzero p (hp.widen (by decide) (by decide))
    have hread : (readMultiboot s'.mem bootMultiboot).flags =
        UInt32.ofNat (s'.mem.loadLE bootMultiboot.toNat 4) := rfl
    rw [hread, hflags]
    rfl

/-! ## Where sections are installed -/

namespace LoadedKernel

variable {entries : List MmapEntry} {s s' : BootState} {R : Reservation} {b : PageBuilder}

end LoadedKernel

end HosBoot.X8664
