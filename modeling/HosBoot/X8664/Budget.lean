/-
  X8664/Budget.lean --- what `build_page_tables` may touch.

  `Reserved` describes the state in which the function starts: the estimate gave
  a number of pages, and a zero-filled reservation of that many pages, clear of
  the kernel image, was entered into the options.  The two theorems say that the
  function stays within the reservation, and that the frames of the bss pages
  are new, zero and nobody else's.
-/
import HosBoot.X8664.BuildTables

set_option autoImplicit false

namespace HosBoot.X8664

open HosBoot.Foundation HosBoot.Common

/-- A byte of the kernel image: of the module, of its file header or of one of the
section headers that the loops read. -/
def ImageByte (s : BootState) (a : Nat) : Prop :=
  InRange s.options.kernelStart.toNat
      (s.options.kernelEnd.toNat - s.options.kernelStart.toNat) a ∨
    InRange s.options.kernelStart.toNat sizeofEhdr a ∨
    ∃ i, 1 ≤ i ∧ i < (kernelHeader s.mem s.options.kernelStart).eShnum.toNat ∧
      InRange (sectionHeaderAddr s.mem s.options.kernelStart i).toNat sizeofShdr a

/-- An image whose module, file header and section headers end by `top`. -/
theorem lt_of_imageByte {s : BootState} {top : Nat} (hmodule : s.options.kernelEnd.toNat ≤ top)
    (hheader : s.options.kernelStart.toNat + sizeofEhdr ≤ top)
    (hsections : ∀ i < (kernelHeader s.mem s.options.kernelStart).eShnum.toNat, 1 ≤ i →
      (sectionHeaderAddr s.mem s.options.kernelStart i).toNat + sizeofShdr ≤ top)
    {a : Nat} (h : ImageByte s a) : a < top := by
  unfold ImageByte InRange at h
  rcases h with h | h | ⟨i, hpos, hi, h⟩
  · omega
  · omega
  · have hle := hsections i hi hpos
    omega

/-- `s'` is `s` with the reservation `R` of `pages` pages made. -/
structure Reserved (R : Reservation) (s s' : BootState) (pages : Int32) : Prop where
  /-- The reservation has the estimated number of pages. -/
  count : (R.count : Int) = pages.toInt
  /-- The options say where it starts. -/
  start : s'.options.pageTableStart.toNat = R.start
  /-- The kernel is where it was. -/
  kernelStart : s'.options.kernelStart = s.options.kernelStart
  /-- Only the reservation was written, -/
  frame : SameOutside R.Contains s.mem s'.mem
  /-- with zeros, -/
  zero : ∀ a, R.Contains a → s'.mem a = 0
  /-- and it is clear of the image. -/
  clear : ∀ a, ImageByte s a → ¬ R.Contains a

namespace Reserved

variable {R : Reservation} {s s' s₁ : BootState} {pages : Int32}

theorem tableClear (h : Reserved R s s' pages) : TableClear R s.mem s.options.kernelStart where
  header := fun a ha => h.clear a (Or.inr (Or.inl ha))
  sections := fun i hi hlt a ha => h.clear a (Or.inr (Or.inr ⟨i, hi, hlt, ha⟩))

/-- The reservation left the section table readable. -/
theorem kernelSections_eq (h : Reserved R s s' pages) :
    kernelSections s'.mem s.options.kernelStart = kernelSections s.mem s.options.kernelStart :=
  h.tableClear.kernelSections_eq h.frame

theorem tableClear' (h : Reserved R s s' pages) :
    TableClear R s'.mem s.options.kernelStart where
  header := h.tableClear.header
  sections := by
    intro i hi hlt a ha
    have hheader := h.tableClear.kernelHeader_eq h.frame
    unfold sectionHeaderAddr at ha
    rw [hheader] at hlt ha
    exact h.tableClear.sections i hi hlt a ha

/-- The run of the function on a reservation of the estimated size. -/
theorem built (h : Reserved R s s' pages)
    (hest : estimatePagesNeededForKernel s = .ok (pages, s₁))
    (hsize : exactSize (kernelSections s.mem s.options.kernelStart) ≤ 2 ^ 30) :
    ∃ k, FinalTables R s'.mem k (mapCalls (finalBuilder s').log) (finalBuilder s') ∧
      Built s.options.kernelStart
        (sectionPlan (kernelSections s.mem s.options.kernelStart)).reverse
        (mapCalls (finalBuilder s').log) (bssPages (finalBuilder s').log) := by
  have hcost := tableCost_le_estimate hest hsize
  have hcount := h.count
  have hspec := finalBuilder_spec h.start h.zero (h.kernelStart ▸ h.tableClear')
  rw [h.kernelStart, h.kernelSections_eq] at hspec
  exact hspec (by omega)

end Reserved

/-! ## A small kernel

One page of text and two of bss, at one megabyte, with ten pages at two megabytes
reserved for it: the smallest case in which every part of the builder acts. -/

/-- `.text` of the small kernel. -/
def smallText : Elf64Shdr :=
  ⟨shtProgbits, shfAlloc ||| shfExecinstr, kernelLoadAddress, 0x1000, 0x800⟩

/-- `.bss` of the small kernel. -/
def smallBss : Elf64Shdr :=
  ⟨shtNobits, shfAlloc ||| shfWrite, kernelLoadAddress + 0x1000, 0x2000, 0x1800⟩

/-- The module, as the boot loader leaves it. -/
def smallKernel : BootState where
  mem := Mem.ofParts [(0x100000, elfImage (kernelLoadAddress + 1) [smallText, smallBss])]
  options := { kernelName := 0, kernelStart := 0x100000, kernelEnd := 0x102000 }

def smallReservation : Reservation := ⟨0x200000, 10, by decide, by decide⟩

/-- The state in which `build_page_tables` starts on the small kernel. -/
def smallReserved : BootState :=
  { smallKernel with options := { smallKernel.options with pageTableStart := 0x200000 } }

theorem smallKernel_sections :
    kernelSections smallKernel.mem smallKernel.options.kernelStart = [smallText, smallBss] := by
  decide +kernel

theorem smallKernel_estimate : estimatePagesNeededForKernel smallKernel =
    .ok (10, { smallKernel with options := { smallKernel.options with bssPages := 2 } }) := by
  unfold estimatePagesNeededForKernel
  rw [smallKernel_sections]
  rfl

theorem smallKernel_exactSize :
    exactSize (kernelSections smallKernel.mem smallKernel.options.kernelStart) ≤ 2 ^ 30 := by
  rw [smallKernel_sections]
  decide

theorem smallKernel_mem_eq_zero {a : Nat} (h : 0x101000 ≤ a) : smallKernel.mem a = 0 := by
  refine Mem.ofParts_eq_zero fun part hpart => ?_
  rw [List.mem_singleton] at hpart
  subst hpart
  have hlen : (elfImage (kernelLoadAddress + 1) [smallText, smallBss]).length = 256 := by
    decide +kernel
  unfold InRange
  rw [hlen]
  omega

theorem lt_of_imageByte_smallKernel {a : Nat} (h : ImageByte smallKernel a) : a < 0x102000 :=
  lt_of_imageByte (by decide) (by decide) (by decide +kernel) h

theorem smallKernel_reserved : Reserved smallReservation smallKernel smallReserved 10 where
  count := rfl
  start := rfl
  kernelStart := rfl
  frame := SameOutside.refl _ _
  zero := by
    intro a ha
    have hlo : 0x200000 ≤ a := ha.1
    exact smallKernel_mem_eq_zero (by omega)
  clear := by
    intro a himage ha
    have hlt := lt_of_imageByte_smallKernel himage
    have hlo : 0x200000 ≤ a := ha.1
    omega

/-! ## The budget -/

/-- A store inside a table lies in the reservation. -/
theorem storesInTables_bounds {R : Reservation} {k : Nat} : ∀ {log : List PageEvent},
    StoresInTables log → (∀ p ∈ tablePages log, p ∈ R.pages k) →
    ∀ addr, PageEvent.store addr ∈ log →
      R.start ≤ addr ∧ addr + 8 ≤ R.start + 4096 * k := by
  intro log
  induction log with
  | nil => intro _ _ addr haddr; cases haddr
  | cons e log ih =>
    intro hstores htables addr haddr
    cases e with
    | store first =>
      obtain ⟨⟨page, hpage, hlo, hhi⟩, hrest⟩ := hstores
      rcases List.mem_cons.mp haddr with heq | hold
      · cases heq
        obtain ⟨_, hstart, hend⟩ := AllocInv.page_bounds (htables page hpage)
        exact ⟨by omega, by omega⟩
      · exact ih hrest htables addr hold
    | table page =>
      rcases List.mem_cons.mp haddr with heq | hold
      · cases heq
      · exact ih hstores (fun p hp => htables p (List.mem_cons_of_mem _ hp)) addr hold
    | bss page =>
      rcases List.mem_cons.mp haddr with heq | hold
      · cases heq
      · exact ih hstores htables addr hold
    | map real virt bits =>
      rcases List.mem_cons.mp haddr with heq | hold
      · cases heq
      · exact ih hstores htables addr hold

/-- `build_page_tables` takes at most the estimated number of pages, each once and
from the reservation; its stores stay inside the table pages it was handed; all
other memory keeps its bytes, the kernel image among it. -/
theorem buildPageTables_within_budget {R : Reservation} {s s' s₁ : BootState} {pages : Int32}
    (hest : estimatePagesNeededForKernel s = .ok (pages, s₁))
    (hsize : exactSize (kernelSections s.mem s.options.kernelStart) ≤ 2 ^ 30)
    (hres : Reserved R s s' pages) :
    ((handedOut (buildPageTables s').pageLog).length : Int) ≤ pages.toInt ∧
      (handedOut (buildPageTables s').pageLog).Nodup ∧
      (∀ p ∈ handedOut (buildPageTables s').pageLog,
        4096 ∣ p ∧ ∀ a, InRange p 4096 a → R.Contains a) ∧
      StoresInTables (buildPageTables s').pageLog ∧
      (∀ addr, PageEvent.store addr ∈ (buildPageTables s').pageLog →
        ∀ a, InRange addr 8 a → R.Contains a) ∧
      SameOutside R.Contains s'.mem (buildPageTables s').mem ∧
      ∀ a, ImageByte s a → (buildPageTables s').mem a = s.mem a := by
  obtain ⟨k, htables, _⟩ := hres.built hest hsize
  have halloc := htables.alloc
  have hbudget := halloc.budget
  have hcount := hres.count
  rw [buildPageTables_pageLog, buildPageTables_mem]
  refine ⟨?_, halloc.handedOut_nodup, ?_, halloc.stores, ?_, halloc.sameOutside, ?_⟩
  · rw [halloc.length_handedOut, ← hcount]
    exact Int.ofNat_le.mpr hbudget
  · intro p hp
    rw [halloc.handed] at hp
    obtain ⟨hdvd, hlo, hhi⟩ := AllocInv.page_bounds hp
    exact ⟨hdvd, fun a ha => ha.widen hlo (by omega)⟩
  · intro addr haddr a ha
    obtain ⟨hlo, hhi⟩ := storesInTables_bounds halloc.stores
      (fun p hp => halloc.mem_pages_of_table hp) addr haddr
    exact ha.widen hlo (by omega)
  · intro a ha
    have hout := hres.clear a ha
    calc (finalBuilder s').mem a = s'.mem a := halloc.sameOutside a hout
      _ = s.mem a := hres.frame a hout

/-- The small kernel is built within its ten pages. -/
theorem smallKernel_within_budget :
    ((handedOut (buildPageTables smallReserved).pageLog).length : Int) ≤ 10 ∧
      (handedOut (buildPageTables smallReserved).pageLog).Nodup ∧
      StoresInTables (buildPageTables smallReserved).pageLog ∧
      SameOutside smallReservation.Contains smallReserved.mem
        (buildPageTables smallReserved).mem := by
  obtain ⟨hcount, hnodup, _, hstores, _, hframe, _⟩ := buildPageTables_within_budget
    smallKernel_estimate smallKernel_exactSize smallKernel_reserved
  exact ⟨hcount, hnodup, hstores, hframe⟩

/-! ## The frames of the bss pages -/

/-- One frame is spent on each bss page. -/
theorem Built.length_frames {kernelStart : UInt32} {done : List (Elf64Shdr × Nat)}
    {calls : List MapCall} {frames : List Nat} (h : Built kernelStart done calls frames) :
    frames.length = (done.filter fun page => page.1.isBss).length := by
  induction h with
  | nil => rfl
  | file sec n hload _ ih =>
    rw [List.filter_cons_of_neg, ih]
    simp [Elf64Shdr.isBss_eq_false_of_willLoadNotBss hload]
  | bss sec n frame hload _ ih =>
    rw [List.filter_cons_of_pos (by exact hload), List.length_cons, List.length_cons, ih]

/-- The frames that `build_page_tables` allocates for bss pages, one for each, are
pairwise distinct, are no paging structure, lie outside the image and are zero. -/
theorem buildPageTables_bss_fresh {R : Reservation} {s s' s₁ : BootState} {pages : Int32}
    (hest : estimatePagesNeededForKernel s = .ok (pages, s₁))
    (hsize : exactSize (kernelSections s.mem s.options.kernelStart) ≤ 2 ^ 30)
    (hres : Reserved R s s' pages) :
    (bssPages (buildPageTables s').pageLog).length =
        ((sectionPlan (kernelSections s.mem s.options.kernelStart)).filter
          fun page => page.1.isBss).length ∧
      (bssPages (buildPageTables s').pageLog).Pairwise
        (fun f g => f + 4096 ≤ g ∨ g + 4096 ≤ f) ∧
      (∀ f ∈ bssPages (buildPageTables s').pageLog,
        ∀ t ∈ tablePages (buildPageTables s').pageLog, f + 4096 ≤ t ∨ t + 4096 ≤ f) ∧
      (∀ f ∈ bssPages (buildPageTables s').pageLog, ∀ a, InRange f 4096 a → ¬ ImageByte s a) ∧
      ∀ f ∈ bssPages (buildPageTables s').pageLog, ∀ a, InRange f 4096 a →
        (buildPageTables s').mem a = 0 := by
  obtain ⟨k, htables, hbuilt⟩ := hres.built hest hsize
  have halloc := htables.alloc
  have hbudget := halloc.budget
  rw [buildPageTables_pageLog, buildPageTables_mem]
  refine ⟨?_, ?_, ?_, ?_, halloc.bssZero⟩
  · rw [hbuilt.length_frames, List.filter_reverse, List.length_reverse]
  · have hnodup : (bssPages (finalBuilder s').log).Nodup :=
      halloc.handedOut_nodup.sublist (bssPages_sublist _)
    refine hnodup.imp_of_mem fun hf hg hne => ?_
    exact AllocInv.pages_apart (halloc.mem_pages_of_bss hf) (halloc.mem_pages_of_bss hg) hne
  · intro f hf t ht
    have hne : f ≠ t := fun heq => halloc.apart t ht (heq ▸ hf)
    exact AllocInv.pages_apart (halloc.mem_pages_of_bss hf) (halloc.mem_pages_of_table ht) hne
  · intro f hf a ha himage
    obtain ⟨_, hlo, hhi⟩ := AllocInv.page_bounds (halloc.mem_pages_of_bss hf)
    exact hres.clear a himage (ha.widen hlo (by omega))

/-- The small kernel gets two frames, apart from each other and zero. -/
theorem smallKernel_bss_fresh :
    (bssPages (buildPageTables smallReserved).pageLog).length = 2 ∧
      (bssPages (buildPageTables smallReserved).pageLog).Pairwise
        (fun f g => f + 4096 ≤ g ∨ g + 4096 ≤ f) ∧
      ∀ f ∈ bssPages (buildPageTables smallReserved).pageLog, ∀ a, InRange f 4096 a →
        (buildPageTables smallReserved).mem a = 0 := by
  obtain ⟨hlength, hapart, _, _, hzero⟩ := buildPageTables_bss_fresh
    smallKernel_estimate smallKernel_exactSize smallKernel_reserved
  rw [smallKernel_sections] at hlength
  exact ⟨hlength, hapart, hzero⟩

end HosBoot.X8664
