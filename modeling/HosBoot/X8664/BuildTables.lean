/-
  X8664/BuildTables.lean --- `build_page_tables` as a whole.

  The three root tables, the section loop and the last stores are put together:
  on a zero-filled reservation that leaves the section table alone and has room
  for the plan, the function makes the calls of the plan and leaves
  `FinalTables`.  The estimate gives that room.
-/
import HosBoot.X8664.FinishTables

set_option autoImplicit false

namespace HosBoot.X8664

open HosBoot.Foundation HosBoot.Common

/-! ## The function in three stages -/

/-- The builder after the PML4, the PDPT and the PD have been handed out. -/
def rootBuilder (s : BootState) : PageBuilder :=
  let b : PageBuilder := ⟨s.mem, s.options.pageTableStart, []⟩
  b.allocTable.2.allocTable.2.allocTable.2

/-- The builder at the end of the function. -/
def finalBuilder (s : BootState) : PageBuilder :=
  let start := s.options.pageTableStart
  ((rootBuilder s).mapSections s.options.kernelStart (start + pageSize + pageSize) (2 ^ 16) 1
    ).finishTables start (start + pageSize) (start + pageSize + pageSize)

theorem buildPageTables_eq (s : BootState) :
    buildPageTables s =
      { s with
        mem := (finalBuilder s).mem
        options := { s.options with pml4Ptr := s.options.pageTableStart }
        pageLog := (finalBuilder s).log } := by
  unfold buildPageTables finalBuilder rootBuilder
  simp only [PageBuilder.allocTable_fst, PageBuilder.allocTable_currentPage]

@[simp] theorem buildPageTables_mem (s : BootState) :
    (buildPageTables s).mem = (finalBuilder s).mem := by rw [buildPageTables_eq]
@[simp] theorem buildPageTables_pageLog (s : BootState) :
    (buildPageTables s).pageLog = (finalBuilder s).log := by rw [buildPageTables_eq]
@[simp] theorem buildPageTables_pml4Ptr (s : BootState) :
    (buildPageTables s).options.pml4Ptr = s.options.pageTableStart := by rw [buildPageTables_eq]
@[simp] theorem buildPageTables_kernelEntry (s : BootState) :
    (buildPageTables s).kernelEntry = s.kernelEntry := by rw [buildPageTables_eq]

/-! ## The roots -/

section Roots

variable {R : Reservation} {s : BootState}

theorem rootBuilder_mem (s : BootState) : (rootBuilder s).mem = s.mem := by
  unfold rootBuilder
  rw [PageBuilder.allocTable_mem, PageBuilder.allocTable_mem, PageBuilder.allocTable_mem]

theorem rootBuilder_alloc (hstart : s.options.pageTableStart.toNat = R.start)
    (hzero : ∀ a, R.Contains a → s.mem a = 0) (hcount : 3 ≤ R.count) :
    AllocInv R s.mem 3 (rootBuilder s) := by
  have h0 : AllocInv R s.mem 0 ⟨s.mem, s.options.pageTableStart, []⟩ :=
    AllocInv.init hstart rfl hzero rfl
  have h1 := h0.allocTable (by omega)
  have h2 := h1.allocTable (by omega)
  exact h2.allocTable (by omega)

/-- The pages of the roots, as the later stages use them. -/
theorem rootPages_toNat (hstart : s.options.pageTableStart.toNat = R.start)
    (hcount : 3 ≤ R.count) :
    (s.options.pageTableStart + pageSize).toNat = R.start + 4096 ∧
      (s.options.pageTableStart + pageSize + pageSize).toNat = R.start + 8192 := by
  have hbelow := R.below
  have hsize : pageSize.toNat = 4096 := rfl
  have hpage1 : (s.options.pageTableStart + pageSize).toNat = R.start + 4096 := by
    rw [toNat_add_of_lt (by omega), hstart, hsize]
  refine ⟨hpage1, ?_⟩
  rw [toNat_add_of_lt (by omega), hpage1, hsize]

/-- Before the loop nothing is installed. -/
theorem rootBuilder_inv (hstart : s.options.pageTableStart.toNat = R.start)
    (hzero : ∀ a, R.Contains a → s.mem a = 0) (hcount : 3 ≤ R.count) :
    BuildInv R s.mem 3 [] (rootBuilder s) := by
  have hpd : ∀ i < 512, entryAt (rootBuilder s).mem (R.start + 8192) i = 0 := by
    intro i hi
    refine entryAt_eq_zero hi fun a ha => ?_
    rw [rootBuilder_mem]
    exact hzero a (ha.widen (by omega) (by omega))
  obtain ⟨hpage1, hpage2⟩ := rootPages_toNat hstart hcount
  refine ⟨rootBuilder_alloc hstart hzero hcount, ?_⟩
  refine
    { roots := ?_
      rootZero := ?_
      pde := fun i hi => Or.inl (hpd i hi)
      inj := fun i hi _ _ hne _ => absurd (hpd i hi) hne
      slots := ?_ }
  · intro i hi
    have htables : tablePages (rootBuilder s).log =
        [(s.options.pageTableStart + pageSize + pageSize).toNat,
          (s.options.pageTableStart + pageSize).toNat, s.options.pageTableStart.toNat] := rfl
    rw [htables, hpage2, hpage1, hstart]
    rcases (by omega : i = 0 ∨ i = 1 ∨ i = 2) with rfl | rfl | rfl <;> simp
  · intro a ha
    rw [rootBuilder_mem]
    exact hzero a (ha.widen (Nat.le_refl _) (by omega))
  · intro x hx
    rw [slotEntry, if_pos (hpd _ (by omega))]
    rfl

end Roots

/-! ## The whole function -/

/-- On a zero-filled reservation with room for the plan, the function makes the
calls of the plan, spends one frame on each bss page and completes the tables. -/
theorem finalBuilder_spec {R : Reservation} {s : BootState}
    (hstart : s.options.pageTableStart.toNat = R.start)
    (hzero : ∀ a, R.Contains a → s.mem a = 0)
    (hclear : TableClear R s.mem s.options.kernelStart)
    (hcost : 5 + tableCost (kernelSections s.mem s.options.kernelStart) ≤ R.count) :
    ∃ k, FinalTables R s.mem k (mapCalls (finalBuilder s).log) (finalBuilder s) ∧
      Built s.options.kernelStart
        (sectionPlan (kernelSections s.mem s.options.kernelStart)).reverse
        (mapCalls (finalBuilder s).log) (bssPages (finalBuilder s).log) := by
  obtain ⟨hpage1, hpage2⟩ := rootPages_toNat hstart (by omega)
  have hroot : RunInv R s.mem s.options.kernelStart 3 [] (rootBuilder s) :=
    ⟨rootBuilder_inv hstart hzero (by omega), Built.nil⟩
  have hshnum := (kernelHeader s.mem s.options.kernelStart).eShnum.toNat_lt
  unfold kernelSections sectionIndices at hcost ⊢
  obtain ⟨k, hk, hrun⟩ :=
    mapSections_spec hclear hpage2 _ 1 (2 ^ 16) 3 [] (rootBuilder s) (Nat.le_refl 1) rfl
      (by omega) hroot (by omega)
  rw [List.append_nil] at hrun
  refine ⟨k, ?_, ?_⟩
  · unfold finalBuilder
    rw [finishTables_mapCalls]
    exact hrun.build.finishTables hstart hpage1 hpage2 (by omega)
  · unfold finalBuilder
    rw [finishTables_mapCalls, finishTables_bssPages]
    exact hrun.built

/-! ## The estimate pays for the plan -/

theorem dvd_exactSize (secs : List Elf64Shdr) : 4096 ∣ exactSize secs := by
  induction secs with
  | nil => exact Nat.dvd_zero 4096
  | cons sec rest ih =>
    rw [exactSize_cons]
    exact Nat.dvd_add (dvd_roundUp 4096 _) ih

theorem pageCost_mul_le (sec : Elf64Shdr) (h : sec.pageRounded < 2 ^ 64) :
    4096 * pageCost sec ≤ sec.pageRounded + if sec.isBss then sec.pageRounded else 0 := by
  have hsize := Elf64Shdr.sizeInPages_toNat_mul h
  have hpages : 4096 * loadedPages sec ≤ sec.pageRounded := by
    unfold loadedPages
    split <;> omega
  unfold pageCost
  split <;> omega

theorem tableCost_mul_le (secs : List Elf64Shdr) (h : exactSize secs < 2 ^ 64) :
    4096 * tableCost secs ≤ exactSize secs + exactBssSize secs := by
  induction secs with
  | nil => exact Nat.zero_le _
  | cons sec rest ih =>
    have hcons := exactSize_cons sec rest
    have hbss := exactBssSize_cons sec rest
    have hsec := pageCost_mul_le sec (by omega)
    have hrest := ih (by omega)
    have hcost : tableCost (sec :: rest) = pageCost sec + tableCost rest := by
      simp [tableCost]
    rw [hcost]
    omega

/-- A table that the estimate accepts, with an exact size of at most one gigabyte,
costs no more than the estimate less the five fixed tables. -/
theorem tableCost_le_estimate {s s' : BootState} {pages : Int32}
    (h : estimatePagesNeededForKernel s = .ok (pages, s'))
    (hsize : exactSize (kernelSections s.mem s.options.kernelStart) ≤ 2 ^ 30) :
    ((5 + tableCost (kernelSections s.mem s.options.kernelStart) : Nat) : Int) ≤
      pages.toInt := by
  obtain ⟨_, _, _, hpages, _⟩ := estimate_eq_ok h
  generalize kernelSections s.mem s.options.kernelStart = secs at *
  have hbss := exactBssSize_le secs
  have hcost := tableCost_mul_le secs (by omega)
  have hdvd := dvd_exactSize secs
  have hdvdBss : 4096 ∣ exactBssSize secs := dvd_exactSize _
  omega

end HosBoot.X8664
