/-
  X8664/Estimate.lean --- `estimate_pages_needed_for_kernel`.

  The section table is read where the ELF header of the kernel puts it, at a
  64-bit sum whose low 32 bits become the pointer.  Sizes are rounded up at 64
  bits and accumulated at 32.
-/
import HosBoot.Foundation.Word
import HosBoot.Common.Elf64
import HosBoot.X8664.State

set_option autoImplicit false

namespace HosBoot.X8664

open HosBoot.Foundation HosBoot.Common

/-! ## The section table -/

/-- `(Elf64_Ehdr *) global_options.kernel_start`. -/
def kernelHeader (m : Mem) (kernelStart : UInt32) : Elf64Ehdr := readEhdr m kernelStart.toNat

/-- `(uint32_t) (kernel_start + hdr->e_shoff + i * hdr->e_shentsize)`.  The product
is an `int`; only its low 32 bits survive the conversion. -/
def sectionHeaderAddr (m : Mem) (kernelStart : UInt32) (i : Nat) : UInt32 :=
  let hdr := kernelHeader m kernelStart
  (kernelStart.toUInt64 + hdr.eShoff + UInt64.ofNat (i * hdr.eShentsize.toNat)).toUInt32

/-- `section` in the `i`-th turn of either loop. -/
def sectionAt (m : Mem) (kernelStart : UInt32) (i : Nat) : Elf64Shdr :=
  readShdr m (sectionHeaderAddr m kernelStart i).toNat

/-- The indices of the loops: `for (i = 1; i < hdr->e_shnum; ++i)`. -/
def sectionIndices (m : Mem) (kernelStart : UInt32) : List Nat :=
  List.range' 1 ((kernelHeader m kernelStart).eShnum.toNat - 1)

/-- The sections the loops look at, in order. -/
def kernelSections (m : Mem) (kernelStart : UInt32) : List Elf64Shdr :=
  (sectionIndices m kernelStart).map (sectionAt m kernelStart)

theorem mem_sectionIndices {m : Mem} {ks : UInt32} {i : Nat} :
    i ∈ sectionIndices m ks ↔ 1 ≤ i ∧ i < (kernelHeader m ks).eShnum.toNat := by
  rw [sectionIndices, List.mem_range'_1]
  omega

/-! ## The estimate -/

/-- `kernel_size` and `bss_size`. -/
structure SizeAcc where
  kernelSize : UInt32
  bssSize : UInt32
  deriving DecidableEq, Repr

/-- `kernel_size += ALIGN_4K_UP(section->sh_size)`, and `bss_size` for a bss section. -/
def addSection (acc : SizeAcc) (sec : Elf64Shdr) : SizeAcc where
  kernelSize := acc.kernelSize + (align4kUp sec.shSize).toUInt32
  bssSize := if sec.isBss then acc.bssSize + (align4kUp sec.shSize).toUInt32 else acc.bssSize

/-- One turn of the loop of `estimate_pages_needed_for_kernel`. -/
def estimateSection (s : BootState) (acc : SizeAcc) (sec : Elf64Shdr) :
    Except Halt SizeAcc :=
  if sec.willLoad && (!aligned4k sec.shAddr || !aligned4k sec.shOffset) then
    s.error "Can't load unaligned section"
  else
    .ok (addSection acc sec)

/-- `estimate_pages_needed_for_kernel`. -/
def estimatePagesNeededForKernel (s : BootState) : Except Halt (Int32 × BootState) := do
  let acc ← (kernelSections s.mem s.options.kernelStart).foldlM (estimateSection s) ⟨0, 0⟩
  if !aligned4k32 s.options.kernelStart then
    s.error "Cannot map non-page-aligned kernel"
  else if acc.kernelSize > oneGigabyte then
    s.error "Why the fuck do you have a one gigabyte kernel??"
  else
    let bssPages := acc.bssSize / pageSize
    return ((5 + acc.kernelSize / pageSize + bssPages).toInt32,
      { s with options := { s.options with bssPages := bssPages } })

/-! ## What an accepted table satisfies -/

theorem estimateSection_eq_ok {s : BootState} {acc acc' : SizeAcc} {sec : Elf64Shdr} :
    estimateSection s acc sec = .ok acc' ↔
      (sec.willLoad = true → sec.PageAligned) ∧ acc' = addSection acc sec := by
  unfold estimateSection Elf64Shdr.PageAligned
  rw [← aligned4k_iff, ← aligned4k_iff]
  cases sec.willLoad <;> cases aligned4k sec.shAddr <;> cases aligned4k sec.shOffset <;>
    simp [BootState.error, eq_comm (a := acc')]

/-- The loop accepts exactly when every loadable section is aligned. -/
theorem foldlM_estimateSection_eq_ok (s : BootState) :
    ∀ (secs : List Elf64Shdr) (acc acc' : SizeAcc),
      secs.foldlM (estimateSection s) acc = .ok acc' ↔
        (∀ sec ∈ secs, sec.willLoad = true → sec.PageAligned) ∧
          acc' = secs.foldl addSection acc := by
  intro secs
  induction secs with
  | nil => intro acc acc'; simp [pure, Except.pure, eq_comm (a := acc')]
  | cons sec rest ih =>
    intro acc acc'
    rw [List.foldlM_cons, List.foldl_cons, List.forall_mem_cons]
    cases hstep : estimateSection s acc sec with
    | error e =>
      have hbad : ¬ (sec.willLoad = true → sec.PageAligned) := by
        intro hgood
        have hok : estimateSection s acc sec = .ok (addSection acc sec) :=
          estimateSection_eq_ok.mpr ⟨hgood, rfl⟩
        rw [hstep] at hok
        cases hok
      simp only [bind, Except.bind, hbad, false_and, iff_false]
      exact fun h => by cases h
    | ok mid =>
      obtain ⟨hgood, rfl⟩ := estimateSection_eq_ok.mp hstep
      simp only [bind, Except.bind]
      rw [ih (addSection acc sec) acc']
      exact ⟨fun h => ⟨⟨hgood, h.1⟩, h.2⟩, fun h => ⟨h.1.2, h.2⟩⟩

/-- The page-rounded sizes of all sections, summed over the unbounded integers. -/
def exactSize (secs : List Elf64Shdr) : Nat := (secs.map Elf64Shdr.pageRounded).sum

/-- The same sum over the bss sections only. -/
def exactBssSize (secs : List Elf64Shdr) : Nat := exactSize (secs.filter Elf64Shdr.isBss)

theorem exactSize_cons (sec : Elf64Shdr) (secs : List Elf64Shdr) :
    exactSize (sec :: secs) = sec.pageRounded + exactSize secs := by
  simp [exactSize]

theorem exactBssSize_cons (sec : Elf64Shdr) (secs : List Elf64Shdr) :
    exactBssSize (sec :: secs) =
      (if sec.isBss then sec.pageRounded else 0) + exactBssSize secs := by
  unfold exactBssSize
  cases hb : sec.isBss with
  | false => simp [hb]
  | true => simp [hb, exactSize_cons]

theorem exactBssSize_le (secs : List Elf64Shdr) : exactBssSize secs ≤ exactSize secs := by
  induction secs with
  | nil => exact Nat.le_refl _
  | cons sec rest ih =>
    rw [exactSize_cons, exactBssSize_cons]
    split <;> omega

/-- A 64-bit rounded size, truncated to 32 bits, is the exact one modulo `2 ^ 32`. -/
theorem align4kUp_toUInt32_toNat (sec : Elf64Shdr) :
    (align4kUp sec.shSize).toUInt32.toNat = sec.pageRounded % 2 ^ 32 := by
  rw [UInt64.toNat_toUInt32, align4kUp_modEq]
  exact Nat.mod_mod_of_dvd _ (by decide)

/-- The accumulators hold the exact sums modulo `2 ^ 32`. -/
theorem foldl_addSection_toNat : ∀ (secs : List Elf64Shdr) (acc : SizeAcc),
    (secs.foldl addSection acc).kernelSize.toNat =
        (acc.kernelSize.toNat + exactSize secs) % 2 ^ 32 ∧
      (secs.foldl addSection acc).bssSize.toNat =
        (acc.bssSize.toNat + exactBssSize secs) % 2 ^ 32 := by
  intro secs
  induction secs with
  | nil =>
    intro acc
    have hk := acc.kernelSize.toNat_lt
    have hb := acc.bssSize.toNat_lt
    simp only [List.foldl_nil, exactSize, exactBssSize, List.filter_nil, List.map_nil,
      List.sum_nil, Nat.add_zero]
    omega
  | cons sec rest ih =>
    intro acc
    obtain ⟨hk, hb⟩ := ih (addSection acc sec)
    have hsec := align4kUp_toUInt32_toNat sec
    rw [List.foldl_cons, hk, hb, exactSize_cons, exactBssSize_cons]
    constructor
    · rw [addSection, UInt32.toNat_add, hsec]
      omega
    · cases hbss : sec.isBss with
      | false => simp [addSection, hbss]
      | true =>
        simp only [addSection, hbss, if_true]
        rw [UInt32.toNat_add, hsec]
        omega

/-- What the checks on alignment ask for. -/
def AlignedKernel (s : BootState) : Prop :=
  (∀ sec ∈ kernelSections s.mem s.options.kernelStart, sec.willLoad = true → sec.PageAligned) ∧
    4096 ∣ s.options.kernelStart.toNat

/-- The estimate returns on an aligned kernel whose size, modulo `2 ^ 32`, is at most one
gigabyte. -/
theorem estimate_returns {s : BootState} (haligned : AlignedKernel s)
    (hsize : exactSize (kernelSections s.mem s.options.kernelStart) % 2 ^ 32 ≤ 2 ^ 30) :
    ∃ pages s', estimatePagesNeededForKernel s = .ok (pages, s') := by
  obtain ⟨hsections, hkernel⟩ := haligned
  unfold estimatePagesNeededForKernel
  generalize kernelSections s.mem s.options.kernelStart = secs at hsections hsize ⊢
  have hloop := (foldlM_estimateSection_eq_ok s secs ⟨0, 0⟩ _).mpr ⟨hsections, rfl⟩
  have hsum := (foldl_addSection_toNat secs ⟨0, 0⟩).1
  have hle : ¬ (secs.foldl addSection ⟨0, 0⟩).kernelSize > oneGigabyte := by
    have hgigabyte : oneGigabyte.toNat = 2 ^ 30 := rfl
    have hzero : (0 : UInt32).toNat = 0 := rfl
    rw [gt_iff_lt, UInt32.lt_iff_toNat_lt, hsum, hgigabyte, hzero, Nat.zero_add]
    exact Nat.not_lt.mpr hsize
  have hstart : aligned4k32 s.options.kernelStart = true := aligned4k32_iff.mpr hkernel
  simp only [hloop, bind, Except.bind, hstart, Bool.not_true, Bool.false_eq_true, if_false,
    if_neg hle]
  exact ⟨_, _, rfl⟩

/-- What the estimate returns, exactly: the guard and the result see the sums
modulo `2 ^ 32`. -/
theorem estimate_eq_ok {s s' : BootState} {pages : Int32}
    (h : estimatePagesNeededForKernel s = .ok (pages, s')) :
    (∀ sec ∈ kernelSections s.mem s.options.kernelStart,
        sec.willLoad = true → sec.PageAligned) ∧
      4096 ∣ s.options.kernelStart.toNat ∧
      exactSize (kernelSections s.mem s.options.kernelStart) % 2 ^ 32 ≤ 2 ^ 30 ∧
      pages.toInt =
        ((5 + exactSize (kernelSections s.mem s.options.kernelStart) % 2 ^ 32 / 4096 +
          exactBssSize (kernelSections s.mem s.options.kernelStart) % 2 ^ 32 / 4096 : Nat) : Int) ∧
      ∃ bssPages, s' = { s with options := { s.options with bssPages := bssPages } } := by
  unfold estimatePagesNeededForKernel at h
  generalize kernelSections s.mem s.options.kernelStart = secs at h ⊢
  cases hloop : secs.foldlM (estimateSection s) ⟨0, 0⟩ with
  | error e => simp [hloop, bind, Except.bind] at h
  | ok acc =>
    obtain ⟨haligned, rfl⟩ := (foldlM_estimateSection_eq_ok s secs _ _).mp hloop
    obtain ⟨hk, hb⟩ := foldl_addSection_toNat secs ⟨0, 0⟩
    simp only [hloop, bind, Except.bind] at h
    split at h
    · exact absurd h (BootState.error_ne_ok _ _ _)
    · rename_i halign
      split at h
      · exact absurd h (BootState.error_ne_ok _ _ _)
      · rename_i hsize
        have hle : (secs.foldl addSection ⟨0, 0⟩).kernelSize.toNat ≤ 2 ^ 30 := by
          rw [gt_iff_lt, UInt32.lt_iff_toNat_lt] at hsize
          exact Nat.not_lt.mp hsize
        simp only [pure, Except.pure, Except.ok.injEq, Prod.mk.injEq] at h
        obtain ⟨hpages, hstate⟩ := h
        refine ⟨haligned, ?_, ?_, ?_, _, hstate.symm⟩
        · exact aligned4k32_iff.mp (by simpa using halign)
        · simpa [hk] using hle
        · have hkdiv : ((secs.foldl addSection ⟨0, 0⟩).kernelSize / pageSize).toNat =
              exactSize secs % 2 ^ 32 / 4096 := by
            rw [UInt32.toNat_div, hk]
            simp [pageSize]
          have hbdiv : ((secs.foldl addSection ⟨0, 0⟩).bssSize / pageSize).toNat =
              exactBssSize secs % 2 ^ 32 / 4096 := by
            rw [UInt32.toNat_div, hb]
            simp [pageSize]
          have hsum : (5 + (secs.foldl addSection ⟨0, 0⟩).kernelSize / pageSize +
              (secs.foldl addSection ⟨0, 0⟩).bssSize / pageSize).toNat =
              5 + exactSize secs % 2 ^ 32 / 4096 + exactBssSize secs % 2 ^ 32 / 4096 := by
            have hfive : (5 : UInt32).toNat = 5 := rfl
            rw [UInt32.toNat_add, UInt32.toNat_add, hkdiv, hbdiv, hfive]
            omega
          rw [← hpages, toInt32_toInt_of_lt (by omega), hsum]

/-- The estimate as an exact number. -/
def estimatedPages (secs : List Elf64Shdr) : Nat :=
  5 + exactSize secs / 4096 + exactBssSize secs / 4096

/-- Up to one gigabyte the estimate is exact. -/
theorem estimate_exact {s s' : BootState} {pages : Int32}
    (h : estimatePagesNeededForKernel s = .ok (pages, s'))
    (hsize : exactSize (kernelSections s.mem s.options.kernelStart) ≤ 2 ^ 30) :
    pages.toInt = (estimatedPages (kernelSections s.mem s.options.kernelStart) : Nat) ∧
      pages = Int32.ofNat (estimatedPages (kernelSections s.mem s.options.kernelStart)) := by
  obtain ⟨_, _, _, hpages, _⟩ := estimate_eq_ok h
  have hbss := exactBssSize_le (kernelSections s.mem s.options.kernelStart)
  rw [Nat.mod_eq_of_lt (by omega), Nat.mod_eq_of_lt (by omega)] at hpages
  refine ⟨hpages, ?_⟩
  rw [← Int32.ofInt_toInt pages, hpages]
  rfl

/-! ## What the guard promises -/

/-- What an estimate is good for: the sections take at most one gigabyte, and the number
returned is the number of pages they need. -/
structure GuardedSize (secs : List Elf64Shdr) (pages : Int32) : Prop where
  size : exactSize secs ≤ 2 ^ 30
  pages : pages.toInt = (estimatedPages secs : Nat)

/-- The sizes add up past four gigabytes, and what is left in `kernel_size` passes the
guard. -/
def WrapsBelowGuard (secs : List Elf64Shdr) : Prop :=
  2 ^ 32 ≤ exactSize secs ∧ exactSize secs % 2 ^ 32 ≤ 2 ^ 30

/-- The guard fails exactly on aligned kernels whose sizes wrap below it. -/
theorem estimate_guarded_iff (s : BootState) :
    (∀ pages s', estimatePagesNeededForKernel s = .ok (pages, s') →
        GuardedSize (kernelSections s.mem s.options.kernelStart) pages) ↔
      ¬ (AlignedKernel s ∧ WrapsBelowGuard (kernelSections s.mem s.options.kernelStart)) := by
  constructor
  · rintro hguarded ⟨haligned, hwide, hwrapped⟩
    obtain ⟨pages, s', hrun⟩ := estimate_returns haligned hwrapped
    have hsize := (hguarded pages s' hrun).size
    omega
  · intro hcond pages s' hrun
    obtain ⟨hsections, hkernel, hmod, _, _⟩ := estimate_eq_ok hrun
    have hsize : exactSize (kernelSections s.mem s.options.kernelStart) ≤ 2 ^ 30 := by
      by_contra hlarge
      exact hcond ⟨⟨hsections, hkernel⟩, by omega, hmod⟩
    exact ⟨hsize, (estimate_exact hrun hsize).1⟩

/-- A kernel with a section of four gigabytes. -/
def oversizedMachine : BootState where
  mem := Mem.ofParts [(0x200000, elfImage kernelLoadAddress [⟨0, 0, 0, 0, 0x100000000⟩])]
  options := { kernelName := 0, kernelStart := 0x200000, kernelEnd := 0x201000 }

/-- Its estimate is returned, and not a page more than the five tables. -/
theorem oversizedMachine_accepted :
    ∃ pages s', estimatePagesNeededForKernel oversizedMachine = .ok (pages, s') ∧
      pages.toInt = 5 ∧
      ¬ GuardedSize (kernelSections oversizedMachine.mem oversizedMachine.options.kernelStart)
        pages := by
  have hsections : kernelSections oversizedMachine.mem oversizedMachine.options.kernelStart =
      [⟨0, 0, 0, 0, 0x100000000⟩] := by decide +kernel
  have haligned : AlignedKernel oversizedMachine := by
    unfold AlignedKernel
    rw [hsections]
    refine ⟨fun sec hsec hload => ?_, by decide⟩
    obtain rfl := List.mem_singleton.mp hsec
    exact absurd hload (by decide)
  obtain ⟨pages, s', hrun⟩ := estimate_returns haligned (by rw [hsections]; decide)
  obtain ⟨_, _, _, hpages, _⟩ := estimate_eq_ok hrun
  rw [hsections] at hpages ⊢
  refine ⟨pages, s', hrun, hpages, fun hguarded => ?_⟩
  exact absurd hguarded.size (by decide)

end HosBoot.X8664
