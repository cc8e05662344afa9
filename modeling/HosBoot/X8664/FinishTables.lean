/-
  X8664/FinishTables.lean --- the four levels that `build_page_tables` leaves.

  After the section loop the function links the kernel's PD under PML4 entry 256
  and PDPT entry 0, and builds a second PDPT and PD that map the first four
  megabytes onto themselves.  `FinalTables` lists every entry of the upper
  levels; the three walk theorems read a translation off it for every address.
-/
import HosBoot.X8664.SectionRun

set_option autoImplicit false

namespace HosBoot.X8664

open HosBoot.Foundation HosBoot.Common

variable {R : Reservation} {m₀ : Mem} {k : Nat} {calls : List MapCall} {b : PageBuilder}

/-- The finished tables: `calls` installed in the kernel's window, the PDPT and PD
of the low half in the last two pages handed out. -/
structure FinalTables (R : Reservation) (m₀ : Mem) (k : Nat) (calls : List MapCall)
    (b : PageBuilder) : Prop where
  alloc : AllocInv R m₀ (k + 2) b
  /-- PML4 entry 256 leads to the PDPT of the kernel. -/
  kernelPdpt : EntryIs (entryAt b.mem R.start 256) (R.start + 4096) 3
  /-- PML4 entry 0 leads to the PDPT of the low half. -/
  lowPdpt : EntryIs (entryAt b.mem R.start 0) (R.start + 4096 * k) 3
  /-- The other PML4 entries are empty. -/
  pml4Rest : ∀ i < 512, i ≠ 0 → i ≠ 256 → entryAt b.mem R.start i = 0
  /-- The first gigabyte of the kernel's half has a PD, the others have none. -/
  kernelPd : EntryIs (entryAt b.mem (R.start + 4096) 0) (R.start + 8192) 3
  kernelPdptRest : ∀ i < 512, i ≠ 0 → entryAt b.mem (R.start + 4096) i = 0
  /-- The first gigabyte of the low half has a PD, the others have none. -/
  lowPd : EntryIs (entryAt b.mem (R.start + 4096 * k) 0) (R.start + 4096 * (k + 1)) 3
  lowPdptRest : ∀ i < 512, i ≠ 0 → entryAt b.mem (R.start + 4096 * k) i = 0
  /-- Two leaves of two megabytes. -/
  lowLeaf₀ : entryAt b.mem (R.start + 4096 * (k + 1)) 0 = 0x83
  lowLeaf₁ : entryAt b.mem (R.start + 4096 * (k + 1)) 1 = 0x200083
  lowPdRest : ∀ i < 512, i ≠ 0 → i ≠ 1 → entryAt b.mem (R.start + 4096 * (k + 1)) i = 0
  /-- The kernel's PD and page tables. -/
  pde : ∀ i < 512, entryAt b.mem (R.start + 8192) i = 0 ∨
    ∃ pt, EntryIs (entryAt b.mem (R.start + 8192) i) pt 3
  slots : ∀ x < 2 ^ 18, slotEntry b.mem (R.start + 8192) x = installed calls x

/-! ## The stores after the loop -/

/-- The memory after the stores of `finishTables`, for the tables it names. -/
def finishMem (m : Mem) (pml4 pdpt pdt pdpt' pdt' : UInt32) : Mem :=
  let m := m.write64 (pml4.toNat + 8 * 256) (pdpt ||| pageAccessBits).toUInt64
  let m := m.write64 (pdpt.toNat + 8 * 0) (pdt ||| pageAccessBits).toUInt64
  let m := m.write64 (pml4.toNat + 8 * 0) (pdpt' ||| pageAccessBits).toUInt64
  let m := m.write64 (pdpt'.toNat + 8 * 0) (pdt' ||| pageAccessBits).toUInt64
  let m := m.write64 (pdt'.toNat + 8 * 0) 0x83
  m.write64 (pdt'.toNat + 8 * 1) 0x200083

theorem finishTables_mem (pml4 pdpt pdt : UInt32) :
    (b.finishTables pml4 pdpt pdt).mem =
      finishMem b.mem pml4 pdpt pdt b.currentPage (b.currentPage + pageSize) := by
  unfold PageBuilder.finishTables finishMem
  simp only [PageBuilder.storeEntry_mem, PageBuilder.allocTable_mem, PageBuilder.allocTable_fst,
    PageBuilder.storeEntry_currentPage, PageBuilder.allocTable_currentPage]
  rfl

/-- Every entry of every table after the stores. -/
theorem entryAt_finishMem {m : Mem} {pml4 pdpt pdt pdpt' pdt' : UInt32} {u j : Nat}
    (h4 : 4096 ∣ pml4.toNat) (h3 : 4096 ∣ pdpt.toNat) (h3' : 4096 ∣ pdpt'.toNat)
    (h2' : 4096 ∣ pdt'.toNat) (hu : 4096 ∣ u) (hj : j < 512) :
    entryAt (finishMem m pml4 pdpt pdt pdpt' pdt') u j =
      if pdt'.toNat = u ∧ 1 = j then 0x200083
      else if pdt'.toNat = u ∧ 0 = j then 0x83
      else if pdpt'.toNat = u ∧ 0 = j then (pdt' ||| pageAccessBits).toUInt64
      else if pml4.toNat = u ∧ 0 = j then (pdpt' ||| pageAccessBits).toUInt64
      else if pdpt.toNat = u ∧ 0 = j then (pdt ||| pageAccessBits).toUInt64
      else if pml4.toNat = u ∧ 256 = j then (pdpt ||| pageAccessBits).toUInt64
      else entryAt m u j := by
  unfold finishMem
  rw [entryAt_write h2' hu (by omega) hj, entryAt_write h2' hu (by omega) hj,
    entryAt_write h3' hu (by omega) hj, entryAt_write h4 hu (by omega) hj,
    entryAt_write h3 hu (by omega) hj, entryAt_write h4 hu (by omega) hj]

/-- The stores and allocations of `finishTables` respect the allocator. -/
theorem finishTables_alloc (h : BuildInv R m₀ k calls b) {pml4 pdpt pdt : UInt32}
    (hpml4 : pml4.toNat = R.start) (hpdpt : pdpt.toNat = R.start + 4096)
    (hk : k + 2 ≤ R.count) : AllocInv R m₀ (k + 2) (b.finishTables pml4 pdpt pdt) := by
  have hroot0 : pml4.toNat ∈ tablePages b.log := hpml4 ▸ h.window.roots 0 (by omega)
  have hroot1 : pdpt.toNat ∈ tablePages b.log := hpdpt ▸ h.window.roots 1 (by omega)
  unfold PageBuilder.finishTables
  have h1 := (h.alloc.storeEntry hroot0 (i := pml4Entry) (by decide)
    (v := (pdpt ||| pageAccessBits).toUInt64)).storeEntry hroot1 (i := 0) (by omega)
    (v := (pdt ||| pageAccessBits).toUInt64)
  have h2 := (h1.allocTable (by omega)).allocTable (by omega)
  have h3 := h2.storeEntry (t := pml4) (i := 0)
    (v := (b.currentPage ||| pageAccessBits).toUInt64) (by simp [hroot0]) (by omega)
  have h4 := h3.storeEntry (t := b.currentPage) (i := 0)
    (v := (b.currentPage + pageSize ||| pageAccessBits).toUInt64) (by simp) (by omega)
  have h5 := h4.storeEntry (t := b.currentPage + pageSize) (i := 0)
    (v := (0x80 ||| pageAccessBits).toUInt64) (by simp) (by omega)
  exact h5.storeEntry (by simp) (by omega)

/-- The last stores make no frame and no call. -/
theorem finishTables_bssPages (pml4 pdpt pdt : UInt32) :
    bssPages (b.finishTables pml4 pdpt pdt).log = bssPages b.log := by
  unfold PageBuilder.finishTables
  simp only [PageBuilder.storeEntry_log, PageBuilder.allocTable_log, bssPages_store,
    bssPages_table]

theorem finishTables_mapCalls (pml4 pdpt pdt : UInt32) :
    mapCalls (b.finishTables pml4 pdpt pdt).log = mapCalls b.log := by
  unfold PageBuilder.finishTables
  simp only [PageBuilder.storeEntry_log, PageBuilder.allocTable_log, mapCalls_store,
    mapCalls_table]

/-- The entry that leads to a table at a known address. -/
theorem entryIs_tableAt {page : UInt32} {base : Nat} (hpage : page.toNat = base)
    (hdvd : 4096 ∣ base) : EntryIs (page ||| pageAccessBits).toUInt64 base 3 := by
  subst hpage
  exact entryIs_table hdvd

section

variable {pml4 pdpt pdt : UInt32} {u j : Nat}

/-- The two pages that the function takes last. -/
theorem BuildInv.lowPages (h : BuildInv R m₀ k calls b) (hk : k + 2 ≤ R.count) :
    b.currentPage.toNat = R.start + 4096 * k ∧
      (b.currentPage + pageSize).toNat = R.start + 4096 * (k + 1) := by
  have hbelow := R.below
  refine ⟨h.alloc.currentPage_eq (by omega), ?_⟩
  rw [h.alloc.next_current (by omega)]
  exact Nat.mod_eq_of_lt (by omega)

/-- Every entry after the stores, in terms of the entries before. -/
theorem BuildInv.entryAt_finishTables (h : BuildInv R m₀ k calls b)
    (hpml4 : pml4.toNat = R.start) (hpdpt : pdpt.toNat = R.start + 4096) (hk : k + 2 ≤ R.count)
    (hu : 4096 ∣ u) (hj : j < 512) :
    entryAt (b.finishTables pml4 pdpt pdt).mem u j =
      if R.start + 4096 * (k + 1) = u ∧ 1 = j then 0x200083
      else if R.start + 4096 * (k + 1) = u ∧ 0 = j then 0x83
      else if R.start + 4096 * k = u ∧ 0 = j then
        (b.currentPage + pageSize ||| pageAccessBits).toUInt64
      else if R.start = u ∧ 0 = j then (b.currentPage ||| pageAccessBits).toUInt64
      else if R.start + 4096 = u ∧ 0 = j then (pdt ||| pageAccessBits).toUInt64
      else if R.start = u ∧ 256 = j then (pdpt ||| pageAccessBits).toUInt64
      else entryAt b.mem u j := by
  have hstart := R.aligned
  obtain ⟨hlow, hlow'⟩ := h.lowPages hk
  rw [finishTables_mem, entryAt_finishMem (by omega) (by omega) (by omega) (by omega) hu hj,
    hpml4, hpdpt, hlow, hlow']

/-- An entry that no store is about. -/
theorem BuildInv.entryAt_kept (h : BuildInv R m₀ k calls b)
    (hpml4 : pml4.toNat = R.start) (hpdpt : pdpt.toNat = R.start + 4096) (hk : k + 2 ≤ R.count)
    (hu : 4096 ∣ u) (hj : j < 512) (hroot : R.start = u → j ≠ 0 ∧ j ≠ 256)
    (hpd : R.start + 4096 = u → j ≠ 0) (hlow : R.start + 4096 * k = u → j ≠ 0)
    (hlow' : R.start + 4096 * (k + 1) = u → j ≠ 0 ∧ j ≠ 1) :
    entryAt (b.finishTables pml4 pdpt pdt).mem u j = entryAt b.mem u j := by
  rw [h.entryAt_finishTables hpml4 hpdpt hk hu hj, if_neg fun hc => (hlow' hc.1).2 hc.2.symm,
    if_neg fun hc => (hlow' hc.1).1 hc.2.symm, if_neg fun hc => hlow hc.1 hc.2.symm,
    if_neg fun hc => (hroot hc.1).1 hc.2.symm, if_neg fun hc => hpd hc.1 hc.2.symm,
    if_neg fun hc => (hroot hc.1).2 hc.2.symm]

/-- The two tables of the kernel's half that the loop does not write are empty. -/
theorem BuildInv.root_empty (h : BuildInv R m₀ k calls b)
    (hu : u = R.start ∨ u = R.start + 4096) (hj : j < 512) : entryAt b.mem u j = 0 :=
  entryAt_eq_zero hj fun a ha => h.window.rootZero a (ha.widen (by omega) (by omega))

/-- So are the pages not handed out yet. -/
theorem BuildInv.fresh_empty (h : BuildInv R m₀ k calls b) (hk : k + 2 ≤ R.count)
    (hu : u = R.start + 4096 * k ∨ u = R.start + 4096 * (k + 1)) (hj : j < 512) :
    entryAt b.mem u j = 0 :=
  entryAt_eq_zero hj fun a ha => h.alloc.fresh a (ha.widen (by omega) (by omega))

/-- The kernel's PD and page tables are none of the tables written. -/
theorem BuildInv.entryAt_window (h : BuildInv R m₀ k calls b)
    (hpml4 : pml4.toNat = R.start) (hpdpt : pdpt.toNat = R.start + 4096) (hk : k + 2 ≤ R.count)
    (hu : 4096 ∣ u) (hlo : R.start + 8192 ≤ u) (hhi : u < R.start + 4096 * k) (hj : j < 512) :
    entryAt (b.finishTables pml4 pdpt pdt).mem u j = entryAt b.mem u j :=
  h.entryAt_kept hpml4 hpdpt hk hu hj (by omega) (by omega) (by omega) (by omega)

/-- The kernel's PD after the stores is the one before. -/
theorem BuildInv.pde_finishTables (h : BuildInv R m₀ k calls b)
    (hpml4 : pml4.toNat = R.start) (hpdpt : pdpt.toNat = R.start + 4096) (hk : k + 2 ≤ R.count)
    (hj : j < 512) :
    entryAt (b.finishTables pml4 pdpt pdt).mem (R.start + 8192) j =
      entryAt b.mem (R.start + 8192) j := by
  have hthree := h.three_le
  have hdvd : 4096 ∣ R.start + 8192 := Nat.dvd_add R.aligned (by decide)
  exact h.entryAt_window hpml4 hpdpt hk hdvd (Nat.le_refl _) (by omega) hj

/-- And so is every page of the window. -/
theorem BuildInv.slots_finishTables (h : BuildInv R m₀ k calls b)
    (hpml4 : pml4.toNat = R.start) (hpdpt : pdpt.toNat = R.start + 4096) (hk : k + 2 ≤ R.count)
    {x : Nat} (hx : x < 2 ^ 18) :
    slotEntry (b.finishTables pml4 pdpt pdt).mem (R.start + 8192) x = installed calls x := by
  have hdiv : x / 512 < 512 := by omega
  rw [← h.window.slots x hx]
  refine slotEntry_congr (h.pde_finishTables hpml4 hpdpt hk hdiv) fun hne => ?_
  rcases h.window.pde _ hdiv with hzero | ⟨pt, hpt, hlo, he⟩
  · exact absurd hzero hne
  · obtain ⟨hdvd, _, hhi⟩ := AllocInv.page_bounds (h.alloc.mem_pages_of_table hpt)
    rw [he.base_eq]
    exact h.entryAt_window hpml4 hpdpt hk hdvd (by omega) (by omega) (Nat.mod_lt _ (by omega))

/-- The tables after the whole function, from the loop's invariant. -/
theorem BuildInv.finishTables (h : BuildInv R m₀ k calls b) (hpml4 : pml4.toNat = R.start)
    (hpdpt : pdpt.toNat = R.start + 4096) (hpdt : pdt.toNat = R.start + 8192)
    (hk : k + 2 ≤ R.count) : FinalTables R m₀ k calls (b.finishTables pml4 pdpt pdt) := by
  have hthree := h.three_le
  have hstart := R.aligned
  obtain ⟨hlow, hlow'⟩ := h.lowPages hk
  have hpdptDvd : 4096 ∣ R.start + 4096 := Nat.dvd_add hstart (by decide)
  have hpdDvd : 4096 ∣ R.start + 8192 := Nat.dvd_add hstart (by decide)
  have hlowDvd : 4096 ∣ R.start + 4096 * k := Nat.dvd_add hstart (Nat.dvd_mul_right _ _)
  have hlowDvd' : 4096 ∣ R.start + 4096 * (k + 1) := Nat.dvd_add hstart (Nat.dvd_mul_right _ _)
  -- every entry is one that a store wrote, or was zero before
  have hentry := fun u j =>
    @BuildInv.entryAt_finishTables R m₀ k calls b pml4 pdpt pdt u j h hpml4 hpdpt hk
  have hkept := fun u j =>
    @BuildInv.entryAt_kept R m₀ k calls b pml4 pdpt pdt u j h hpml4 hpdpt hk
  exact
    { alloc := finishTables_alloc h hpml4 hpdpt hk
      kernelPdpt := by
        rw [hentry _ _ hstart (by omega), if_neg (by omega), if_neg (by omega), if_neg (by omega),
          if_neg (by omega), if_neg (by omega), if_pos ⟨rfl, rfl⟩]
        exact entryIs_tableAt hpdpt hpdptDvd
      lowPdpt := by
        rw [hentry _ _ hstart (by omega), if_neg (by omega), if_neg (by omega), if_neg (by omega),
          if_pos ⟨rfl, rfl⟩]
        exact entryIs_tableAt hlow hlowDvd
      pml4Rest := fun i hi h0 h256 => by
        rw [hkept _ _ hstart hi (fun _ => ⟨h0, h256⟩) (by omega) (by omega) (by omega)]
        exact h.root_empty (.inl rfl) hi
      kernelPd := by
        rw [hentry _ _ hpdptDvd (by omega), if_neg (by omega), if_neg (by omega), if_neg (by omega),
          if_neg (by omega), if_pos ⟨rfl, rfl⟩]
        exact entryIs_tableAt hpdt hpdDvd
      kernelPdptRest := fun i hi h0 => by
        rw [hkept _ _ hpdptDvd hi (by omega) (fun _ => h0) (by omega) (by omega)]
        exact h.root_empty (.inr rfl) hi
      lowPd := by
        rw [hentry _ _ hlowDvd (by omega), if_neg (by omega), if_neg (by omega),
          if_pos ⟨rfl, rfl⟩]
        exact entryIs_tableAt hlow' hlowDvd'
      lowPdptRest := fun i hi h0 => by
        rw [hkept _ _ hlowDvd hi (by omega) (by omega) (fun _ => h0) (by omega)]
        exact h.fresh_empty hk (.inl rfl) hi
      lowLeaf₀ := by
        rw [hentry _ _ hlowDvd' (by omega), if_neg (by omega), if_pos ⟨rfl, rfl⟩]
      lowLeaf₁ := by rw [hentry _ _ hlowDvd' (by omega), if_pos ⟨rfl, rfl⟩]
      lowPdRest := fun i hi h0 h1 => by
        rw [hkept _ _ hlowDvd' hi (by omega) (by omega) (by omega) fun _ => ⟨h0, h1⟩]
        exact h.fresh_empty hk (.inr rfl) hi
      pde := fun i hi => by
        rw [h.pde_finishTables hpml4 hpdpt hk hi]
        rcases h.window.pde i hi with hzero | ⟨pt, _, _, he⟩
        · exact .inl hzero
        · exact .inr ⟨pt, he⟩
      slots := fun _ hx => h.slots_finishTables hpml4 hpdpt hk hx }

end

/-! ## The walk through the finished tables -/

/-- The gigabyte at `KERNEL_LOAD_ADDRESS`, all that one PD can map. -/
def InWindow (v : UInt64) : Prop := InRange kernelLoadAddress.toNat (2 ^ 30) v.toNat

theorem kernelLoadAddress_toNat : kernelLoadAddress.toNat = 0xffff800000000000 := rfl

/-- Among canonical addresses the window is PML4 entry 256, PDPT entry 0. -/
theorem inWindow_iff {v : UInt64} (hv : Canonical v) :
    InWindow v ↔ tableIndex 3 v = 256 ∧ tableIndex 2 v = 0 := by
  have hlt := v.toNat_lt
  unfold InWindow InRange tableIndex Canonical at *
  rw [kernelLoadAddress_toNat]
  omega

theorem InWindow.canonical {v : UInt64} (h : InWindow v) : Canonical v := by
  unfold InWindow InRange at h
  rw [kernelLoadAddress_toNat] at h
  exact Or.inr (by omega)

/-- The page slot is the index into the PD and the index into the page table. -/
theorem pageSlot_div (v : UInt64) : pageSlot v / 512 = tableIndex 1 v := by
  unfold pageSlot tableIndex
  omega

theorem pageSlot_mod (v : UInt64) : pageSlot v % 512 = tableIndex 0 v := by
  unfold pageSlot tableIndex
  omega

namespace FinalTables

/-- In the window, the walk reads the entry that was installed last in the slot. -/
theorem pageWalk_window (h : FinalTables R m₀ k calls b) {v : UInt64} (hv : InWindow v) :
    pageWalk b.mem R.start v = entryTarget (installed calls (pageSlot v)) v := by
  obtain ⟨h3, h2⟩ := (inWindow_iff hv.canonical).mp hv
  have hpdpt := h.kernelPdpt
  have hpd := h.kernelPd
  rw [← h3] at hpdpt
  rw [← h2] at hpd
  rw [← h.slots _ (pageSlot_lt v), slotEntry, pageSlot_div, pageSlot_mod]
  rcases h.pde _ (tableIndex_lt 1 v) with hzero | ⟨pt, hpt⟩
  · rw [pageWalk_none_of_pd hpdpt (by decide) hpd (by decide) hzero, if_pos hzero, entryTarget,
      entryPresent_zero]
    rfl
  · rw [pageWalk_of_pd hpdpt (by decide) hpd (by decide) hpt (by decide) (by decide),
      if_neg (hpt.ne_zero (by decide)), hpt.base_eq]

/-- The first four megabytes are mapped onto themselves. -/
theorem pageWalk_low (h : FinalTables R m₀ k calls b) {v : UInt64} (hv : v.toNat < 2 ^ 22) :
    pageWalk b.mem R.start v = some v.toNat := by
  have h3 : tableIndex 3 v = 0 := by unfold tableIndex; omega
  have h2 : tableIndex 2 v = 0 := by unfold tableIndex; omega
  have hpdpt := h.lowPdpt
  have hpd := h.lowPd
  rw [← h3] at hpdpt
  rw [← h2] at hpd
  by_cases hlow : v.toNat < 2 ^ 21
  · have h1 : tableIndex 1 v = 0 := by unfold tableIndex; omega
    have hleaf := h.lowLeaf₀
    rw [← h1] at hleaf
    have hbase : entryLargeBase 0x83 = 0 := rfl
    rw [pageWalk_of_leaf hpdpt (by decide) hpd (by decide) hleaf (by decide) (by decide), hbase,
      Nat.zero_add, Nat.mod_eq_of_lt hlow]
  · have h1 : tableIndex 1 v = 1 := by unfold tableIndex; omega
    have hleaf : entryAt b.mem (R.start + 4096 * (k + 1)) (tableIndex 1 v) = 0x200083 := by
      rw [h1]
      exact h.lowLeaf₁
    have hbase : entryLargeBase 0x200083 = 2 ^ 21 := rfl
    have hv : 2 ^ 21 + v.toNat % 2 ^ 21 = v.toNat := by omega
    rw [pageWalk_of_leaf hpdpt (by decide) hpd (by decide) hleaf (by decide) (by decide), hbase,
      hv]

/-- Nothing else is mapped. -/
theorem pageWalk_outside (h : FinalTables R m₀ k calls b) {v : UInt64} (hc : Canonical v)
    (hv : ¬ InWindow v) (hlow : 2 ^ 22 ≤ v.toNat) : pageWalk b.mem R.start v = none := by
  have hpdpt := h.kernelPdpt
  have hlowPdpt := h.lowPdpt
  by_cases h256 : tableIndex 3 v = 256
  · have h2 : tableIndex 2 v ≠ 0 := fun h2 => hv ((inWindow_iff hc).mpr ⟨h256, h2⟩)
    rw [← h256] at hpdpt
    exact pageWalk_none_of_pdpt hpdpt (by decide)
      (h.kernelPdptRest _ (tableIndex_lt 2 v) h2)
  · by_cases h0 : tableIndex 3 v = 0
    · rw [← h0] at hlowPdpt
      by_cases h2 : tableIndex 2 v = 0
      · -- The address is in the low gigabyte, behind its two leaves.
        have hlowPd := h.lowPd
        rw [← h2] at hlowPd
        have h1 : tableIndex 1 v ≠ 0 ∧ tableIndex 1 v ≠ 1 := by
          have hlt := v.toNat_lt
          unfold tableIndex Canonical at *
          omega
        exact pageWalk_none_of_pd hlowPdpt (by decide) hlowPd (by decide)
          (h.lowPdRest _ (tableIndex_lt 1 v) h1.1 h1.2)
      · exact pageWalk_none_of_pdpt hlowPdpt (by decide)
          (h.lowPdptRest _ (tableIndex_lt 2 v) h2)
    · exact pageWalk_none_of_pml4 (h.pml4Rest _ (tableIndex_lt 3 v) h0 h256)

end FinalTables

end HosBoot.X8664
