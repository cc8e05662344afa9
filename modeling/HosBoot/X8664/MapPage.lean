/-
  X8664/MapPage.lean --- one call of `map_page` refines one update of the window.

  The proof follows the two stores of the function.  `pageTableFor_spec` covers
  the test `if (!pt)`: afterwards the PD slot leads to a page table and the
  window is what it was.  `storeSlot_spec` covers `pt[pt_entry] = ...`: exactly
  one slot of the window changes.  `mapPage_spec` puts them together.
-/
import HosBoot.X8664.WindowInvariant

set_option autoImplicit false

namespace HosBoot.X8664

open HosBoot.Foundation HosBoot.Common

variable {R : Reservation} {m₀ : Mem} {k : Nat} {calls : List MapCall} {b : PageBuilder}

/-- A slot reads the same in two memories that agree on its PD entry and on the
page table that entry leads to. -/
theorem slotEntry_congr {m m' : Mem} {pd x : Nat}
    (hpde : entryAt m' pd (x / 512) = entryAt m pd (x / 512))
    (hpte : entryAt m pd (x / 512) ≠ 0 →
      entryAt m' (entryBase (entryAt m pd (x / 512))) (x % 512) =
        entryAt m (entryBase (entryAt m pd (x / 512))) (x % 512)) :
    slotEntry m' pd x = slotEntry m pd x := by
  unfold slotEntry
  rw [hpde]
  by_cases hzero : entryAt m pd (x / 512) = 0
  · rw [if_pos hzero, if_pos hzero]
  · rw [if_neg hzero, if_neg hzero, hpte hzero]

/-! ## Finding or installing the page table -/

/-- The PD slot `i` leads to the page table `pt`. -/
structure LeadsTo (R : Reservation) (b : PageBuilder) (i pt : Nat) : Prop where
  mem_tables : pt ∈ tablePages b.log
  above : R.start + 12288 ≤ pt
  entry : EntryIs (entryAt b.mem (R.start + 8192) i) pt 3

/-- `b'` is `b` with a new page table, and the entry `new` for it in PD slot `i`. -/
structure NewTable (R : Reservation) (b b' : PageBuilder) (i : Nat) (new : UInt64) : Prop where
  entry : EntryIs new b.currentPage.toNat 3
  mem : b'.mem = b.mem.write64 (R.start + 8192 + 8 * i) new
  tables : tablePages b'.log = b.currentPage.toNat :: tablePages b.log

theorem NewTable.stored {b' : PageBuilder} {i : Nat} {new : UInt64}
    (h : NewTable R b b' i new) : entryAt b'.mem (R.start + 8192) i = new := by
  rw [h.mem]
  exact entryAt_write_same _ _ _ _

theorem NewTable.other {b' : PageBuilder} {i j : Nat} {new : UInt64}
    (h : NewTable R b b' i new) (hj : j ≠ i) :
    entryAt b'.mem (R.start + 8192) j = entryAt b.mem (R.start + 8192) j := by
  rw [h.mem]
  exact entryAt_write_of_ne (Ne.symm hj)

namespace BuildInv

/-- A present PD entry leads to a page table, which the function finds. -/
theorem pageTableFor_of_present (h : BuildInv R m₀ k calls b) {pdt : UInt32}
    (hpd : pdt.toNat = R.start + 8192) {i : Nat} (hi : i < 512)
    (hentry : entryAt b.mem (R.start + 8192) i ≠ 0) :
    ∃ pt : UInt32, b.pageTableFor pdt i = (pt, b) ∧ LeadsTo R b i pt.toNat := by
  rcases h.window.pde i hi with hzero | ⟨pt, hpt, hlo, he⟩
  · exact absurd hzero hentry
  · obtain ⟨_, _, hhi⟩ := h.pt_bounds hpt
    have hptr := entryIs_pointer he (by omega)
    have hne : (entryAt b.mem (R.start + 8192) i &&& 0xFFFFFFFFFFFFF000).toUInt32 ≠ 0 := by
      intro hz
      rw [hz] at hptr
      change 0 = pt at hptr
      omega
    refine ⟨_, ?_, ⟨hptr ▸ hpt, hptr ▸ hlo, hptr ▸ he⟩⟩
    unfold PageBuilder.pageTableFor
    rw [hpd]
    exact if_neg hne

section

variable {b' : PageBuilder} {i : Nat} {new : UInt64}

/-- An older entry never carries the new page: it is not in use yet. -/
theorem ne_newEntry (h : BuildInv R m₀ k calls b) (hk : k < R.count)
    (hnew : NewTable R b b' i new) : ∀ j < 512, entryAt b.mem (R.start + 8192) j ≠ new := by
  intro j hj heq
  rcases h.window.pde j hj with hzero | ⟨pt, hpt, hlo, he⟩
  · exact hnew.entry.ne_zero (by omega) (heq.symm.trans hzero)
  · have hbase : pt = b.currentPage.toNat := by
      rw [← he.base_eq, heq, hnew.entry.base_eq]
    have hold := h.alloc.mem_pages_of_table hpt
    rw [hbase, h.alloc.currentPage_eq hk] at hold
    exact AllocInv.next_not_mem hold

/-- The new entry leads to a page table, the others to theirs. -/
theorem pde_newTable (h : BuildInv R m₀ k calls b) (hk : k < R.count)
    (hnew : NewTable R b b' i new) : ∀ j < 512, entryAt b'.mem (R.start + 8192) j = 0 ∨
      ∃ pt ∈ tablePages b'.log, R.start + 12288 ≤ pt ∧
        EntryIs (entryAt b'.mem (R.start + 8192) j) pt 3 := by
  have hthree := h.three_le
  have hpage := h.alloc.currentPage_eq hk
  intro j hj
  rw [hnew.tables]
  by_cases hji : j = i
  · rw [hji, hnew.stored]
    exact Or.inr ⟨_, List.mem_cons_self, by omega, hnew.entry⟩
  · rw [hnew.other hji]
    rcases h.window.pde j hj with hzero | ⟨pt, hpt, hlo, he⟩
    · exact Or.inl hzero
    · exact Or.inr ⟨pt, List.mem_cons_of_mem _ hpt, hlo, he⟩

/-- Still no two entries share a page table. -/
theorem inj_newTable (h : BuildInv R m₀ k calls b) (hk : k < R.count)
    (hnew : NewTable R b b' i new) : ∀ j < 512, ∀ j' < 512,
      entryAt b'.mem (R.start + 8192) j ≠ 0 →
      entryAt b'.mem (R.start + 8192) j = entryAt b'.mem (R.start + 8192) j' → j = j' := by
  have hfresh := h.ne_newEntry hk hnew
  intro j hj j' hj' hne heq
  by_cases hji : j = i
  · by_cases hji' : j' = i
    · rw [hji, hji']
    · rw [hji, hnew.stored, hnew.other hji'] at heq
      exact absurd heq.symm (hfresh j' hj')
  · rw [hnew.other hji] at hne heq
    by_cases hji' : j' = i
    · rw [hji', hnew.stored] at heq
      exact absurd heq (hfresh j hj)
    · rw [hnew.other hji'] at heq
      exact h.window.inj j hj j' hj' hne heq

/-- The window does not change, because the new page is zero. -/
theorem slots_newTable (h : BuildInv R m₀ k calls b) (hk : k < R.count) (hi : i < 512)
    (hentry : entryAt b.mem (R.start + 8192) i = 0) (hnew : NewTable R b b' i new) {x : Nat}
    (hx : x < 2 ^ 18) : slotEntry b'.mem (R.start + 8192) x = installed calls x := by
  have hthree := h.three_le
  have hpage := h.alloc.currentPage_eq hk
  have hxi : x / 512 < 512 := by omega
  have hxlo : x % 512 < 512 := Nat.mod_lt _ (by omega)
  rw [← h.window.slots x hx]
  by_cases hslot : x / 512 = i
  · -- The PD slot just filled: its page table is a page of zeros.
    have hzero : entryAt b'.mem b.currentPage.toNat (x % 512) = 0 := by
      rw [hnew.mem, entryAt_write_of_apart hi hxlo (by omega)]
      refine entryAt_eq_zero hxlo fun a ha => h.alloc.fresh a ?_
      rw [hpage] at ha
      exact ha.widen (Nat.le_refl _) (by omega)
    unfold slotEntry
    rw [hslot, hnew.stored, hentry, if_pos rfl, if_neg (hnew.entry.ne_zero (by omega)),
      hnew.entry.base_eq, hzero]
  · -- Another PD slot: its page table is apart from the PD.
    refine slotEntry_congr (hnew.other hslot) fun hne => ?_
    rcases h.window.pde (x / 512) hxi with hzero | ⟨pt, _, hlo, he⟩
    · exact absurd hzero hne
    · rw [he.base_eq, hnew.mem]
      exact entryAt_write_of_apart hi hxlo (by omega)

/-- The window with the new page table. -/
theorem window_newTable (h : BuildInv R m₀ k calls b) (hk : k < R.count) (hi : i < 512)
    (hentry : entryAt b.mem (R.start + 8192) i = 0) (hnew : NewTable R b b' i new) :
    WindowInv R calls b' where
  roots := fun j hj => by
    rw [hnew.tables]
    exact List.mem_cons_of_mem _ (h.window.roots j hj)
  rootZero := fun a ha => by
    rw [hnew.mem, Mem.write64_of_not_inRange]
    · exact h.window.rootZero a ha
    · unfold InRange at *
      omega
  pde := h.pde_newTable hk hnew
  inj := h.inj_newTable hk hnew
  slots := fun _ hx => h.slots_newTable hk hi hentry hnew hx

end

/-- The new page table in an empty PD slot. -/
theorem installTable (h : BuildInv R m₀ k calls b) {pdt : UInt32}
    (hpd : pdt.toNat = R.start + 8192) {i : Nat} (hi : i < 512) (hk : k < R.count)
    (hentry : entryAt b.mem (R.start + 8192) i = 0) :
    BuildInv R m₀ (k + 1) calls
        (b.allocTable.2.storeEntry pdt i (b.currentPage ||| pageAccessBits).toUInt64) ∧
      LeadsTo R (b.allocTable.2.storeEntry pdt i (b.currentPage ||| pageAccessBits).toUInt64) i
        b.currentPage.toNat := by
  have hpage := h.alloc.currentPage_eq hk
  have hthree := h.three_le
  have haligned : 4096 ∣ b.currentPage.toNat := by
    rw [hpage]
    exact Nat.dvd_add R.aligned (Nat.dvd_mul_right 4096 k)
  have hpdMem : pdt.toNat ∈ tablePages b.allocTable.2.log := by
    rw [hpd, PageBuilder.allocTable_log, tablePages_table]
    exact List.mem_cons_of_mem _ h.pd_mem
  have hnew : NewTable R b
      (b.allocTable.2.storeEntry pdt i (b.currentPage ||| pageAccessBits).toUInt64) i
      (b.currentPage ||| pageAccessBits).toUInt64 := by
    refine ⟨entryIs_table haligned, ?_, ?_⟩
    · rw [PageBuilder.storeEntry_mem, PageBuilder.allocTable_mem, hpd]
    · rw [PageBuilder.storeEntry_log, tablePages_store, PageBuilder.allocTable_log,
        tablePages_table]
  refine ⟨⟨(h.alloc.allocTable hk).storeEntry hpdMem hi,
    h.window_newTable hk hi hentry hnew⟩, ?_, by omega, ?_⟩
  · rw [hnew.tables]
    exact List.mem_cons_self
  · rw [hnew.stored]
    exact hnew.entry

/-- What `if (!pt)` achieves: the PD slot leads to a page table, at the price of
at most one page, and the window is unchanged. -/
theorem pageTableFor_spec (h : BuildInv R m₀ k calls b) {pdt : UInt32}
    (hpd : pdt.toNat = R.start + 8192) {i : Nat} (hi : i < 512) (hk : k < R.count) :
    ∃ k', k' ≤ k + 1 ∧ BuildInv R m₀ k' calls (b.pageTableFor pdt i).2 ∧
      LeadsTo R (b.pageTableFor pdt i).2 i (b.pageTableFor pdt i).1.toNat ∧
      bssPages (b.pageTableFor pdt i).2.log = bssPages b.log ∧
      mapCalls (b.pageTableFor pdt i).2.log = mapCalls b.log := by
  by_cases hentry : entryAt b.mem (R.start + 8192) i = 0
  · have hnew : b.pageTableFor pdt i = (b.currentPage,
        b.allocTable.2.storeEntry pdt i (b.currentPage ||| pageAccessBits).toUInt64) := by
      unfold PageBuilder.pageTableFor
      rw [hpd, hentry]
      exact if_pos (by decide)
    obtain ⟨hinv, hlead⟩ := h.installTable hpd hi hk hentry
    rw [hnew]
    refine ⟨k + 1, Nat.le_refl _, hinv, hlead, ?_, ?_⟩
    · rw [PageBuilder.storeEntry_log, bssPages_store, PageBuilder.allocTable_log, bssPages_table]
    · rw [PageBuilder.storeEntry_log, mapCalls_store, PageBuilder.allocTable_log, mapCalls_table]
  · obtain ⟨pt, hold, hlead⟩ := h.pageTableFor_of_present hpd hi hentry
    rw [hold]
    exact ⟨k, by omega, h, hlead, rfl, rfl⟩

/-! ## Writing the slot -/

/-- `pt[pt_entry] = real_addr | access_bits` updates exactly one slot. -/
theorem storeSlot_spec (h : BuildInv R m₀ k calls b) {pt : UInt32} (c : MapCall)
    (hlead : LeadsTo R b (c.slot / 512) pt.toNat) :
    BuildInv R m₀ k (c :: calls) (b.storeEntry pt (c.slot % 512) c.entry) := by
  have hcslot : c.slot < 2 ^ 18 := pageSlot_lt c.virtAddr
  have hci : c.slot / 512 < 512 := by omega
  have hclo : c.slot % 512 < 512 := Nat.mod_lt _ (by omega)
  have habove := hlead.above
  have hpde : ∀ j < 512, entryAt (b.storeEntry pt (c.slot % 512) c.entry).mem
      (R.start + 8192) j = entryAt b.mem (R.start + 8192) j :=
    fun j hj => entryAt_write_of_apart hclo hj (by omega)
  refine ⟨h.alloc.storeEntry hlead.mem_tables hclo, ?_⟩
  constructor
  · exact h.window.roots
  · intro a ha
    rw [PageBuilder.storeEntry_mem, Mem.write64_of_not_inRange]
    · exact h.window.rootZero a ha
    · unfold InRange at *
      omega
  · intro j hj
    rw [hpde j hj]
    exact h.window.pde j hj
  · intro j hj j' hj'
    rw [hpde j hj, hpde j' hj']
    exact h.window.inj j hj j' hj'
  · intro x hx
    have hxi : x / 512 < 512 := by omega
    have hxlo : x % 512 < 512 := Nat.mod_lt _ (by omega)
    by_cases hx' : c.slot = x
    · subst hx'
      unfold slotEntry
      rw [hpde _ hci, if_neg (hlead.entry.ne_zero (by omega)), hlead.entry.base_eq,
        PageBuilder.storeEntry_mem, entryAt_write_same, installed, if_pos rfl]
    · rw [installed, if_neg hx', ← h.window.slots x hx]
      refine slotEntry_congr (hpde _ hxi) fun hne => ?_
      rcases h.window.pde (x / 512) hxi with hzero | ⟨pt', hpt', hlo', he'⟩
      · exact absurd hzero hne
      · rw [he'.base_eq, PageBuilder.storeEntry_mem]
        by_cases hpt : pt' = pt.toNat
        · -- The same page table: the same PD slot, so another entry of it.
          have hsame : entryAt b.mem (R.start + 8192) (x / 512) =
              entryAt b.mem (R.start + 8192) (c.slot / 512) := by
            apply UInt64.toNat_inj.mp
            rw [he'.value, hlead.entry.value, hpt]
          have hdiv := h.window.inj _ hxi _ hci hne hsame
          have hmod : c.slot % 512 ≠ x % 512 := by omega
          rw [hpt]
          exact entryAt_write_of_ne hmod
        · have hapart := AllocInv.pages_apart (h.alloc.mem_pages_of_table hlead.mem_tables)
            (h.alloc.mem_pages_of_table hpt') (Ne.symm hpt)
          exact entryAt_write_of_apart hclo hxlo hapart

/-! ## The call -/

theorem recordCall (h : BuildInv R m₀ k calls b) (real virt : UInt64) (bits : UInt16) :
    BuildInv R m₀ k calls { b with log := .map real virt bits :: b.log } :=
  ⟨h.alloc.recordCall real virt bits, h.window.of_mem_eq rfl fun _ hp => hp⟩

/-- `map_page` takes at most one page, updates the slot of the address to the
entry for the frame, and changes no other slot. -/
theorem mapPage_spec (h : BuildInv R m₀ k calls b) {pdt : UInt32}
    (hpd : pdt.toNat = R.start + 8192) (hk : k < R.count) (c : MapCall) :
    ∃ k', k' ≤ k + 1 ∧
      BuildInv R m₀ k' (c :: calls) (b.mapPage pdt c.realAddr c.virtAddr c.accessBits) ∧
      bssPages (b.mapPage pdt c.realAddr c.virtAddr c.accessBits).log = bssPages b.log ∧
      mapCalls (b.mapPage pdt c.realAddr c.virtAddr c.accessBits).log = c :: mapCalls b.log := by
  have hci : c.slot / 512 < 512 := by
    have hcslot : c.slot < 2 ^ 18 := pageSlot_lt c.virtAddr
    omega
  obtain ⟨k', hk', hinv, hlead, hbss, hcalls⟩ := h.pageTableFor_spec hpd hci hk
  have hstore := (hinv.storeSlot_spec c hlead).recordCall c.realAddr c.virtAddr c.accessBits
  unfold PageBuilder.mapPage
  simp only [pdtEntry_toNat, ptEntry_toNat]
  refine ⟨k', hk', hstore, hbss, ?_⟩
  rw [mapCalls_map, PageBuilder.storeEntry_log, mapCalls_store]
  exact congrArg _ hcalls

end BuildInv

end HosBoot.X8664
