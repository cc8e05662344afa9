/-
  X8664/WindowInvariant.lean --- what `map_page` builds, as a map of the window.

  One PD and the page tables under it describe one gigabyte: 2 ^ 18 page slots.
  The abstract reading of the builder's work is `installed calls`, the function
  from a slot to the entry that the newest call of `map_page` for that slot
  wrote, or zero.  The concrete reading is `slotEntry m pd`, which follows the PD
  and a page table in memory.  `WindowInv` says that the two agree, and
  `mapPage_spec` that one call of `map_page` moves both by the same update.

  `map_page` looks at bits 12 to 29 of the address only: `pageSlot`.
-/
import HosBoot.X8664.AllocInvariant

set_option autoImplicit false

namespace HosBoot.X8664

open HosBoot.Foundation HosBoot.Common

/-! ## Slots -/

/-- The slot of an address: its page number within its gigabyte. -/
def pageSlot (virt : UInt64) : Nat := virt.toNat / 4096 % 2 ^ 18

namespace MapCall

/-- The slot that the call writes. -/
def slot (c : MapCall) : Nat := pageSlot c.virtAddr

/-- The entry that the call writes. -/
def entry (c : MapCall) : UInt64 := c.realAddr ||| c.accessBits.toUInt64

end MapCall

/-- The window after some calls of `map_page`, newest first. -/
def installed : List MapCall → Nat → UInt64
  | [], _ => 0
  | c :: older, x => if c.slot = x then c.entry else installed older x

/-- The window as the tables under a PD describe it. -/
def slotEntry (m : Mem) (pd x : Nat) : UInt64 :=
  if entryAt m pd (x / 512) = 0 then 0
  else entryAt m (entryBase (entryAt m pd (x / 512))) (x % 512)

/-! ## The address arithmetic of `map_page` -/

theorem loPart_toNat (virt : UInt64) :
    (virt &&& 0xFFFFFFFF).toUInt32.toNat = virt.toNat % 2 ^ 32 := by
  have h : (virt &&& 0xFFFFFFFF).toNat = virt.toNat % 2 ^ 32 := by
    rw [UInt64.toNat_and]
    exact and_lowMask virt.toNat 32
  rw [UInt64.toNat_toUInt32, h]
  exact Nat.mod_mod _ _

/-- `pdt_entry` is the high part of the slot. -/
theorem pdtEntry_toNat (virt : UInt64) :
    (((virt &&& 0xFFFFFFFF).toUInt32 &&& 0x3FE00000) >>> 21).toNat = pageSlot virt / 512 := by
  have hmask : ((virt &&& 0xFFFFFFFF).toUInt32 &&& 0x3FE00000).toNat =
      virt.toNat % 2 ^ 32 % 2 ^ 30 / 2 ^ 21 * 2 ^ 21 := by
    rw [UInt32.toNat_and, loPart_toNat]
    exact and_midMask (w := 30) (k := 21) (by omega) _
  have hshift : (21 : UInt32).toNat % 32 = 21 := rfl
  rw [UInt32.toNat_shiftRight, hmask, hshift, Nat.shiftRight_eq_div_pow, pageSlot]
  omega

/-- `pt_entry` is the low part of the slot. -/
theorem ptEntry_toNat (virt : UInt64) :
    (((virt &&& 0xFFFFFFFF).toUInt32 &&& 0x001FF000) >>> 12).toNat = pageSlot virt % 512 := by
  have hmask : ((virt &&& 0xFFFFFFFF).toUInt32 &&& 0x001FF000).toNat =
      virt.toNat % 2 ^ 32 % 2 ^ 21 / 2 ^ 12 * 2 ^ 12 := by
    rw [UInt32.toNat_and, loPart_toNat]
    exact and_midMask (w := 21) (k := 12) (by omega) _
  have hshift : (12 : UInt32).toNat % 32 = 12 := rfl
  rw [UInt32.toNat_shiftRight, hmask, hshift, Nat.shiftRight_eq_div_pow, pageSlot]
  omega

theorem pageSlot_lt (virt : UInt64) : pageSlot virt < 2 ^ 18 := Nat.mod_lt _ (by omega)

/-- `(uint32_t) pt | PAGE_ACCESS_BITS`, stored into a 64-bit entry. -/
theorem entryIs_table {page : UInt32} (h : 4096 ∣ page.toNat) :
    EntryIs (page ||| pageAccessBits).toUInt64 page.toNat 3 where
  value := by
    rw [UInt32.toNat_toUInt64, UInt32.toNat_or]
    exact or_of_lowBits_clear (k := 12) h (by decide)
  aligned := h
  base_lt := by
    have hlt := page.toNat_lt
    omega
  flags_lt := by omega

/-- `(uint32_t) (pdt[pdt_entry] & 0xFFFFFFFFFFFFF000)` recovers the table. -/
theorem entryIs_pointer {e : UInt64} {base flags : Nat} (h : EntryIs e base flags)
    (hlt : base < 2 ^ 32) : (e &&& 0xFFFFFFFFFFFFF000).toUInt32.toNat = base := by
  have hmask : (e &&& 0xFFFFFFFFFFFFF000).toNat = e.toNat / 2 ^ 12 * 2 ^ 12 := by
    rw [UInt64.toNat_and]
    exact and_highMask (w := 64) (k := 12) (by omega) e.toNat_lt
  obtain ⟨hv, ⟨q, rfl⟩, _, hf⟩ := h
  rw [UInt64.toNat_toUInt32, hmask, hv]
  omega

/-! ## The invariant -/

/-- The tables under the kernel's PD describe exactly what the calls installed. -/
structure WindowInv (R : Reservation) (calls : List MapCall) (b : PageBuilder) : Prop where
  /-- The PML4, PDPT and PD are the first three pages. -/
  roots : ∀ i < 3, R.start + 4096 * i ∈ tablePages b.log
  /-- The PML4 and the PDPT are still empty. -/
  rootZero : ∀ a, InRange R.start 8192 a → b.mem a = 0
  /-- A PD entry is empty or leads to a page table that was handed out. -/
  pde : ∀ i < 512, entryAt b.mem (R.start + 8192) i = 0 ∨
    ∃ pt ∈ tablePages b.log, R.start + 12288 ≤ pt ∧
      EntryIs (entryAt b.mem (R.start + 8192) i) pt 3
  /-- Two PD entries never share a page table. -/
  inj : ∀ i < 512, ∀ j < 512, entryAt b.mem (R.start + 8192) i ≠ 0 →
    entryAt b.mem (R.start + 8192) i = entryAt b.mem (R.start + 8192) j → i = j
  /-- The tables hold what was installed. -/
  slots : ∀ x < 2 ^ 18, slotEntry b.mem (R.start + 8192) x = installed calls x

namespace WindowInv

variable {R : Reservation} {calls : List MapCall} {b b' : PageBuilder}

/-- Actions that leave memory alone and only add tables keep the invariant. -/
theorem of_mem_eq (h : WindowInv R calls b) (hmem : b'.mem = b.mem)
    (htables : ∀ p ∈ tablePages b.log, p ∈ tablePages b'.log) : WindowInv R calls b' where
  roots := fun i hi => htables _ (h.roots i hi)
  rootZero := by
    rw [hmem]
    exact h.rootZero
  pde := by
    intro i hi
    rw [hmem]
    rcases h.pde i hi with hzero | ⟨pt, hpt, hlo, he⟩
    · exact Or.inl hzero
    · exact Or.inr ⟨pt, htables pt hpt, hlo, he⟩
  inj := by
    rw [hmem]
    exact h.inj
  slots := by
    rw [hmem]
    exact h.slots

end WindowInv

/-- The builder in the middle of the section loop: `k` pages handed out and the
calls `calls` made, newest first. -/
structure BuildInv (R : Reservation) (m₀ : Mem) (k : Nat) (calls : List MapCall)
    (b : PageBuilder) : Prop where
  alloc : AllocInv R m₀ k b
  window : WindowInv R calls b

namespace BuildInv

variable {R : Reservation} {m₀ : Mem} {k : Nat} {calls : List MapCall} {b : PageBuilder}

/-- Three pages are gone before the loop starts. -/
theorem three_le (h : BuildInv R m₀ k calls b) : 3 ≤ k := by
  have hroot := h.window.roots 2 (by omega)
  obtain ⟨_, _, hhi⟩ := AllocInv.page_bounds (h.alloc.mem_pages_of_table hroot)
  omega

theorem pd_mem (h : BuildInv R m₀ k calls b) : R.start + 8192 ∈ tablePages b.log :=
  h.window.roots 2 (by omega)

/-- A page table lies apart from the PD. -/
theorem pt_bounds (h : BuildInv R m₀ k calls b) {pt : Nat} (hpt : pt ∈ tablePages b.log) :
    4096 ∣ pt ∧ R.start ≤ pt ∧ pt + 4096 ≤ 2 ^ 32 := by
  obtain ⟨hdvd, hlo, hhi⟩ := AllocInv.page_bounds (h.alloc.mem_pages_of_table hpt)
  have hbudget := h.alloc.budget
  have hbelow := R.below
  exact ⟨hdvd, hlo, by omega⟩

end BuildInv

end HosBoot.X8664
