/-
  Foundation/Paging.lean --- the long-mode page walk over a byte memory.

  A virtual address is translated through four tables of 512 eight-byte entries
  (PML4, PDPT, PD, PT).  Each level takes nine bits of the address as its index;
  an entry carries its presence in bit 0 and the base of the next table, or of
  the frame, in bits 12 to 51.  A PD entry with bit 7 set is a leaf that maps
  two megabytes.

  `EntryIs e base flags` is the reading of an entry as a base plus low flag bits;
  every lemma about walks goes through it.
-/
import HosBoot.Foundation.Memory
import HosBoot.Foundation.Align

set_option autoImplicit false

namespace HosBoot.Foundation

/-! ## Entries -/

/-- Bit 0: the entry is in use. -/
def entryPresent (e : UInt64) : Bool := e &&& 1 != 0

/-- Bit 7 of a PD entry: the entry maps a two-megabyte page. -/
def entryLarge (e : UInt64) : Bool := e &&& 0x80 != 0

/-- Bits 12 to 51: the base of the next table or of a four-kilobyte frame. -/
def entryBase (e : UInt64) : Nat := (e &&& 0x000FFFFFFFFFF000).toNat

/-- Bits 21 to 51: the base of a two-megabyte frame. -/
def entryLargeBase (e : UInt64) : Nat := (e &&& 0x000FFFFFFFE00000).toNat

/-- The entry reads as a page-aligned base with the low bits `flags`. -/
structure EntryIs (e : UInt64) (base flags : Nat) : Prop where
  /-- The value of the entry. -/
  value : e.toNat = base + flags
  /-- The base is page aligned. -/
  aligned : 4096 ∣ base
  /-- The base fits the address field. -/
  base_lt : base < 2 ^ 52
  /-- The flags fit below the address field. -/
  flags_lt : flags < 4096

theorem entryPresent_iff {e : UInt64} : entryPresent e = true ↔ e.toNat % 2 = 1 := by
  have h : (e &&& 1).toNat = e.toNat % 2 := by
    rw [UInt64.toNat_and]
    exact and_lowMask e.toNat 1
  rw [entryPresent, bne_iff_ne, ne_eq, ← UInt64.toNat_inj, h]
  change ¬ e.toNat % 2 = 0 ↔ _
  omega

theorem entryLarge_iff {e : UInt64} : entryLarge e = true ↔ e.toNat / 128 % 2 = 1 := by
  have h : (e &&& 0x80).toNat = e.toNat % 2 ^ 8 / 2 ^ 7 * 2 ^ 7 := by
    rw [UInt64.toNat_and]
    exact and_midMask (w := 8) (k := 7) (by omega) e.toNat
  rw [entryLarge, bne_iff_ne, ne_eq, ← UInt64.toNat_inj, h]
  change ¬ e.toNat % 2 ^ 8 / 2 ^ 7 * 2 ^ 7 = 0 ↔ _
  omega

theorem entryBase_eq (e : UInt64) : entryBase e = e.toNat % 2 ^ 52 / 2 ^ 12 * 2 ^ 12 := by
  rw [entryBase, UInt64.toNat_and]
  exact and_midMask (w := 52) (k := 12) (by omega) e.toNat

theorem entryPresent_zero : entryPresent 0 = false := by decide

namespace EntryIs

variable {e : UInt64} {base flags : Nat}

theorem base_eq (h : EntryIs e base flags) : entryBase e = base := by
  obtain ⟨hv, ⟨q, rfl⟩, hlt, hf⟩ := h
  rw [entryBase_eq, hv]
  omega

theorem present_iff (h : EntryIs e base flags) :
    entryPresent e = true ↔ flags % 2 = 1 := by
  obtain ⟨hv, ⟨q, rfl⟩, _, _⟩ := h
  rw [entryPresent_iff, hv]
  omega

theorem large_iff (h : EntryIs e base flags) :
    entryLarge e = true ↔ flags / 128 % 2 = 1 := by
  obtain ⟨hv, ⟨q, rfl⟩, _, _⟩ := h
  rw [entryLarge_iff, hv]
  omega

theorem ne_zero (h : EntryIs e base flags) (hf : flags % 2 = 1) : e ≠ 0 := by
  rintro rfl
  have hv := h.value
  change 0 = base + flags at hv
  omega

end EntryIs

/-! ## Tables -/

/-- The `i`-th entry of the table at `table`. -/
def entryAt (m : Mem) (table i : Nat) : UInt64 := m.read64 (table + 8 * i)

/-- The index bits of an address at a level: PT is level 0, PML4 level 3. -/
def tableIndex (level : Nat) (v : UInt64) : Nat := v.toNat / 2 ^ (12 + 9 * level) % 512

/-- Fetch an entry, failing when it is not present. -/
def fetchEntry (m : Mem) (table i : Nat) : Option UInt64 :=
  if entryPresent (entryAt m table i) then some (entryAt m table i) else none

/-- The physical address that a virtual address translates to, if any. -/
def pageWalk (m : Mem) (pml4 : Nat) (v : UInt64) : Option Nat := do
  let pml4e ← fetchEntry m pml4 (tableIndex 3 v)
  let pdpte ← fetchEntry m (entryBase pml4e) (tableIndex 2 v)
  let pde ← fetchEntry m (entryBase pdpte) (tableIndex 1 v)
  if entryLarge pde then
    return entryLargeBase pde + v.toNat % 2 ^ 21
  else
    let pte ← fetchEntry m (entryBase pde) (tableIndex 0 v)
    return entryBase pte + v.toNat % 2 ^ 12

/-- What a page-table entry translates an address to. -/
def entryTarget (e : UInt64) (v : UInt64) : Option Nat :=
  if entryPresent e then some (entryBase e + v.toNat % 2 ^ 12) else none

/-- Bits 48 to 63 repeat bit 47. -/
def Canonical (v : UInt64) : Prop := v.toNat < 2 ^ 47 ∨ 2 ^ 64 - 2 ^ 47 ≤ v.toNat

theorem tableIndex_lt (level : Nat) (v : UInt64) : tableIndex level v < 512 :=
  Nat.mod_lt _ (by omega)

/-! ## Writing an entry -/

theorem entryAt_write_same (m : Mem) (table i : Nat) (e : UInt64) :
    entryAt (m.write64 (table + 8 * i) e) table i = e :=
  Mem.read64_write64_same m (table + 8 * i) e

/-- A store to one entry leaves the other entries of the table. -/
theorem entryAt_write_of_ne {m : Mem} {table i j : Nat} {e : UInt64} (h : i ≠ j) :
    entryAt (m.write64 (table + 8 * i) e) table j = entryAt m table j :=
  Mem.read64_write64_of_disjoint (by omega)

/-- A store to one table leaves the entries of every table in another page. -/
theorem entryAt_write_of_apart {m : Mem} {table other i j : Nat} {e : UInt64}
    (hi : i < 512) (hj : j < 512)
    (h : table + 4096 ≤ other ∨ other + 4096 ≤ table) :
    entryAt (m.write64 (table + 8 * i) e) other j = entryAt m other j :=
  Mem.read64_write64_of_disjoint (by omega)

/-- Different page-aligned tables are apart. -/
theorem tables_apart {t u : Nat} (ht : 4096 ∣ t) (hu : 4096 ∣ u) (h : t ≠ u) :
    t + 4096 ≤ u ∨ u + 4096 ≤ t := by
  omega

/-- A store to an entry, seen from any table. -/
theorem entryAt_write {m : Mem} {t u i j : Nat} {e : UInt64} (ht : 4096 ∣ t) (hu : 4096 ∣ u)
    (hi : i < 512) (hj : j < 512) :
    entryAt (m.write64 (t + 8 * i) e) u j = if t = u ∧ i = j then e else entryAt m u j := by
  by_cases htu : t = u
  · subst htu
    by_cases hij : i = j
    · subst hij
      rw [entryAt_write_same, if_pos ⟨rfl, rfl⟩]
    · rw [entryAt_write_of_ne hij, if_neg fun h => hij h.2]
  · rw [entryAt_write_of_apart hi hj (tables_apart ht hu htu), if_neg fun h => htu h.1]

theorem entryAt_eq_zero {m : Mem} {table i : Nat} (hi : i < 512)
    (h : ∀ a, InRange table 4096 a → m a = 0) : entryAt m table i = 0 :=
  Mem.read64_eq_zero fun a ha => h a (ha.widen (by omega) (by omega))

/-! ## The walk -/

section Walk

variable {m : Mem} {pml4 : Nat} {v : UInt64}

theorem fetchEntry_of_entryIs {table i base flags : Nat}
    (h : EntryIs (entryAt m table i) base flags) (hf : flags % 2 = 1) :
    fetchEntry m table i = some (entryAt m table i) := if_pos (h.present_iff.mpr hf)

theorem fetchEntry_of_zero {table i : Nat} (h : entryAt m table i = 0) :
    fetchEntry m table i = none := by
  rw [fetchEntry, h, entryPresent_zero]
  rfl

/-- A walk stops at the first absent entry: at the PML4. -/
theorem pageWalk_none_of_pml4 (h : entryAt m pml4 (tableIndex 3 v) = 0) :
    pageWalk m pml4 v = none := by
  simp only [pageWalk, fetchEntry_of_zero h, Option.bind_eq_bind, Option.bind_none]

/-- A walk whose PML4 entry is present goes on in the PDPT. -/
theorem pageWalk_of_pml4 {pdpt flags : Nat}
    (h : EntryIs (entryAt m pml4 (tableIndex 3 v)) pdpt flags) (hf : flags % 2 = 1) :
    pageWalk m pml4 v = (do
      let pdpte ← fetchEntry m pdpt (tableIndex 2 v)
      let pde ← fetchEntry m (entryBase pdpte) (tableIndex 1 v)
      if entryLarge pde then
        return entryLargeBase pde + v.toNat % 2 ^ 21
      else
        let pte ← fetchEntry m (entryBase pde) (tableIndex 0 v)
        return entryBase pte + v.toNat % 2 ^ 12) := by
  simp only [pageWalk, fetchEntry_of_entryIs h hf, Option.bind_eq_bind, Option.bind_some,
    h.base_eq]

/-- A walk that reaches a PDPT whose entry is absent fails. -/
theorem pageWalk_none_of_pdpt {pdpt flags : Nat}
    (h4 : EntryIs (entryAt m pml4 (tableIndex 3 v)) pdpt flags) (hf : flags % 2 = 1)
    (h3 : entryAt m pdpt (tableIndex 2 v) = 0) : pageWalk m pml4 v = none := by
  rw [pageWalk_of_pml4 h4 hf]
  simp only [fetchEntry_of_zero h3, Option.bind_eq_bind, Option.bind_none]

/-- A walk whose first two entries are present goes on in the PD. -/
theorem pageWalk_of_pdpt {pdpt pd flags₄ flags₃ : Nat}
    (h4 : EntryIs (entryAt m pml4 (tableIndex 3 v)) pdpt flags₄) (hf4 : flags₄ % 2 = 1)
    (h3 : EntryIs (entryAt m pdpt (tableIndex 2 v)) pd flags₃) (hf3 : flags₃ % 2 = 1) :
    pageWalk m pml4 v = (do
      let pde ← fetchEntry m pd (tableIndex 1 v)
      if entryLarge pde then
        return entryLargeBase pde + v.toNat % 2 ^ 21
      else
        let pte ← fetchEntry m (entryBase pde) (tableIndex 0 v)
        return entryBase pte + v.toNat % 2 ^ 12) := by
  rw [pageWalk_of_pml4 h4 hf4]
  simp only [fetchEntry_of_entryIs h3 hf3, Option.bind_eq_bind, Option.bind_some, h3.base_eq]

/-- A walk that reaches a PD whose entry is absent fails. -/
theorem pageWalk_none_of_pd {pdpt pd flags₄ flags₃ : Nat}
    (h4 : EntryIs (entryAt m pml4 (tableIndex 3 v)) pdpt flags₄) (hf4 : flags₄ % 2 = 1)
    (h3 : EntryIs (entryAt m pdpt (tableIndex 2 v)) pd flags₃) (hf3 : flags₃ % 2 = 1)
    (h2 : entryAt m pd (tableIndex 1 v) = 0) : pageWalk m pml4 v = none := by
  rw [pageWalk_of_pdpt h4 hf4 h3 hf3]
  simp only [fetchEntry_of_zero h2, Option.bind_eq_bind, Option.bind_none]

/-- A walk that reaches a two-megabyte leaf ends there. -/
theorem pageWalk_of_leaf {pdpt pd flags₄ flags₃ : Nat} {e : UInt64}
    (h4 : EntryIs (entryAt m pml4 (tableIndex 3 v)) pdpt flags₄) (hf4 : flags₄ % 2 = 1)
    (h3 : EntryIs (entryAt m pdpt (tableIndex 2 v)) pd flags₃) (hf3 : flags₃ % 2 = 1)
    (h2 : entryAt m pd (tableIndex 1 v) = e) (hp : entryPresent e = true)
    (hl : entryLarge e = true) :
    pageWalk m pml4 v = some (entryLargeBase e + v.toNat % 2 ^ 21) := by
  have hfetch : fetchEntry m pd (tableIndex 1 v) = some e := by
    rw [fetchEntry, h2, if_pos hp]
  rw [pageWalk_of_pdpt h4 hf4 h3 hf3]
  simp only [hfetch, Option.bind_eq_bind, Option.bind_some, hl, if_true]
  rfl

/-- A walk that reaches a page table ends with its entry. -/
theorem pageWalk_of_pd {pdpt pd pt flags₄ flags₃ flags₂ : Nat}
    (h4 : EntryIs (entryAt m pml4 (tableIndex 3 v)) pdpt flags₄) (hf4 : flags₄ % 2 = 1)
    (h3 : EntryIs (entryAt m pdpt (tableIndex 2 v)) pd flags₃) (hf3 : flags₃ % 2 = 1)
    (h2 : EntryIs (entryAt m pd (tableIndex 1 v)) pt flags₂) (hf2 : flags₂ % 2 = 1)
    (hsmall : flags₂ / 128 % 2 = 0) :
    pageWalk m pml4 v = entryTarget (entryAt m pt (tableIndex 0 v)) v := by
  have hlarge : entryLarge (entryAt m pd (tableIndex 1 v)) = false := by
    rw [Bool.eq_false_iff, ne_eq, h2.large_iff]
    omega
  rw [pageWalk_of_pdpt h4 hf4 h3 hf3]
  simp only [fetchEntry_of_entryIs h2 hf2, Option.bind_eq_bind, Option.bind_some, hlarge,
    Bool.false_eq_true, if_false, h2.base_eq]
  unfold fetchEntry entryTarget
  split <;> rfl

end Walk

end HosBoot.Foundation
