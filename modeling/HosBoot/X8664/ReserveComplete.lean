/-
  X8664/ReserveComplete.lean --- when `reserve_kernel_space` gives up.

  The loop asks for more pages than it needs, and counts the pages of a region in a
  signed 20-bit number: the difference of two 64-bit addresses is squeezed into an
  `int` before it is divided by the page size.  A region with room can therefore be
  passed over, if it is exactly large enough or if it is very large.
-/
import HosBoot.X8664.Reserve

set_option autoImplicit false

namespace HosBoot.X8664

open HosBoot.Foundation HosBoot.Common

/-! ## The page count of a region -/

namespace MmapEntry

/-- The whole pages of the entry at or above the modules.  The count is negative if the
entry ends below them. -/
def usablePages (e : MmapEntry) (hma : UInt32) : Int :=
  ((e.lastPage : Int) - e.firstPage hma) / 4096

/-- The entry contains `n` consecutive pages at or above the modules and below four
gigabytes. -/
def HasRoom (e : MmapEntry) (hma : UInt32) (n : Nat) : Prop :=
  ∃ start, 4096 ∣ start ∧ hma.toNat ≤ start ∧ start + 4096 * n ≤ 2 ^ 32 ∧ e.Holds start n

variable {e : MmapEntry} {hma : UInt32} {pages : Int32}

theorem mul_usablePages (e : MmapEntry) (hma : UInt32) :
    4096 * e.usablePages hma = (e.lastPage : Int) - e.firstPage hma := by
  obtain ⟨q, hq⟩ := e.dvd_firstPage hma
  have hlast : e.lastPage = (e.baseAddr.toNat + e.length.toNat) / 4096 * 4096 := rfl
  unfold usablePages
  omega

/-- Multiples of the page size, reduced modulo `2 ^ 32`. -/
theorem bmod_mul_pageSize (n : Int) :
    Int.bmod (4096 * n) (2 ^ 32) = 4096 * Int.bmod n (2 ^ 20) := by
  unfold Int.bmod
  push_cast
  split <;> split <;> omega

/-- `region_page_count` is the exact count, read as a signed 20-bit number. -/
theorem regionPages_eq (e : MmapEntry) (hma : UInt32) :
    (e.regionPages hma).toInt = Int.bmod (e.usablePages hma) (2 ^ 20) := by
  rw [regionPages_toInt, ← mul_usablePages, bmod_mul_pageSize]
  exact Int.mul_tdiv_cancel_left _ (by decide)

theorem fits_iff :
    e.fits hma pages = true ↔
      e.type = 1 ∧ pages.toInt < Int.bmod (e.usablePages hma) (2 ^ 20) := by
  rw [fits, Bool.and_eq_true, beq_iff_eq, decide_eq_true_eq, Int32.lt_iff_toInt_lt,
    regionPages_eq]

/-- An entry with room has enough pages. -/
theorem HasRoom.le_usablePages {n : Nat} (h : e.HasRoom hma n) : (n : Int) ≤ e.usablePages hma := by
  obtain ⟨start, ⟨q, hq⟩, hmodules, _, hbase, hend⟩ := h
  have hfirst : e.firstPage hma ≤ start := by
    have hle : max e.baseAddr.toNat hma.toNat ≤ start := Nat.max_le.mpr ⟨hbase, hmodules⟩
    unfold firstPage roundUp
    omega
  have hlast : start + 4096 * n ≤ e.lastPage := by
    unfold lastPage roundDown
    omega
  have hpages := e.mul_usablePages hma
  omega

end MmapEntry

/-! ## Completeness -/

/-- If a region has room, the test finds some region. -/
def RoomIsSeen (entries : List MmapEntry) (hma : UInt32) (pages : Int32) : Prop :=
  (∃ e ∈ entries, e.type = 1 ∧ e.HasRoom hma pages.toInt.toNat) →
    ∃ e ∈ entries, e.type = 1 ∧ pages.toInt < Int.bmod (e.usablePages hma) (2 ^ 20)

/-- The loop has found nothing exactly when no entry passes the test. -/
theorem lastFit_eq_none {entries : List MmapEntry} {hma : UInt32} {pages : Int32} :
    lastFit entries hma pages = none ↔ ∀ e ∈ entries, ¬ e.fits hma pages = true := by
  unfold lastFit
  rw [List.getLast?_eq_none_iff, List.filter_eq_nil_iff]

/-- `reserve_kernel_space` gives up only for want of room exactly on the memory maps of the
condition. -/
theorem reserveKernelSpace_complete_iff {s : BootState} {multiboot : UInt32} {pages : Int32}
    {entries : List MmapEntry} (hmap : MemoryMap s.mem multiboot entries)
    (hstart : s.options.pageTableStart = 0) (hend : s.options.pageTableEnd = 0)
    (hpos : 0 < pages.toInt) :
    (∀ halt, reserveKernelSpace s multiboot pages = .error halt →
        ∀ e ∈ entries, e.type = 1 →
          ¬ e.HasRoom s.options.highestModuleAddress pages.toInt.toNat) ↔
      RoomIsSeen entries s.options.highestModuleAddress pages := by
  rw [reserveKernelSpace_eq pages hmap hstart hend hpos]
  unfold RoomIsSeen
  cases hfit : lastFit entries s.options.highestModuleAddress pages with
  | none =>
    have hnone := lastFit_eq_none.mp hfit
    constructor
    · rintro hcomplete ⟨e, hmem, htype, hroom⟩
      exact absurd hroom (hcomplete _ rfl e hmem htype)
    · intro hseen _ _ e hmem htype hroom
      obtain ⟨e', hmem', hfits⟩ := hseen ⟨e, hmem, htype, hroom⟩
      exact hnone e' hmem' (MmapEntry.fits_iff.mpr hfits)
  | some e =>
    obtain ⟨hmem, hfits⟩ := of_lastFit hfit
    constructor
    · intro _ _
      exact ⟨e, hmem, MmapEntry.fits_iff.mp hfits⟩
    · intro _ halt hrun
      cases hrun

/-! ## A region of just the right size -/

/-- The five pages behind the modules. -/
def tightMap : List MmapEntry := [⟨20, 0x200000, 0x5000, 1⟩]

def tightMachine : BootState where
  mem := Mem.ofParts
    [(0x1000, MultibootInfo.bytes ⟨0x48, 0, 1, 0, 24, 0x2000⟩),
      (0x2000, tightMap.flatMap MmapEntry.bytes)]
  options := { kernelName := 0, highestModuleAddress := 0x200000 }

/-- Five pages are asked for, and the region is passed over. -/
theorem tightMachine_gives_up :
    MemoryMap tightMachine.mem 0x1000 tightMap ∧
      (∃ halt, reserveKernelSpace tightMachine 0x1000 5 = .error halt) ∧
      ∃ e ∈ tightMap, e.type = 1 ∧ e.HasRoom tightMachine.options.highestModuleAddress 5 := by
  have hmap : MemoryMap tightMachine.mem 0x1000 tightMap :=
    ⟨by decide +kernel, by decide +kernel⟩
  have hfit : lastFit tightMap tightMachine.options.highestModuleAddress 5 = none := by
    decide +kernel
  have hrun := reserveKernelSpace_eq 5 hmap rfl rfl (by decide)
  rw [hfit] at hrun
  refine ⟨hmap, ⟨_, hrun⟩, _, List.mem_singleton.mpr rfl, rfl, 0x200000, ?_⟩
  unfold MmapEntry.Holds
  decide

/-- A request for more pages than the machine has is turned down for a reason. -/
theorem plainMachine_complete :
    (∃ halt, reserveKernelSpace plainMachine 0x1000 300000 = .error halt) ∧
      ∀ e ∈ plainMap, e.type = 1 →
        ¬ e.HasRoom plainMachine.options.highestModuleAddress 300000 := by
  have hmap : MemoryMap plainMachine.mem 0x1000 plainMap :=
    ⟨by decide +kernel, by decide +kernel⟩
  have hfit : lastFit plainMap plainMachine.options.highestModuleAddress 300000 = none := by
    decide +kernel
  have hrun := reserveKernelSpace_eq 300000 hmap rfl rfl (by decide)
  rw [hfit] at hrun
  have hpos : 0 < (300000 : Int32).toInt := by decide
  refine ⟨⟨_, hrun⟩, (reserveKernelSpace_complete_iff hmap rfl rfl hpos).mpr ?_ _ hrun⟩
  rintro ⟨e, hmem, _, hroom⟩
  obtain rfl := List.mem_singleton.mp hmem
  have hle := hroom.le_usablePages
  exact absurd hle (by decide +kernel)

end HosBoot.X8664
