/-
  X8664/Reserve.lean --- `reserve_kernel_space`.

  The loop walks the memory map and remembers the last region of type 1 that
  passes a size test.  The test and the start of the range are computed at mixed
  widths: the page count is a 64-bit difference squeezed into an `int`, the start
  a 64-bit base squeezed into a `uint32_t`.  `regionPages_toInt` and
  `chosenStart_toNat` say what is left of the exact quantities.
-/
import Mathlib.Data.List.Induction
import HosBoot.Foundation.Word
import HosBoot.Common.Align
import HosBoot.Common.Stdlib
import HosBoot.X8664.State
import HosBoot.X8664.Multiboot

set_option autoImplicit false

namespace HosBoot.X8664

open HosBoot.Foundation HosBoot.Common

/-! ## The function -/

/-- One turn of the loop. -/
def considerEntry (pagesNeeded : Int32) (o : BootOptions) (entry : MmapEntry) : BootOptions :=
  let pageLength := (align4kDown (entry.baseAddr + entry.length) -
    align4kUp entry.baseAddr).toUInt32.toInt32
  let regionPageCount := pageLength / 0x1000
  let baseAddr := entry.baseAddr.toUInt32
  -- Space at or below the modules is not used.
  let (baseAddr, regionPageCount) :=
    if entry.baseAddr < o.highestModuleAddress.toUInt64 then
      let baseAddr := o.highestModuleAddress
      let pageLength := (align4kDown (entry.baseAddr + entry.length) -
        (align4kUp32 baseAddr).toUInt64).toUInt32.toInt32
      (baseAddr, pageLength / 0x1000)
    else
      (baseAddr, regionPageCount)
  if entry.type == 1 && pagesNeeded < regionPageCount then
    { o with
      pageTableStart := align4kUp32 baseAddr
      pageTableEnd := align4kUp32 baseAddr + (pagesNeeded * 0x1000).toUInt32 }
  else
    o

/-- The loop over the memory map, up to the address `bound`.  A loop that makes more
than `2 ^ 32` turns has visited an address twice, and never ends. -/
def scanRegions (m : Mem) (bound : UInt32) (pagesNeeded : Int32) :
    Nat → UInt32 → BootOptions → Option BootOptions
  | 0, _, _ => none
  | fuel + 1, entry, o =>
      if entry < bound then
        scanRegions m bound pagesNeeded fuel (entry + (readMmapEntry m entry).size + 4)
          (considerEntry pagesNeeded o (readMmapEntry m entry))
      else
        some o

/-- `reserve_kernel_space`. -/
def reserveKernelSpace (s : BootState) (multiboot : UInt32) (pagesNeeded : Int32) :
    Except Halt BootState :=
  let info := readMultiboot s.mem multiboot
  match scanRegions s.mem (info.mmapAddr + info.mmapLength) pagesNeeded (2 ^ 32) info.mmapAddr
      s.options with
  | none => .error .diverges
  | some o =>
      let s := { s with options := o }
      if o.pageTableStart = 0 ∧ o.pageTableEnd = 0 then
        s.error "Couldn't allocate enough space for page tables"
      else
        let len := (pagesNeeded * 0x1000).toUInt32.toNat
        .ok { s with
          mem := memset s.mem o.pageTableStart 0 len
          zeroed := s.zeroed ++ fillTargets o.pageTableStart len }

/-! ## The exact quantities -/

namespace MmapEntry

/-- The first page of the entry that lies at or above the modules. -/
def firstPage (e : MmapEntry) (hma : UInt32) : Nat :=
  roundUp 4096 (max e.baseAddr.toNat hma.toNat)

/-- The end of the last page of the entry. -/
def lastPage (e : MmapEntry) : Nat := roundDown 4096 (e.baseAddr.toNat + e.length.toNat)

/-- The entry contains the `n` pages at `start`. -/
def Holds (e : MmapEntry) (start n : Nat) : Prop :=
  e.baseAddr.toNat ≤ start ∧ start + 4096 * n ≤ e.baseAddr.toNat + e.length.toNat

/-- `region_page_count`. -/
def regionPages (e : MmapEntry) (hma : UInt32) : Int32 :=
  (align4kDown (e.baseAddr + e.length) -
    (if e.baseAddr < hma.toUInt64 then (align4kUp32 hma).toUInt64
     else align4kUp e.baseAddr)).toUInt32.toInt32 / 0x1000

/-- The start of the range that the loop takes from the entry. -/
def chosenStart (e : MmapEntry) (hma : UInt32) : UInt32 :=
  align4kUp32 (if e.baseAddr < hma.toUInt64 then hma else e.baseAddr.toUInt32)

/-- The test of the loop. -/
def fits (e : MmapEntry) (hma : UInt32) (pagesNeeded : Int32) : Bool :=
  e.type == 1 && decide (pagesNeeded < e.regionPages hma)

end MmapEntry

theorem considerEntry_eq (pages : Int32) (o : BootOptions) (e : MmapEntry) :
    considerEntry pages o e =
      if e.fits o.highestModuleAddress pages then
        { o with
          pageTableStart := e.chosenStart o.highestModuleAddress
          pageTableEnd := e.chosenStart o.highestModuleAddress + (pages * 0x1000).toUInt32 }
      else o := by
  unfold considerEntry MmapEntry.fits MmapEntry.regionPages MmapEntry.chosenStart
  by_cases hlow : e.baseAddr < o.highestModuleAddress.toUInt64
  · simp only [hlow, if_true]
  · simp only [hlow, if_false]

namespace MmapEntry

variable {e : MmapEntry} {hma : UInt32} {pages : Int32}

theorem baseAddr_lt_iff : e.baseAddr < hma.toUInt64 ↔ e.baseAddr.toNat < hma.toNat := by
  rw [UInt64.lt_iff_toNat_lt, UInt32.toNat_toUInt64]

/-- An entry that starts below the modules is used from the modules on, -/
theorem firstPage_of_low (hlow : e.baseAddr < hma.toUInt64) :
    e.firstPage hma = roundUp 4096 hma.toNat := by
  rw [firstPage, Nat.max_eq_right (baseAddr_lt_iff.mp hlow).le]

/-- and any other from its start. -/
theorem firstPage_of_not_low (hlow : ¬ e.baseAddr < hma.toUInt64) :
    e.firstPage hma = roundUp 4096 e.baseAddr.toNat := by
  rw [firstPage, Nat.max_eq_left (not_lt.mp fun h => hlow (baseAddr_lt_iff.mpr h))]

/-- The start is the exact first page, less the bits above the 32nd. -/
theorem chosenStart_toNat (e : MmapEntry) (hma : UInt32) :
    (e.chosenStart hma).toNat = e.firstPage hma % 2 ^ 32 := by
  unfold chosenStart
  by_cases hlow : e.baseAddr < hma.toUInt64
  · rw [if_pos hlow, firstPage_of_low hlow, align4kUp32_modEq]
  · rw [if_neg hlow, firstPage_of_not_low hlow, align4kUp32_modEq, UInt64.toNat_toUInt32]
    unfold roundUp
    omega

/-- The page count is the exact length between the page boundaries, read as an
`int`, over the page size. -/
theorem regionPages_toInt (e : MmapEntry) (hma : UInt32) :
    (e.regionPages hma).toInt =
      (Int.bmod ((e.lastPage : Int) - e.firstPage hma) (2 ^ 32)).tdiv 4096 := by
  have hsize : (0x1000 : Int32).toInt = 4096 := rfl
  have hend : (align4kDown (e.baseAddr + e.length)).toNat =
      roundDown 4096 ((e.baseAddr.toNat + e.length.toNat) % 2 ^ 64) := by
    rw [align4kDown_toNat, UInt64.toNat_add]
  have hstart : (if e.baseAddr < hma.toUInt64 then (align4kUp32 hma).toUInt64
      else align4kUp e.baseAddr).toNat % 2 ^ 32 = e.firstPage hma % 2 ^ 32 := by
    by_cases hlow : e.baseAddr < hma.toUInt64
    · rw [if_pos hlow, firstPage_of_low hlow, UInt32.toNat_toUInt64, align4kUp32_modEq,
        Nat.mod_mod]
    · rw [if_neg hlow, firstPage_of_not_low hlow, align4kUp_modEq]
      omega
  unfold regionPages
  generalize (if e.baseAddr < hma.toUInt64 then (align4kUp32 hma).toUInt64
      else align4kUp e.baseAddr) = start at hstart ⊢
  have hlt := start.toNat_lt
  have hdiff : ((align4kDown (e.baseAddr + e.length) - start).toNat : Int) % 2 ^ 32 =
      ((e.lastPage : Int) - e.firstPage hma) % 2 ^ 32 := by
    rw [UInt64.toNat_sub, hend]
    unfold lastPage roundDown
    omega
  have hbmod : Int.bmod (align4kDown (e.baseAddr + e.length) - start).toNat (2 ^ 32) =
      Int.bmod ((e.lastPage : Int) - e.firstPage hma) (2 ^ 32) := by
    rw [← Int.emod_bmod, ← Int.emod_bmod ((e.lastPage : Int) - e.firstPage hma)]
    exact congrArg (Int.bmod · (2 ^ 32)) hdiff
  rw [Int32.toInt_div_of_ne_right _ _ (by decide), hsize, toUInt32_toInt32_toInt, hbmod]

/-- What the test establishes: the wrapped length exceeds the request. -/
theorem of_fits (h : e.fits hma pages = true) (hpos : 0 < pages.toInt) :
    e.type = 1 ∧
      4096 * (pages.toInt + 1) ≤ Int.bmod ((e.lastPage : Int) - e.firstPage hma) (2 ^ 32) ∧
      4096 * (pages.toInt + 1) < 2 ^ 31 := by
  rw [fits, Bool.and_eq_true, beq_iff_eq, decide_eq_true_eq, Int32.lt_iff_toInt_lt,
    regionPages_toInt] at h
  obtain ⟨htype, hlt⟩ := h
  generalize hlen : Int.bmod ((e.lastPage : Int) - e.firstPage hma) (2 ^ 32) = len at hlt ⊢
  have hbound : len < 2 ^ 31 := hlen ▸ Int.bmod_lt (by decide)
  have hnonneg : 0 ≤ len := by
    by_contra hneg
    have hdiv : 0 ≤ (-len).tdiv 4096 := Int.tdiv_nonneg (by omega) (by omega)
    rw [Int.neg_tdiv] at hdiv
    omega
  rw [Int.tdiv_eq_ediv_of_nonneg hnonneg] at hlt
  exact ⟨htype, by omega, by omega⟩

theorem dvd_firstPage (e : MmapEntry) (hma : UInt32) : 4096 ∣ e.firstPage hma :=
  dvd_roundUp 4096 _

theorem le_firstPage (e : MmapEntry) (hma : UInt32) :
    e.baseAddr.toNat ≤ e.firstPage hma ∧ hma.toNat ≤ e.firstPage hma := by
  have hle := le_roundUp (k := 4096) (by omega) (max e.baseAddr.toNat hma.toNat)
  exact ⟨(Nat.le_max_left _ _).trans hle, (Nat.le_max_right _ _).trans hle⟩

/-- Where no boundary is passed, the test means what it says. -/
theorem holds_of_fits (h : e.fits hma pages = true) (hpos : 0 < pages.toInt)
    (horder : e.firstPage hma ≤ e.lastPage) :
    e.Holds (e.firstPage hma) pages.toInt.toNat := by
  obtain ⟨_, hlen, _⟩ := of_fits h hpos
  have hdown := roundDown_le 4096 (e.baseAddr.toNat + e.length.toNat)
  have hwrap := Int.bmod_add_bdiv ((e.lastPage : Int) - e.firstPage hma) (2 ^ 32)
  have hbound : Int.bmod ((e.lastPage : Int) - e.firstPage hma) (2 ^ 32) < 2 ^ 31 :=
    Int.bmod_lt (by decide)
  refine ⟨(le_firstPage e hma).1, ?_⟩
  unfold lastPage at *
  omega

end MmapEntry

/-! ## The loop -/

/-- The last entry of the map that passes the test. -/
def lastFit (entries : List MmapEntry) (hma : UInt32) (pages : Int32) : Option MmapEntry :=
  (entries.filter fun e => e.fits hma pages).getLast?

/-- The options after the range of an entry has been taken. -/
def takeEntry (pages : Int32) (o : BootOptions) (e : MmapEntry) : BootOptions :=
  { o with
    pageTableStart := e.chosenStart o.highestModuleAddress
    pageTableEnd := e.chosenStart o.highestModuleAddress + (pages * 0x1000).toUInt32 }

/-- The last region that fits wins. -/
theorem foldl_considerEntry (pages : Int32) (o : BootOptions) (entries : List MmapEntry) :
    entries.foldl (considerEntry pages) o =
      match lastFit entries o.highestModuleAddress pages with
      | none => o
      | some e => takeEntry pages o e := by
  induction entries using List.reverseRecOn with
  | nil => rfl
  | append_singleton entries e ih =>
    have hhma : (entries.foldl (considerEntry pages) o).highestModuleAddress =
        o.highestModuleAddress := by
      rw [ih]
      cases lastFit entries o.highestModuleAddress pages <;> rfl
    rw [List.foldl_append, List.foldl_cons, List.foldl_nil, considerEntry_eq, hhma]
    unfold lastFit at ih ⊢
    rw [List.filter_append]
    cases hfits : e.fits o.highestModuleAddress pages with
    | false =>
      have hsingle : [e].filter (fun e => e.fits o.highestModuleAddress pages) = [] := by
        simp [hfits]
      rw [hsingle, List.append_nil, ih]
      rfl
    | true =>
      have hsingle : [e].filter (fun e => e.fits o.highestModuleAddress pages) = [e] := by
        simp [hfits]
      rw [hsingle, List.getLast?_append, ih]
      cases (entries.filter fun e => e.fits o.highestModuleAddress pages).getLast? <;> rfl

/-- The address behind an entry of a map. -/
theorem MmapAt.next_toNat {m : Mem} {entry : UInt32} {finish : Nat} {e : MmapEntry}
    {rest : List MmapEntry} (h : MmapAt m entry finish (e :: rest)) (hlt : finish < 2 ^ 32) :
    (entry + e.size + 4).toNat = entry.toNat + e.size.toNat + 4 := by
  obtain ⟨_, _, hend, _⟩ := h
  have hfour : (4 : UInt32).toNat = 4 := rfl
  have hsize : (entry + e.size).toNat = entry.toNat + e.size.toNat :=
    toNat_add_of_lt (by omega)
  rw [toNat_add_of_lt (by omega), hsize, hfour]

/-- On a well-formed map the loop ends, and visits the entries in order. -/
theorem scanRegions_eq {m : Mem} {bound : UInt32} (pages : Int32) :
    ∀ (entries : List MmapEntry) (fuel : Nat) (entry : UInt32) (o : BootOptions),
      MmapAt m entry bound.toNat entries → bound.toNat - entry.toNat < fuel →
      scanRegions m bound pages fuel entry o =
        some (entries.foldl (considerEntry pages) o) := by
  intro entries
  induction entries with
  | nil =>
    intro fuel entry o hmap hfuel
    obtain ⟨fuel, rfl⟩ : ∃ f, fuel = f + 1 := ⟨fuel - 1, by omega⟩
    have heq : entry.toNat = bound.toNat := hmap
    rw [scanRegions, if_neg]
    · rfl
    · rw [UInt32.lt_iff_toNat_lt]
      omega
  | cons e rest ih =>
    intro fuel entry o hmap hfuel
    obtain ⟨fuel, rfl⟩ : ∃ f, fuel = f + 1 := ⟨fuel - 1, by omega⟩
    have hnext := hmap.next_toNat bound.toNat_lt
    obtain ⟨hread, hsize, hend, hrest⟩ := hmap
    rw [scanRegions, if_pos (UInt32.lt_iff_toNat_lt.mpr (by omega)), hread, List.foldl_cons]
    exact ih fuel _ _ hrest (by omega)

/-! ## The function on a well-formed map -/

/-- The memory map that the boot loader describes. -/
structure MemoryMap (m : Mem) (multiboot : UInt32) (entries : List MmapEntry) : Prop where
  /-- The buffer ends below four gigabytes, -/
  below : (readMultiboot m multiboot).mmapAddr.toNat +
    (readMultiboot m multiboot).mmapLength.toNat < 2 ^ 32
  /-- and is filled with entries. -/
  chain : MmapAt m (readMultiboot m multiboot).mmapAddr
    ((readMultiboot m multiboot).mmapAddr.toNat + (readMultiboot m multiboot).mmapLength.toNat)
    entries

/-- The length passed to `memset`, when a region has been found. -/
theorem memsetLength_toNat {pages : Int32} (hpos : 0 < pages.toInt)
    (hlt : 4096 * (pages.toInt + 1) < 2 ^ 31) :
    (pages * 0x1000).toUInt32.toNat = 4096 * pages.toInt.toNat := by
  have hpages : pages.toUInt32.toNat = pages.toInt.toNat := by
    rw [Int32.toNat_toUInt32_of_le (Int32.le_iff_toInt_le.mpr hpos.le)]
    rfl
  have hsize : (0x1000 : Int32).toUInt32.toNat = 4096 := rfl
  rw [Int32.toUInt32_mul, UInt32.toNat_mul, hpages, hsize]
  omega

/-- What the function does, by the last entry that fits. -/
theorem reserveKernelSpace_eq {s : BootState} {multiboot : UInt32} (pages : Int32)
    {entries : List MmapEntry} (hmap : MemoryMap s.mem multiboot entries)
    (hstart : s.options.pageTableStart = 0) (hend : s.options.pageTableEnd = 0)
    (hpos : 0 < pages.toInt) :
    reserveKernelSpace s multiboot pages =
      match lastFit entries s.options.highestModuleAddress pages with
      | none => s.error "Couldn't allocate enough space for page tables"
      | some e => .ok { s with
          options := takeEntry pages s.options e
          mem := memset s.mem (e.chosenStart s.options.highestModuleAddress) 0
            (4096 * pages.toInt.toNat)
          zeroed := s.zeroed ++ fillTargets (e.chosenStart s.options.highestModuleAddress)
            (4096 * pages.toInt.toNat) } := by
  have hbound : ((readMultiboot s.mem multiboot).mmapAddr +
      (readMultiboot s.mem multiboot).mmapLength).toNat =
      (readMultiboot s.mem multiboot).mmapAddr.toNat +
        (readMultiboot s.mem multiboot).mmapLength.toNat := toNat_add_of_lt hmap.below
  have hscan := scanRegions_eq pages entries (2 ^ 32)
    (readMultiboot s.mem multiboot).mmapAddr s.options (hbound ▸ hmap.chain)
    (by have hlt := hmap.below; omega)
  simp only [reserveKernelSpace, hscan, foldl_considerEntry]
  cases hfit : lastFit entries s.options.highestModuleAddress pages with
  | none =>
    simp only [hstart, hend, and_self, if_true]
  | some e =>
    have hmem : e ∈ entries.filter fun e => e.fits s.options.highestModuleAddress pages :=
      List.mem_of_getLast? hfit
    obtain ⟨_, _, hlt⟩ := MmapEntry.of_fits (List.mem_filter.mp hmem).2 hpos
    have hlen := memsetLength_toNat hpos hlt
    have hne : ¬ ((takeEntry pages s.options e).pageTableStart = 0 ∧
        (takeEntry pages s.options e).pageTableEnd = 0) := by
      rintro ⟨hzero, hzero'⟩
      have hsum : e.chosenStart s.options.highestModuleAddress + (pages * 0x1000).toUInt32 = 0 :=
        hzero'
      have hfirst : e.chosenStart s.options.highestModuleAddress = 0 := hzero
      rw [hfirst, UInt32.zero_add] at hsum
      rw [hsum] at hlen
      change 0 = 4096 * pages.toInt.toNat at hlen
      omega
    simp only [if_neg hne, hlen]
    rfl

/-- The function does not touch `kernel_entry`. -/
theorem reserveKernelSpace_kernelEntry {s s' : BootState} {multiboot : UInt32} {pages : Int32}
    (h : reserveKernelSpace s multiboot pages = .ok s') : s'.kernelEntry = s.kernelEntry := by
  unfold reserveKernelSpace at h
  dsimp only at h
  split at h
  · cases h
  · split at h
    · exact absurd h (BootState.error_ne_ok _ _ _)
    · rw [← Except.ok.inj h]

/-! ## When the reservation is sound -/

/-- The reservation that a run made is one: page aligned, above the modules, inside
one free region, and exactly what was zeroed. -/
structure SoundReservation (entries : List MmapEntry) (pages : Int32) (s s' : BootState) :
    Prop where
  aligned : 4096 ∣ s'.options.pageTableStart.toNat
  aboveModules : s.options.highestModuleAddress.toNat ≤ s'.options.pageTableStart.toNat
  inRegion : ∃ e ∈ entries, e.type = 1 ∧ e.Holds s'.options.pageTableStart.toNat pages.toInt.toNat
  targets : s'.zeroed.map UInt32.toNat = s.zeroed.map UInt32.toNat ++
    List.range' s'.options.pageTableStart.toNat (4096 * pages.toInt.toNat)
  filled : ∀ a, s'.mem a =
    if InRange s'.options.pageTableStart.toNat (4096 * pages.toInt.toNat) a then 0 else s.mem a

/-- The condition on the memory map.  Let `e` be the last entry that passes the test.
Either `e` itself holds the pages from its first page on, below four gigabytes; or
that page lies beyond four gigabytes or beyond the end of `e`, and the page with the
same low 32 bits happens to lie above the modules in some free region. -/
def FitsBelow4G (entries : List MmapEntry) (hma : UInt32) (pages : Int32) : Prop :=
  ∀ e, lastFit entries hma pages = some e →
    (e.Holds (e.firstPage hma) pages.toInt.toNat ∧
        e.firstPage hma + 4096 * pages.toInt.toNat ≤ 2 ^ 32) ∨
      ((2 ^ 32 ≤ e.firstPage hma ∨ e.lastPage < e.firstPage hma) ∧
        hma.toNat ≤ e.firstPage hma % 2 ^ 32 ∧
        e.firstPage hma % 2 ^ 32 + 4096 * pages.toInt.toNat ≤ 2 ^ 32 ∧
        ∃ other ∈ entries, other.type = 1 ∧
          other.Holds (e.firstPage hma % 2 ^ 32) pages.toInt.toNat)

/-- The last entry that fits is an entry of the map that passes the test. -/
theorem of_lastFit {entries : List MmapEntry} {hma : UInt32} {pages : Int32} {e : MmapEntry}
    (h : lastFit entries hma pages = some e) : e ∈ entries ∧ e.fits hma pages = true :=
  List.mem_filter.mp (List.mem_of_getLast? h)

section Sound

variable {s : BootState} {multiboot : UInt32} {pages : Int32} {entries : List MmapEntry}

/-- A range that `memset` filled without leaving the 32-bit addresses, inside a free
region and above the modules, is sound. -/
theorem soundReservation_of_range {e : MmapEntry} {s' : BootState}
    (hs' : s' = { s with
      options := takeEntry pages s.options e
      mem := memset s.mem (e.chosenStart s.options.highestModuleAddress) 0
        (4096 * pages.toInt.toNat)
      zeroed := s.zeroed ++ fillTargets (e.chosenStart s.options.highestModuleAddress)
        (4096 * pages.toInt.toNat) })
    {start : Nat} (hstart : e.firstPage s.options.highestModuleAddress % 2 ^ 32 = start)
    (habove : s.options.highestModuleAddress.toNat ≤ start)
    (hbelow : start + 4096 * pages.toInt.toNat ≤ 2 ^ 32)
    (hregion : ∃ e ∈ entries, e.type = 1 ∧ e.Holds start pages.toInt.toNat) :
    SoundReservation entries pages s s' := by
  have hpts : s'.options.pageTableStart = e.chosenStart s.options.highestModuleAddress := by
    rw [hs']
    rfl
  have hchosen : (e.chosenStart s.options.highestModuleAddress).toNat = start := by
    rw [MmapEntry.chosenStart_toNat, hstart]
  refine
    { aligned := ?_
      aboveModules := ?_
      inRegion := ?_
      targets := ?_
      filled := ?_ }
  · obtain ⟨q, hq⟩ := e.dvd_firstPage s.options.highestModuleAddress
    rw [hpts, hchosen]
    omega
  · rw [hpts, hchosen]
    exact habove
  · rw [hpts, hchosen]
    exact hregion
  · rw [hpts]
    subst hs'
    rw [List.map_append, fillTargets_toNat (by omega)]
  · intro a
    rw [hpts]
    subst hs'
    exact memset_apply (by omega) a

/-- `reserve_kernel_space` makes a sound reservation exactly on the memory maps of
the condition. -/
theorem reserveKernelSpace_sound_iff (hmap : MemoryMap s.mem multiboot entries)
    (hstart : s.options.pageTableStart = 0) (hend : s.options.pageTableEnd = 0)
    (hpos : 0 < pages.toInt) :
    (∀ s', reserveKernelSpace s multiboot pages = .ok s' → SoundReservation entries pages s s') ↔
      FitsBelow4G entries s.options.highestModuleAddress pages := by
  rw [reserveKernelSpace_eq pages hmap hstart hend hpos]
  unfold FitsBelow4G
  cases hfit : lastFit entries s.options.highestModuleAddress pages with
  | none =>
    constructor
    · intro _ e he
      cases he
    · intro _ s' hs'
      exact absurd hs' (BootState.error_ne_ok _ _ _)
  | some e =>
    obtain ⟨hmem, hfits⟩ := of_lastFit hfit
    obtain ⟨htype, hlen, hlt⟩ := MmapEntry.of_fits hfits hpos
    obtain ⟨_, hhma⟩ := e.le_firstPage s.options.highestModuleAddress
    constructor
    · intro hsound e' he'
      obtain rfl := Option.some.inj he'
      obtain ⟨_, habove, hregion, htargets, _⟩ := hsound _ rfl
      have hchosen := e.chosenStart_toNat s.options.highestModuleAddress
      have hpts : (takeEntry pages s.options e).pageTableStart.toNat =
          e.firstPage s.options.highestModuleAddress % 2 ^ 32 := hchosen
      rw [hpts] at habove hregion
      -- A range that wraps is not what was filled.
      have hbelow : e.firstPage s.options.highestModuleAddress % 2 ^ 32 +
          4096 * pages.toInt.toNat ≤ 2 ^ 32 := by
        by_contra hwrap
        simp only [List.map_append, List.append_cancel_left_eq] at htargets
        exact fillTargets_ne (by omega) htargets
      by_cases hexact : e.firstPage s.options.highestModuleAddress < 2 ^ 32 ∧
          e.firstPage s.options.highestModuleAddress ≤ e.lastPage
      · refine Or.inl ⟨MmapEntry.holds_of_fits hfits hpos hexact.2, ?_⟩
        rw [Nat.mod_eq_of_lt hexact.1] at hbelow
        exact hbelow
      · exact Or.inr ⟨by omega, habove, hbelow, hregion⟩
    · intro hcond s' hs'
      have hs' := (Except.ok.inj hs').symm
      rcases hcond e rfl with ⟨hholds, hbelow⟩ | ⟨_, habove, hbelow, hregion⟩
      · have hmod : e.firstPage s.options.highestModuleAddress % 2 ^ 32 =
            e.firstPage s.options.highestModuleAddress := Nat.mod_eq_of_lt (by omega)
        exact soundReservation_of_range hs' hmod hhma hbelow ⟨e, hmem, htype, hholds⟩
      · exact soundReservation_of_range hs' rfl habove hbelow hregion

end Sound

/-! ## A machine with memory above four gigabytes -/

/-- The two free regions of a machine with two gigabytes, one of them remapped above
four gigabytes. -/
def remappedMap : List MmapEntry :=
  [⟨20, 0x100000, 0x3ff00000, 1⟩, ⟨20, 0x100000000, 0x40000000, 1⟩]

/-- That machine, with modules up to two megabytes. -/
def remappedMachine : BootState where
  mem := Mem.ofParts
    [(0x1000, MultibootInfo.bytes ⟨0x48, 0, 1, 0, 48, 0x2000⟩),
      (0x2000, remappedMap.flatMap MmapEntry.bytes)]
  options := { kernelName := 0, highestModuleAddress := 0x200000 }

theorem remappedMachine_map : MemoryMap remappedMachine.mem 0x1000 remappedMap :=
  ⟨by decide +kernel, by decide +kernel⟩

/-- The function returns with a reservation at address zero, below the modules. -/
theorem remappedMachine_unsound :
    MemoryMap remappedMachine.mem 0x1000 remappedMap ∧
      ∃ s', reserveKernelSpace remappedMachine 0x1000 5 = .ok s' ∧
        s'.options.pageTableStart = 0 ∧
        ¬ SoundReservation remappedMap 5 remappedMachine s' := by
  have hfit : lastFit remappedMap remappedMachine.options.highestModuleAddress 5 =
      some ⟨20, 0x100000000, 0x40000000, 1⟩ := by decide +kernel
  have hrun := reserveKernelSpace_eq 5 remappedMachine_map rfl rfl (by decide)
  rw [hfit] at hrun
  refine ⟨remappedMachine_map, _, hrun, by decide +kernel, fun hsound => ?_⟩
  have habove := hsound.aboveModules
  have hmodules : remappedMachine.options.highestModuleAddress.toNat = 0x200000 := rfl
  have hstart : (takeEntry 5 remappedMachine.options
      ⟨20, 0x100000000, 0x40000000, 1⟩).pageTableStart.toNat = 0 := by decide +kernel
  change remappedMachine.options.highestModuleAddress.toNat ≤ (takeEntry 5
    remappedMachine.options ⟨20, 0x100000000, 0x40000000, 1⟩).pageTableStart.toNat at habove
  omega

/-- Without the remapped region the same machine gets a sound reservation. -/
def plainMap : List MmapEntry := [⟨20, 0x100000, 0x3ff00000, 1⟩]

def plainMachine : BootState where
  mem := Mem.ofParts
    [(0x1000, MultibootInfo.bytes ⟨0x48, 0, 1, 0, 24, 0x2000⟩),
      (0x2000, plainMap.flatMap MmapEntry.bytes)]
  options := { kernelName := 0, highestModuleAddress := 0x200000 }

theorem plainMachine_sound :
    ∃ s', reserveKernelSpace plainMachine 0x1000 5 = .ok s' ∧
      SoundReservation plainMap 5 plainMachine s' := by
  have hmap : MemoryMap plainMachine.mem 0x1000 plainMap :=
    ⟨by decide +kernel, by decide +kernel⟩
  have hfit : lastFit plainMap plainMachine.options.highestModuleAddress 5 =
      some ⟨20, 0x100000, 0x3ff00000, 1⟩ := by decide +kernel
  have hrun := reserveKernelSpace_eq 5 hmap rfl rfl (by decide)
  rw [hfit] at hrun
  refine ⟨_, hrun, (reserveKernelSpace_sound_iff hmap rfl rfl (by decide)).mpr ?_ _ hrun⟩
  intro e he
  obtain rfl := Option.some.inj (he.symm.trans hfit)
  exact Or.inl (by unfold MmapEntry.Holds; decide +kernel)

end HosBoot.X8664
