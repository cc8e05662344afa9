/-
  X8664/MapWalk.lean --- the walk of `reserve_kernel_space` over the memory map.

  The loop follows the size fields from `mmap_addr` as long as it is below the end of
  the buffer.  It trusts them: a size may lead back, or nowhere, and the last entry may
  reach past the end.  `mapWalk_staysInside_iff` says which buffers are walked as they
  should be, whatever they hold; the maps of a boot loader are among them.
-/
import HosBoot.X8664.Reserve

set_option autoImplicit false

namespace HosBoot.X8664

open HosBoot.Foundation HosBoot.Common

/-! ## The walk -/

/-- `sizeof(multiboot_mmap_entry_t)`. -/
def sizeofMmapEntry : Nat := 24

/-- The address that the loop goes on to. -/
def nextEntry (m : Mem) (entry : UInt32) : UInt32 := entry + (readMmapEntry m entry).size + 4

/-- The addresses of the entries that the loop reads, in order. -/
def visitedEntries (m : Mem) (bound : UInt32) : Nat → UInt32 → List UInt32
  | 0, _ => []
  | fuel + 1, entry =>
      if entry < bound then entry :: visitedEntries m bound fuel (nextEntry m entry) else []

/-- The end of the memory map. -/
def mapEnd (m : Mem) (multiboot : UInt32) : UInt32 :=
  (readMultiboot m multiboot).mmapAddr + (readMultiboot m multiboot).mmapLength

/-- The memory map ends below four gigabytes. -/
def MapBelow4G (m : Mem) (multiboot : UInt32) : Prop :=
  (readMultiboot m multiboot).mmapAddr.toNat + (readMultiboot m multiboot).mmapLength.toNat <
    2 ^ 32

instance (m : Mem) (multiboot : UInt32) : Decidable (MapBelow4G m multiboot) :=
  inferInstanceAs (Decidable (_ < _))

/-- The walk of a call of `reserve_kernel_space`. -/
def mapWalk (s : BootState) (multiboot : UInt32) : List UInt32 :=
  visitedEntries s.mem (mapEnd s.mem multiboot) (2 ^ 32) (readMultiboot s.mem multiboot).mmapAddr

/-- The loop ends, it visits higher and higher addresses, and what it reads lies in the
buffer. -/
structure StaysInside (s : BootState) (multiboot : UInt32) : Prop where
  terminates : ∀ pages, reserveKernelSpace s multiboot pages ≠ .error .diverges
  increasing : (mapWalk s multiboot).Pairwise (· < ·)
  inside : ∀ entry ∈ mapWalk s multiboot,
    (readMultiboot s.mem multiboot).mmapAddr.toNat ≤ entry.toNat ∧
      entry.toNat + sizeofMmapEntry ≤ (readMultiboot s.mem multiboot).mmapAddr.toNat +
        (readMultiboot s.mem multiboot).mmapLength.toNat

/-- The size fields lead from `entry` to the end: as long as it is not reached, there is a
whole entry, whose size leads on. -/
inductive LeadsOn (m : Mem) (bound : UInt32) : UInt32 → Prop where
  | done {entry : UInt32} (h : ¬ entry < bound) : LeadsOn m bound entry
  | next {entry : UInt32} (hwhole : entry.toNat + sizeofMmapEntry ≤ bound.toNat)
      (hstep : entry < nextEntry m entry) (hrest : LeadsOn m bound (nextEntry m entry)) :
      LeadsOn m bound entry

section Walk

variable {m : Mem} {bound : UInt32}

/-- The loop considers the entries that it visits, in order, and nothing else; it runs out of
turns when they do not end. -/
theorem scanRegions_eq_foldl (pages : Int32) : ∀ (fuel : Nat) (entry : UInt32) (o : BootOptions),
    scanRegions m bound pages fuel entry o =
      if (visitedEntries m bound fuel entry).length < fuel then
        some ((visitedEntries m bound fuel entry).foldl
          (fun o visited => considerEntry pages o (readMmapEntry m visited)) o)
      else none := by
  intro fuel
  induction fuel with
  | zero =>
    intro entry o
    rfl
  | succ fuel ih =>
    intro entry o
    rw [scanRegions, visitedEntries]
    by_cases hlt : entry < bound
    · rw [if_pos hlt, if_pos hlt, List.length_cons, List.foldl_cons]
      simp only [Nat.add_lt_add_iff_right]
      exact ih (nextEntry m entry) _
    · rw [if_neg hlt, if_neg hlt, List.length_nil, if_pos (Nat.succ_pos fuel)]
      rfl

/-- A walk over such a buffer ends, and its entries are whole and in order. -/
theorem LeadsOn.walk {entry : UInt32} (h : LeadsOn m bound entry) :
    ∀ {fuel : Nat}, bound.toNat - entry.toNat < fuel →
      (∀ pages o, ∃ o', scanRegions m bound pages fuel entry o = some o') ∧
      (visitedEntries m bound fuel entry).Pairwise (· < ·) ∧
      ∀ visited ∈ visitedEntries m bound fuel entry,
        entry ≤ visited ∧ visited.toNat + sizeofMmapEntry ≤ bound.toNat := by
  induction h with
  | done hend =>
    intro fuel hfuel
    obtain ⟨fuel, rfl⟩ : ∃ f, fuel = f + 1 := ⟨fuel - 1, by omega⟩
    rw [visitedEntries, if_neg hend]
    refine ⟨fun pages o => ⟨o, if_neg hend⟩, List.Pairwise.nil, fun visited hmem => by cases hmem⟩
  | @next entry hwhole hstep _ ih =>
    intro fuel hfuel
    obtain ⟨fuel, rfl⟩ : ∃ f, fuel = f + 1 := ⟨fuel - 1, by omega⟩
    have hsize : sizeofMmapEntry = 24 := rfl
    have hlt : entry < bound := UInt32.lt_iff_toNat_lt.mpr (by omega)
    have hnat := UInt32.lt_iff_toNat_lt.mp hstep
    obtain ⟨hends, horder, hinside⟩ := @ih fuel (by omega)
    rw [visitedEntries, if_pos hlt]
    refine ⟨fun pages o => ?_, List.pairwise_cons.mpr ⟨fun visited hmem => ?_, horder⟩, ?_⟩
    · rw [scanRegions, if_pos hlt]
      exact hends pages _
    · exact UInt32.lt_of_lt_of_le hstep (hinside visited hmem).1
    · refine List.forall_mem_cons.mpr ⟨⟨UInt32.le_refl entry, hwhole⟩, fun visited hmem => ?_⟩
      obtain ⟨hle, hend⟩ := hinside visited hmem
      exact ⟨UInt32.le_of_lt (UInt32.lt_of_lt_of_le hstep hle), hend⟩

/-- A walk whose entries are whole and in order is led on by each of them. -/
theorem leadsOn_of_walk : ∀ {fuel : Nat} {entry : UInt32}, bound.toNat - entry.toNat < fuel →
    (visitedEntries m bound fuel entry).Pairwise (· < ·) →
    (∀ visited ∈ visitedEntries m bound fuel entry,
      visited.toNat + sizeofMmapEntry ≤ bound.toNat) →
    LeadsOn m bound entry := by
  intro fuel
  induction fuel with
  | zero => exact fun hfuel => absurd hfuel (Nat.not_lt_zero _)
  | succ fuel ih =>
    intro entry hfuel horder hwhole
    by_cases hlt : entry < bound
    · rw [visitedEntries, if_pos hlt] at horder hwhole
      obtain ⟨hfirst, horder⟩ := List.pairwise_cons.mp horder
      obtain ⟨hentry, hwhole⟩ := List.forall_mem_cons.mp hwhole
      have hnat := UInt32.lt_iff_toNat_lt.mp hlt
      have hstep : entry < nextEntry m entry := by
        by_cases hmore : nextEntry m entry < bound
        · -- The next entry is visited.
          obtain ⟨fuel, rfl⟩ : ∃ f, fuel = f + 1 := ⟨fuel - 1, by omega⟩
          refine hfirst _ ?_
          rw [visitedEntries, if_pos hmore]
          exact List.mem_cons_self
        · exact UInt32.lt_of_lt_of_le hlt (UInt32.not_lt.mp hmore)
      have hstep' := UInt32.lt_iff_toNat_lt.mp hstep
      exact .next hentry hstep (ih (by omega) horder hwhole)
    · exact .done hlt

end Walk

/-! ## The walk of a call -/

section Call

variable {s : BootState} {multiboot : UInt32}

/-- A call runs forever exactly when its loop does. -/
theorem reserveKernelSpace_diverges_iff {pages : Int32} :
    reserveKernelSpace s multiboot pages = .error .diverges ↔
      scanRegions s.mem (mapEnd s.mem multiboot) pages (2 ^ 32)
        (readMultiboot s.mem multiboot).mmapAddr s.options = none := by
  unfold reserveKernelSpace mapEnd
  dsimp only
  cases hscan : scanRegions s.mem ((readMultiboot s.mem multiboot).mmapAddr +
      (readMultiboot s.mem multiboot).mmapLength) pages (2 ^ 32)
      (readMultiboot s.mem multiboot).mmapAddr s.options with
  | none => exact ⟨fun _ => rfl, fun _ => rfl⟩
  | some o =>
    refine ⟨fun h => ?_, fun h => by cases h⟩
    dsimp only at h
    split at h
    · unfold BootState.error at h
      cases h
    · cases h

/-- The end of a buffer below four gigabytes. -/
theorem mapEnd_toNat (hbelow : MapBelow4G s.mem multiboot) :
    (mapEnd s.mem multiboot).toNat = (readMultiboot s.mem multiboot).mmapAddr.toNat +
      (readMultiboot s.mem multiboot).mmapLength.toNat := toNat_add_of_lt hbelow

theorem LeadsOn.staysInside (hbelow : MapBelow4G s.mem multiboot)
    (h : LeadsOn s.mem (mapEnd s.mem multiboot) (readMultiboot s.mem multiboot).mmapAddr) :
    StaysInside s multiboot := by
  have hend := mapEnd_toNat hbelow
  have hlt := (mapEnd s.mem multiboot).toNat_lt
  obtain ⟨hends, horder, hinside⟩ := LeadsOn.walk h (show _ < 2 ^ 32 by omega)
  refine ⟨fun pages hdiverges => ?_, horder, fun entry hmem => ?_⟩
  · obtain ⟨o, hscan⟩ := hends pages s.options
    rw [reserveKernelSpace_diverges_iff.mp hdiverges] at hscan
    cases hscan
  · obtain ⟨hle, hwhole⟩ := hinside entry hmem
    exact ⟨UInt32.le_iff_toNat_le.mp hle, hend ▸ hwhole⟩

theorem StaysInside.leadsOn (hbelow : MapBelow4G s.mem multiboot) (h : StaysInside s multiboot) :
    LeadsOn s.mem (mapEnd s.mem multiboot) (readMultiboot s.mem multiboot).mmapAddr := by
  have hend := mapEnd_toNat hbelow
  have hlt := (mapEnd s.mem multiboot).toNat_lt
  refine leadsOn_of_walk (show _ < 2 ^ 32 by omega) h.increasing fun visited hmem => ?_
  exact hend ▸ (h.inside visited hmem).2

end Call

/-! ## Maps of a boot loader -/

/-- The size fields of a chain of entries lead to its end. -/
theorem leadsOn_of_mmapAt {m : Mem} {bound : UInt32} :
    ∀ {entries : List MmapEntry} {entry : UInt32}, MmapAt m entry bound.toNat entries →
      LeadsOn m bound entry := by
  intro entries
  induction entries with
  | nil =>
    intro entry hmap
    have heq : entry.toNat = bound.toNat := hmap
    exact .done fun hlt => absurd (UInt32.lt_iff_toNat_lt.mp hlt) (by omega)
  | cons e rest ih =>
    intro entry hmap
    have hstep := hmap.next_toNat bound.toNat_lt
    obtain ⟨hread, hsize, hend, hrest⟩ := hmap
    have hnext : nextEntry m entry = entry + e.size + 4 := by rw [nextEntry, hread]
    have hwhole : entry.toNat + sizeofMmapEntry ≤ bound.toNat := by
      unfold sizeofMmapEntry
      omega
    refine .next hwhole ?_ (hnext ▸ ih hrest)
    rw [hnext, UInt32.lt_iff_toNat_lt, hstep]
    omega

section Call

variable {s : BootState} {multiboot : UInt32}

/-- The walk over the map of a boot loader is led on to its end. -/
theorem MemoryMap.leadsOn {entries : List MmapEntry} (hmap : MemoryMap s.mem multiboot entries) :
    LeadsOn s.mem (mapEnd s.mem multiboot) (readMultiboot s.mem multiboot).mmapAddr := by
  have hend := mapEnd_toNat hmap.below
  exact leadsOn_of_mmapAt (hend ▸ hmap.chain)

/-- The loop considers the entries of the walk and no others, whatever the buffer holds; the
walk ends, in order and without leaving the buffer, exactly when its size fields lead from
`mmap_addr` to the end; and so do those of a map that a boot loader fills with whole entries. -/
theorem mapWalk_staysInside_iff (hbelow : MapBelow4G s.mem multiboot) :
    (∀ pages, scanRegions s.mem (mapEnd s.mem multiboot) pages (2 ^ 32)
        (readMultiboot s.mem multiboot).mmapAddr s.options =
      if (mapWalk s multiboot).length < 2 ^ 32 then
        some ((mapWalk s multiboot).foldl
          (fun o entry => considerEntry pages o (readMmapEntry s.mem entry)) s.options)
      else none) ∧
    (StaysInside s multiboot ↔
      LeadsOn s.mem (mapEnd s.mem multiboot) (readMultiboot s.mem multiboot).mmapAddr) ∧
    ∀ entries, MemoryMap s.mem multiboot entries → StaysInside s multiboot :=
  ⟨fun pages => scanRegions_eq_foldl pages _ _ _,
    ⟨StaysInside.leadsOn hbelow, LeadsOn.staysInside hbelow⟩,
    fun _ hmap => LeadsOn.staysInside hbelow hmap.leadsOn⟩

end Call

/-- On a machine with one free region the walk stays inside. -/
theorem plainMachine_staysInside : StaysInside plainMachine 0x1000 := by
  have hmap : MemoryMap plainMachine.mem 0x1000 plainMap :=
    ⟨by decide +kernel, by decide +kernel⟩
  exact (mapWalk_staysInside_iff hmap.below).2.1.mpr hmap.leadsOn

/-! ## Malformed maps -/

/-- A machine whose memory map, of the given length, holds one entry of the given size. -/
def oneEntryMachine (mmapLength size : UInt32) : BootState where
  mem := Mem.ofParts
    [(0x1000, MultibootInfo.bytes ⟨0x48, 0, 1, 0, mmapLength, 0x2000⟩),
      (0x2000, MmapEntry.bytes ⟨size, 0x100000, 0x3ff00000, 1⟩)]
  options := { kernelName := 0 }

/-- A walk whose entry leads back to itself runs out of any fuel. -/
theorem scanRegions_of_stuck {m : Mem} {bound entry : UInt32} (hlt : entry < bound)
    (hstuck : nextEntry m entry = entry) (pages : Int32) :
    ∀ (fuel : Nat) (o : BootOptions), scanRegions m bound pages fuel entry o = none := by
  intro fuel
  induction fuel with
  | zero => exact fun _ => rfl
  | succ fuel ih =>
    intro o
    have hnext : entry + (readMmapEntry m entry).size + 4 = entry := hstuck
    rw [scanRegions, if_pos hlt, hnext]
    exact ih _

/-- A size of `2 ^ 32 - 4` leads nowhere, and the call never ends.  A buffer of four bytes
cuts its only entry off, and the loop reads the bytes behind it. -/
theorem oneEntryMachine_leaves :
    (MapBelow4G (oneEntryMachine 24 0xfffffffc).mem 0x1000 ∧
        (∀ pages, reserveKernelSpace (oneEntryMachine 24 0xfffffffc) 0x1000 pages =
          .error .diverges) ∧
        ¬ StaysInside (oneEntryMachine 24 0xfffffffc) 0x1000) ∧
      MapBelow4G (oneEntryMachine 4 20).mem 0x1000 ∧
      ¬ StaysInside (oneEntryMachine 4 20) 0x1000 := by
  have hdiverges : ∀ pages, reserveKernelSpace (oneEntryMachine 24 0xfffffffc) 0x1000 pages =
      .error .diverges := fun pages =>
    reserveKernelSpace_diverges_iff.mpr
      (scanRegions_of_stuck (by decide +kernel) (by decide +kernel) pages _ _)
  refine ⟨⟨by decide +kernel, hdiverges, fun h => h.terminates 5 (hdiverges 5)⟩,
    by decide +kernel, fun h => ?_⟩
  cases StaysInside.leadsOn (by decide +kernel) h with
  | done hend => exact hend (by decide +kernel)
  | next hwhole _ _ => exact absurd hwhole (by decide +kernel)

end HosBoot.X8664
