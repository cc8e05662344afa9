/-
  X8664/PageBuilder.lean --- `alloc_page`, `map_page` and `build_page_tables`.

  The builder threads the memory, `current_page` and the events of the run.  An
  event is recorded where the source acts: each page that `alloc_page` hands out,
  with what it is for, each call of `map_page`, and each 64-bit store through a
  table pointer.  The loops read the ELF header and the section headers from
  memory in every turn, as the source does.
-/
import HosBoot.Foundation.Paging
import HosBoot.X8664.Estimate

set_option autoImplicit false

namespace HosBoot.X8664

open HosBoot.Foundation HosBoot.Common

/-- The state of `build_page_tables`. -/
structure PageBuilder where
  mem : Mem
  /-- `current_page`. -/
  currentPage : UInt32
  /-- The events so far, newest first. -/
  log : List PageEvent

/-- `alloc_page`: the page handed out and the new value of `*cur_alloc`. -/
def allocPage (curAlloc : UInt32) : UInt32 × UInt32 := (curAlloc, curAlloc + pageSize)

namespace PageBuilder

/-- `alloc_page(&current_page)` for a paging structure. -/
def allocTable (b : PageBuilder) : UInt32 × PageBuilder :=
  let (page, currentPage) := allocPage b.currentPage
  (page, { b with currentPage := currentPage, log := .table page :: b.log })

/-- `alloc_page(&current_page)` for a bss page. -/
def allocBss (b : PageBuilder) : UInt32 × PageBuilder :=
  let (page, currentPage) := allocPage b.currentPage
  (page, { b with currentPage := currentPage, log := .bss page :: b.log })

/-- `table[i] = value`, for a `uint64_t *table`. -/
def storeEntry (b : PageBuilder) (table : UInt32) (i : Nat) (value : UInt64) : PageBuilder :=
  { b with
    mem := b.mem.write64 (table.toNat + 8 * i) value
    log := .store (table.toNat + 8 * i) :: b.log }

@[simp] theorem allocTable_fst (b : PageBuilder) : b.allocTable.1 = b.currentPage := rfl
@[simp] theorem allocTable_mem (b : PageBuilder) : b.allocTable.2.mem = b.mem := by
  rw [allocTable, allocPage]
@[simp] theorem allocTable_log (b : PageBuilder) :
    b.allocTable.2.log = .table b.currentPage :: b.log := rfl
@[simp] theorem allocTable_currentPage (b : PageBuilder) :
    b.allocTable.2.currentPage = b.currentPage + pageSize := rfl

@[simp] theorem allocBss_fst (b : PageBuilder) : b.allocBss.1 = b.currentPage := rfl
@[simp] theorem allocBss_mem (b : PageBuilder) : b.allocBss.2.mem = b.mem := by
  rw [allocBss, allocPage]
@[simp] theorem allocBss_log (b : PageBuilder) :
    b.allocBss.2.log = .bss b.currentPage :: b.log := rfl
@[simp] theorem allocBss_currentPage (b : PageBuilder) :
    b.allocBss.2.currentPage = b.currentPage + pageSize := rfl

@[simp] theorem storeEntry_mem (b : PageBuilder) (table : UInt32) (i : Nat) (value : UInt64) :
    (b.storeEntry table i value).mem = b.mem.write64 (table.toNat + 8 * i) value := rfl
@[simp] theorem storeEntry_log (b : PageBuilder) (table : UInt32) (i : Nat) (value : UInt64) :
    (b.storeEntry table i value).log = .store (table.toNat + 8 * i) :: b.log := rfl
@[simp] theorem storeEntry_currentPage (b : PageBuilder) (table : UInt32) (i : Nat)
    (value : UInt64) : (b.storeEntry table i value).currentPage = b.currentPage := rfl

/-- The lines of `map_page` that find the page table of a PD slot, or install a
new one. -/
def pageTableFor (b : PageBuilder) (pdt : UInt32) (pdtEntry : Nat) : UInt32 × PageBuilder :=
  let pt := (entryAt b.mem pdt.toNat pdtEntry &&& 0xFFFFFFFFFFFFF000).toUInt32
  if pt = 0 then
    let (pt, b) := b.allocTable
    (pt, b.storeEntry pdt pdtEntry (pt ||| pageAccessBits).toUInt64)
  else
    (pt, b)

/-- `map_page`. -/
def mapPage (b : PageBuilder) (pdt : UInt32) (realAddr virtAddr : UInt64)
    (accessBits : UInt16) : PageBuilder :=
  let loPart := (virtAddr &&& 0xFFFFFFFF).toUInt32
  let pdtEntry := (loPart &&& 0x3FE00000) >>> 21
  let ptEntry := (loPart &&& 0x001FF000) >>> 12
  let (pt, b) := b.pageTableFor pdt pdtEntry.toNat
  let b := b.storeEntry pt ptEntry.toNat (realAddr ||| accessBits.toUInt64)
  { b with log := .map realAddr virtAddr accessBits :: b.log }

/-- The loop over the pages of a section that lies in the file. -/
def mapFilePages (pdt : UInt32) (accessBits : UInt16) :
    Nat → UInt64 → UInt64 → PageBuilder → PageBuilder
  | 0, _, _, b => b
  | n + 1, realAddr, virtAddr, b =>
      mapFilePages pdt accessBits n (realAddr + 0x1000) (virtAddr + 0x1000)
        (b.mapPage pdt realAddr virtAddr accessBits)

/-- The loop over the pages of a bss section: each page gets a new frame. -/
def mapBssPages (pdt : UInt32) (accessBits : UInt16) :
    Nat → UInt64 → PageBuilder → PageBuilder
  | 0, _, b => b
  | n + 1, virtAddr, b =>
      let (realAddr, b) := b.allocBss
      mapBssPages pdt accessBits n (virtAddr + 0x1000)
        (b.mapPage pdt realAddr.toUInt64 virtAddr accessBits)

end PageBuilder

/-- `access_bits`. -/
def accessBitsOf (sec : Elf64Shdr) : UInt16 :=
  if sec.hasFlag shfWrite then pageAccessPresent ||| pageAccessWritable else pageAccessPresent

/-- `section_real_addr`, before the loops. -/
def sectionRealAddr (kernelStart : UInt32) (sec : Elf64Shdr) : UInt64 :=
  sec.shOffset + kernelStart.toUInt64

namespace PageBuilder

/-- One turn of the loop of `build_page_tables`. -/
def mapSection (kernelStart pdt : UInt32) (b : PageBuilder) (sec : Elf64Shdr) : PageBuilder :=
  if sec.willLoadNotBss || sec.isBss then
    if sec.willLoadNotBss then
      mapFilePages pdt (accessBitsOf sec) sec.sizeInPages.toNat
        (sectionRealAddr kernelStart sec) sec.shAddr b
    else if sec.isBss then
      mapBssPages pdt (accessBitsOf sec) sec.sizeInPages.toNat sec.shAddr b
    else
      b
  else
    b

/-- The loop of `build_page_tables` from index `i` on.  `e_shnum` has 16 bits, so
`2 ^ 16` turns are enough. -/
def mapSections (kernelStart pdt : UInt32) : Nat → Nat → PageBuilder → PageBuilder
  | 0, _, b => b
  | fuel + 1, i, b =>
      if i < (kernelHeader b.mem kernelStart).eShnum.toNat then
        mapSections kernelStart pdt fuel (i + 1)
          (b.mapSection kernelStart pdt (sectionAt b.mem kernelStart i))
      else
        b

/-- The lines after the loop: the entries that lead to the kernel's PD, then a
second PDPT and PD that map the first four megabytes onto themselves. -/
def finishTables (pml4 pdpt pdt : UInt32) (b : PageBuilder) : PageBuilder :=
  let b := b.storeEntry pml4 pml4Entry (pdpt ||| pageAccessBits).toUInt64
  let b := b.storeEntry pdpt 0 (pdt ||| pageAccessBits).toUInt64
  let (pdpt, b) := b.allocTable
  let (pdt, b) := b.allocTable
  let b := b.storeEntry pml4 0 (pdpt ||| pageAccessBits).toUInt64
  let b := b.storeEntry pdpt 0 (pdt ||| pageAccessBits).toUInt64
  let b := b.storeEntry pdt 0 (0x80 ||| pageAccessBits).toUInt64
  b.storeEntry pdt 1 (0x200000 ||| 0x80 ||| pageAccessBits).toUInt64

end PageBuilder

/-- `build_page_tables`. -/
def buildPageTables (s : BootState) : BootState :=
  let b : PageBuilder := ⟨s.mem, s.options.pageTableStart, []⟩
  let (pml4, b) := b.allocTable
  let (pdpt, b) := b.allocTable
  let (pdt, b) := b.allocTable
  let b := b.mapSections s.options.kernelStart pdt (2 ^ 16) 1
  let b := b.finishTables pml4 pdpt pdt
  { s with
    mem := b.mem
    options := { s.options with pml4Ptr := pml4 }
    pageLog := b.log }

end HosBoot.X8664
