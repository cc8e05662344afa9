/-
  Common/Elf64.lean --- the ELF64 structures of `elf64.h`.

  A header is read from memory at the offsets the C structure gives its fields.
  Fields that no function of the bootstrapper reads are left out.  The two
  loaders of `bootstrap.c` each carry a copy of the test that decides whether a
  section is loaded; both copies are written out here, and `willLoad_eq` says
  that they agree.
-/
import HosBoot.Foundation.Memory
import HosBoot.Common.Align

set_option autoImplicit false

namespace HosBoot.Common

open HosBoot.Foundation

/-! ## Constants -/

/-- `EI_CLASS` -/
def eiClass : Nat := 4
/-- `EI_DATA` -/
def eiData : Nat := 5
/-- `ELFCLASS64` -/
def elfclass64 : UInt8 := 2
/-- `ELFDATA2LSB` -/
def elfdata2lsb : UInt8 := 1
/-- `ET_EXEC` -/
def etExec : UInt16 := 2
/-- `EM_X86_64` -/
def emX86_64 : UInt16 := 62
/-- `SHT_PROGBITS` -/
def shtProgbits : UInt32 := 1
/-- `SHT_NOBITS` -/
def shtNobits : UInt32 := 8
/-- `SHF_WRITE` -/
def shfWrite : UInt64 := 0x0001
/-- `SHF_ALLOC` -/
def shfAlloc : UInt64 := 0x0002
/-- `SHF_EXECINSTR` -/
def shfExecinstr : UInt64 := 0x0004

/-! ## The file header -/

/-- `Elf64_Ehdr`. -/
structure Elf64Ehdr where
  /-- The sixteen identification bytes. -/
  eIdent : List UInt8
  eType : UInt16
  eMachine : UInt16
  eEntry : UInt64
  eShoff : UInt64
  eShentsize : UInt16
  eShnum : UInt16
  deriving DecidableEq, Repr

/-- `sizeof(Elf64_Ehdr)`. -/
def sizeofEhdr : Nat := 64

/-- The file header at `a`. -/
def readEhdr (m : Mem) (a : Nat) : Elf64Ehdr where
  eIdent := (List.range 16).map fun i => m (a + i)
  eType := m.read16 (a + 16)
  eMachine := m.read16 (a + 18)
  eEntry := m.read64 (a + 24)
  eShoff := m.read64 (a + 40)
  eShentsize := m.read16 (a + 58)
  eShnum := m.read16 (a + 60)

theorem readEhdr_congr {m m' : Mem} {a : Nat}
    (h : ∀ p, InRange a sizeofEhdr p → m p = m' p) : readEhdr m a = readEhdr m' a := by
  have hword : ∀ off n, off + n ≤ sizeofEhdr →
      m.loadLE (a + off) n = m'.loadLE (a + off) n := fun off n hn =>
    Mem.loadLE_congr fun p hp => h p (hp.widen (by omega) (by omega))
  have hident : ((List.range 16).map fun i => m (a + i)) =
      (List.range 16).map fun i => m' (a + i) := by
    refine List.map_congr_left fun i hi => h _ ⟨by omega, ?_⟩
    have hlt : i < 16 := List.mem_range.mp hi
    unfold sizeofEhdr
    omega
  unfold readEhdr Mem.read16 Mem.read64
  rw [hident, hword 16 2 (by decide), hword 18 2 (by decide), hword 24 8 (by decide),
    hword 40 8 (by decide), hword 58 2 (by decide), hword 60 2 (by decide)]

/-! ## Section headers -/

/-- `Elf64_Shdr`. -/
structure Elf64Shdr where
  shType : UInt32
  shFlags : UInt64
  shAddr : UInt64
  shOffset : UInt64
  shSize : UInt64
  deriving DecidableEq, Repr

/-- `sizeof(Elf64_Shdr)`. -/
def sizeofShdr : Nat := 64

/-- The section header at `a`. -/
def readShdr (m : Mem) (a : Nat) : Elf64Shdr where
  shType := m.read32 (a + 4)
  shFlags := m.read64 (a + 8)
  shAddr := m.read64 (a + 16)
  shOffset := m.read64 (a + 24)
  shSize := m.read64 (a + 32)

theorem readShdr_congr {m m' : Mem} {a : Nat}
    (h : ∀ p, InRange a sizeofShdr p → m p = m' p) : readShdr m a = readShdr m' a := by
  have hword : ∀ off n, off + n ≤ sizeofShdr →
      m.loadLE (a + off) n = m'.loadLE (a + off) n := fun off n hn =>
    Mem.loadLE_congr fun p hp => h p (hp.widen (by omega) (by omega))
  unfold readShdr Mem.read32 Mem.read64
  rw [hword 4 4 (by decide), hword 8 8 (by decide), hword 16 8 (by decide),
    hword 24 8 (by decide), hword 32 8 (by decide)]

/-! ## The bytes of a header -/

/-- The file header as bytes, with zeros in the fields that are not read. -/
def Elf64Ehdr.bytes (hdr : Elf64Ehdr) : List UInt8 :=
  hdr.eIdent ++ Mem.wordBytes 2 hdr.eType.toNat ++ Mem.wordBytes 2 hdr.eMachine.toNat ++
    Mem.wordBytes 4 0 ++ Mem.wordBytes 8 hdr.eEntry.toNat ++ Mem.wordBytes 8 0 ++
    Mem.wordBytes 8 hdr.eShoff.toNat ++ Mem.wordBytes 10 0 ++
    Mem.wordBytes 2 hdr.eShentsize.toNat ++ Mem.wordBytes 2 hdr.eShnum.toNat ++
    Mem.wordBytes 2 0

/-- A section header as bytes, with zeros in the fields that are not read. -/
def Elf64Shdr.bytes (sec : Elf64Shdr) : List UInt8 :=
  Mem.wordBytes 4 0 ++ Mem.wordBytes 4 sec.shType.toNat ++ Mem.wordBytes 8 sec.shFlags.toNat ++
    Mem.wordBytes 8 sec.shAddr.toNat ++ Mem.wordBytes 8 sec.shOffset.toNat ++
    Mem.wordBytes 8 sec.shSize.toNat ++ Mem.wordBytes 24 0

/-- The header of an executable for this machine, with `n` sections and the section table
behind the header. -/
def elfHeader (entry : UInt64) (n : Nat) : Elf64Ehdr where
  eIdent := [0x7f, 0x45, 0x4C, 0x46, elfclass64, elfdata2lsb] ++ List.replicate 10 0
  eType := etExec
  eMachine := emX86_64
  eEntry := entry
  eShoff := 64
  eShentsize := 64
  eShnum := UInt16.ofNat (n + 1)

/-- The file that starts with that header. -/
def elfImage (entry : UInt64) (secs : List Elf64Shdr) : List UInt8 :=
  (elfHeader entry secs.length).bytes ++
    (List.replicate 64 0 ++ secs.flatMap Elf64Shdr.bytes)

namespace Elf64Shdr

/-- `section->sh_flags & flag` as a truth value. -/
def hasFlag (sec : Elf64Shdr) (flag : UInt64) : Bool := sec.shFlags &&& flag != 0

/-- `is_bss`, in the same words in both loaders. -/
def isBss (sec : Elf64Shdr) : Bool :=
  sec.shType == shtNobits && sec.hasFlag shfAlloc && sec.hasFlag shfWrite

/-- `will_load` of `estimate_pages_needed_for_kernel`.  The `.text` disjunct tests
`sh_flags && SHF_EXECINSTR`, a logical and. -/
def willLoad (sec : Elf64Shdr) : Bool :=
  sec.isBss ||
  (sec.shType == shtProgbits && sec.hasFlag shfAlloc && sec.hasFlag shfWrite) ||
  (sec.shType == shtProgbits && sec.hasFlag shfAlloc) ||
  (sec.shType == shtProgbits && sec.hasFlag shfAlloc &&
    (sec.shFlags != 0 && shfExecinstr != 0))

/-- `will_load_not_bss` of `build_page_tables`. -/
def willLoadNotBss (sec : Elf64Shdr) : Bool :=
  (sec.shType == shtProgbits && sec.hasFlag shfAlloc && sec.hasFlag shfWrite) ||
  (sec.shType == shtProgbits && sec.hasFlag shfAlloc) ||
  (sec.shType == shtProgbits && sec.hasFlag shfAlloc &&
    (sec.shFlags != 0 && shfExecinstr != 0))

/-- The three disjuncts are one test: an allocated PROGBITS section. -/
theorem willLoadNotBss_eq (sec : Elf64Shdr) :
    sec.willLoadNotBss = (sec.shType == shtProgbits && sec.hasFlag shfAlloc) := by
  unfold willLoadNotBss
  cases sec.shType == shtProgbits <;> cases sec.hasFlag shfAlloc <;> simp

/-- The copy in the estimate agrees with the copy in the builder. -/
theorem willLoad_eq (sec : Elf64Shdr) : sec.willLoad = (sec.isBss || sec.willLoadNotBss) := by
  unfold willLoad willLoadNotBss
  simp only [Bool.or_assoc]

/-- A section is not loaded both ways: the types differ. -/
theorem isBss_eq_false_of_willLoadNotBss {sec : Elf64Shdr} (h : sec.willLoadNotBss = true) :
    sec.isBss = false := by
  rw [willLoadNotBss_eq, Bool.and_eq_true, beq_iff_eq] at h
  rw [isBss, h.1]
  rfl

/-- `ALIGN_4K_UP(section->sh_size) / PAGE_SIZE`. -/
def sizeInPages (sec : Elf64Shdr) : UInt64 := align4kUp sec.shSize / 0x1000

/-- The exact page-rounded size, over the unbounded integers. -/
def pageRounded (sec : Elf64Shdr) : Nat := roundUp 4096 sec.shSize.toNat

/-- A section that can be mapped: page aligned in memory and in the file. -/
def PageAligned (sec : Elf64Shdr) : Prop :=
  4096 ∣ sec.shAddr.toNat ∧ 4096 ∣ sec.shOffset.toNat

theorem sizeInPages_toNat_mul {sec : Elf64Shdr} (h : sec.pageRounded < 2 ^ 64) :
    sec.sizeInPages.toNat * 4096 = sec.pageRounded := by
  have hmod : (align4kUp sec.shSize).toNat = sec.pageRounded := by
    rw [align4kUp_modEq]
    exact Nat.mod_eq_of_lt h
  rw [sizeInPages, UInt64.toNat_div, hmod]
  exact roundUp_div_mul 4096 sec.shSize.toNat

end Elf64Shdr

end HosBoot.Common
