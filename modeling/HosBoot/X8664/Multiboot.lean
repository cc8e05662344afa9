/-
  X8664/Multiboot.lean --- the multiboot structures of `multiboot.h`.

  The boot loader leaves a `multiboot_info_t` that points to the command line, to
  an array of modules and to the memory map.  The structures are packed; fields
  that no function reads are left out.
-/
import HosBoot.Foundation.Memory

set_option autoImplicit false

namespace HosBoot.X8664

open HosBoot.Foundation

/-- `MULTIBOOT_CMDLINE_FLAG` -/
def multibootCmdlineFlag : UInt32 := 0x4
/-- `MULTIBOOT_MODULES_FLAG` -/
def multibootModulesFlag : UInt32 := 0x8
/-- `MULTIBOOT_MEM_MAP_FLAG` -/
def multibootMemMapFlag : UInt32 := 0x40

/-- `multiboot_info_t`. -/
structure MultibootInfo where
  flags : UInt32
  commandLine : UInt32
  modsCount : UInt32
  mods : UInt32
  mmapLength : UInt32
  mmapAddr : UInt32
  deriving DecidableEq, Repr

/-- `*multiboot`. -/
def readMultiboot (m : Mem) (multiboot : UInt32) : MultibootInfo where
  flags := m.read32 multiboot.toNat
  commandLine := m.read32 (multiboot.toNat + 16)
  modsCount := m.read32 (multiboot.toNat + 20)
  mods := m.read32 (multiboot.toNat + 24)
  mmapLength := m.read32 (multiboot.toNat + 44)
  mmapAddr := m.read32 (multiboot.toNat + 48)

/-- `sizeof(multiboot_info_t)`. -/
def sizeofMultibootInfo : Nat := 96

/-- `multiboot_module_t`. -/
structure MultibootModule where
  modStart : UInt32
  modEnd : UInt32
  modName : UInt32
  deriving DecidableEq, Repr

/-- `sizeof(multiboot_module_t)`. -/
def sizeofMultibootModule : UInt32 := 16

/-- `*mod`. -/
def readModule (m : Mem) (mod : UInt32) : MultibootModule where
  modStart := m.read32 mod.toNat
  modEnd := m.read32 (mod.toNat + 4)
  modName := m.read32 (mod.toNat + 8)

/-- `multiboot_mmap_entry_t`. -/
structure MmapEntry where
  size : UInt32
  baseAddr : UInt64
  length : UInt64
  type : UInt32
  deriving DecidableEq, Repr

/-- `*entry`. -/
def readMmapEntry (m : Mem) (entry : UInt32) : MmapEntry where
  size := m.read32 entry.toNat
  baseAddr := m.read64 (entry.toNat + 4)
  length := m.read64 (entry.toNat + 12)
  type := m.read32 (entry.toNat + 20)

/-- A memory map from `entry` to `finish`: a chain of entries, each at least as long
as the structure, that ends at `finish`. -/
def MmapAt (m : Mem) : UInt32 → Nat → List MmapEntry → Prop
  | entry, finish, [] => entry.toNat = finish
  | entry, finish, e :: rest =>
      readMmapEntry m entry = e ∧ 20 ≤ e.size.toNat ∧
        entry.toNat + e.size.toNat + 4 ≤ finish ∧
        MmapAt m (entry + e.size + 4) finish rest

instance : ∀ (m : Mem) (entry : UInt32) (finish : Nat) (entries : List MmapEntry),
    Decidable (MmapAt m entry finish entries)
  | _, _, _, [] => inferInstanceAs (Decidable (_ = _))
  | m, entry, finish, e :: rest =>
      have : Decidable (MmapAt m (entry + e.size + 4) finish rest) :=
        instDecidableMmapAt m (entry + e.size + 4) finish rest
      inferInstanceAs (Decidable (_ ∧ _ ∧ _ ∧ _))

/-- The entry as bytes. -/
def MmapEntry.bytes (e : MmapEntry) : List UInt8 :=
  Mem.wordBytes 4 e.size.toNat ++ Mem.wordBytes 8 e.baseAddr.toNat ++
    Mem.wordBytes 8 e.length.toNat ++ Mem.wordBytes 4 e.type.toNat

/-- The module descriptor as bytes. -/
def MultibootModule.bytes (mod : MultibootModule) : List UInt8 :=
  Mem.wordBytes 4 mod.modStart.toNat ++ Mem.wordBytes 4 mod.modEnd.toNat ++
    Mem.wordBytes 4 mod.modName.toNat ++ Mem.wordBytes 4 0

/-- The information structure as bytes, with zeros in the fields that are not read. -/
def MultibootInfo.bytes (info : MultibootInfo) : List UInt8 :=
  Mem.wordBytes 4 info.flags.toNat ++ Mem.wordBytes 12 0 ++
    Mem.wordBytes 4 info.commandLine.toNat ++ Mem.wordBytes 4 info.modsCount.toNat ++
    Mem.wordBytes 4 info.mods.toNat ++ Mem.wordBytes 16 0 ++
    Mem.wordBytes 4 info.mmapLength.toNat ++ Mem.wordBytes 4 info.mmapAddr.toNat ++
    Mem.wordBytes 44 0

end HosBoot.X8664
