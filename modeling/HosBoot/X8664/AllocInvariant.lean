/-
  X8664/AllocInvariant.lean --- what the bump allocator guarantees.

  `AllocInv R m₀ k b` says that the builder `b`, started on memory `m₀` with the
  reservation `R`, has handed out the first `k` pages of `R` and nothing else,
  has stored only inside pages it handed out as tables, and has left zero every
  byte of the frames it handed out for bss pages and of the pages not yet handed
  out.  One lemma for each way the builder acts keeps it.
-/
import HosBoot.Foundation.Bump
import HosBoot.X8664.PageBuilder

set_option autoImplicit false

namespace HosBoot.X8664

open HosBoot.Foundation HosBoot.Common

/-! ## Reading the events -/

/-- A call of `map_page`. -/
structure MapCall where
  realAddr : UInt64
  virtAddr : UInt64
  accessBits : UInt16
  deriving DecidableEq, Repr

/-- The page a call of `alloc_page` returned. -/
def PageEvent.page? : PageEvent → Option Nat
  | .table page => some page.toNat
  | .bss page => some page.toNat
  | _ => none

/-- The page, when it became a paging structure. -/
def PageEvent.table? : PageEvent → Option Nat
  | .table page => some page.toNat
  | _ => none

/-- The page, when it became a bss frame. -/
def PageEvent.bss? : PageEvent → Option Nat
  | .bss page => some page.toNat
  | _ => none

/-- The call of `map_page`. -/
def PageEvent.call? : PageEvent → Option MapCall
  | .map realAddr virtAddr accessBits => some ⟨realAddr, virtAddr, accessBits⟩
  | _ => none

/-- Every page handed out, newest first. -/
def handedOut (log : List PageEvent) : List Nat := log.filterMap PageEvent.page?
/-- The pages handed out for paging structures. -/
def tablePages (log : List PageEvent) : List Nat := log.filterMap PageEvent.table?
/-- The frames handed out for bss pages. -/
def bssPages (log : List PageEvent) : List Nat := log.filterMap PageEvent.bss?
/-- The calls of `map_page`, newest first. -/
def mapCalls (log : List PageEvent) : List MapCall := log.filterMap PageEvent.call?

section LogLemmas

variable (page : UInt32) (addr : Nat) (real virt : UInt64) (bits : UInt16)
  (log : List PageEvent)

@[simp] theorem handedOut_table :
    handedOut (.table page :: log) = page.toNat :: handedOut log := rfl
@[simp] theorem handedOut_bss : handedOut (.bss page :: log) = page.toNat :: handedOut log := rfl
@[simp] theorem handedOut_store : handedOut (.store addr :: log) = handedOut log := rfl
@[simp] theorem handedOut_map : handedOut (.map real virt bits :: log) = handedOut log := rfl

@[simp] theorem tablePages_table :
    tablePages (.table page :: log) = page.toNat :: tablePages log := rfl
@[simp] theorem tablePages_bss : tablePages (.bss page :: log) = tablePages log := rfl
@[simp] theorem tablePages_store : tablePages (.store addr :: log) = tablePages log := rfl
@[simp] theorem tablePages_map : tablePages (.map real virt bits :: log) = tablePages log := rfl

@[simp] theorem bssPages_table : bssPages (.table page :: log) = bssPages log := rfl
@[simp] theorem bssPages_bss : bssPages (.bss page :: log) = page.toNat :: bssPages log := rfl
@[simp] theorem bssPages_store : bssPages (.store addr :: log) = bssPages log := rfl
@[simp] theorem bssPages_map : bssPages (.map real virt bits :: log) = bssPages log := rfl

@[simp] theorem mapCalls_table : mapCalls (.table page :: log) = mapCalls log := rfl
@[simp] theorem mapCalls_bss : mapCalls (.bss page :: log) = mapCalls log := rfl
@[simp] theorem mapCalls_store : mapCalls (.store addr :: log) = mapCalls log := rfl
@[simp] theorem mapCalls_map :
    mapCalls (.map real virt bits :: log) = ⟨real, virt, bits⟩ :: mapCalls log := rfl

end LogLemmas

theorem tablePages_sublist (log : List PageEvent) :
    (tablePages log).Sublist (handedOut log) := by
  induction log with
  | nil => exact List.Sublist.slnil
  | cons e log ih =>
    cases e with
    | table page => exact ih.cons_cons page.toNat
    | bss page => exact ih.cons page.toNat
    | store addr => exact ih
    | map real virt bits => exact ih

theorem bssPages_sublist (log : List PageEvent) : (bssPages log).Sublist (handedOut log) := by
  induction log with
  | nil => exact List.Sublist.slnil
  | cons e log ih =>
    cases e with
    | table page => exact ih.cons page.toNat
    | bss page => exact ih.cons_cons page.toNat
    | store addr => exact ih
    | map real virt bits => exact ih

/-- Every store lies inside a table page that was handed out before it. -/
def StoresInTables : List PageEvent → Prop
  | [] => True
  | .store addr :: log =>
      (∃ page ∈ tablePages log, page ≤ addr ∧ addr + 8 ≤ page + 4096) ∧ StoresInTables log
  | _ :: log => StoresInTables log

/-! ## The reservation and the invariant -/

/-- A page-aligned range of whole pages below four gigabytes. -/
structure Reservation where
  start : Nat
  count : Nat
  /-- The range starts on a page boundary. -/
  aligned : 4096 ∣ start
  /-- The range ends below four gigabytes. -/
  below : start + 4096 * count ≤ 2 ^ 32

namespace Reservation

/-- The addresses of the reservation. -/
def Contains (R : Reservation) (a : Nat) : Prop := InRange R.start (4096 * R.count) a

/-- The first `k` pages. -/
def pages (R : Reservation) (k : Nat) : List Nat := bumpPages 4096 R.start k

end Reservation

/-- The builder has handed out the first `k` pages of `R`, stored only in table
pages, and left bss frames and unused pages zero. -/
structure AllocInv (R : Reservation) (m₀ : Mem) (k : Nat) (b : PageBuilder) : Prop where
  /-- The reservation is not exceeded. -/
  budget : k ≤ R.count
  /-- The pages handed out, in order. -/
  handed : handedOut b.log = R.pages k
  /-- The allocation pointer; it wraps only behind the last page below 4 GiB. -/
  current : b.currentPage.toNat = (R.start + 4096 * k) % 2 ^ 32
  /-- No page is both a table and a bss frame. -/
  apart : ∀ p ∈ tablePages b.log, p ∉ bssPages b.log
  /-- Stores stay inside tables. -/
  stores : StoresInTables b.log
  /-- Pages not yet handed out are zero. -/
  fresh : ∀ a, InRange (R.start + 4096 * k) (4096 * (R.count - k)) a → b.mem a = 0
  /-- Bss frames are zero. -/
  bssZero : ∀ p ∈ bssPages b.log, ∀ a, InRange p 4096 a → b.mem a = 0
  /-- Nothing outside the pages handed out has changed. -/
  frame : SameOutside (InRange R.start (4096 * k)) m₀ b.mem

namespace AllocInv

variable {R : Reservation} {m₀ : Mem} {k : Nat} {b : PageBuilder}

theorem mem_pages_of_table (h : AllocInv R m₀ k b) {p : Nat} (hp : p ∈ tablePages b.log) :
    p ∈ R.pages k := h.handed ▸ (tablePages_sublist b.log).subset hp

theorem mem_pages_of_bss (h : AllocInv R m₀ k b) {p : Nat} (hp : p ∈ bssPages b.log) :
    p ∈ R.pages k := h.handed ▸ (bssPages_sublist b.log).subset hp

/-- Two different pages that were handed out do not overlap. -/
theorem pages_apart {p q : Nat} (hp : p ∈ R.pages k) (hq : q ∈ R.pages k) (hne : p ≠ q) :
    p + 4096 ≤ q ∨ q + 4096 ≤ p := bumpPages_apart hp hq hne

/-- A page that was handed out is page aligned and lies in the first `k` pages. -/
theorem page_bounds {p : Nat} (hp : p ∈ R.pages k) :
    4096 ∣ p ∧ R.start ≤ p ∧ p + 4096 ≤ R.start + 4096 * k := by
  refine ⟨?_, bumpPages_bounds hp⟩
  obtain ⟨i, _, rfl⟩ := mem_bumpPages.mp hp
  exact Nat.dvd_add R.aligned (Nat.dvd_mul_right 4096 i)

/-- The reservation as `reserve_kernel_space` leaves it, before the first page is
handed out. -/
theorem init (hcur : b.currentPage.toNat = R.start) (hlog : b.log = [])
    (hzero : ∀ a, R.Contains a → m₀ a = 0) (hmem : b.mem = m₀) : AllocInv R m₀ 0 b where
  budget := Nat.zero_le _
  handed := by rw [hlog]; rfl
  current := by
    have hlt := b.currentPage.toNat_lt
    omega
  apart := by rw [hlog]; exact fun p hp => absurd hp (List.not_mem_nil)
  stores := by rw [hlog]; trivial
  fresh := by
    intro a ha
    rw [hmem]
    exact hzero a ha
  bssZero := by rw [hlog]; exact fun p hp => absurd hp (List.not_mem_nil)
  frame := by rw [hmem]; exact SameOutside.refl _ _

/-- The page that the next call hands out, while the budget lasts. -/
theorem currentPage_eq (h : AllocInv R m₀ k b) (hk : k < R.count) :
    b.currentPage.toNat = R.start + 4096 * k := by
  have hbelow := R.below
  rw [h.current]
  exact Nat.mod_eq_of_lt (by omega)

/-- The next page is new. -/
theorem next_not_mem : R.start + 4096 * k ∉ R.pages k := by
  intro hmem
  obtain ⟨i, hi, heq⟩ := mem_bumpPages.mp hmem
  omega

/-- Handing out one more page, for either use, keeps what does not depend on the
use. -/
theorem next_current (h : AllocInv R m₀ k b) (hk : k < R.count) :
    (b.currentPage + pageSize).toNat = (R.start + 4096 * (k + 1)) % 2 ^ 32 := by
  rw [UInt32.toNat_add, h.currentPage_eq hk]
  change (R.start + 4096 * k + 4096) % 2 ^ 32 = _
  rw [Nat.mul_succ, Nat.add_assoc]

/-- `alloc_page` for a table. -/
theorem allocTable (h : AllocInv R m₀ k b) (hk : k < R.count) :
    AllocInv R m₀ (k + 1) b.allocTable.2 where
  budget := hk
  handed := by
    rw [PageBuilder.allocTable_log, handedOut_table, h.handed, h.currentPage_eq hk]
    rfl
  current := by
    rw [PageBuilder.allocTable_currentPage]
    exact h.next_current hk
  apart := by
    rw [PageBuilder.allocTable_log, tablePages_table, bssPages_table]
    intro p hp hbss
    rcases List.mem_cons.mp hp with rfl | hold
    · have hpage := h.mem_pages_of_bss hbss
      rw [h.currentPage_eq hk] at hpage
      exact next_not_mem hpage
    · exact h.apart p hold hbss
  stores := by
    rw [PageBuilder.allocTable_log]
    exact h.stores
  fresh := by
    intro a ha
    rw [PageBuilder.allocTable_mem]
    exact h.fresh a (ha.widen (by omega) (by omega))
  bssZero := by
    rw [PageBuilder.allocTable_log, PageBuilder.allocTable_mem]
    exact h.bssZero
  frame := by
    rw [PageBuilder.allocTable_mem]
    exact h.frame.mono fun a ha => ha.widen (by omega) (by omega)

/-- `alloc_page` for a bss page. -/
theorem allocBss (h : AllocInv R m₀ k b) (hk : k < R.count) :
    AllocInv R m₀ (k + 1) b.allocBss.2 where
  budget := hk
  handed := by
    rw [PageBuilder.allocBss_log, handedOut_bss, h.handed, h.currentPage_eq hk]
    rfl
  current := by
    rw [PageBuilder.allocBss_currentPage]
    exact h.next_current hk
  apart := by
    rw [PageBuilder.allocBss_log, tablePages_bss, bssPages_bss]
    intro p hp hbss
    rcases List.mem_cons.mp hbss with rfl | hold
    · have hpage := h.mem_pages_of_table hp
      rw [h.currentPage_eq hk] at hpage
      exact next_not_mem hpage
    · exact h.apart p hp hold
  stores := by
    rw [PageBuilder.allocBss_log]
    exact h.stores
  fresh := by
    intro a ha
    rw [PageBuilder.allocBss_mem]
    exact h.fresh a (ha.widen (by omega) (by omega))
  bssZero := by
    rw [PageBuilder.allocBss_log, PageBuilder.allocBss_mem, bssPages_bss]
    intro p hp a ha
    rcases List.mem_cons.mp hp with rfl | hold
    · rw [h.currentPage_eq hk] at ha
      exact h.fresh a (ha.widen (Nat.le_refl _) (by omega))
    · exact h.bssZero p hold a ha
  frame := by
    rw [PageBuilder.allocBss_mem]
    exact h.frame.mono fun a ha => ha.widen (by omega) (by omega)

/-- A store through a table pointer. -/
theorem storeEntry (h : AllocInv R m₀ k b) {t : UInt32} {i : Nat} {v : UInt64}
    (ht : t.toNat ∈ tablePages b.log) (hi : i < 512) :
    AllocInv R m₀ k (b.storeEntry t i v) where
  budget := h.budget
  handed := h.handed
  current := h.current
  apart := h.apart
  stores := ⟨⟨t.toNat, ht, by omega, by omega⟩, h.stores⟩
  fresh := by
    intro a ha
    obtain ⟨_, _, hhi⟩ := page_bounds (h.mem_pages_of_table ht)
    have hout : ¬ InRange (t.toNat + 8 * i) 8 a := by
      unfold InRange at *
      omega
    exact (Mem.write64_of_not_inRange hout).trans (h.fresh a ha)
  bssZero := by
    intro p hp a ha
    have hne : t.toNat ≠ p := fun heq => h.apart _ ht (heq ▸ hp)
    have hapart := pages_apart (h.mem_pages_of_table ht) (h.mem_pages_of_bss hp) hne
    have hout : ¬ InRange (t.toNat + 8 * i) 8 a := by
      unfold InRange at *
      omega
    exact (Mem.write64_of_not_inRange hout).trans (h.bssZero p hp a ha)
  frame := by
    obtain ⟨_, hlo, hhi⟩ := page_bounds (h.mem_pages_of_table ht)
    refine h.frame.trans (SameOutside.write64 fun a ha => ?_)
    exact ha.widen (by omega) (by omega)

/-- Recording a call of `map_page` changes no page. -/
theorem recordCall (h : AllocInv R m₀ k b) (real virt : UInt64) (bits : UInt16) :
    AllocInv R m₀ k { b with log := .map real virt bits :: b.log } where
  budget := h.budget
  handed := h.handed
  current := h.current
  apart := h.apart
  stores := h.stores
  fresh := h.fresh
  bssZero := h.bssZero
  frame := h.frame

/-- The whole reservation covers the change. -/
theorem sameOutside (h : AllocInv R m₀ k b) : SameOutside R.Contains m₀ b.mem := by
  have hbudget := h.budget
  exact h.frame.mono fun a ha => ha.widen (Nat.le_refl _) (by omega)

/-- No page is handed out twice. -/
theorem handedOut_nodup (h : AllocInv R m₀ k b) : (handedOut b.log).Nodup :=
  h.handed ▸ nodup_bumpPages (by omega) k

theorem length_handedOut (h : AllocInv R m₀ k b) : (handedOut b.log).length = k :=
  h.handed ▸ length_bumpPages k

end AllocInv

end HosBoot.X8664
