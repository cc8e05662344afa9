/-
  X8664/SectionRun.lean --- the section loop of `build_page_tables`.

  `sectionPlan` lists the pages that the loop maps, in order: for each loadable
  section its pages from the first to the last.  `Built` relates the pages mapped
  so far to the calls of `map_page` made for them and to the bss frames spent.
  The run lemmas say that the loop makes exactly the calls of the plan, within a
  budget of one page table a page and one frame a bss page.
-/
import HosBoot.X8664.MapPage

set_option autoImplicit false

namespace HosBoot.X8664

open HosBoot.Foundation HosBoot.Common

/-! ## The pages of the sections -/

/-- `section_virt_addr` in the `n`-th turn of the inner loop. -/
def pageVirt (sec : Elf64Shdr) (n : Nat) : UInt64 := sec.shAddr + 0x1000 * UInt64.ofNat n

/-- `section_real_addr` in the `n`-th turn of the inner loop over a file section. -/
def pageReal (kernelStart : UInt32) (sec : Elf64Shdr) (n : Nat) : UInt64 :=
  sectionRealAddr kernelStart sec + 0x1000 * UInt64.ofNat n

/-- How many pages the loop maps for a section. -/
def loadedPages (sec : Elf64Shdr) : Nat := if sec.willLoad then sec.sizeInPages.toNat else 0

/-- How many pages of the reservation a section may cost: a page table for every
page, and a frame for every bss page. -/
def pageCost (sec : Elf64Shdr) : Nat :=
  loadedPages sec + if sec.isBss then loadedPages sec else 0

/-- The pages of one section, in the order of the inner loop. -/
def pagesOf (sec : Elf64Shdr) : List (Elf64Shdr × Nat) :=
  (List.range (loadedPages sec)).map fun n => (sec, n)

/-- The pages of a section table, in the order of the loops. -/
def sectionPlan (secs : List Elf64Shdr) : List (Elf64Shdr × Nat) := secs.flatMap pagesOf

theorem mem_sectionPlan {secs : List Elf64Shdr} {sec : Elf64Shdr} {n : Nat} :
    (sec, n) ∈ sectionPlan secs ↔ sec ∈ secs ∧ n < loadedPages sec := by
  simp only [sectionPlan, pagesOf, List.mem_flatMap, List.mem_map, List.mem_range,
    Prod.mk.injEq]
  constructor
  · rintro ⟨sec', hsec, n', hn, rfl, rfl⟩
    exact ⟨hsec, hn⟩
  · rintro ⟨hsec, hn⟩
    exact ⟨sec, hsec, n, hn, rfl, rfl⟩

theorem loadedPages_pos_willLoad {sec : Elf64Shdr} {n : Nat} (h : n < loadedPages sec) :
    sec.willLoad = true := by
  unfold loadedPages at h
  split at h
  · assumption
  · omega

/-! ## What has been built -/

/-- The pages mapped so far, the calls made for them and the frames spent on them,
all newest first. -/
inductive Built (kernelStart : UInt32) :
    List (Elf64Shdr × Nat) → List MapCall → List Nat → Prop where
  /-- Nothing has been mapped. -/
  | nil : Built kernelStart [] [] []
  /-- A page of the file was mapped where it lies. -/
  | file {done : List (Elf64Shdr × Nat)} {calls : List MapCall} {frames : List Nat}
      (sec : Elf64Shdr) (n : Nat) (hload : sec.willLoadNotBss = true)
      (hold : Built kernelStart done calls frames) :
      Built kernelStart ((sec, n) :: done)
        (⟨pageReal kernelStart sec n, pageVirt sec n, accessBitsOf sec⟩ :: calls) frames
  /-- A bss page was mapped to a new frame. -/
  | bss {done : List (Elf64Shdr × Nat)} {calls : List MapCall} {frames : List Nat}
      (sec : Elf64Shdr) (n : Nat) (frame : UInt32) (hload : sec.isBss = true)
      (hold : Built kernelStart done calls frames) :
      Built kernelStart ((sec, n) :: done)
        (⟨frame.toUInt64, pageVirt sec n, accessBitsOf sec⟩ :: calls) (frame.toNat :: frames)

/-- The call made for one page. -/
structure CallFor (kernelStart : UInt32) (frames : List Nat) (page : Elf64Shdr × Nat)
    (c : MapCall) : Prop where
  virt : c.virtAddr = pageVirt page.1 page.2
  access : c.accessBits = accessBitsOf page.1
  file : page.1.willLoadNotBss = true → c.realAddr = pageReal kernelStart page.1 page.2
  bss : page.1.isBss = true → c.realAddr.toNat ∈ frames

theorem CallFor.mono {kernelStart : UInt32} {frames frames' : List Nat}
    {page : Elf64Shdr × Nat} {c : MapCall} (h : CallFor kernelStart frames page c)
    (hsub : ∀ f ∈ frames, f ∈ frames') : CallFor kernelStart frames' page c where
  virt := h.virt
  access := h.access
  file := h.file
  bss := fun hb => hsub _ (h.bss hb)

/-- Page by page, the calls are those of the pages. -/
theorem Built.forall₂ {kernelStart : UInt32} {done : List (Elf64Shdr × Nat)}
    {calls : List MapCall} {frames : List Nat} (h : Built kernelStart done calls frames) :
    List.Forall₂ (CallFor kernelStart frames) done calls := by
  induction h with
  | nil => exact List.Forall₂.nil
  | file sec n hload _ ih =>
    refine List.Forall₂.cons ⟨rfl, rfl, fun _ => rfl, fun hb => ?_⟩ ih
    rw [Elf64Shdr.isBss_eq_false_of_willLoadNotBss hload] at hb
    cases hb
  | bss sec n frame hload _ ih =>
    refine List.Forall₂.cons ⟨rfl, rfl, fun hf => ?_, fun _ => ?_⟩
      (ih.imp fun _ _ hc => hc.mono fun f hf => List.mem_cons_of_mem _ hf)
    · rw [Elf64Shdr.isBss_eq_false_of_willLoadNotBss hf] at hload
      cases hload
    · rw [UInt32.toNat_toUInt64]
      exact List.mem_cons_self

/-! ## The loops -/

/-- The builder in the middle of the section loop, with the pages mapped so far. -/
structure RunInv (R : Reservation) (m₀ : Mem) (kernelStart : UInt32) (k : Nat)
    (done : List (Elf64Shdr × Nat)) (b : PageBuilder) : Prop where
  build : BuildInv R m₀ k (mapCalls b.log) b
  built : Built kernelStart done (mapCalls b.log) (bssPages b.log)

theorem add_pageSize_mul (x : UInt64) (n : Nat) :
    x + 0x1000 * UInt64.ofNat n + 0x1000 = x + 0x1000 * UInt64.ofNat (n + 1) := by
  rw [UInt64.ofNat_add, UInt64.mul_add, UInt64.add_assoc]
  rfl

namespace RunInv

variable {R : Reservation} {m₀ : Mem} {ks pdt : UInt32} {sec : Elf64Shdr}

/-- One turn of the inner loop over a file section. -/
theorem filePage {k : Nat} {done : List (Elf64Shdr × Nat)} {b : PageBuilder}
    (h : RunInv R m₀ ks k done b) (hpd : pdt.toNat = R.start + 8192)
    (hload : sec.willLoadNotBss = true) (n : Nat) (hk : k + 1 ≤ R.count) :
    ∃ k', k' ≤ k + 1 ∧ RunInv R m₀ ks k' ((sec, n) :: done)
      (b.mapPage pdt (pageReal ks sec n) (pageVirt sec n) (accessBitsOf sec)) := by
  obtain ⟨k', hk', hinv, hbss, hcalls⟩ :=
    h.build.mapPage_spec hpd hk ⟨pageReal ks sec n, pageVirt sec n, accessBitsOf sec⟩
  refine ⟨k', hk', ?_, ?_⟩
  · rw [hcalls]
    exact hinv
  · rw [hcalls, hbss]
    exact h.built.file sec n hload

/-- One turn of the inner loop over a bss section. -/
theorem bssPage {k : Nat} {done : List (Elf64Shdr × Nat)} {b : PageBuilder}
    (h : RunInv R m₀ ks k done b) (hpd : pdt.toNat = R.start + 8192)
    (hload : sec.isBss = true) (n : Nat) (hk : k + 2 ≤ R.count) :
    ∃ k', k' ≤ k + 2 ∧ RunInv R m₀ ks k' ((sec, n) :: done)
      (b.allocBss.2.mapPage pdt b.currentPage.toUInt64 (pageVirt sec n) (accessBitsOf sec)) := by
  have halloc : BuildInv R m₀ (k + 1) (mapCalls b.log) b.allocBss.2 := by
    refine ⟨h.build.alloc.allocBss (by omega), ?_⟩
    refine h.build.window.of_mem_eq (PageBuilder.allocBss_mem b) fun p hp => ?_
    rw [PageBuilder.allocBss_log, tablePages_bss]
    exact hp
  obtain ⟨k', hk', hinv, hbss, hcalls⟩ :=
    halloc.mapPage_spec hpd hk ⟨b.currentPage.toUInt64, pageVirt sec n, accessBitsOf sec⟩
  rw [PageBuilder.allocBss_log] at hbss hcalls
  rw [bssPages_bss] at hbss
  rw [mapCalls_bss] at hcalls
  refine ⟨k', hk', ?_, ?_⟩
  · rw [hcalls]
    exact hinv
  · rw [hcalls, hbss]
    exact h.built.bss sec n b.currentPage hload

/-- The inner loop over a file section, from page `n` on. -/
theorem fileLoop (hpd : pdt.toNat = R.start + 8192) (hload : sec.willLoadNotBss = true) :
    ∀ (turns n k : Nat) (done : List (Elf64Shdr × Nat)) (b : PageBuilder),
      RunInv R m₀ ks k done b → k + turns ≤ R.count →
      ∃ k', k' ≤ k + turns ∧
        RunInv R m₀ ks k' (((List.range' n turns).map fun i => (sec, i)).reverse ++ done)
          (PageBuilder.mapFilePages pdt (accessBitsOf sec) turns (pageReal ks sec n)
            (pageVirt sec n) b) := by
  intro turns
  induction turns with
  | zero => intro n k done b h _; exact ⟨k, Nat.le_refl _, h⟩
  | succ turns ih =>
    intro n k done b h hk
    obtain ⟨k₁, hk₁, h₁⟩ := h.filePage hpd hload n (by omega)
    obtain ⟨k₂, hk₂, h₂⟩ := ih (n + 1) k₁ _ _ h₁ (by omega)
    refine ⟨k₂, by omega, ?_⟩
    have hreal : pageReal ks sec n + 0x1000 = pageReal ks sec (n + 1) := add_pageSize_mul _ n
    have hvirt : pageVirt sec n + 0x1000 = pageVirt sec (n + 1) := add_pageSize_mul _ n
    rw [PageBuilder.mapFilePages, hreal, hvirt]
    simpa [List.range'_succ] using h₂

/-- The inner loop over a bss section, from page `n` on. -/
theorem bssLoop (hpd : pdt.toNat = R.start + 8192) (hload : sec.isBss = true) :
    ∀ (turns n k : Nat) (done : List (Elf64Shdr × Nat)) (b : PageBuilder),
      RunInv R m₀ ks k done b → k + 2 * turns ≤ R.count →
      ∃ k', k' ≤ k + 2 * turns ∧
        RunInv R m₀ ks k' (((List.range' n turns).map fun i => (sec, i)).reverse ++ done)
          (PageBuilder.mapBssPages pdt (accessBitsOf sec) turns (pageVirt sec n) b) := by
  intro turns
  induction turns with
  | zero => intro n k done b h _; exact ⟨k, Nat.le_refl _, h⟩
  | succ turns ih =>
    intro n k done b h hk
    obtain ⟨k₁, hk₁, h₁⟩ := h.bssPage hpd hload n (by omega)
    obtain ⟨k₂, hk₂, h₂⟩ := ih (n + 1) k₁ _ _ h₁ (by omega)
    refine ⟨k₂, by omega, ?_⟩
    have hvirt : pageVirt sec n + 0x1000 = pageVirt sec (n + 1) := add_pageSize_mul _ n
    rw [PageBuilder.mapBssPages, hvirt]
    simpa [List.range'_succ] using h₂

/-- One turn of the outer loop. -/
theorem mapSection {k : Nat} {done : List (Elf64Shdr × Nat)} {b : PageBuilder}
    (h : RunInv R m₀ ks k done b) (hpd : pdt.toNat = R.start + 8192) (sec : Elf64Shdr)
    (hk : k + pageCost sec ≤ R.count) :
    ∃ k', k' ≤ k + pageCost sec ∧
      RunInv R m₀ ks k' ((pagesOf sec).reverse ++ done) (b.mapSection ks pdt sec) := by
  have hvirt : pageVirt sec 0 = sec.shAddr := by simp [pageVirt]
  have hreal : pageReal ks sec 0 = sectionRealAddr ks sec := by simp [pageReal]
  unfold PageBuilder.mapSection pagesOf
  unfold pageCost at hk ⊢
  cases hfile : sec.willLoadNotBss with
  | true =>
    have hbss := Elf64Shdr.isBss_eq_false_of_willLoadNotBss hfile
    have hpages : loadedPages sec = sec.sizeInPages.toNat := by
      rw [loadedPages, Elf64Shdr.willLoad_eq, hfile, hbss]
      rfl
    have hrun := fileLoop hpd hfile sec.sizeInPages.toNat 0 k done b h
    rw [hvirt, hreal] at hrun
    simp only [hbss, hpages, Bool.false_eq_true, if_false, Nat.add_zero, Bool.or_false,
      if_true, List.range_eq_range'] at hk ⊢
    exact hrun hk
  | false =>
    cases hbss : sec.isBss with
    | true =>
      have hpages : loadedPages sec = sec.sizeInPages.toNat := by
        rw [loadedPages, Elf64Shdr.willLoad_eq, hfile, hbss]
        rfl
      have hrun := bssLoop hpd hbss sec.sizeInPages.toNat 0 k done b h
      rw [hvirt] at hrun
      simp only [hbss, hpages, if_true, Bool.or_true, Bool.false_eq_true, if_false,
        List.range_eq_range'] at hk ⊢
      obtain ⟨k', hk', h'⟩ := hrun (by omega)
      exact ⟨k', by omega, h'⟩
    | false =>
      have hpages : loadedPages sec = 0 := by
        rw [loadedPages, Elf64Shdr.willLoad_eq, hfile, hbss]
        rfl
      simp only [hpages, Bool.or_false, Bool.false_eq_true, if_false, List.range_zero,
        List.map_nil, List.reverse_nil, List.nil_append]
      exact ⟨k, by omega, h⟩

end RunInv

/-! ## The section table stays readable -/

/-- The reservation does not touch the file header or a section header. -/
structure TableClear (R : Reservation) (m : Mem) (kernelStart : UInt32) : Prop where
  header : ∀ a, InRange kernelStart.toNat sizeofEhdr a → ¬ R.Contains a
  sections : ∀ i, 1 ≤ i → i < (kernelHeader m kernelStart).eShnum.toNat →
    ∀ a, InRange (sectionHeaderAddr m kernelStart i).toNat sizeofShdr a → ¬ R.Contains a

namespace TableClear

variable {R : Reservation} {m m' : Mem} {ks : UInt32}

theorem kernelHeader_eq (h : TableClear R m ks) (hsame : SameOutside R.Contains m m') :
    kernelHeader m' ks = kernelHeader m ks :=
  readEhdr_congr fun a ha => hsame a (h.header a ha)

theorem sectionAt_eq (h : TableClear R m ks) (hsame : SameOutside R.Contains m m') {i : Nat}
    (hi : 1 ≤ i) (hlt : i < (kernelHeader m ks).eShnum.toNat) :
    sectionAt m' ks i = sectionAt m ks i := by
  have haddr : sectionHeaderAddr m' ks i = sectionHeaderAddr m ks i := by
    unfold sectionHeaderAddr
    rw [h.kernelHeader_eq hsame]
  unfold sectionAt
  rw [haddr]
  exact readShdr_congr fun a ha => hsame a (h.sections i hi hlt a ha)

theorem kernelSections_eq (h : TableClear R m ks) (hsame : SameOutside R.Contains m m') :
    kernelSections m' ks = kernelSections m ks := by
  unfold kernelSections sectionIndices
  rw [h.kernelHeader_eq hsame]
  refine List.map_congr_left fun i hi => ?_
  have hmem : 1 ≤ i ∧ i < (kernelHeader m ks).eShnum.toNat := mem_sectionIndices.mp hi
  exact h.sectionAt_eq hsame hmem.1 hmem.2

end TableClear

/-- What a section table may cost. -/
def tableCost (secs : List Elf64Shdr) : Nat := (secs.map pageCost).sum

/-- The whole loop from index `i` on: it sees the section headers of the memory it
started with, and makes the calls of the plan within the budget. -/
theorem mapSections_spec {R : Reservation} {m₀ : Mem} {ks pdt : UInt32}
    (hclear : TableClear R m₀ ks) (hpd : pdt.toNat = R.start + 8192) :
    ∀ (len i fuel k : Nat) (done : List (Elf64Shdr × Nat)) (b : PageBuilder),
      1 ≤ i → len = (kernelHeader m₀ ks).eShnum.toNat - i → len < fuel →
      RunInv R m₀ ks k done b →
      k + tableCost ((List.range' i len).map (sectionAt m₀ ks)) ≤ R.count →
      ∃ k', k' ≤ k + tableCost ((List.range' i len).map (sectionAt m₀ ks)) ∧
        RunInv R m₀ ks k'
          ((sectionPlan ((List.range' i len).map (sectionAt m₀ ks))).reverse ++ done)
          (b.mapSections ks pdt fuel i) := by
  intro len
  induction len with
  | zero =>
    intro i fuel k done b hi hlen hfuel h _
    obtain ⟨fuel, rfl⟩ : ∃ f, fuel = f + 1 := ⟨fuel - 1, by omega⟩
    have hsame := h.build.alloc.sameOutside
    rw [PageBuilder.mapSections, hclear.kernelHeader_eq hsame, if_neg (by omega)]
    exact ⟨k, Nat.le_add_right _ _, h⟩
  | succ len ih =>
    intro i fuel k done b hi hlen hfuel h hk
    obtain ⟨fuel, rfl⟩ : ∃ f, fuel = f + 1 := ⟨fuel - 1, by omega⟩
    have hsame := h.build.alloc.sameOutside
    have hlt : i < (kernelHeader m₀ ks).eShnum.toNat := by omega
    simp only [tableCost, List.range'_succ, List.map_cons, List.sum_cons] at hk ⊢
    obtain ⟨k₁, hk₁, h₁⟩ := h.mapSection hpd (sectionAt m₀ ks i) (by omega)
    have hrest := ih (i + 1) fuel k₁ _ _ (by omega) (by omega) (by omega) h₁
    unfold tableCost at hrest
    obtain ⟨k₂, hk₂, h₂⟩ := hrest (by omega)
    refine ⟨k₂, by omega, ?_⟩
    rw [PageBuilder.mapSections, hclear.kernelHeader_eq hsame, if_pos hlt,
      hclear.sectionAt_eq hsame hi hlt]
    simpa [sectionPlan, List.append_assoc] using h₂

end HosBoot.X8664
