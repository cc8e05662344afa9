/-
  X8664/Translation.lean --- the translation that the finished tables give.

  In the window the walk reads the entry that was installed last in the slot of
  the address.  `Built.installed_eq` turns that into a statement about pages: the
  last page of the plan with the slot has its entry there.  For a kernel whose
  sections lie in the window without overlap this decides every address.
-/
import HosBoot.X8664.Budget

set_option autoImplicit false

namespace HosBoot.X8664

open HosBoot.Foundation HosBoot.Common

/-! ## From calls to pages -/

/-- The slot of a page. -/
def slotOf (page : Elf64Shdr × Nat) : Nat := pageSlot (pageVirt page.1 page.2)

theorem CallFor.slot_eq {kernelStart : UInt32} {frames : List Nat}
    {page : Elf64Shdr × Nat} {c : MapCall} (h : CallFor kernelStart frames page c) :
    c.slot = slotOf page := by
  rw [MapCall.slot, h.virt]
  rfl

/-- The page that the loop maps last in a slot. -/
def lastPageAt (plan : List (Elf64Shdr × Nat)) (x : Nat) : Option (Elf64Shdr × Nat) :=
  (plan.filter fun page => slotOf page == x).getLast?

theorem lastPageAt_append (plan : List (Elf64Shdr × Nat)) (page : Elf64Shdr × Nat) (x : Nat) :
    lastPageAt (plan ++ [page]) x = if slotOf page = x then some page else lastPageAt plan x := by
  unfold lastPageAt
  rw [List.filter_append]
  by_cases hx : slotOf page = x
  · have hsingle : [page].filter (fun page => slotOf page == x) = [page] := by simp [hx]
    rw [if_pos hx, hsingle, List.getLast?_append]
    rfl
  · have hsingle : [page].filter (fun page => slotOf page == x) = [] := by simp [hx]
    rw [if_neg hx, hsingle, List.append_nil]

/-- The last page of a slot is a page of the plan with that slot. -/
theorem of_lastPageAt {plan : List (Elf64Shdr × Nat)} {x : Nat} {page : Elf64Shdr × Nat}
    (h : lastPageAt plan x = some page) : page ∈ plan ∧ slotOf page = x := by
  have hmem := List.mem_filter.mp (List.mem_of_getLast? h)
  exact ⟨hmem.1, beq_iff_eq.mp hmem.2⟩

theorem lastPageAt_eq_none {plan : List (Elf64Shdr × Nat)} {x : Nat} :
    lastPageAt plan x = none ↔ ∀ page ∈ plan, slotOf page ≠ x := by
  rw [lastPageAt, List.getLast?_eq_none_iff, List.filter_eq_nil_iff]
  simp

/-- A slot that one page of the plan has alone. -/
theorem lastPageAt_of_unique {plan : List (Elf64Shdr × Nat)} {page : Elf64Shdr × Nat}
    (hp : page ∈ plan) (honly : ∀ other ∈ plan, slotOf other = slotOf page → other = page) :
    lastPageAt plan (slotOf page) = some page := by
  cases hlast : lastPageAt plan (slotOf page) with
  | none => exact absurd rfl (lastPageAt_eq_none.mp hlast page hp)
  | some other =>
    obtain ⟨hmem, hslot⟩ := of_lastPageAt hlast
    rw [honly other hmem hslot]

/-- A slot holds the entry of the page that was mapped last in it, or is empty. -/
theorem Built.installed_eq {kernelStart : UInt32} {done : List (Elf64Shdr × Nat)}
    {calls : List MapCall} {frames : List Nat} (h : Built kernelStart done calls frames)
    (x : Nat) :
    (lastPageAt done.reverse x = none → installed calls x = 0) ∧
      ∀ page, lastPageAt done.reverse x = some page →
        ∃ c, CallFor kernelStart frames page c ∧ installed calls x = c.entry := by
  have hrel := h.forall₂
  clear h
  induction hrel with
  | nil => exact ⟨fun _ => rfl, fun page hpage => by cases hpage⟩
  | @cons page c done calls hhead _ ih =>
    rw [List.reverse_cons, lastPageAt_append, installed, hhead.slot_eq]
    by_cases hx : slotOf page = x
    · rw [if_pos hx, if_pos hx]
      refine ⟨fun hnone => (by cases hnone), fun other hother => ?_⟩
      obtain rfl := Option.some.inj hother
      exact ⟨c, hhead, rfl⟩
    · rw [if_neg hx, if_neg hx]
      exact ih

/-! ## The entries -/

theorem accessBitsOf_toNat (sec : Elf64Shdr) :
    (accessBitsOf sec).toUInt64.toNat = 1 ∨ (accessBitsOf sec).toUInt64.toNat = 3 := by
  unfold accessBitsOf
  split
  · exact Or.inr rfl
  · exact Or.inl rfl

/-- The entry of a page-aligned frame translates to that frame, as far as the address
field of an entry holds it. -/
theorem entryTarget_of_call {sec : Elf64Shdr} {c : MapCall}
    (haccess : c.accessBits = accessBitsOf sec) (hdvd : 4096 ∣ c.realAddr.toNat) (v : UInt64) :
    entryTarget c.entry v = some (c.realAddr.toNat % 2 ^ 52 + v.toNat % 2 ^ 12) := by
  have hbits : c.accessBits.toUInt64.toNat = 1 ∨ c.accessBits.toUInt64.toNat = 3 := by
    rw [haccess]
    exact accessBitsOf_toNat sec
  have hvalue : c.entry.toNat = c.realAddr.toNat + c.accessBits.toUInt64.toNat := by
    rw [MapCall.entry, UInt64.toNat_or]
    exact or_of_lowBits_clear (k := 12) hdvd (by omega)
  have hpresent : entryPresent c.entry = true := by
    rw [entryPresent_iff, hvalue]
    omega
  have hbase : entryBase c.entry = c.realAddr.toNat % 2 ^ 52 := by
    rw [entryBase_eq, hvalue]
    omega
  rw [entryTarget, if_pos hpresent, hbase]

/-! ## Sections in the window -/

/-- The page-rounded virtual range of a section that is loaded. -/
def LoadsAt (sec : Elf64Shdr) (a : Nat) : Prop :=
  sec.willLoad = true ∧ InRange sec.shAddr.toNat sec.pageRounded a

/-- A section table as the linker script lays it out: the loadable sections are
page aligned and lie in the window without overlap. -/
structure LinkedTable (secs : List Elf64Shdr) : Prop where
  aligned : ∀ sec ∈ secs, sec.willLoad = true → sec.PageAligned
  inWindow : ∀ sec ∈ secs, ∀ a, LoadsAt sec a → InRange kernelLoadAddress.toNat (2 ^ 30) a
  disjoint : secs.Pairwise fun sec other => ∀ a, LoadsAt sec a → ¬ LoadsAt other a

namespace LinkedTable

variable {secs : List Elf64Shdr} {sec other : Elf64Shdr} {n m : Nat}

/-- An address lies in one section only. -/
theorem eq_of_loadsAt (h : LinkedTable secs) (hsec : sec ∈ secs) (hother : other ∈ secs)
    {a : Nat} (ha : LoadsAt sec a) (ha' : LoadsAt other a) : sec = other := by
  let R : Elf64Shdr → Elf64Shdr → Prop := fun s t => ∀ a, LoadsAt s a → LoadsAt t a → s = t
  have hrefl : ∀ s ∈ secs, R s s := fun s _ a _ _ => rfl
  have hpair : secs.Pairwise R := h.disjoint.imp fun hst a hs ht => absurd ht (hst a hs)
  have hflip : secs.Pairwise (flip R) := hpair.imp fun hst a ht hs => (hst a hs ht).symm
  exact List.Pairwise.forall_of_forall_of_flip hrefl hpair hflip hsec hother a ha ha'

/-- A loadable section that is not empty lies in the window as a whole. -/
theorem bounds (h : LinkedTable secs) (hsec : sec ∈ secs) (hload : sec.willLoad = true)
    (hpos : 0 < sec.pageRounded) :
    kernelLoadAddress.toNat ≤ sec.shAddr.toNat ∧
      sec.shAddr.toNat + sec.pageRounded ≤ kernelLoadAddress.toNat + 2 ^ 30 := by
  have hfirst := h.inWindow sec hsec sec.shAddr.toNat ⟨hload, Nat.le_refl _, by omega⟩
  have hlast := h.inWindow sec hsec (sec.shAddr.toNat + sec.pageRounded - 1)
    ⟨hload, by omega, by omega⟩
  unfold InRange at hfirst hlast
  omega

/-- The pages that the loop maps for a section are those of its rounded size. -/
theorem loadedPages_mul (h : LinkedTable secs) (hsec : sec ∈ secs)
    (hload : sec.willLoad = true) : loadedPages sec * 4096 = sec.pageRounded := by
  rw [loadedPages, if_pos hload]
  refine Elf64Shdr.sizeInPages_toNat_mul ?_
  rcases Nat.eq_zero_or_pos sec.pageRounded with hzero | hpos
  · omega
  · obtain ⟨hlo, hhi⟩ := h.bounds hsec hload hpos
    omega

/-- Where the `n`-th page of a section lies. -/
theorem pageVirt_toNat (h : LinkedTable secs) (hsec : sec ∈ secs) (hn : n < loadedPages sec) :
    (pageVirt sec n).toNat = sec.shAddr.toNat + 4096 * n ∧
      kernelLoadAddress.toNat ≤ sec.shAddr.toNat ∧
      sec.shAddr.toNat + 4096 * (n + 1) ≤ kernelLoadAddress.toNat + 2 ^ 30 := by
  have hload := loadedPages_pos_willLoad hn
  have hpages := h.loadedPages_mul hsec hload
  obtain ⟨hlo, hhi⟩ := h.bounds hsec hload (by omega)
  refine ⟨?_, hlo, le_trans (by omega) hhi⟩
  rw [kernelLoadAddress_toNat] at hlo hhi
  have hmul : (0x1000 * UInt64.ofNat n).toNat = 4096 * n := by
    have hsize : (0x1000 : UInt64).toNat = 4096 := rfl
    rw [UInt64.toNat_mul, hsize, UInt64.toNat_ofNat']
    omega
  rw [pageVirt, UInt64.toNat_add, hmul]
  omega

/-- An address of the window has the slot of a page exactly when it lies in it. -/
theorem slotOf_eq_iff (h : LinkedTable secs) (hsec : sec ∈ secs) (hn : n < loadedPages sec)
    {v : UInt64} (hv : InWindow v) :
    slotOf (sec, n) = pageSlot v ↔ InRange (sec.shAddr.toNat + 4096 * n) 4096 v.toNat := by
  obtain ⟨hvirt, hlo, hhi⟩ := h.pageVirt_toNat hsec hn
  obtain ⟨⟨q, hq⟩, _⟩ := h.aligned sec hsec (loadedPages_pos_willLoad hn)
  unfold InWindow at hv
  unfold slotOf pageSlot InRange at *
  rw [kernelLoadAddress_toNat] at *
  rw [hvirt]
  omega

/-- The page of an address in a section. -/
theorem page_of_loadsAt (h : LinkedTable secs) (hsec : sec ∈ secs) {v : UInt64}
    (hv : LoadsAt sec v.toNat) :
    InWindow v ∧ (v.toNat - sec.shAddr.toNat) / 4096 < loadedPages sec ∧
      slotOf (sec, (v.toNat - sec.shAddr.toNat) / 4096) = pageSlot v := by
  have hwindow : InWindow v := h.inWindow sec hsec _ hv
  have hpages := h.loadedPages_mul hsec hv.1
  obtain ⟨hlo, hhi⟩ := hv.2
  have hn : (v.toNat - sec.shAddr.toNat) / 4096 < loadedPages sec := by omega
  refine ⟨hwindow, hn, (h.slotOf_eq_iff hsec hn hwindow).mpr ?_⟩
  unfold InRange
  omega

/-- A page whose slot an address has contains the address. -/
theorem loadsAt_of_slot (h : LinkedTable secs) (hsec : sec ∈ secs) (hn : n < loadedPages sec)
    {v : UInt64} (hv : InWindow v) (hslot : slotOf (sec, n) = pageSlot v) :
    LoadsAt sec v.toNat ∧ n = (v.toNat - sec.shAddr.toNat) / 4096 := by
  have hload := loadedPages_pos_willLoad hn
  have hpages := h.loadedPages_mul hsec hload
  have hrange := (h.slotOf_eq_iff hsec hn hv).mp hslot
  refine ⟨⟨hload, ?_⟩, ?_⟩
  · exact hrange.widen (by omega) (by omega)
  · unfold InRange at hrange
    omega

/-- The slot of an address in a section belongs to one page only. -/
theorem page_unique (h : LinkedTable secs) (hsec : sec ∈ secs) {v : UInt64}
    (hv : LoadsAt sec v.toNat) : ∀ page ∈ sectionPlan secs,
      slotOf page = slotOf (sec, (v.toNat - sec.shAddr.toNat) / 4096) →
      page = (sec, (v.toNat - sec.shAddr.toNat) / 4096) := by
  rintro ⟨other, m⟩ hpage hslot
  obtain ⟨hother, hm⟩ := mem_sectionPlan.mp hpage
  obtain ⟨hwindow, _, hown⟩ := h.page_of_loadsAt hsec hv
  obtain ⟨hv', hm'⟩ := h.loadsAt_of_slot hother hm hwindow (hslot.trans hown)
  have heq : other = sec := h.eq_of_loadsAt hother hsec hv' hv
  subst heq
  rw [hm']

end LinkedTable

/-! ## The translation -/

/-- The kernel image is laid out as the linker script does: its loadable sections
lie in the window without overlap, and the bytes that a section has in the file
lie in the module. -/
structure LinkedImage (s : BootState) : Prop where
  inWindow : ∀ sec ∈ kernelSections s.mem s.options.kernelStart, ∀ a, LoadsAt sec a →
    InRange kernelLoadAddress.toNat (2 ^ 30) a
  disjoint : (kernelSections s.mem s.options.kernelStart).Pairwise
    fun sec other => ∀ a, LoadsAt sec a → ¬ LoadsAt other a
  contents : ∀ sec ∈ kernelSections s.mem s.options.kernelStart, sec.willLoadNotBss = true →
    ∀ o < sec.shSize.toNat,
      s.options.kernelStart.toNat + sec.shOffset.toNat + o < s.options.kernelEnd.toNat

/-- `section_real_addr` of a page is the exact sum, at 64 bits. -/
theorem pageReal_toNat (ks : UInt32) (sec : Elf64Shdr) (n : Nat) :
    (pageReal ks sec n).toNat = (ks.toNat + sec.shOffset.toNat + 4096 * n) % 2 ^ 64 := by
  have hsize : (0x1000 : UInt64).toNat = 4096 := rfl
  rw [pageReal, sectionRealAddr, UInt64.toNat_add, UInt64.toNat_add, UInt64.toNat_mul, hsize,
    UInt64.toNat_ofNat', UInt32.toNat_toUInt64]
  omega

/-- The walk in the window, by the page that was mapped last in the slot. -/
theorem FinalTables.pageWalk_slot {R : Reservation} {m₀ : Mem} {k : Nat} {b : PageBuilder}
    {ks : UInt32} {plan : List (Elf64Shdr × Nat)}
    (htables : FinalTables R m₀ k (mapCalls b.log) b)
    (hbuilt : Built ks plan.reverse (mapCalls b.log) (bssPages b.log)) {v : UInt64}
    (hv : InWindow v) :
    (lastPageAt plan (pageSlot v) = none → pageWalk b.mem R.start v = none) ∧
      ∀ page, lastPageAt plan (pageSlot v) = some page →
        ∃ c, CallFor ks (bssPages b.log) page c ∧
          pageWalk b.mem R.start v = entryTarget c.entry v := by
  obtain ⟨hnone, hsome⟩ := hbuilt.installed_eq (pageSlot v)
  rw [List.reverse_reverse] at hnone hsome
  rw [htables.pageWalk_window hv]
  refine ⟨fun h => ?_, fun page h => ?_⟩
  · rw [hnone h, entryTarget, entryPresent_zero]
    rfl
  · obtain ⟨c, hfor, hval⟩ := hsome page h
    exact ⟨c, hfor, by rw [hval]⟩

/-- The tables that `build_page_tables` leaves translate every canonical address:
a file section to its bytes in the module, a bss section to frames of the
reservation, the first four megabytes to themselves, and nothing else. -/
theorem buildPageTables_translates {R : Reservation} {s s' s₁ : BootState} {pages : Int32}
    (hest : estimatePagesNeededForKernel s = .ok (pages, s₁))
    (hsize : exactSize (kernelSections s.mem s.options.kernelStart) ≤ 2 ^ 30)
    (hlinked : LinkedImage s) (hres : Reserved R s s' pages) (v : UInt64) (hv : Canonical v) :
    (∀ sec ∈ kernelSections s.mem s.options.kernelStart, sec.willLoadNotBss = true →
        ∀ o < sec.pageRounded, v.toNat = sec.shAddr.toNat + o →
          pageWalk (buildPageTables s').mem (buildPageTables s').options.pml4Ptr.toNat v =
            some (s.options.kernelStart.toNat + sec.shOffset.toNat + o)) ∧
      (∀ sec ∈ kernelSections s.mem s.options.kernelStart, sec.isBss = true →
        InRange sec.shAddr.toNat sec.pageRounded v.toNat →
          ∃ frame ∈ bssPages (buildPageTables s').pageLog,
            4096 ∣ frame ∧ (∀ a, InRange frame 4096 a → R.Contains a) ∧
            pageWalk (buildPageTables s').mem (buildPageTables s').options.pml4Ptr.toNat v =
              some (frame + v.toNat % 4096)) ∧
      (v.toNat < 2 ^ 22 →
        pageWalk (buildPageTables s').mem (buildPageTables s').options.pml4Ptr.toNat v =
          some v.toNat) ∧
      ((∀ sec ∈ kernelSections s.mem s.options.kernelStart, ¬ LoadsAt sec v.toNat) →
        2 ^ 22 ≤ v.toNat →
        pageWalk (buildPageTables s').mem (buildPageTables s').options.pml4Ptr.toNat v =
          none) := by
  obtain ⟨haligned, ⟨q, hq⟩, _⟩ := estimate_eq_ok hest
  have htable : LinkedTable (kernelSections s.mem s.options.kernelStart) :=
    ⟨haligned, hlinked.inWindow, hlinked.disjoint⟩
  obtain ⟨k, htables, hbuilt⟩ := hres.built hest hsize
  have hbudget := htables.alloc.budget
  rw [buildPageTables_mem, buildPageTables_pageLog, buildPageTables_pml4Ptr, hres.start]
  -- A section that contains the address decides the walk.
  have hsection : ∀ sec ∈ kernelSections s.mem s.options.kernelStart, LoadsAt sec v.toNat →
      ∃ c, CallFor s.options.kernelStart (bssPages (finalBuilder s').log)
          (sec, (v.toNat - sec.shAddr.toNat) / 4096) c ∧
        pageWalk (finalBuilder s').mem R.start v = entryTarget c.entry v := by
    intro sec hsec hload
    obtain ⟨hwindow, hn, hslot⟩ := htable.page_of_loadsAt hsec hload
    have hlast := lastPageAt_of_unique (mem_sectionPlan.mpr ⟨hsec, hn⟩)
      (htable.page_unique hsec hload)
    rw [hslot] at hlast
    exact (htables.pageWalk_slot hbuilt hwindow).2 _ hlast
  refine ⟨?_, ?_, ?_, ?_⟩
  · intro sec hsec hfile o ho hvo
    have hwill : sec.willLoad = true := by
      rw [Elf64Shdr.willLoad_eq, hfile, Bool.or_true]
    obtain ⟨⟨p, hp⟩, ⟨r, hr⟩⟩ := haligned sec hsec hwill
    obtain ⟨c, hfor, hwalk⟩ := hsection sec hsec ⟨hwill, by omega, by omega⟩
    have hlt : sec.pageRounded < sec.shSize.toNat + 4096 := roundUp_lt (by omega) _
    obtain ⟨t, ht⟩ : 4096 ∣ sec.pageRounded := dvd_roundUp 4096 _
    have hend := s.options.kernelEnd.toNat_lt
    have hcontents := hlinked.contents sec hsec hfile
      (4096 * ((v.toNat - sec.shAddr.toNat) / 4096)) (by omega)
    have hreal : c.realAddr.toNat = s.options.kernelStart.toNat + sec.shOffset.toNat +
        4096 * ((v.toNat - sec.shAddr.toNat) / 4096) := by
      have hsum := pageReal_toNat s.options.kernelStart sec
        ((v.toNat - sec.shAddr.toNat) / 4096)
      rw [Nat.mod_eq_of_lt (by omega)] at hsum
      rw [hfor.file hfile]
      exact hsum
    rw [hwalk, entryTarget_of_call hfor.access (by omega), hreal]
    congr 1
    omega
  · intro sec hsec hbss hrange
    have hwill : sec.willLoad = true := by
      rw [Elf64Shdr.willLoad_eq, hbss, Bool.true_or]
    obtain ⟨c, hfor, hwalk⟩ := hsection sec hsec ⟨hwill, hrange⟩
    have hframe := hfor.bss hbss
    obtain ⟨hdvd, hlo, hhi⟩ :=
      AllocInv.page_bounds (htables.alloc.mem_pages_of_bss hframe)
    have hbelow := R.below
    refine ⟨c.realAddr.toNat, hframe, hdvd, fun a ha => ha.widen hlo (by omega), ?_⟩
    have hmod : c.realAddr.toNat % 2 ^ 52 = c.realAddr.toNat := Nat.mod_eq_of_lt (by omega)
    have hwalk' := entryTarget_of_call hfor.access hdvd v
    rw [hmod] at hwalk'
    exact hwalk.trans hwalk'
  · exact fun hlow => htables.pageWalk_low hlow
  · intro hnone hlow
    by_cases hwindow : InWindow v
    · refine (htables.pageWalk_slot hbuilt hwindow).1 (lastPageAt_eq_none.mpr ?_)
      rintro ⟨sec, n⟩ hpage hslot
      obtain ⟨hsec, hn⟩ := mem_sectionPlan.mp hpage
      exact hnone sec hsec (htable.loadsAt_of_slot hsec hn hwindow hslot).1
    · exact htables.pageWalk_outside hv hwindow hlow

theorem smallKernel_linked : LinkedImage smallKernel where
  inWindow := by
    rw [smallKernel_sections]
    intro sec hsec a ha
    have hload := ha.2
    unfold InRange at hload ⊢
    rcases List.mem_cons.mp hsec with rfl | hsec
    · have haddr : smallText.shAddr.toNat = kernelLoadAddress.toNat := rfl
      have hsize : smallText.pageRounded = 0x1000 := rfl
      omega
    · obtain rfl := List.mem_singleton.mp hsec
      have haddr : smallBss.shAddr.toNat = kernelLoadAddress.toNat + 0x1000 := rfl
      have hsize : smallBss.pageRounded = 0x2000 := rfl
      omega
  disjoint := by
    rw [smallKernel_sections]
    refine List.pairwise_pair.mpr fun a htext hbss => ?_
    have hlast := htext.2.2
    have hfirst := hbss.2.1
    have haddr : smallText.shAddr.toNat + smallText.pageRounded = smallBss.shAddr.toNat := rfl
    omega
  contents := by
    rw [smallKernel_sections]
    intro sec hsec hfile o ho
    rcases List.mem_cons.mp hsec with rfl | hsec
    · have hoff : smallKernel.options.kernelStart.toNat + smallText.shOffset.toNat +
          smallText.shSize.toNat ≤ smallKernel.options.kernelEnd.toNat := by decide
      omega
    · obtain rfl := List.mem_singleton.mp hsec
      have hbss : smallBss.willLoadNotBss = false := by decide
      rw [hbss] at hfile
      cases hfile

/-- The first byte of the small kernel's text. -/
theorem smallKernel_translates :
    pageWalk (buildPageTables smallReserved).mem
        (buildPageTables smallReserved).options.pml4Ptr.toNat kernelLoadAddress =
      some 0x101000 := by
  obtain ⟨hfile, _⟩ := buildPageTables_translates smallKernel_estimate smallKernel_exactSize
    smallKernel_linked smallKernel_reserved kernelLoadAddress (Or.inr (by decide))
  rw [smallKernel_sections] at hfile
  exact hfile smallText List.mem_cons_self (by decide) 0 (by decide) rfl

end HosBoot.X8664
