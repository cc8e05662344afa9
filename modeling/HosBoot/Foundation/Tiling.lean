/-
  Foundation/Tiling.lean --- regions cut into labelled ranges.

  A tiling of a region is a finite set of non-empty ranges that do not overlap and cover
  exactly the region.  Every change is an exchange: some tiles give way to others.
  `Tiles.exchange` says when the result is a tiling again; splitting, merging, relabelling,
  adding and dropping tiles are cases of it.  `Tiles.sum_size` counts the region.
-/
import Mathlib.Algebra.BigOperators.Group.Finset.Basic
import Mathlib.Order.Interval.Finset.Nat

set_option autoImplicit false

namespace HosBoot.Foundation

/-- A range of addresses with a label. -/
structure Tile (ρ : Type) where
  start : Nat
  size : Nat
  label : ρ
deriving DecidableEq

variable {ρ : Type}

namespace Tile

/-- The first address behind a tile. -/
def stop (t : Tile ρ) : Nat := t.start + t.size

/-- An address of a tile. -/
def Has (t : Tile ρ) (a : Nat) : Prop := t.start ≤ a ∧ a < t.stop

instance (t : Tile ρ) (a : Nat) : Decidable (t.Has a) :=
  inferInstanceAs (Decidable (t.start ≤ a ∧ a < t.stop))

theorem has_start {t : Tile ρ} (h : 0 < t.size) : t.Has t.start :=
  ⟨Nat.le_refl _, Nat.lt_add_of_pos_right h⟩

theorem has_last {t : Tile ρ} (h : 0 < t.size) : t.Has (t.stop - 1) := by
  unfold Has stop
  omega

end Tile

/-- A set of tiles that covers a region without overlap. -/
structure Tiles (T : Finset (Tile ρ)) (region : Nat → Prop) : Prop where
  pos : ∀ t ∈ T, 0 < t.size
  apart : ∀ t ∈ T, ∀ u ∈ T, ∀ a, t.Has a → u.Has a → t = u
  cover : ∀ a, region a ↔ ∃ t ∈ T, t.Has a

namespace Tiles

variable {T : Finset (Tile ρ)} {region : Nat → Prop}

theorem empty : Tiles (∅ : Finset (Tile ρ)) fun _ => False :=
  ⟨fun t ht => absurd ht (Finset.notMem_empty t), fun t ht => absurd ht (Finset.notMem_empty t),
    fun _ => ⟨False.elim, fun ⟨t, ht, _⟩ => Finset.notMem_empty t ht⟩⟩

theorem congr {region' : Nat → Prop} (h : Tiles T region) (hregion : ∀ a, region' a ↔ region a) :
    Tiles T region' :=
  ⟨h.pos, h.apart, fun a => (hregion a).trans (h.cover a)⟩

/-- Tiles with a common address. -/
theorem eq_of_start (h : Tiles T region) {t u : Tile ρ} (ht : t ∈ T) (hu : u ∈ T)
    (heq : t.start = u.start) : t = u :=
  h.apart t ht u hu t.start (Tile.has_start (h.pos t ht)) (heq ▸ Tile.has_start (h.pos u hu))

theorem eq_of_stop (h : Tiles T region) {t u : Tile ρ} (ht : t ∈ T) (hu : u ∈ T)
    (heq : t.stop = u.stop) : t = u :=
  h.apart t ht u hu (t.stop - 1) (Tile.has_last (h.pos t ht)) (heq ▸ Tile.has_last (h.pos u hu))

/-- No tile starts inside another. -/
theorem start_le_or (h : Tiles T region) {t u : Tile ρ} (ht : t ∈ T) (hu : u ∈ T)
    (hne : t ≠ u) : t.stop ≤ u.start ∨ u.stop ≤ t.start := by
  have hpos := h.pos t ht
  have hpos' := h.pos u hu
  by_contra hover
  have hmeet : t.Has (max t.start u.start) ∧ u.Has (max t.start u.start) := by
    unfold Tile.Has Tile.stop at *
    omega
  exact hne (h.apart t ht u hu _ hmeet.1 hmeet.2)

/-- The tile behind a tile. -/
theorem next (h : Tiles T region) {t : Tile ρ} (ht : t ∈ T) (hregion : region t.stop) :
    ∃ u ∈ T, u.start = t.stop := by
  obtain ⟨u, hu, hhas⟩ := (h.cover _).mp hregion
  refine ⟨u, hu, ?_⟩
  have hpos := h.pos t ht
  have hne : t ≠ u := by
    rintro rfl
    exact Nat.lt_irrefl _ hhas.2
  have hsides := h.start_le_or ht hu hne
  unfold Tile.Has Tile.stop at *
  omega

/-- The tile before a tile. -/
theorem prev (h : Tiles T region) {t : Tile ρ} (ht : t ∈ T) (hstart : 0 < t.start)
    (hregion : region (t.start - 1)) : ∃ u ∈ T, u.stop = t.start := by
  obtain ⟨u, hu, hhas⟩ := (h.cover _).mp hregion
  refine ⟨u, hu, ?_⟩
  have hpos := h.pos t ht
  have hne : t ≠ u := by
    rintro rfl
    have := hhas.1
    omega
  have hsides := h.start_le_or ht hu hne
  unfold Tile.Has Tile.stop at *
  omega

/-- The addresses of a finite region, counted tile by tile. -/
theorem sum_size (h : Tiles T region) {addresses : Finset Nat}
    (hregion : ∀ a, region a ↔ a ∈ addresses) : ∑ t ∈ T, t.size = addresses.card := by
  have hunion : addresses = T.biUnion fun t => Finset.Ico t.start t.stop := by
    ext a
    rw [← hregion, h.cover, Finset.mem_biUnion]
    simp only [Finset.mem_Ico, Tile.Has]
  have hdisjoint : ∀ t ∈ T, ∀ u ∈ T, t ≠ u →
      Disjoint (Finset.Ico t.start t.stop) (Finset.Ico u.start u.stop) := by
    intro t ht u hu hne
    rw [Finset.disjoint_left]
    intro a hta hua
    exact hne (h.apart t ht u hu a (Finset.mem_Ico.mp hta) (Finset.mem_Ico.mp hua))
  rw [hunion, Finset.card_biUnion hdisjoint]
  refine Finset.sum_congr rfl fun t _ => ?_
  rw [Nat.card_Ico, Tile.stop, Nat.add_sub_cancel_left]

end Tiles

/-! ## Exchanging tiles -/

section

variable [DecidableEq ρ]

/-- Some tiles give way to others. -/
def exchange (T R A : Finset (Tile ρ)) : Finset (Tile ρ) := (T \ R) ∪ A

theorem mem_exchange {T R A : Finset (Tile ρ)} {t : Tile ρ} :
    t ∈ exchange T R A ↔ (t ∈ T ∧ t ∉ R) ∨ t ∈ A := by
  rw [exchange, Finset.mem_union, Finset.mem_sdiff]

variable {T R A : Finset (Tile ρ)} {region added : Nat → Prop}

namespace Tiles

/-- The new tiles use addresses that the old ones give up or that were not covered. -/
theorem exchange (h : Tiles T region) (hR : R ⊆ T) (hA : Tiles A added)
    (hfree : ∀ a, added a → region a → ∃ r ∈ R, r.Has a) :
    Tiles (exchange T R A) fun a => (region a ∧ ¬ ∃ r ∈ R, r.Has a) ∨ added a := by
  -- an old tile that stays meets no new one
  have hkept : ∀ t, t ∈ T → t ∉ R → ∀ u ∈ A, ∀ a, t.Has a → u.Has a → False := by
    intro t ht htR u hu a hta hua
    obtain ⟨r, hr, hra⟩ := hfree a ((hA.cover a).mpr ⟨u, hu, hua⟩) ((h.cover a).mpr ⟨t, ht, hta⟩)
    exact htR (h.apart t ht r (hR hr) a hta hra ▸ hr)
  refine ⟨fun t ht => ?_, fun t ht u hu a hta hua => ?_, fun a => ?_⟩
  · rcases mem_exchange.mp ht with ⟨ht, -⟩ | ht
    · exact h.pos t ht
    · exact hA.pos t ht
  · rcases mem_exchange.mp ht with ⟨ht, htR⟩ | ht <;> rcases mem_exchange.mp hu with ⟨hu, huR⟩ | hu
    · exact h.apart t ht u hu a hta hua
    · exact (hkept t ht htR u hu a hta hua).elim
    · exact (hkept u hu huR t ht a hua hta).elim
    · exact hA.apart t ht u hu a hta hua
  · constructor
    · rintro (⟨hregion, hnone⟩ | hadded)
      · obtain ⟨t, ht, hta⟩ := (h.cover a).mp hregion
        exact ⟨t, mem_exchange.mpr (.inl ⟨ht, fun hr => hnone ⟨t, hr, hta⟩⟩), hta⟩
      · obtain ⟨t, ht, hta⟩ := (hA.cover a).mp hadded
        exact ⟨t, mem_exchange.mpr (.inr ht), hta⟩
    · rintro ⟨t, ht, hta⟩
      rcases mem_exchange.mp ht with ⟨ht, htR⟩ | ht
      · left
        refine ⟨(h.cover a).mpr ⟨t, ht, hta⟩, ?_⟩
        rintro ⟨r, hr, hra⟩
        exact htR (h.apart t ht r (hR hr) a hta hra ▸ hr)
      · exact .inr ((hA.cover a).mpr ⟨t, ht, hta⟩)

omit [DecidableEq ρ] in
/-- One tile alone. -/
theorem single {t : Tile ρ} (hpos : 0 < t.size) : Tiles {t} t.Has := by
  refine ⟨fun u hu => ?_, fun u hu v hv a _ _ => ?_, fun a => ?_⟩
  · rw [Finset.mem_singleton.mp hu]
    exact hpos
  · rw [Finset.mem_singleton.mp hu, Finset.mem_singleton.mp hv]
  · simp

/-- Two tiles, one behind the other. -/
theorem pair {t u : Tile ρ} (ht : 0 < t.size) (hu : 0 < u.size) (hnext : u.start = t.stop) :
    Tiles {t, u} fun a => t.Has a ∨ u.Has a := by
  refine ⟨fun v hv => ?_, fun v hv w hw a hva hwa => ?_, fun a => ?_⟩
  · rcases Finset.mem_insert.mp hv with rfl | hv
    · exact ht
    · rw [Finset.mem_singleton.mp hv]
      exact hu
  · simp only [Finset.mem_insert, Finset.mem_singleton] at hv hw
    unfold Tile.Has at hva hwa
    rcases hv with rfl | rfl <;> rcases hw with rfl | rfl
    · rfl
    · omega
    · omega
    · rfl
  · simp

end Tiles

end

end HosBoot.Foundation
