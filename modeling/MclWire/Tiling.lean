import Mathlib.Data.List.Basic
import Mathlib.Data.List.Count
import Mathlib.Algebra.Order.Group.Int

/-!
# Intervals that partition an interval

Things with a first and a last number, in a list. `Partitions` says for every single number that it
is in exactly one of them; `Tiles` says that each starts where the one in front of it ends. For a list
that is sorted by the first numbers these are the same (`partitions_iff_tiles`).
-/

namespace Tiling

variable {α : Type*} (first last : α → ℤ)

/-! ## One by one -/

/-- The number is in the interval. -/
def Covers (x : α) (n : ℤ) : Prop := first x ≤ n ∧ n ≤ last x

instance (x : α) (n : ℤ) : Decidable (Covers first last x n) := inferInstanceAs (Decidable (_ ∧ _))

/-- How many of the intervals a number is in. -/
def cover (xs : List α) (n : ℤ) : ℕ := xs.countP fun x => Covers first last x n

/-- No interval runs backwards or leaves `lo .. hi`, and each number in there is in exactly one. -/
structure Partitions (lo hi : ℤ) (xs : List α) : Prop where
  forwards : ∀ x ∈ xs, first x ≤ last x
  inside : ∀ x ∈ xs, ∀ n, Covers first last x n → lo ≤ n ∧ n ≤ hi
  once : ∀ n, lo ≤ n → n ≤ hi → cover first last xs n = 1

/-! ## One behind the other -/

/-- The intervals follow on each other, from `lo` to `hi`. -/
def Tiles (hi : ℤ) : ℤ → List α → Prop
  | lo, []      => lo = hi + 1
  | lo, x :: xs => first x = lo ∧ lo ≤ last x ∧ Tiles hi (last x + 1) xs

section

variable {first last} {lo hi : ℤ} {x : α} {xs ys : List α}

theorem cover_cons (n : ℤ) :
    cover first last (x :: xs) n = cover first last xs n + if Covers first last x n then 1 else 0 := by
  rw [cover, List.countP_cons]
  simp only [decide_eq_true_eq]
  rfl

theorem covers_first (h : first x ≤ last x) : Covers first last x (first x) := ⟨le_refl _, h⟩

theorem cover_pos {n : ℤ} (hx : x ∈ xs) (h : Covers first last x n) : 0 < cover first last xs n := by
  rw [cover, List.countP_pos_iff]
  exact ⟨x, hx, decide_eq_true h⟩

theorem Partitions.perm (h : Partitions first last lo hi xs) (hp : xs.Perm ys) :
    Partitions first last lo hi ys where
  forwards x hx := h.forwards x (hp.mem_iff.mpr hx)
  inside x hx := h.inside x (hp.mem_iff.mpr hx)
  once n hlo hhi := by
    rw [cover, ← hp.countP_eq]
    exact h.once n hlo hhi

/-- No number is in two different intervals. -/
theorem Partitions.unique (h : Partitions first last lo hi xs) {y z : α} {n : ℤ} (hlo : lo ≤ n)
    (hhi : n ≤ hi) (hy : y ∈ xs) (hz : z ∈ xs) (hcy : Covers first last y n)
    (hcz : Covers first last z n) : y = z := by
  have hone := h.once n hlo hhi
  rw [cover, List.countP_eq_length_filter, List.length_eq_one_iff] at hone
  obtain ⟨x, hx⟩ := hone
  have hmem : ∀ w ∈ xs, Covers first last w n → w = x := by
    intro w hw hc
    have hfilter : w ∈ xs.filter fun x => Covers first last x n :=
      List.mem_filter.mpr ⟨hw, decide_eq_true hc⟩
    rw [hx] at hfilter
    exact List.mem_singleton.mp hfilter
  rw [hmem y hy hcy, hmem z hz hcz]

theorem Tiles.le (h : Tiles first last hi lo xs) : lo ≤ hi + 1 := by
  induction xs generalizing lo with
  | nil => exact le_of_eq h
  | cons x xs ih =>
      have hrest := ih h.2.2
      have hx := h.2.1
      omega

theorem Tiles.cover (h : Tiles first last hi lo xs) (n : ℤ) :
    cover first last xs n = if lo ≤ n ∧ n ≤ hi then 1 else 0 := by
  induction xs generalizing lo with
  | nil =>
      have hlo : lo = hi + 1 := h
      have hempty : ¬ (lo ≤ n ∧ n ≤ hi) := by omega
      rw [if_neg hempty]
      rfl
  | cons x xs ih =>
      obtain ⟨hfirst, hlast, hrest⟩ := h
      have hle := hrest.le
      rw [cover_cons, ih hrest]
      -- a number is in front of the first interval, in it, or behind it
      rcases lt_or_ge n lo with hn | hn
      · rw [if_neg (by omega), if_neg (fun hc => by have := hc.1; omega), if_neg (by omega)]
      · rcases lt_or_ge (last x) n with hn' | hn'
        · have hiff : last x + 1 ≤ n ∧ n ≤ hi ↔ lo ≤ n ∧ n ≤ hi := by omega
          rw [if_neg (c := Covers first last x n) (fun hc => by have := hc.2; omega)]
          simp only [hiff]
          rfl
        · have hx : Covers first last x n := ⟨by omega, hn'⟩
          rw [if_neg (by omega), if_pos hx, if_pos (by omega)]

theorem Tiles.forwards (h : Tiles first last hi lo xs) : ∀ x ∈ xs, first x ≤ last x := by
  induction xs generalizing lo with
  | nil =>
      intro x hx
      cases hx
  | cons y xs ih =>
      obtain ⟨hfirst, hlast, hrest⟩ := h
      intro x hx
      rcases List.mem_cons.mp hx with rfl | hx
      · exact hfirst ▸ hlast
      · exact ih hrest x hx

theorem Tiles.partitions (h : Tiles first last hi lo xs) : Partitions first last lo hi xs where
  forwards := h.forwards
  inside x hx n hn := by
    have hpos := cover_pos hx hn
    rw [h.cover] at hpos
    by_contra hout
    rw [if_neg hout] at hpos
    exact lt_irrefl 0 hpos
  once n hlo hhi := by rw [h.cover, if_pos ⟨hlo, hhi⟩]

/-- In a sorted list that partitions `lo .. hi` the first interval starts at `lo`. -/
theorem Partitions.first_eq (h : Partitions first last lo hi (x :: xs))
    (hsorted : ∀ y ∈ xs, first x ≤ first y) : first x = lo := by
  have hx := covers_first (h.forwards x List.mem_cons_self)
  obtain ⟨hlo, hhi⟩ := h.inside x List.mem_cons_self _ hx
  apply le_antisymm _ hlo
  -- otherwise all intervals start behind `lo`
  have hone := h.once lo (le_refl lo) (hlo.trans hhi)
  have hpos : 0 < cover first last (x :: xs) lo := by rw [hone]; exact Nat.one_pos
  rw [cover, List.countP_pos_iff] at hpos
  obtain ⟨y, hy, hcover⟩ := hpos
  have hle := (of_decide_eq_true hcover).1
  rcases List.mem_cons.mp hy with rfl | hy
  · exact hle
  · exact (hsorted y hy).trans hle

/-- The intervals behind the first one partition what it leaves. -/
theorem Partitions.tail (h : Partitions first last lo hi (x :: xs))
    (hsorted : ∀ y ∈ xs, first x ≤ first y) : Partitions first last (last x + 1) hi xs where
  forwards y hy := h.forwards y (List.mem_cons_of_mem x hy)
  inside y hy n hn := by
    refine ⟨?_, (h.inside y (List.mem_cons_of_mem x hy) n hn).2⟩
    -- otherwise the first number of `y` is in `x` as well
    have hforwards := h.forwards y (List.mem_cons_of_mem x hy)
    have hyfirst := covers_first hforwards
    by_contra hbelow
    have hx : Covers first last x (first y) := ⟨hsorted y hy, by have := hn.1; omega⟩
    obtain ⟨hlo, hhi⟩ := h.inside y (List.mem_cons_of_mem x hy) _ hyfirst
    have hone := h.once _ hlo hhi
    have hpos := cover_pos hy hyfirst
    rw [cover_cons, if_pos hx] at hone
    omega
  once n hlo hhi := by
    have hforwards := h.forwards x List.mem_cons_self
    have hx := (h.inside x List.mem_cons_self _ (covers_first hforwards)).1
    have hone := h.once n (by omega) hhi
    rwa [cover_cons, if_neg (fun hc => by have := hc.2; omega)] at hone

theorem Partitions.tiles (h : Partitions first last lo hi xs)
    (hsorted : xs.Pairwise fun x y => first x ≤ first y) (hle : lo ≤ hi + 1) :
    Tiles first last hi lo xs := by
  induction xs generalizing lo with
  | nil =>
      show lo = hi + 1
      by_contra hne
      have hone := h.once lo (le_refl lo) (by omega)
      cases hone
  | cons x xs ih =>
      obtain ⟨hx, hxs⟩ := List.pairwise_cons.mp hsorted
      have hfirst := h.first_eq hx
      have hforwards := h.forwards x List.mem_cons_self
      have hlast := (h.inside x List.mem_cons_self (last x) ⟨hforwards, le_refl _⟩).2
      refine ⟨hfirst, hfirst ▸ hforwards, ih (h.tail hx) hxs ?_⟩
      omega

theorem partitions_iff_tiles (hsorted : xs.Pairwise fun x y => first x ≤ first y)
    (hle : lo ≤ hi + 1) : Partitions first last lo hi xs ↔ Tiles first last hi lo xs :=
  ⟨fun h => h.tiles hsorted hle, Tiles.partitions⟩

end

end Tiling
