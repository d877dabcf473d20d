import Mathlib.Algebra.BigOperators.Group.List.Basic
import Mathlib.Algebra.GroupWithZero.Nat
import Mathlib.Computability.Language
import Mathlib.Order.Bounds.Basic

/-!
# Spellings

A format that may spell a thing in several ways gives each thing a formal language, that of its
spellings, and formats are put together with the operations of `Language`. How long the shortest
spellings are, and whether a spelling tells what it spells and where it ends, is put together the same
way.

* `Shortest.mul`, `Shortest.add`, `Shortest.prod` — the shortest of one spelling behind another, of
  one spelling or another, and of rows of spellings.
* `Delimited.mul`, `Delimited.prod` — a spelling behind another one, and rows of spellings.
* `Delimited.prod_unique` — a row of spellings that are not empty tells how many there are.
-/

variable {α ι κ : Type} {L M : Language α} {m n : Nat}

/-! ## Shortest spellings -/

/-- The shortest words of `L` have length `n`. -/
def Shortest (L : Language α) (n : Nat) : Prop := IsLeast {k | ∃ w ∈ L, w.length = k} n

namespace Shortest

theorem of_word {w : List α} (hw : w ∈ L) (hmin : ∀ v ∈ L, w.length ≤ v.length) :
    Shortest L w.length := by
  refine ⟨⟨w, hw, rfl⟩, ?_⟩
  rintro k ⟨v, hv, rfl⟩
  exact hmin v hv

/-- No word is shorter. -/
theorem le (h : Shortest L n) {w : List α} (hw : w ∈ L) : n ≤ w.length := h.2 ⟨w, hw, rfl⟩

theorem exists_word (h : Shortest L n) : ∃ w ∈ L, w.length = n := h.1

theorem unique (h : Shortest L m) (h' : Shortest L n) : m = n := IsLeast.unique h h'

theorem one : Shortest (1 : Language α) 0 := by
  apply of_word Language.nil_mem_one
  intro v _
  exact Nat.zero_le _

theorem word (w : List α) : Shortest ({w} : Language α) w.length := by
  apply of_word (Set.mem_singleton w)
  intro v hv
  rw [Set.mem_singleton_iff.mp hv]

/-- Of one word behind another both are shortest. -/
theorem mul (h : Shortest L m) (h' : Shortest M n) : Shortest (L * M) (m + n) := by
  obtain ⟨v, hv, rfl⟩ := h.exists_word
  obtain ⟨w, hw, rfl⟩ := h'.exists_word
  rw [← List.length_append]
  apply of_word (Language.append_mem_mul hv hw)
  intro u hu
  obtain ⟨v', hv', w', hw', rfl⟩ := Language.mem_mul.mp hu
  rw [List.length_append, List.length_append]
  exact Nat.add_le_add (h.le hv') (h'.le hw')

/-- Of two languages the one with the shorter words counts. -/
theorem add (h : Shortest L m) (h' : Shortest M n) : Shortest (L + M) (min m n) := by
  constructor
  · rcases Nat.le_total m n with hle | hle
    · rw [Nat.min_eq_left hle]
      obtain ⟨w, hw, hlen⟩ := h.exists_word
      exact ⟨w, (Language.mem_add L M w).mpr (Or.inl hw), hlen⟩
    · rw [Nat.min_eq_right hle]
      obtain ⟨w, hw, hlen⟩ := h'.exists_word
      exact ⟨w, (Language.mem_add L M w).mpr (Or.inr hw), hlen⟩
  · rintro k ⟨w, hw, rfl⟩
    rcases (Language.mem_add L M w).mp hw with hw | hw
    · exact (Nat.min_le_left m n).trans (h.le hw)
    · exact (Nat.min_le_right m n).trans (h'.le hw)

/-- In a row of words each one is shortest. -/
theorem prod {f : ι → Language α} {g : ι → Nat} {is : List ι} (h : ∀ i ∈ is, Shortest (f i) (g i)) :
    Shortest (is.map f).prod (is.map g).sum := by
  induction is with
  | nil => exact one
  | cons i is ih =>
      rw [List.map_cons, List.map_cons, List.prod_cons, List.sum_cons]
      apply mul
      · exact h i List.mem_cons_self
      · apply ih
        intro j hj
        exact h j (List.mem_cons_of_mem i hj)

end Shortest

/-! ## Spellings that end where they end -/

/-- Two texts that start with spellings spell the same, and go on alike behind it. -/
def Delimited (f : ι → Language α) : Prop :=
  ∀ ⦃i j : ι⦄ ⦃v w r s : List α⦄, v ∈ f i → w ∈ f j → v ++ r = w ++ s → i = j ∧ r = s

namespace Delimited

variable {f : ι → Language α} {g : κ → Language α}

/-- A spelling spells one thing. -/
theorem unique (hf : Delimited f) {i j : ι} {w : List α} (hi : w ∈ f i) (hj : w ∈ f j) : i = j :=
  (hf hi hj rfl : i = j ∧ ([] : List α) = []).1

theorem mul (hf : Delimited f) (hg : Delimited g) :
    Delimited fun p : ι × κ => f p.1 * g p.2 := by
  rintro ⟨i, k⟩ ⟨j, l⟩ _ _ r s ⟨v, hv, v', hv', rfl⟩ ⟨w, hw, w', hw', rfl⟩ h
  dsimp only at h
  rw [List.append_assoc, List.append_assoc] at h
  obtain ⟨rfl, h⟩ := hf hv hw h
  obtain ⟨rfl, h⟩ := hg hv' hw' h
  exact ⟨rfl, h⟩

/-- Rows of the same length are told apart. -/
theorem prod (hf : Delimited f) {is js : List ι} (hlen : is.length = js.length) {v w r s : List α}
    (hv : v ∈ (is.map f).prod) (hw : w ∈ (js.map f).prod) (h : v ++ r = w ++ s) :
    is = js ∧ r = s := by
  induction is generalizing js v w with
  | nil =>
      cases List.length_eq_zero_iff.mp hlen.symm
      cases (Language.mem_one v).mp hv
      cases (Language.mem_one w).mp hw
      exact ⟨rfl, h⟩
  | cons i is ih =>
      cases js with
      | nil => cases hlen
      | cons j js =>
          rw [List.map_cons, List.prod_cons] at hv hw
          obtain ⟨v, hv, v', hv', rfl⟩ := hv
          obtain ⟨w, hw, w', hw', rfl⟩ := hw
          dsimp only at h
          rw [List.append_assoc, List.append_assoc] at h
          obtain ⟨rfl, h⟩ := hf hv hw h
          obtain ⟨rfl, h⟩ := ih (Nat.succ.inj hlen) hv' hw' h
          exact ⟨rfl, h⟩

/-- Rows of spellings that are not empty are told apart, where nothing stands behind them. -/
theorem prod_unique (hf : Delimited f) (hne : ∀ i, [] ∉ f i) {is js : List ι} {w : List α}
    (hi : w ∈ (is.map f).prod) (hj : w ∈ (js.map f).prod) : is = js := by
  induction is generalizing js w with
  | nil =>
      cases (Language.mem_one w).mp hi
      cases js with
      | nil => rfl
      | cons j js =>
          rw [List.map_cons, List.prod_cons] at hj
          obtain ⟨v, hv, v', -, hnil⟩ := hj
          cases (List.append_eq_nil_iff.mp hnil).1
          exact absurd hv (hne j)
  | cons i is ih =>
      rw [List.map_cons, List.prod_cons] at hi
      obtain ⟨v, hv, v', hv', rfl⟩ := hi
      cases js with
      | nil =>
          cases (List.append_eq_nil_iff.mp ((Language.mem_one _).mp hj)).1
          exact absurd hv (hne i)
      | cons j js =>
          rw [List.map_cons, List.prod_cons] at hj
          obtain ⟨w, hw, w', hw', h⟩ := hj
          obtain ⟨rfl, rfl⟩ := hf hw hv h
          rw [ih hv' hw']

end Delimited
