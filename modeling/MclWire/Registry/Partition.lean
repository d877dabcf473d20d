import MclWire.Registry.Validator
import MclWire.Tiling
import Mathlib.Data.List.Sort

/-!
# The check of the range table

`main` sorts the ranges and compares neighbours. That decides whether the identifiers are partitioned,
one by one, whatever order `qsort` gives to ranges that start alike.

* `rangeChecks_eq_nil` — a sorted table passes if and only if its ranges follow on each other.
* `rangeSection_iff` — any table passes if and only if each identifier is in exactly one range.
-/

namespace MclWire

open Tiling

namespace Registry

/-! ## What is checked -/

/-- No range runs backwards or leaves the identifiers, each identifier is in exactly one, and the one
of 0 is reserved. -/
structure Partition (ranges : List Range) : Prop where
  partitions : Partitions Range.first Range.last 0 extensionIdMax ranges
  zero : ∀ r ∈ ranges, Covers Range.first Range.last r 0 → r.policy = "Reserved".toList

theorem Partition.perm {ranges ranges' : List Range} (h : Partition ranges)
    (hp : ranges.Perm ranges') : Partition ranges' where
  partitions := h.partitions.perm hp
  zero r hr := h.zero r (hp.mem_iff.mpr hr)

theorem Partition.ne_nil {ranges : List Range} (h : Partition ranges) : ranges ≠ [] := by
  rintro rfl
  have hone := h.partitions.once 0 (le_refl 0) (by decide)
  cases hone

theorem failIf_eq_nil {c : Prop} [Decidable c] {f : Failure} : failIf c f = [] ↔ ¬ c := by
  rw [failIf]
  split
  · next h => exact ⟨fun hnil => absurd hnil (List.cons_ne_nil _ _), fun hn => absurd h hn⟩
  · next h => exact ⟨fun _ => h, fun _ => rfl⟩

theorem flatMap_failIf_eq_nil {α : Type*} {xs : List α} {c : α → Prop} [DecidablePred c]
    {f : α → Failure} : (xs.flatMap fun x => failIf (c x) (f x)) = [] ↔ ∀ x ∈ xs, ¬ c x := by
  rw [List.flatMap_eq_nil_iff]
  constructor
  · intro h x hx
    exact failIf_eq_nil.mp (h x hx)
  · intro h x hx
    exact failIf_eq_nil.mpr (h x hx)

/-! ## The sorted table

In a sorted table it is enough that neighbours touch. The induction goes from each range to the next
one, and ends with the check that the last range is the end of the identifiers. -/

section Sorted

variable {r s : Range} {rs : List Range} {hi : Int}

theorem neighbourChecks_cons : neighbourChecks (r :: s :: rs) = [] ↔
    s.first = r.last + 1 ∧ neighbourChecks (s :: rs) = [] := by
  rw [neighbourChecks, List.append_eq_nil_iff]
  apply and_congr_left
  intro _
  split
  · next h => exact ⟨fun _ => h, fun _ => rfl⟩
  · next h =>
      constructor
      · intro hnil
        split at hnil
        · cases hnil
        · cases hnil
      · intro heq
        exact absurd heq h

/-- Neighbours touch and the last range ends at `hi`: the ranges follow on each other. -/
theorem neighbourChecks_tiles (hf : ∀ x ∈ r :: rs, x.first ≤ x.last) :
    (neighbourChecks (r :: rs) = [] ∧ ∀ x, (r :: rs).getLast? = some x → x.last = hi) ↔
      Tiles Range.first Range.last hi r.first (r :: rs) := by
  induction rs generalizing r with
  | nil =>
      have hr := hf r List.mem_cons_self
      constructor
      · rintro ⟨-, hlast⟩
        exact ⟨rfl, hr, congrArg (· + 1) (hlast r rfl)⟩
      · rintro ⟨-, -, hend⟩
        have hend : r.last + 1 = hi + 1 := hend
        refine ⟨rfl, ?_⟩
        intro x hx
        have hx : r = x := Option.some.inj hx
        rw [← hx]
        omega
  | cons s rs ih =>
      have hr := hf r List.mem_cons_self
      have ih := ih (r := s) (fun x hx => hf x (List.mem_cons_of_mem r hx))
      rw [neighbourChecks_cons, List.getLast?_cons_cons, and_assoc, ih]
      constructor
      · rintro ⟨htouch, htiles⟩
        exact ⟨rfl, hr, htouch ▸ htiles⟩
      · rintro ⟨-, -, hrest⟩
        have htouch : s.first = r.last + 1 := hrest.1
        exact ⟨htouch, htouch.symm ▸ hrest⟩

theorem endChecks_eq_nil : endChecks (r :: rs) = [] ↔ r.first = 0 ∧ neighbourChecks (r :: rs) = [] ∧
    ∀ x, (r :: rs).getLast? = some x → x.last = extensionIdMax := by
  have hlast : (r :: rs).getLast? = some ((r :: rs).getLast (List.cons_ne_nil r rs)) :=
    List.getLast?_eq_some_getLast _
  rw [endChecks, hlast]
  simp [failIf_eq_nil]

theorem rangeChecks_eq_nil : rangeChecks (r :: rs) = [] ↔
    Tiles Range.first Range.last extensionIdMax 0 (r :: rs) ∧
      ∀ x ∈ r :: rs, Covers Range.first Range.last x 0 → x.policy = "Reserved".toList := by
  rw [rangeChecks, List.append_eq_nil_iff, List.append_eq_nil_iff, flatMap_failIf_eq_nil,
    flatMap_failIf_eq_nil, endChecks_eq_nil]
  have hzero : (∀ x ∈ r :: rs, ¬ (x.first ≤ 0 ∧ 0 ≤ x.last ∧ x.policy ≠ "Reserved".toList)) ↔
      ∀ x ∈ r :: rs, Covers Range.first Range.last x 0 → x.policy = "Reserved".toList := by
    apply forall₂_congr
    intro x hx
    rw [Covers]
    tauto
  rw [hzero]
  apply and_congr_left
  intro _
  constructor
  · rintro ⟨hf, hstart, hneighbours⟩
    have hf : ∀ x ∈ r :: rs, x.first ≤ x.last := fun x hx => Int.not_lt.mp (hf x hx)
    exact hstart ▸ (neighbourChecks_tiles hf).mp hneighbours
  · intro htiles
    have hstart : r.first = 0 := htiles.1
    refine ⟨fun x hx => Int.not_lt.mpr (htiles.forwards x hx), hstart, ?_⟩
    exact (neighbourChecks_tiles htiles.forwards).mpr (hstart.symm ▸ htiles)

end Sorted

/-! ## Any table -/

theorem Sorts.first_le {qsort : List Range → List Range} (h : Sorts qsort) (ranges : List Range) :
    (qsort ranges).Pairwise fun r s => r.first ≤ s.first := by
  apply (h.sorted ranges).imp
  intro r s hrs
  rw [compareRanges] at hrs
  by_contra hlt
  rw [if_neg (by omega), if_pos (by omega)] at hrs
  exact absurd hrs (by decide)

/-- The range table passes if and only if it is a partition. -/
theorem rangeSection_nil {qsort : List Range → List Range} (h : Sorts qsort) (ranges : List Range) :
    rangeSection qsort ranges = [] ↔ Partition ranges := by
  have hperm := h.perm ranges
  have hiff : Partition ranges ↔ Partition (qsort ranges) :=
    ⟨fun hp => hp.perm hperm.symm, fun hp => hp.perm hperm⟩
  have htiles : Partitions Range.first Range.last 0 extensionIdMax (qsort ranges) ↔
      Tiles Range.first Range.last extensionIdMax 0 (qsort ranges) :=
    partitions_iff_tiles (h.first_le ranges) (by decide)
  rw [rangeSection, List.append_eq_nil_iff, failIf_eq_nil, hiff]
  cases hq : qsort ranges with
  | nil =>
      rw [hq, List.nil_perm] at hperm
      constructor
      · rintro ⟨hne, -⟩
        exact absurd hperm hne
      · intro hp
        exact absurd rfl hp.ne_nil
  | cons r rs =>
      rw [hq] at htiles
      rw [rangeChecks_eq_nil, ← htiles]
      constructor
      · rintro ⟨-, hpart, hzero⟩
        exact ⟨hpart, hzero⟩
      · rintro ⟨hpart, hzero⟩
        refine ⟨?_, hpart, hzero⟩
        rintro rfl
        rw [hq] at hperm
        exact List.cons_ne_nil r rs hperm.eq_nil

/-- Sorting by insertion. -/
def insertionSort (ranges : List Range) : List Range :=
  List.insertionSort (fun r s => r.first ≤ s.first) ranges

theorem insertionSort_sorts : Sorts insertionSort where
  perm := List.perm_insertionSort _
  sorted ranges := by
    have hpairwise := List.pairwise_insertionSort (fun r s : Range => r.first ≤ s.first) ranges
    apply hpairwise.imp
    intro r s hrs
    rw [compareRanges]
    split
    · decide
    · rw [if_neg (Int.not_lt.mpr hrs)]

/-- The checks of the range table pass if and only if no range runs backwards, each identifier is in
exactly one range, no range leaves the identifiers, and the range of 0 is reserved. -/
theorem rangeSection_iff {qsort : List Range → List Range} (h : Sorts qsort) (ranges : List Range) :
    rangeSection qsort ranges = [] ↔
      (∀ r ∈ ranges, r.first ≤ r.last) ∧
      (∀ id, 0 ≤ id → id ≤ extensionIdMax →
        ranges.countP (fun r => r.first ≤ id ∧ id ≤ r.last) = 1) ∧
      (∀ r ∈ ranges, ∀ id, r.first ≤ id ∧ id ≤ r.last → 0 ≤ id ∧ id ≤ extensionIdMax) ∧
      ∀ r ∈ ranges, r.first ≤ 0 ∧ 0 ≤ r.last → r.policy = "Reserved".toList := by
  rw [rangeSection_nil h]
  constructor
  · rintro ⟨⟨hforwards, hinside, honce⟩, hzero⟩
    exact ⟨hforwards, honce, hinside, hzero⟩
  · rintro ⟨hforwards, honce, hinside, hzero⟩
    exact ⟨⟨hforwards, hinside, honce⟩, hzero⟩

/-- `ranges` of `registries/extension-ids-v0.1.json` -/
def publishedRanges : List Range :=
  [⟨0, 0, "Reserved".toList⟩,
    ⟨1, 63, "MCL Standards Action".toList⟩,
    ⟨64, 8191, "MCL Standards Action".toList⟩,
    ⟨8192, 1048575, "Specification Required".toList⟩,
    ⟨1048576, 2097151, "Experimental Use".toList⟩,
    ⟨2097152, 4194303, "Private Use".toList⟩,
    ⟨4194304, 2147483647, "Reserved".toList⟩]

/-- The published table passes: every identifier has one policy. -/
theorem publishedRanges_pass : rangeSection insertionSort publishedRanges = [] ∧
    ∀ id, 0 ≤ id → id ≤ extensionIdMax →
      publishedRanges.countP (fun r => r.first ≤ id ∧ id ≤ r.last) = 1 := by
  have hpass : rangeSection insertionSort publishedRanges = [] := by decide
  exact ⟨hpass, ((rangeSection_iff insertionSort_sorts publishedRanges).mp hpass).2.1⟩

end Registry

end MclWire
