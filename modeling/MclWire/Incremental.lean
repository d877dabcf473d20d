import Mathlib.Data.List.Basic

/-!
# Decoders fed by a growing buffer

A receiver calls a decoder on what has arrived so far. Its `Verdict` is a value and the length it
took, a failure, or that more input is needed.

* `Settled` — a verdict other than `more` stays when input arrives behind it.
* `Settled.more_of_lt` — then a string that is taken whole is decided by nothing less: every
  strict beginning of it needs more.
-/

namespace Incremental

/-- What a decoder says about a buffer. -/
inductive Verdict (ε β : Type) where
  | more
  | fail (e : ε)
  | done (value : β) (consumed : Nat)

variable {α ε β : Type}

/-- Verdicts other than `more` are final. -/
def Settled (f : List α → Verdict ε β) : Prop := ∀ d s, f d ≠ .more → f (d ++ s) = f d

/-- A decoder takes no more than there is. -/
def Bounded (f : List α → Verdict ε β) : Prop := ∀ d v n, f d = .done v n → n ≤ d.length

/-- Nothing less than a string that is taken whole is enough. -/
theorem Settled.more_of_lt {f : List α → Verdict ε β} (hs : Settled f) (hb : Bounded f)
    {d p : List α} {v : β} (h : f d = .done v d.length) (hp : p <+: d) (hne : p ≠ d) :
    f p = .more := by
  obtain ⟨s, rfl⟩ := hp
  by_contra hmore
  rw [hs p s hmore] at h
  have hle := hb p v _ h
  rw [List.length_append] at hle
  have hnil : s = [] := List.length_eq_zero_iff.mp (by omega)
  rw [hnil, List.append_nil] at hne
  exact hne rfl

end Incremental
