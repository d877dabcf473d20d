import Mathlib.Data.List.Basic

/-!
# Loops that stop at the first failure

A loop takes the items of a list one after the other as long as what it has taken is `Good`, and
stops with `e` at the first item that is `Bad` behind the ones before it.

* `First` — such an item, with the ones before it and behind it.
* `first_cons_iff` — the step of an induction over the loop.
* `Lawful` — the laws under which a loop ends in one way only.
-/

namespace FirstFailure

variable {α ε : Type}

/-- Behind the items `before`, some item of `xs` is the first that stops the loop, with `e`. -/
def First (Good : List α → Prop) (Bad : List α → α → ε → Prop) (before xs : List α) (e : ε) : Prop :=
  ∃ pre x post, xs = pre ++ x :: post ∧ Good (before ++ pre) ∧ Bad (before ++ pre) x e

/-- What is good is so from the start, a bad item makes it not so, and for one reason only. -/
structure Lawful (Good : List α → Prop) (Bad : List α → α → ε → Prop) : Prop where
  initial : ∀ {l m}, Good (l ++ m) → Good l
  excluded : ∀ {l x e}, Bad l x e → ¬ Good (l ++ [x])
  unique : ∀ {l x e e'}, Bad l x e → Bad l x e' → e = e'

variable {Good : List α → Prop} {Bad : List α → α → ε → Prop} {before xs : List α} {x : α} {e : ε}

theorem not_first_nil : ¬ First Good Bad before [] e := by
  rintro ⟨pre, x, post, hxs, -⟩
  cases pre with
  | nil => cases hxs
  | cons y pre => cases hxs

/-- The item in front stops the loop, or one behind it does. -/
theorem first_cons_iff (hbefore : Good before) :
    First Good Bad before (x :: xs) e ↔ Bad before x e ∨ First Good Bad (before ++ [x]) xs e := by
  constructor
  · rintro ⟨pre, y, post, hxs, hgood, hbad⟩
    cases pre with
    | nil =>
        rw [List.nil_append, List.cons.injEq] at hxs
        rw [List.append_nil, ← hxs.1] at hbad
        exact Or.inl hbad
    | cons z pre =>
        rw [List.cons_append, List.cons.injEq] at hxs
        obtain ⟨rfl, rfl⟩ := hxs
        rw [List.append_cons] at hgood hbad
        exact Or.inr ⟨pre, y, post, rfl, hgood, hbad⟩
  · rintro (hbad | ⟨pre, y, post, rfl, hgood, hbad⟩)
    · refine ⟨[], x, xs, rfl, ?_, ?_⟩
      · rw [List.append_nil]
        exact hbefore
      · rw [List.append_nil]
        exact hbad
    · refine ⟨x :: pre, y, post, rfl, ?_, ?_⟩
      · rw [List.append_cons]
        exact hgood
      · rw [List.append_cons]
        exact hbad

/-- Behind a bad item the loop does not go on. -/
theorem not_first_behind (hlaws : Lawful Good Bad) (hbad : Bad before x e) {e' : ε} :
    ¬ First Good Bad (before ++ [x]) xs e' := by
  rintro ⟨pre, y, post, -, hgood, -⟩
  exact hlaws.excluded hbad (hlaws.initial hgood)

end FirstFailure
