import Mathlib.Logic.Basic

/-!
# What a program leaves untouched

Programs with a state and early exits. A part of the state is looked at through a function `look`
into places, and a program is confined to a set of places if it changes nothing elsewhere. A program
that gives up half-way has changed the state like any other, so its exits count as well.

* `Within` — a program changes nothing outside a set of places (`Within.bind`: the second of two
  programs has to be looked at only for results that the first one really has).
* `FailsWithin` — the same of the runs that fail.
-/

namespace Footprint

variable {ε σ α β ι γ : Type}

/-- What a finished call leaves behind. -/
def stateOf : EStateM.Result ε σ α → σ
  | .ok _ s    => s
  | .error _ s => s

@[simp] theorem stateOf_ok (a : α) (s : σ) :
    stateOf (EStateM.Result.ok a s : EStateM.Result ε σ α) = s := rfl

@[simp] theorem stateOf_error (e : ε) (s : σ) :
    stateOf (EStateM.Result.error e s : EStateM.Result ε σ α) = s := rfl

/-- The program changes nothing outside `I`, however it ends. -/
def Within (look : σ → ι → γ) (I : ι → Prop) (p : EStateM ε σ α) : Prop :=
  ∀ s i, ¬ I i → look (stateOf (p.run s)) i = look s i

/-- The program changes nothing outside `I` when it fails. -/
def FailsWithin (look : σ → ι → γ) (I : ι → Prop) (p : EStateM ε σ α) : Prop :=
  ∀ s e t i, p.run s = .error e t → ¬ I i → look t i = look s i

section Rules

variable {look : σ → ι → γ} {I J : ι → Prop} {p : EStateM ε σ α} {f : α → EStateM ε σ β}

theorem Within.mono (h : Within look I p) (hsub : ∀ i, I i → J i) : Within look J p := by
  intro s i hi
  apply h
  intro hI
  exact hi (hsub i hI)

theorem within_pure (a : α) : Within look I (pure a : EStateM ε σ α) := by
  intro s i _
  rfl

theorem within_throw (e : ε) : Within look I (throw e : EStateM ε σ α) := by
  intro s i _
  rfl

theorem within_modify {g : σ → σ} (h : ∀ s i, ¬ I i → look (g s) i = look s i) :
    Within look I (modify g : EStateM ε σ PUnit) := by
  intro s i hi
  exact h s i hi

/-- The first program may establish something the second one needs. -/
theorem Within.bind (hp : Within look I p)
    (hf : ∀ s a t, p.run s = .ok a t → Within look I (f a)) : Within look I (p >>= f) := by
  intro s i hi
  have hfirst := hp s i hi
  rw [EStateM.run_bind]
  cases hrun : p.run s with
  | error e t =>
      rw [hrun] at hfirst
      exact hfirst
  | ok a t =>
      rw [hrun, stateOf_ok] at hfirst
      rw [← hfirst]
      exact hf s a t hrun t i hi

theorem failsWithin_modify (g : σ → σ) : FailsWithin look I (modify g : EStateM ε σ PUnit) := by
  intro s e t i hrun
  cases hrun

theorem FailsWithin.bind (hp : Within look I p) (hf : ∀ a, FailsWithin look I (f a)) :
    FailsWithin look I (p >>= f) := by
  intro s e t i hrun hi
  have hfirst := hp s i hi
  rw [EStateM.run_bind] at hrun
  cases hp' : p.run s with
  | error d u =>
      rw [hp'] at hrun hfirst
      cases hrun
      exact hfirst
  | ok a u =>
      rw [hp', stateOf_ok] at hfirst
      rw [hp'] at hrun
      rw [← hfirst]
      exact hf a u e t i hrun hi

end Rules

end Footprint
