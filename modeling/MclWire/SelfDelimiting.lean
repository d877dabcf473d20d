import Mathlib.Data.List.Basic

/-!
# Rows of self-delimiting items

A `Code` spells items as strings such that a string starts with the spelling of at most one item
that may stand there. Which items may stand at a place depends on a state the items before it leave
behind (the last key of a sorted row, say).

* `Code.Chain` — a row of items each of which may stand where it stands.
* `Code.Reads` — the reading of an arbitrary string: the items it starts with, and whether they
  exhaust it.
* `Code.reads_total`, `Code.Reads.unique` — every string has exactly one reading.
* `Code.reads_complete_iff` — a string is exhausted exactly when it is the spelling of a chain.
* `Code.Reads.append` — a reading goes on where it has stopped, once there is more of the string.
* `Code.Chain.row_prefix_iff` — spellings are as comparable as the chains they spell.
-/

namespace SelfDelimiting

/-- Items of type `ι`, spelled over `α`, in rows that carry a state `τ`. -/
structure Code (τ ι α : Type) where
  spell : ι → List α
  Follows : τ → ι → Prop
  next : τ → ι → τ
  spell_ne_nil : ∀ i, spell i ≠ []
  spell_unique : ∀ {t i j d}, Follows t i → Follows t j → spell i <+: d → spell j <+: d → i = j

namespace Code

variable {τ ι α : Type} (C : Code τ ι α)

/-- The spelling of a row. -/
def row (is : List ι) : List α := is.flatMap C.spell

@[simp] theorem row_nil : C.row [] = [] := rfl

@[simp] theorem row_cons (i : ι) (is : List ι) : C.row (i :: is) = C.spell i ++ C.row is := rfl

theorem row_eq_nil_iff {is : List ι} : C.row is = [] ↔ is = [] := by
  cases is with
  | nil => simp
  | cons i is => simp [C.spell_ne_nil i]

/-- Each item may stand where it stands. -/
inductive Chain : τ → List ι → Prop
  | nil (t : τ) : Chain t []
  | cons {t : τ} {i : ι} {is : List ι} : C.Follows t i → Chain (C.next t i) is → Chain t (i :: is)

/-- `Reads t d is complete`: from state `t` on, `d` starts with the items `is`, and with no further
one; `complete` says that they exhaust `d`. -/
inductive Reads : τ → List α → List ι → Bool → Prop
  | done (t : τ) : Reads t [] [] true
  | stuck {t : τ} {d : List α} : d ≠ [] → (∀ i, C.Follows t i → ¬ C.spell i <+: d) →
      Reads t d [] false
  | item {t : τ} {i : ι} {d : List α} {is : List ι} {complete : Bool} : C.Follows t i →
      Reads (C.next t i) d is complete → Reads t (C.spell i ++ d) (i :: is) complete

/-- Every string has a reading. -/
theorem reads_total (t : τ) (d : List α) : ∃ is complete, C.Reads t d is complete := by
  induction hn : d.length using Nat.strongRecOn generalizing t d with
  | _ n ih =>
    subst hn
    by_cases hd : d = []
    · exact ⟨[], true, hd ▸ Reads.done t⟩
    · by_cases h : ∃ i, C.Follows t i ∧ C.spell i <+: d
      · obtain ⟨i, hi, rest, rfl⟩ := h
        have hpos := List.length_pos_iff.mpr (C.spell_ne_nil i)
        obtain ⟨is, complete, hrest⟩ := ih rest.length
          (by rw [List.length_append]; omega) (C.next t i) rest rfl
        exact ⟨i :: is, complete, Reads.item hi hrest⟩
      · exact ⟨[], false, Reads.stuck hd (fun i hi hpre => h ⟨i, hi, hpre⟩)⟩

variable {C}

/-- A string has one reading only. -/
theorem Reads.unique {t : τ} {d : List α} {is js : List ι} {b c : Bool} (h : C.Reads t d is b)
    (h' : C.Reads t d js c) : is = js ∧ b = c := by
  induction h generalizing js c with
  | done t =>
      generalize hd : ([] : List α) = d at h'
      cases h' with
      | done => exact ⟨rfl, rfl⟩
      | stuck hne => exact absurd hd.symm hne
      | item => simp [C.spell_ne_nil] at hd
  | stuck hne hno =>
      cases h' with
      | done => exact absurd rfl hne
      | stuck => exact ⟨rfl, rfl⟩
      | item hi => exact absurd (List.prefix_append _ _) (hno _ hi)
  | @item t i d is b hi hrest ih =>
      generalize hd : C.spell i ++ d = d' at h'
      cases h' with
      | done => simp [C.spell_ne_nil] at hd
      | stuck hne hno => exact absurd (hd ▸ List.prefix_append _ _) (hno _ hi)
      | @item _ j e js _ hj hrest' =>
          have hij : i = j := C.spell_unique hi hj (hd ▸ List.prefix_append _ _)
            (List.prefix_append _ _)
          subst hij
          have hde : d = e := List.append_cancel_left hd
          subst hde
          obtain ⟨his, hbc⟩ := ih hrest'
          exact ⟨by rw [his], hbc⟩

/-- The items of a reading are a chain in front of the string. -/
theorem Reads.chain {t : τ} {d : List α} {is : List ι} {complete : Bool}
    (h : C.Reads t d is complete) : C.Chain t is ∧ C.row is <+: d := by
  induction h with
  | done t => exact ⟨Chain.nil t, List.prefix_refl _⟩
  | stuck => exact ⟨Chain.nil _, by simp⟩
  | item hi _ ih =>
      refine ⟨Chain.cons hi ih.1, ?_⟩
      rw [row_cons, List.prefix_append_right_inj]
      exact ih.2

/-- A chain is the reading of its spelling. -/
theorem Chain.reads {t : τ} {is : List ι} (h : C.Chain t is) : C.Reads t (C.row is) is true := by
  induction h with
  | nil t => exact Reads.done t
  | cons hi _ ih => exact Reads.item hi ih

/-- A string is exhausted exactly when it is the spelling of a chain. -/
theorem reads_complete_iff {t : τ} {d : List α} {is : List ι} :
    C.Reads t d is true ↔ C.Chain t is ∧ d = C.row is := by
  constructor
  · intro h
    refine ⟨h.chain.1, ?_⟩
    generalize hb : true = b at h
    induction h with
    | done => rfl
    | stuck => simp at hb
    | item hi _ ih => rw [row_cons, ← ih hb]
  · rintro ⟨h, rfl⟩
    exact h.reads

/-- The state behind a row. -/
def after (C : Code τ ι α) (t : τ) (is : List ι) : τ := is.foldl C.next t

/-- A reading stops only where no further item stands. -/
theorem Reads.rest {t : τ} {d rest : List α} {is : List ι} {complete : Bool}
    (h : C.Reads t d is complete) (hd : d = C.row is ++ rest) :
    C.Reads (C.after t is) rest [] complete := by
  induction h with
  | done t =>
      rw [row_nil, List.nil_append] at hd
      exact hd ▸ Reads.done t
  | stuck hne hno =>
      rw [row_nil, List.nil_append] at hd
      exact hd ▸ Reads.stuck hne hno
  | item hi _ ih =>
      rw [row_cons, List.append_assoc, List.append_cancel_left_eq] at hd
      exact ih hd

/-- With more of the string behind it, a reading goes on from what it has left: nothing that was read
is read differently. -/
theorem Reads.append {t : τ} {d rest more : List α} {is js : List ι} {b c : Bool}
    (h : C.Reads t d is b) (hd : d = C.row is ++ rest)
    (hmore : C.Reads (C.after t is) (rest ++ more) js c) : C.Reads t (d ++ more) (is ++ js) c := by
  induction h with
  | done | stuck =>
      rw [row_nil, List.nil_append] at hd
      exact hd ▸ hmore
  | item hi _ ih =>
      rw [row_cons, List.append_assoc, List.append_cancel_left_eq] at hd
      rw [List.append_assoc]
      exact Reads.item hi (ih hd hmore)

/-- The spelling of a chain is the beginning of another's only where the chain is. -/
theorem Chain.row_prefix_iff {t : τ} {is js : List ι} (h : C.Chain t is) (h' : C.Chain t js) :
    C.row is <+: C.row js ↔ is <+: js := by
  induction h generalizing js with
  | nil t => exact iff_of_true List.nil_prefix List.nil_prefix
  | @cons t i is hi _ ih =>
      cases h' with
      | nil =>
          constructor
          · intro hpre
            have hnil := List.prefix_nil.mp hpre
            exact absurd hnil (mt C.row_eq_nil_iff.mp (List.cons_ne_nil i is))
          · intro hpre
            cases List.prefix_nil.mp hpre
      | @cons _ j js hj hjs =>
          rw [row_cons, row_cons, List.cons_prefix_cons]
          constructor
          · intro hpre
            have hij : i = j := C.spell_unique hi hj ((List.prefix_append _ _).trans hpre)
              (List.prefix_append _ _)
            subst hij
            rw [List.prefix_append_right_inj] at hpre
            exact ⟨rfl, (ih hjs).mp hpre⟩
          · rintro ⟨rfl, hpre⟩
            rw [List.prefix_append_right_inj]
            exact (ih hjs).mpr hpre

end Code

end SelfDelimiting
