import Mathlib.Data.List.TakeWhile
import MclWire.CText

/-!
# Text as a row of strings

A text without escapes is a row of strings in quotes, with a gap behind each of them: `Token`,
`render`. A program that looks for words in quotes sees strings, and then the gap behind the one it has
found.

* `cString`, `strstrIn` — the string in an array of characters, and a search in it.
* `seek`, `strstr_render` — a search stops at the first token whose string is the word.
* `strtoul`, `strtoul_quote` — a number is read in the gap, and not beyond.
* `numberToken`, `strtoul_numeral` — a number that is printed under a key is read.
* `forall₂_forall_iff`, `forall₂_exists_iff` — what is read from a row item by item.
-/

namespace CText

/-! ## Arrays -/

/-- The string in an array of characters: up to the first NUL. -/
def cString (t : Text) : Text := t.takeWhile (· ≠ Char.ofNat 0)

/-- `strstr` from a place in an array on. -/
def strstrIn (pattern p : Text) : Option Text :=
  (strstr pattern (cString p)).map fun hit => p.drop ((cString p).length - hit.length)

theorem cString_append {s t : Text} (h : Char.ofNat 0 ∉ s) : cString (s ++ t) = s ++ cString t := by
  apply List.takeWhile_append_of_pos
  intro c hc
  rw [decide_eq_true_eq]
  rintro rfl
  exact h hc

theorem cString_eq_self {t : Text} (h : Char.ofNat 0 ∉ t) : cString t = t := by
  have happend := cString_append (t := []) h
  rwa [List.append_nil, show cString [] = [] from rfl, List.append_nil] at happend

theorem cString_isPrefix (t : Text) : cString t <+: t := List.takeWhile_prefix _

theorem no_nul_cString (t : Text) : Char.ofNat 0 ∉ cString t := by
  intro h
  have hne := List.mem_takeWhile_imp h
  rw [decide_eq_true_eq] at hne
  exact hne rfl

theorem strstr_isSuffix {w t r : Text} (h : strstr w t = some r) : r <:+ t := by
  obtain ⟨front, ht, -⟩ := strstr_iff.mp h
  exact ⟨front, ht.symm⟩

theorem strstrIn_eq {t : Text} (h : Char.ofNat 0 ∉ t) (w : Text) : strstrIn w t = strstr w t := by
  rw [strstrIn, cString_eq_self h]
  cases hfind : strstr w t with
  | none => rfl
  | some r =>
      obtain ⟨front, rfl⟩ := strstr_isSuffix hfind
      rw [Option.map_some, List.length_append, Nat.add_sub_cancel, List.drop_left]

/-! ## Tokens -/

/-- A string, and what stands behind it up to the next one. -/
structure Token where
  string : Text
  gap : Text
  deriving DecidableEq

/-- The text of a row of tokens. -/
def render : List Token → Text
  | []      => []
  | k :: ks => '"' :: (k.string ++ '"' :: (k.gap ++ render ks))

/-- There are no quotes in the string and in the gap, no word starts behind the string, and there is
no NUL. -/
structure Token.Plain (k : Token) : Prop where
  string : '"' ∉ k.string
  gap : '"' ∉ k.gap
  breaks : Breaks k.gap
  nul : Char.ofNat 0 ∉ k.string ∧ Char.ofNat 0 ∉ k.gap

theorem breaks_iff (t : Text) :
    Breaks t ↔ (t.head?.all fun c => !isWordChar c && !c.isDigit) = true := by
  cases t with
  | nil =>
      refine iff_of_true ?_ rfl
      intro c cs h
      cases h
  | cons c cs =>
      constructor
      · intro h
        obtain ⟨hword, hdigit⟩ := h c cs rfl
        simp [hword, hdigit]
      · rintro h d ds heq
        cases heq
        simpa using h

instance (t : Text) : Decidable (Breaks t) := decidable_of_iff _ (breaks_iff t).symm

instance (k : Token) : Decidable k.Plain :=
  decidable_of_iff (('"' ∉ k.string ∧ '"' ∉ k.gap) ∧ Breaks k.gap ∧ Char.ofNat 0 ∉ k.string ∧
      Char.ofNat 0 ∉ k.gap)
    ⟨fun h => ⟨h.1.1, h.1.2, h.2.1, h.2.2⟩, fun h => ⟨⟨h.string, h.gap⟩, h.breaks, h.nul⟩⟩

/-- From the first token on whose string is the word. -/
def seek (w : Text) (ks : List Token) : List Token := ks.dropWhile (·.string ≠ w)

section Tokens

variable {w t : Text} {k : Token} {ks as bs : List Token}

@[simp] theorem render_nil : render [] = [] := rfl

theorem render_cons (k : Token) (ks : List Token) (t : Text) :
    render (k :: ks) ++ t = '"' :: (k.string ++ '"' :: (k.gap ++ (render ks ++ t))) := by
  simp [render]

@[simp] theorem render_append (as bs : List Token) : render (as ++ bs) = render as ++ render bs := by
  induction as with
  | nil => rfl
  | cons k as ih =>
      rw [List.cons_append, render_cons, render, ih]

theorem length_le_render (ks : List Token) : ks.length ≤ (render ks).length := by
  induction ks with
  | nil => exact Nat.le_refl _
  | cons k ks ih =>
      simp only [render, List.length_cons, List.length_append]
      omega

theorem no_nul_render (h : ∀ k ∈ ks, k.Plain) : Char.ofNat 0 ∉ render ks := by
  induction ks with
  | nil => exact List.not_mem_nil
  | cons k ks ih =>
      rw [List.forall_mem_cons] at h
      have hk := h.1.nul
      have hks := ih h.2
      have hquote : Char.ofNat 0 ≠ '"' := by decide
      simp only [render, List.mem_cons, List.mem_append, not_or]
      exact ⟨hquote, hk.1, hquote, hk.2, hks⟩

theorem breaks_nil : Breaks [] := by
  intro c cs h
  cases h

/-- Behind a gap there is a quote, or nothing that a word could go on with. -/
theorem breaks_render (hk : Breaks k.gap) (ht : Breaks t) : Breaks (k.gap ++ (render ks ++ t)) := by
  cases hgap : k.gap with
  | nil =>
      cases ks with
      | nil => exact ht
      | cons k' ks =>
          rw [List.nil_append, render_cons]
          exact breaks_quote _
  | cons c gap =>
      rw [hgap] at hk
      obtain ⟨hword, hdigit⟩ := hk c gap rfl
      exact breaks_cons hword hdigit _

@[simp] theorem seek_nil (w : Text) : seek w [] = [] := rfl

theorem seek_here (h : k.string = w) : seek w (k :: ks) = k :: ks := by
  rw [seek, List.dropWhile_cons_of_neg]
  simpa using h

theorem seek_cons (h : k.string ≠ w) : seek w (k :: ks) = seek w ks := by
  rw [seek, List.dropWhile_cons_of_pos]
  · rfl
  · simpa using h

theorem seek_eq_nil (h : ∀ k ∈ as, k.string ≠ w) : seek w as = [] := by
  rw [seek, List.dropWhile_eq_nil_iff]
  simpa using h

theorem seek_append (h : seek w as ≠ []) : seek w (as ++ bs) = seek w as ++ bs := by
  rw [seek, List.dropWhile_append, if_neg]
  · rfl
  · rwa [List.isEmpty_iff]

theorem seek_append_nil (h : seek w as = []) : seek w (as ++ bs) = seek w bs := by
  rw [seek, List.dropWhile_append, if_pos]
  · rfl
  · rwa [List.isEmpty_iff]

theorem seek_skip (h : ∀ k ∈ as, k.string ≠ w) : seek w (as ++ bs) = seek w bs :=
  seek_append_nil (seek_eq_nil h)

theorem seek_cases (w : Text) (ks : List Token) : seek w ks = [] ∨
    ∃ k bs, seek w ks = k :: bs ∧ k.string = w := by
  induction ks with
  | nil => exact Or.inl rfl
  | cons k ks ih =>
      by_cases hk : k.string = w
      · exact Or.inr ⟨k, ks, seek_here hk, hk⟩
      · rw [seek_cons hk]
        exact ih

theorem seek_isSuffix (w : Text) (ks : List Token) : seek w ks <:+ ks := List.dropWhile_suffix _

/-- A search over tokens stops at the first whose string is the word. -/
theorem strstr_render (hw : IsWord w) (hks : ∀ k ∈ ks, k.Plain) (ht : Breaks t) :
    strstr (quoted w) (render ks ++ t) =
      if seek w ks = [] then strstr (quoted w) t else some (render (seek w ks) ++ t) := by
  induction ks with
  | nil => rfl
  | cons k ks ih =>
      rw [List.forall_mem_cons] at hks
      have hbreaks : Breaks (k.gap ++ (render ks ++ t)) := breaks_render hks.1.breaks ht
      rw [render_cons, strstr_string hw hks.1.string hbreaks]
      by_cases hk : k.string = w
      · rw [if_pos hk, seek_here hk, if_neg (List.cons_ne_nil _ _), render_cons]
      · rw [if_neg hk, seek_cons hk, strstr_skip hks.1.gap, ih hks.2]

end Tokens

/-! ## Rows of items -/

section Items

variable {α β : Type} {R : α → β → Prop} {p : α → Prop} {q : β → Prop} {xs : List α} {ys : List β}

/-- An item has at least one token. -/
theorem length_le_flatMap {f : α → List Token} (hf : ∀ x, f x ≠ []) (xs : List α) :
    xs.length ≤ (xs.flatMap f).length := by
  induction xs with
  | nil => exact Nat.le_refl _
  | cons x xs ih =>
      have hx := List.length_pos_iff.mpr (hf x)
      rw [List.flatMap_cons, List.length_append, List.length_cons]
      omega

theorem forall₂_forall_iff (h : List.Forall₂ R xs ys) (hR : ∀ x y, R x y → (p x ↔ q y)) :
    (∀ x ∈ xs, p x) ↔ ∀ y ∈ ys, q y := by
  induction h with
  | nil => simp
  | cons hhead _ ih => rw [List.forall_mem_cons, List.forall_mem_cons, ih, hR _ _ hhead]

theorem forall₂_exists_iff (h : List.Forall₂ R xs ys) (hR : ∀ x y, R x y → (p x ↔ q y)) :
    (∃ x ∈ xs, p x) ↔ ∃ y ∈ ys, q y := by
  induction h with
  | nil => simp
  | cons hhead _ ih => rw [List.exists_mem_cons_iff, List.exists_mem_cons_iff, ih, hR _ _ hhead]

theorem forall₂_eq_nil (h : List.Forall₂ R xs ys) : xs = [] ↔ ys = [] := by
  cases h with
  | nil => simp
  | cons _ _ => simp

end Items

/-! ## Unsigned numbers -/

/-- `ULONG_MAX` -/
def ulongMax : Nat := 18446744073709551615

/-- What `strtoul` makes of the digits behind a sign; a negative number wraps. -/
def ulong (negative : Bool) (n : Nat) : Nat :=
  if n > ulongMax then ulongMax
  else if negative then (ulongMax + 1 - n) % (ulongMax + 1)
  else n

/-- `strtoul` in base 10. -/
def strtoul (t : Text) : Nat :=
  match t.dropWhile isSpace with
  | []      => 0
  | c :: cs =>
      if c = '-' then ulong true (readDigits 0 cs)
      else if c = '+' then ulong false (readDigits 0 cs)
      else ulong false (readDigits 0 (c :: cs))

theorem readDigits_quote (g t : Text) (acc : Nat) : readDigits acc (g ++ '"' :: t) = readDigits acc g := by
  induction g generalizing acc with
  | nil => rfl
  | cons c g ih =>
      rw [List.cons_append, readDigits, readDigits, ih]

/-- What is passed over ends in front of a quote, too. -/
theorem dropWhile_quote {p : Char → Bool} (hp : p '"' = false) (g t : Text) :
    (g ++ '"' :: t).dropWhile p = g.dropWhile p ++ '"' :: t := by
  induction g with
  | nil =>
      rw [List.nil_append, List.dropWhile_cons_of_neg]
      · rfl
      · rw [hp]
        exact Bool.false_ne_true
  | cons c g ih =>
      rw [List.cons_append, List.dropWhile_cons, List.dropWhile_cons]
      split
      · exact ih
      · rfl

/-- A number ends in front of a quote. -/
theorem strtoul_quote (g t : Text) : strtoul (g ++ '"' :: t) = strtoul g := by
  rw [strtoul, strtoul, dropWhile_quote (by decide)]
  cases g.dropWhile isSpace with
  | nil => rfl
  | cons c cs =>
      rw [List.cons_append]
      simp only [← List.cons_append, readDigits_quote]

theorem breaks_comma : Breaks [','] := breaks_cons (by decide) (by decide) []

theorem Numeral.starts_ofNat (n : Nat) :
    ∃ c ds, c.isDigit = true ∧ (Numeral.ofNat n).text = c :: ds := by
  obtain ⟨c, ds, hds⟩ := List.exists_cons_of_ne_nil (Numeral.ofNat n).ne_nil
  refine ⟨c, ds, (Numeral.ofNat n).isDigit c ?_, hds⟩
  rw [hds]
  exact List.mem_cons_self

/-- A number that is printed is read. -/
theorem strtoul_numeral {n : Nat} {t : Text} (hn : n ≤ ulongMax) (ht : Breaks t) :
    strtoul ((Numeral.ofNat n).text ++ t) = n := by
  obtain ⟨c, ds, hc, htext⟩ := Numeral.starts_ofNat n
  obtain ⟨hspace, hminus, hplus⟩ := digit_cases hc
  have hdigits := (Numeral.ofNat n).isDigit
  have hread : readDigits 0 ((Numeral.ofNat n).text ++ t) = n := by
    show readDigits 0 ((Numeral.ofNat n).digits ++ t) = n
    rw [readDigits_append hdigits ht, readDigits_eq hdigits]
    exact Nat.ofDigitChars_ten_toDigits
  have hstart : ¬ isSpace c = true := by
    rw [hspace]
    exact Bool.false_ne_true
  rw [htext, List.cons_append] at hread ⊢
  rw [strtoul, List.dropWhile_cons_of_neg hstart]
  simp only
  rw [if_neg hminus, if_neg hplus, hread, ulong, if_neg (Nat.not_lt_of_le hn)]
  rfl

/-! ## Printing -/

/-- A number behind a colon, up to the next member. -/
def numberGap (n : Nat) : Text := ':' :: ((Numeral.ofNat n).text ++ [','])

/-- A number under its key. -/
def numberToken (p : Text × Nat) : Token := ⟨p.1, numberGap p.2⟩

/-- Up to the digits there is the colon. -/
theorem dropWhile_numberGap {p : Char → Bool} (hcolon : p ':' = true)
    (hdigit : ∀ c, c.isDigit = true → p c = false) (n : Nat) :
    (numberGap n).dropWhile p = (Numeral.ofNat n).text ++ [','] := by
  obtain ⟨c, ds, hc, htext⟩ := Numeral.starts_ofNat n
  rw [numberGap, List.dropWhile_cons_of_pos hcolon, htext, List.cons_append]
  apply List.dropWhile_cons_of_neg
  rw [hdigit c hc]
  exact Bool.false_ne_true

theorem numberToken_plain {p : Text × Nat} (hp : IsWord p.1) : (numberToken p).Plain where
  string := hp.no_quote
  gap := by
    rw [numberToken, numberGap, List.mem_cons, List.mem_append, not_or, not_or]
    exact ⟨by decide, Numeral.no_quote _, by decide⟩
  breaks := breaks_cons (by decide) (by decide) _
  nul := by
    refine ⟨fun hmem => absurd (hp.2 _ hmem) (by decide), ?_⟩
    rw [numberToken, numberGap, List.mem_cons, List.mem_append, not_or, not_or]
    refine ⟨by decide, fun hmem => ?_, by decide⟩
    exact absurd (Numeral.char _ _ hmem) (by decide)

theorem comma_mem_numberGap (n : Nat) : ',' ∈ numberGap n :=
  List.mem_cons_of_mem _ (List.mem_append_right _ (List.mem_singleton_self _))

end CText
