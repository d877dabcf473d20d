import Mathlib.Data.List.Basic
import Mathlib.Order.Lattice

/-!
# Searching text with the string functions of C

`strchr`, `strstr` and `strtol`. A string is the row of its characters without the final NUL, and a
pointer into it is the text from there on, so that of two pointers into one string the greater one is
the shorter text, and `p + 1` is the tail of `p`.

Programs that look for a word in quotes search text in which strings alternate with what stands
between them.

* `strstr_skip`, `strstr_string` — such a search passes over everything but the word itself: over
  what holds no quote, and over every other string.
* `strstr_iff` — what a search finds in any text.
* `strchr_append`, `strstr_append` — what is found in a text is found at the same place when the text
  goes on.
* `strtol_numeral`, `strtol_quote` — what is read where a number stands, and where a string stands.
-/

namespace CText

/-- A string, from a pointer on. -/
abbrev Text := List Char

/-- What is said of every character of a text is decided on the text. -/
instance (t : Text) (p : Char → Prop) [DecidablePred p] : Decidable (∀ c ∈ t, p c) :=
  List.decidableBAll p t

/-! ## The functions -/

/-- `strchr` -/
def strchr (c : Char) : Text → Option Text
  | []      => none
  | x :: xs => if x = c then some (x :: xs) else strchr c xs

/-- `strstr`, the pattern first. -/
def strstr (pattern : Text) : Text → Option Text
  | []      => if pattern = [] then some [] else none
  | x :: xs => if pattern.isPrefixOf (x :: xs) then some (x :: xs) else strstr pattern xs

/-- `isspace` -/
def isSpace (c : Char) : Bool := [' ', '\t', '\n', Char.ofNat 11, Char.ofNat 12, '\r'].contains c

/-- The value of the digits a text starts with, behind digits of the value `acc`. -/
def readDigits (acc : Nat) : Text → Nat
  | []      => acc
  | c :: cs => if c.isDigit then readDigits (10 * acc + (c.toNat - '0'.toNat)) cs else acc

/-- `LONG_MIN` and `LONG_MAX` bound what `strtol` returns. -/
def saturate (n : Int) : Int := max (-9223372036854775808) (min n 9223372036854775807)

/-- `strtol` in base 10. -/
def strtol (t : Text) : Int :=
  match t.dropWhile isSpace with
  | []      => 0
  | c :: cs =>
      if c = '-' then saturate (-(readDigits 0 cs))
      else if c = '+' then saturate (readDigits 0 cs)
      else saturate (readDigits 0 (c :: cs))

/-- `strstr` finds the first place where the pattern stands. -/
theorem strstr_iff {w t r : Text} : strstr w t = some r ↔
    ∃ front, t = front ++ r ∧ w <+: r ∧
      ∀ front', front' ++ w <+: t → front.length ≤ front'.length := by
  induction t with
  | nil =>
      rw [strstr]
      constructor
      · intro h
        split at h
        · next hw =>
          cases h
          exact ⟨[], rfl, List.prefix_nil.mpr hw, fun _ _ => Nat.zero_le _⟩
        · cases h
      · rintro ⟨front, ht, hr, -⟩
        obtain ⟨rfl, rfl⟩ := List.append_eq_nil_iff.mp ht.symm
        rw [if_pos (List.prefix_nil.mp hr)]
  | cons x xs ih =>
      rw [strstr]
      by_cases hw : w <+: x :: xs
      · rw [if_pos (List.isPrefixOf_iff_prefix.mpr hw)]
        constructor
        · intro h
          cases h
          exact ⟨[], rfl, hw, fun _ _ => Nat.zero_le _⟩
        · rintro ⟨front, ht, -, hmin⟩
          cases List.length_eq_zero_iff.mp (Nat.le_zero.mp (hmin [] hw))
          rw [ht, List.nil_append]
      · rw [if_neg (mt List.isPrefixOf_iff_prefix.mp hw), ih]
        constructor
        · rintro ⟨front, rfl, hr, hmin⟩
          refine ⟨x :: front, rfl, hr, ?_⟩
          intro front' hfront'
          cases front' with
          | nil => exact absurd hfront' hw
          | cons y front' =>
              exact Nat.succ_le_succ (hmin front' (List.cons_prefix_cons.mp hfront').2)
        · rintro ⟨front, ht, hr, hmin⟩
          cases front with
          | nil =>
              rw [List.nil_append] at ht
              exact absurd (ht ▸ hr) hw
          | cons y front =>
              obtain ⟨rfl, rfl⟩ := List.cons.inj ht
              refine ⟨front, rfl, hr, ?_⟩
              intro front' hfront'
              exact Nat.le_of_succ_le_succ
                (hmin (x :: front') (List.cons_prefix_cons.mpr ⟨rfl, hfront'⟩))

/-- A hit stays the first one when the text goes on: it is behind every place that an occurrence
across the end could start at. -/
theorem strstr_append {w t r : Text} (h : strstr w t = some r) (more : Text) :
    strstr w (t ++ more) = some (r ++ more) := by
  obtain ⟨front, rfl, hr, hmin⟩ := strstr_iff.mp h
  rw [strstr_iff]
  refine ⟨front, List.append_assoc _ _ _, hr.trans (List.prefix_append r more), ?_⟩
  intro front' hfront'
  by_contra hlt
  rw [Nat.not_le] at hlt
  have hlength := hr.length_le
  have hinside : front' ++ w <+: front ++ r := by
    apply List.prefix_of_prefix_length_le hfront' (List.prefix_append _ more)
    rw [List.length_append, List.length_append]
    omega
  exact absurd (hmin front' hinside) (Nat.not_le.mpr hlt)

/-! ## Looking for a character -/

section Char

variable {c : Char} {a t : Text}

theorem strchr_skip (h : c ∉ a) : strchr c (a ++ t) = strchr c t := by
  induction a with
  | nil => rfl
  | cons x a ih =>
      rw [List.mem_cons, not_or] at h
      rw [List.cons_append, strchr, if_neg (Ne.symm h.1)]
      exact ih h.2

theorem strchr_here : strchr c (c :: t) = some (c :: t) := by rw [strchr, if_pos rfl]

theorem strchr_append {r : Text} (h : strchr c t = some r) (more : Text) :
    strchr c (t ++ more) = some (r ++ more) := by
  induction t with
  | nil => cases h
  | cons x t ih =>
      rw [strchr] at h
      rw [List.cons_append, strchr]
      by_cases hx : x = c
      · rw [if_pos hx] at h ⊢
        rw [← Option.some.inj h]
        rfl
      · rw [if_neg hx] at h ⊢
        exact ih h

/-- What is found starts with the character. -/
theorem strchr_head {r : Text} (h : strchr c t = some r) : ∃ s, r = c :: s := by
  induction t with
  | nil => cases h
  | cons x t ih =>
      rw [strchr] at h
      split at h
      · next hx =>
        cases h
        exact ⟨t, by rw [hx]⟩
      · exact ih h

theorem strchr_cons {x : Char} (h : x ≠ c) : strchr c (x :: t) = strchr c t := by
  rw [strchr, if_neg h]

end Char

/-! ## Looking for a word in quotes -/

/-- A word in quotes. -/
def quoted (w : Text) : Text := '"' :: (w ++ ['"'])

/-- A letter or an underscore. -/
def isWordChar (c : Char) : Bool := c.isAlpha || c = '_'

/-- A word: letters and underscores. -/
def IsWord (w : Text) : Prop := w ≠ [] ∧ ∀ c ∈ w, isWordChar c = true

instance (w : Text) : Decidable (IsWord w) := inferInstanceAs (Decidable (_ ∧ _))

/-- No word and no number goes on into the text. -/
def Breaks (t : Text) : Prop :=
  ∀ c cs, t = c :: cs → isWordChar c = false ∧ c.isDigit = false

theorem breaks_cons {c : Char} (h : isWordChar c = false) (h' : c.isDigit = false) (t : Text) :
    Breaks (c :: t) := by
  intro d cs heq
  cases heq
  exact ⟨h, h'⟩

theorem breaks_quote (t : Text) : Breaks ('"' :: t) :=
  breaks_cons (by decide) (by decide) t

theorem Breaks.append {a t : Text} (ha : ∀ c ∈ a, isWordChar c = false ∧ c.isDigit = false)
    (ht : Breaks t) : Breaks (a ++ t) := by
  cases a with
  | nil => exact ht
  | cons c a =>
      obtain ⟨hword, hdigit⟩ := ha c List.mem_cons_self
      exact breaks_cons hword hdigit (a ++ t)

section Word

variable {w s t : Text}

theorem IsWord.no_quote (h : IsWord w) : '"' ∉ w := by
  intro hmem
  exact absurd (h.2 _ hmem) (by decide)

theorem IsWord.no_colon (h : IsWord w) : ':' ∉ w := by
  intro hmem
  exact absurd (h.2 _ hmem) (by decide)

theorem strstr_cons {x : Char} (h : ¬ quoted w <+: x :: t) :
    strstr (quoted w) (x :: t) = strstr (quoted w) t := by
  rw [strstr, if_neg]
  rw [List.isPrefixOf_iff_prefix]
  exact h

/-- A search passes over what holds no quote. -/
theorem strstr_skip {a : Text} (h : '"' ∉ a) : strstr (quoted w) (a ++ t) = strstr (quoted w) t := by
  induction a with
  | nil => rfl
  | cons x a ih =>
      rw [List.mem_cons, not_or] at h
      rw [List.cons_append, strstr_cons]
      · exact ih h.2
      · intro hprefix
        exact h.1 (List.cons_prefix_cons.mp hprefix).1

/-- The word itself is found. -/
theorem strstr_here (w t : Text) : strstr (quoted w) ('"' :: (w ++ '"' :: t)) =
    some ('"' :: (w ++ '"' :: t)) := by
  rw [strstr, if_pos]
  rw [List.isPrefixOf_iff_prefix, quoted, List.cons_prefix_cons]
  refine ⟨rfl, t, ?_⟩
  rw [List.append_assoc]
  rfl

/-- A quote behind which no word stands is passed over. -/
theorem strstr_close (hw : IsWord w) (ht : Breaks t) :
    strstr (quoted w) ('"' :: t) = strstr (quoted w) t := by
  apply strstr_cons
  intro hprefix
  have htail := (List.cons_prefix_cons.mp hprefix).2
  obtain ⟨hne, hchars⟩ := hw
  cases w with
  | nil => exact hne rfl
  | cons c w =>
      cases t with
      | nil => simp at htail
      | cons d t =>
          have hcd := (List.cons_prefix_cons.mp htail).1
          have hword := hchars c List.mem_cons_self
          rw [hcd, (ht d t rfl).1] at hword
          cases hword

theorem append_quote_inj {s' t' : Text} (hs : '"' ∉ s) (hs' : '"' ∉ s')
    (h : s ++ '"' :: t = s' ++ '"' :: t') : s = s' ∧ t = t' := by
  induction s generalizing s' with
  | nil =>
      cases s' with
      | nil => exact ⟨rfl, (List.cons.inj h).2⟩
      | cons c s' =>
          have hc := (List.cons.inj h).1
          exact absurd (hc ▸ List.mem_cons_self) hs'
  | cons c s ih =>
      cases s' with
      | nil =>
          have hc := (List.cons.inj h).1
          exact absurd (hc ▸ List.mem_cons_self) hs
      | cons d s' =>
          obtain ⟨hcd, htail⟩ := List.cons.inj h
          rw [List.mem_cons, not_or] at hs hs'
          obtain ⟨hss, htt⟩ := ih hs.2 hs'.2 htail
          exact ⟨by rw [hcd, hss], htt⟩

/-- Behind the opening quote of a string its rest is passed over. -/
theorem strstr_rest (hw : IsWord w) (hs : '"' ∉ s) (ht : Breaks t) :
    strstr (quoted w) (s ++ '"' :: t) = strstr (quoted w) t := by
  rw [strstr_skip hs]
  exact strstr_close hw ht

/-- A search stops at a string that is the word, and passes over every other one. -/
theorem strstr_string (hw : IsWord w) (hs : '"' ∉ s) (ht : Breaks t) :
    strstr (quoted w) ('"' :: (s ++ '"' :: t)) =
      if s = w then some ('"' :: (s ++ '"' :: t)) else strstr (quoted w) t := by
  by_cases h : s = w
  · rw [if_pos h, h]
    exact strstr_here w t
  · rw [if_neg h, strstr_cons]
    · exact strstr_rest hw hs ht
    · rintro ⟨more, hmore⟩
      rw [quoted, List.cons_append, List.append_assoc] at hmore
      have htail := (List.cons.inj hmore).2
      exact h (append_quote_inj hw.no_quote hs htail).1.symm

/-- A hit in front of a quote ends there at the latest. -/
theorem prefix_of_quote {a : Text} (hw : '"' ∉ w) (h : w ++ ['"'] <+: a ++ '"' :: t) :
    w ++ ['"'] <+: a ++ ['"'] := by
  have ha : a ++ ['"'] <+: a ++ '"' :: t := by
    rw [List.prefix_append_right_inj]
    exact ⟨t, rfl⟩
  apply List.prefix_of_prefix_length_le h ha
  rw [List.length_append, List.length_append]
  apply Nat.add_le_add_right
  rcases Nat.lt_or_ge a.length w.length with hlt | hle
  · -- the quote behind `a` would be part of the word
    have hword : w <+: a ++ '"' :: t := (List.prefix_append w _).trans h
    have hquote : a ++ ['"'] <+: w := by
      apply List.prefix_of_prefix_length_le ha hword
      rw [List.length_append]
      exact hlt
    exact absurd (hquote.subset (by simp)) hw
  · exact hle

/-- What stands in front of a string is passed over, if the word does not stand in it. -/
theorem strstr_behind {a : Text} (hw : '"' ∉ w) (h : ¬ quoted w <:+: a ++ ['"']) :
    strstr (quoted w) (a ++ '"' :: t) = strstr (quoted w) ('"' :: t) := by
  induction a with
  | nil => rfl
  | cons x a ih =>
      rw [List.cons_append, strstr_cons]
      · apply ih
        intro hmore
        exact h (hmore.trans ⟨[x], [], by simp⟩)
      · intro hprefix
        obtain ⟨hx, htail⟩ := List.cons_prefix_cons.mp hprefix
        apply h
        have hstart : quoted w <+: x :: a ++ ['"'] := by
          rw [quoted, List.cons_append, List.cons_prefix_cons]
          exact ⟨hx, prefix_of_quote hw htail⟩
        exact hstart.isInfix

end Word

/-! ## Numbers -/

/-- White space. -/
def IsBlank (b : Text) : Prop := ∀ c ∈ b, isSpace c = true

instance (b : Text) : Decidable (IsBlank b) := inferInstanceAs (Decidable (∀ c ∈ b, _))

/-- A number as it is written: digits, and a sign if it is negative. -/
structure Numeral where
  negative : Bool
  digits : Text
  isDigit : ∀ c ∈ digits, c.isDigit = true
  ne_nil : digits ≠ []
  deriving DecidableEq

/-- How it is written. -/
def Numeral.text (x : Numeral) : Text := (if x.negative then ['-'] else []) ++ x.digits

/-- The number it stands for. -/
def Numeral.value (x : Numeral) : Int :=
  if x.negative then -(readDigits 0 x.digits) else readDigits 0 x.digits

/-- A natural number as it is printed. -/
def Numeral.ofNat (n : Nat) : Numeral where
  negative := false
  digits := Nat.toDigits 10 n
  isDigit _ hc := Nat.isDigit_of_mem_toDigits (by decide) (by decide) hc
  ne_nil := Nat.toDigits_ne_nil

theorem readDigits_eq {ds : Text} (hds : ∀ c ∈ ds, c.isDigit = true) (acc : Nat) :
    readDigits acc ds = Nat.ofDigitChars 10 ds acc := by
  induction ds generalizing acc with
  | nil => rw [Nat.ofDigitChars_nil, readDigits]
  | cons c ds ih =>
      rw [readDigits, if_pos (hds c List.mem_cons_self), Nat.ofDigitChars_cons]
      exact ih (fun d hd => hds d (List.mem_cons_of_mem c hd)) _

theorem Numeral.value_ofNat (n : Nat) : (Numeral.ofNat n).value = n := by
  have hread := readDigits_eq (Numeral.ofNat n).isDigit 0
  show ((readDigits 0 (Numeral.ofNat n).digits : Nat) : Int) = n
  rw [hread]
  exact congrArg Int.ofNat Nat.ofDigitChars_ten_toDigits

theorem Numeral.char (x : Numeral) : ∀ c ∈ x.text, c = '-' ∨ c.isDigit = true := by
  intro c hc
  rw [Numeral.text, List.mem_append] at hc
  rcases hc with hc | hc
  · left
    split at hc
    · exact List.mem_singleton.mp hc
    · cases hc
  · right
    exact x.isDigit c hc

theorem Numeral.no_quote (x : Numeral) : '"' ∉ x.text := by
  intro hc
  exact absurd (x.char _ hc) (by decide)

theorem Numeral.no_bracket (x : Numeral) : '[' ∉ x.text ∧ ']' ∉ x.text := by
  constructor
  · intro hc
    exact absurd (x.char _ hc) (by decide)
  · intro hc
    exact absurd (x.char _ hc) (by decide)

section Numbers

variable {b t : Text}

theorem readDigits_append {ds : Text} (hds : ∀ c ∈ ds, c.isDigit = true) (ht : Breaks t) (acc : Nat) :
    readDigits acc (ds ++ t) = readDigits acc ds := by
  induction ds generalizing acc with
  | nil =>
      cases t with
      | nil => rfl
      | cons c t =>
          have hc : ¬ c.isDigit = true := by
            rw [(ht c t rfl).2]
            exact Bool.false_ne_true
          exact if_neg hc
  | cons c ds ih =>
      have hc := hds c List.mem_cons_self
      rw [List.cons_append, readDigits, readDigits, if_pos hc, if_pos hc]
      exact ih (fun d hd => hds d (List.mem_cons_of_mem c hd)) _

theorem dropWhile_blank (hb : IsBlank b) {c : Char} (hc : isSpace c = false) :
    (b ++ c :: t).dropWhile isSpace = c :: t := by
  rw [List.dropWhile_append_of_pos hb, List.dropWhile_cons_of_neg]
  rw [hc]
  exact Bool.false_ne_true

/-- A digit is no white space and no sign. -/
theorem digit_cases {c : Char} (h : c.isDigit = true) : isSpace c = false ∧ c ≠ '-' ∧ c ≠ '+' := by
  have hno : ∀ d ∈ ['-', '+', ' ', '\t', '\n', Char.ofNat 11, Char.ofNat 12, '\r'],
      d.isDigit = false := by decide
  have hne : ∀ d ∈ ['-', '+', ' ', '\t', '\n', Char.ofNat 11, Char.ofNat 12, '\r'], c ≠ d := by
    rintro d hd rfl
    rw [hno c hd] at h
    cases h
  refine ⟨?_, hne '-' (by simp), hne '+' (by simp)⟩
  rw [isSpace, List.contains_eq_mem]
  apply decide_eq_false
  intro hmem
  exact hne c (List.mem_cons_of_mem _ (List.mem_cons_of_mem _ hmem)) rfl

/-- A number is read. -/
theorem strtol_numeral (hb : IsBlank b) (x : Numeral) (ht : Breaks t) :
    strtol (b ++ (x.text ++ t)) = saturate x.value := by
  obtain ⟨negative, digits, hdigits, hne⟩ := x
  cases negative with
  | true =>
      have hdrop : (b ++ '-' :: (digits ++ t)).dropWhile isSpace = '-' :: (digits ++ t) :=
        dropWhile_blank hb (by decide)
      show strtol (b ++ '-' :: (digits ++ t)) = saturate (-(readDigits 0 digits))
      simp only [strtol, hdrop, if_true]
      rw [readDigits_append hdigits ht]
  | false =>
      cases digits with
      | nil => exact absurd rfl hne
      | cons c ds =>
          obtain ⟨hspace, hminus, hplus⟩ := digit_cases (hdigits c List.mem_cons_self)
          have hdrop : (b ++ c :: (ds ++ t)).dropWhile isSpace = c :: (ds ++ t) :=
            dropWhile_blank hb hspace
          have hread := readDigits_append hdigits ht 0
          show strtol (b ++ c :: (ds ++ t)) = saturate (readDigits 0 (c :: ds))
          rw [strtol, hdrop]
          simp only
          rw [if_neg hminus, if_neg hplus, ← List.cons_append, hread]

/-- No number is read where a string stands. -/
theorem strtol_quote (hb : IsBlank b) (t : Text) : strtol (b ++ '"' :: t) = 0 := by
  rw [strtol, dropWhile_blank hb (by decide)]
  simp only
  rw [if_neg (by decide), if_neg (by decide), readDigits, if_neg (by decide)]
  decide

/-- Nor where a string would stand if the text went on. -/
theorem strtol_cut {q more r : Text} (hb : IsBlank b) (h : q ++ more = b ++ '"' :: r) :
    strtol q = 0 := by
  have hblank : ∀ {b : Text}, IsBlank b → strtol b = 0 := by
    intro b hb
    have hdrop : (b ++ []).dropWhile isSpace = [] := List.dropWhile_append_of_pos hb
    rw [List.append_nil] at hdrop
    rw [strtol, hdrop]
  rcases List.append_eq_append_iff.mp h with ⟨c, rfl, -⟩ | ⟨c, rfl, hc⟩
  · exact hblank fun d hd => hb d (List.mem_append_left c hd)
  · cases c with
    | nil =>
        rw [List.append_nil]
        exact hblank hb
    | cons x c =>
        obtain ⟨rfl, -⟩ := List.cons.inj hc
        exact strtol_quote hb c

theorem saturate_eq {n : Int} (h : -9223372036854775808 ≤ n) (h' : n ≤ 9223372036854775807) :
    saturate n = n := by
  rw [saturate]
  omega

end Numbers

end CText
