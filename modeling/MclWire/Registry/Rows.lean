import MclWire.Registry.Validator

/-!
# The scanner over rows of members

The tables of the registry are objects with named members. To the scanner an object is nothing: it
passes over braces and commas, and what it sees is a row of keys and values, with any text behind it.
Here its functions are computed on the members.

* `Row` — a text that starts with a row of members.
* `numberAfter`, `stringAfter`, `mentions` — `read_long_after`, `read_string_after` and `find_key` on
  the members (`Row.readLong`, `Row.readString`, `Row.found`).
* `entries` — the entries that the scan for `"id"` finds (`Row.scan`).
-/

namespace MclWire

open CText

namespace Registry

/-! ## Members -/

/-- A value: a number or a string. -/
inductive Value where
  | num (x : Numeral)
  | str (s : Text)
  deriving DecidableEq

/-- A member of an object. -/
structure Member where
  key : Text
  value : Value
  deriving DecidableEq

/-- How a value is written. -/
def Value.text : Value → Text
  | .num x => x.text
  | .str s => quoted s

theorem Value.text_str (s t : Text) : (Value.str s).text ++ t = '"' :: (s ++ '"' :: t) := by
  rw [Value.text, quoted, List.cons_append, List.append_assoc]
  rfl

/-- What `strtol` makes of a value. -/
def Value.number : Value → Int
  | .num x => saturate x.value
  | .str _ => 0

/-- There is no quote in the strings, and in the key no colon either. -/
structure Member.Plain (m : Member) : Prop where
  key : '"' ∉ m.key ∧ ':' ∉ m.key
  value : ∀ s, m.value = .str s → '"' ∉ s

/-- The brackets of a text pair up. -/
inductive Paired : Text → Prop
  | nil : Paired []
  | char {c : Char} {s : Text} : c ≠ '[' → c ≠ ']' → Paired s → Paired (c :: s)
  | pair {s t : Text} : Paired s → Paired t → Paired ('[' :: (s ++ ']' :: t))

/-- The brackets in the strings pair up. -/
structure Member.Closed (m : Member) : Prop where
  key : Paired m.key
  value : ∀ s, m.value = .str s → Paired s

/-- What may stand between members: white space, commas and braces. -/
def isGapChar (c : Char) : Bool := isSpace c || c = ',' || c = '{' || c = '}'

/-- A gap between members. -/
def IsGap (g : Text) : Prop := ∀ c ∈ g, isGapChar c = true

/-- The text is a row of members, with `tail` behind it. -/
inductive Row (tail : Text) : List Member → Text → Prop
  | nil {g : Text} : IsGap g → Row tail [] (g ++ tail)
  | cons {g b b' t : Text} {m : Member} {ms : List Member} : m.Plain → IsGap g → IsBlank b →
      IsBlank b' → Row tail ms t →
      Row tail (m :: ms) (g ++ '"' :: (m.key ++ '"' :: (b ++ ':' :: (b' ++ (m.value.text ++ t)))))

section Gaps

variable {g b t : Text}

theorem gapChar_cases {c : Char} (h : isGapChar c = true) :
    c ≠ '"' ∧ c ≠ ':' ∧ c ≠ '[' ∧ c ≠ ']' ∧ isWordChar c = false ∧ c.isDigit = false := by
  have hall : ∀ d ∈ [' ', '\t', '\n', Char.ofNat 11, Char.ofNat 12, '\r', ',', '{', '}'],
      d ≠ '"' ∧ d ≠ ':' ∧ d ≠ '[' ∧ d ≠ ']' ∧ isWordChar d = false ∧ d.isDigit = false := by decide
  apply hall
  simpa [isGapChar, isSpace, or_assoc] using h

theorem blank_isGap (h : IsBlank b) : IsGap b := by
  intro c hc
  rw [isGapChar, h c hc]
  rfl

theorem isGap_nil : IsGap [] := by
  intro c hc
  cases hc

theorem IsGap.append {g' : Text} (h : IsGap g) (h' : IsGap g') : IsGap (g ++ g') := by
  intro c hc
  rcases List.mem_append.mp hc with hc | hc
  · exact h c hc
  · exact h' c hc

theorem IsGap.cons {c : Char} (hc : isGapChar c = true) (h : IsGap g) : IsGap (c :: g) := by
  intro d hd
  rcases List.mem_cons.mp hd with rfl | hd
  · exact hc
  · exact h d hd

theorem IsGap.no_quote (h : IsGap g) : '"' ∉ g := fun hc => (gapChar_cases (h _ hc)).1 rfl

theorem IsGap.no_colon (h : IsGap g) : ':' ∉ g := fun hc => (gapChar_cases (h _ hc)).2.1 rfl

theorem IsGap.no_opening (h : IsGap g) : '[' ∉ g := fun hc => (gapChar_cases (h _ hc)).2.2.1 rfl

theorem IsGap.no_closing (h : IsGap g) : ']' ∉ g := fun hc => (gapChar_cases (h _ hc)).2.2.2.1 rfl

theorem IsGap.breaks (h : IsGap g) (ht : Breaks t) : Breaks (g ++ t) :=
  Breaks.append (fun c hc => (gapChar_cases (h c hc)).2.2.2.2) ht

end Gaps

section Brackets

variable {s t : Text}

theorem Paired.append (hs : Paired s) (ht : Paired t) : Paired (s ++ t) := by
  induction hs with
  | nil => exact ht
  | char hopen hclose _ ih => exact Paired.char hopen hclose ih
  | @pair s s' hs _ _ ih' =>
      rw [List.cons_append, List.append_assoc, List.cons_append]
      exact Paired.pair hs ih'

theorem paired_of_free (hopen : '[' ∉ s) (hclose : ']' ∉ s) : Paired s := by
  induction s with
  | nil => exact Paired.nil
  | cons c s ih =>
      rw [List.mem_cons, not_or] at hopen hclose
      exact Paired.char (Ne.symm hopen.1) (Ne.symm hclose.1) (ih hopen.2 hclose.2)

/-- Brackets that pair up leave the depth as it is. -/
theorem spanLoop_paired (hs : Paired s) {depth : Int} (hd : 0 < depth) (t : Text) :
    spanLoop depth (s ++ t) = spanLoop depth t := by
  induction hs generalizing depth t with
  | nil => rfl
  | char hopen hclose _ ih =>
      rw [List.cons_append, spanLoop, if_neg hopen, if_neg hclose]
      exact ih hd t
  | @pair s s' _ _ ih ih' =>
      have hclose : ']' ≠ '[' := by decide
      rw [List.cons_append, spanLoop, if_pos rfl, List.append_assoc, ih (by omega), List.cons_append,
        spanLoop, if_neg hclose, if_pos rfl, if_neg (by omega), Int.add_sub_cancel]
      exact ih' hd t

/-- The array that starts here ends at its own bracket. -/
theorem spanLoop_array (hs : Paired s) (t : Text) :
    spanLoop 0 ('[' :: (s ++ ']' :: t)) = some (']' :: t) := by
  have hclose : ']' ≠ '[' := by decide
  rw [spanLoop, if_pos rfl, spanLoop_paired hs (by decide), spanLoop, if_neg hclose, if_pos rfl,
    if_pos (by decide)]

end Brackets

/-! ## The functions of the scanner, taken apart -/

/-- A word that the scanner can look for. -/
def IsKey (w : Text) : Prop := IsWord w ∧ (quoted w).length < maxStr

instance (w : Text) : Decidable (IsKey w) := inferInstanceAs (Decidable (_ ∧ _))

theorem findKey_eq {w : Text} (hw : IsKey w) (t : Text) : findKey t w = strstr (quoted w) t := by
  rw [findKey, List.take_of_length_le]
  exact Nat.le_sub_one_of_lt hw.2

theorem findKey_skip {a w t : Text} (hw : IsKey w) (ha : '"' ∉ a) :
    findKey (a ++ t) w = findKey t w := by
  rw [findKey_eq hw, findKey_eq hw, strstr_skip ha]

/-- What is kept of a string. -/
def cut (s : Text) : Text := s.take (maxStr - 1)

/-- The number behind the next colon. -/
def longBehind (k : Text) : Option Int := (strchr ':' k).map fun colon => strtol colon.tail

/-- The next string. -/
def quotedIn (t : Text) : Option Text := do
  let opening ← strchr '"' t
  let closing ← strchr '"' opening.tail
  return cut (opening.tail.take (opening.length - closing.length - 1))

/-- The next string behind the next colon. -/
def stringBehind (k : Text) : Option Text := (strchr ':' k).bind quotedIn

theorem readLongAfter_eq (start key : Text) :
    readLongAfter start key = (findKey start key).bind longBehind := by
  rw [readLongAfter]
  cases findKey start key with
  | none => rfl
  | some k =>
      show (strchr ':' k >>= fun colon => some (strtol colon.tail)) = longBehind k
      rw [longBehind]
      cases strchr ':' k with
      | none => rfl
      | some colon => rfl

theorem readStringAfter_eq (start key : Text) :
    readStringAfter start key maxStr = (findKey start key).bind stringBehind := by
  have hcut : ∀ (n : Nat) (l : Text),
      l.take (if n ≥ maxStr then maxStr - 1 else n) = cut (l.take n) := by
    intro n l
    rw [cut, List.take_take]
    split
    · next h => rw [Nat.min_eq_left (by omega)]
    · next h => rw [Nat.min_eq_right (by omega)]
  rw [readStringAfter]
  cases findKey start key with
  | none => rfl
  | some k =>
      show (strchr ':' k >>= fun colon => _) = stringBehind k
      rw [stringBehind]
      cases strchr ':' k with
      | none => rfl
      | some colon =>
          show (strchr '"' colon >>= fun opening => _) = quotedIn colon
          rw [quotedIn]
          cases strchr '"' colon with
          | none => rfl
          | some opening =>
              simp only [Option.bind_eq_bind, Option.bind_some]
              cases strchr '"' opening.tail with
              | none => rfl
              | some closing => exact congrArg some (hcut _ _)

section Parts

variable {a s t : Text}

theorem longBehind_skip (h : ':' ∉ a) : longBehind (a ++ t) = longBehind t := by
  rw [longBehind, longBehind, strchr_skip h]

theorem longBehind_colon (t : Text) : longBehind (':' :: t) = some (strtol t) := by
  rw [longBehind, strchr_here]
  rfl

theorem stringBehind_skip (h : ':' ∉ a) : stringBehind (a ++ t) = stringBehind t := by
  rw [stringBehind, stringBehind, strchr_skip h]

theorem stringBehind_colon (t : Text) : stringBehind (':' :: t) = quotedIn t := by
  have hne : ':' ≠ '"' := by decide
  rw [stringBehind, strchr_here, Option.bind_some, quotedIn, quotedIn, strchr_cons hne]

theorem quotedIn_skip (h : '"' ∉ a) : quotedIn (a ++ t) = quotedIn t := by
  rw [quotedIn, quotedIn, strchr_skip h]

theorem quotedIn_string (h : '"' ∉ s) (t : Text) : quotedIn ('"' :: (s ++ '"' :: t)) = some (cut s) := by
  have hlen : ('"' :: (s ++ '"' :: t)).length - ('"' :: t).length - 1 = s.length := by
    simp only [List.length_cons, List.length_append]
    omega
  rw [quotedIn, strchr_here, Option.bind_eq_bind, Option.bind_some, List.tail_cons, strchr_skip h,
    strchr_here, Option.bind_some, hlen, List.take_left]
  rfl

end Parts

/-! ## The functions of the scanner, on members

The scanner works on characters. Here are the same functions on a row of members, which stop at a key or
at a string; the lemmas about a single member say what a search does from its start on. -/

/-- The number behind the next colon. -/
def numberBehind (tail : Text) : List Member → Option Int
  | []     => longBehind tail
  | m :: _ => some m.value.number

/-- `read_long_after` -/
def numberAfter (w tail : Text) : List Member → Option Int
  | []      => readLongAfter tail w
  | m :: ms =>
      if m.key = w then some m.value.number
      else if m.value = .str w then numberBehind tail ms
      else numberAfter w tail ms

/-- The next string. -/
def nextString (tail : Text) : List Member → Option Text
  | []     => quotedIn tail
  | m :: _ => some (cut m.key)

/-- The next string from a value on. -/
def Value.string (tail : Text) (ms : List Member) : Value → Option Text
  | .num _ => nextString tail ms
  | .str s => some (cut s)

/-- The next string behind the next colon. -/
def stringBehindRow (tail : Text) : List Member → Option Text
  | []      => stringBehind tail
  | m :: ms => m.value.string tail ms

/-- `read_string_after` -/
def stringAfter (w tail : Text) : List Member → Option Text
  | []      => readStringAfter tail w maxStr
  | m :: ms =>
      if m.key = w then m.value.string tail ms
      else if m.value = .str w then stringBehindRow tail ms
      else stringAfter w tail ms

/-- `find_key` finds the word. -/
def mentions (w tail : Text) : List Member → Bool
  | []      => (findKey tail w).isSome
  | m :: ms => m.key = w || m.value = .str w || mentions w tail ms

section Row

variable {tail t g b : Text} {ms : List Member} {m : Member} {w : Text}

theorem Row.gap (h : Row tail ms t) (hg : IsGap g) : Row tail ms (g ++ t) := by
  cases h with
  | nil hg' =>
      rw [← List.append_assoc]
      exact Row.nil (hg.append hg')
  | cons hm hg' hb hb' hrow =>
      rw [← List.append_assoc]
      exact Row.cons hm (hg.append hg') hb hb' hrow

theorem Row.breaks (htail : Breaks tail) (h : Row tail ms t) : Breaks t := by
  cases h with
  | nil hg => exact hg.breaks htail
  | cons _ hg _ _ _ => exact hg.breaks (breaks_quote _)

theorem Row.length_le (h : Row tail ms t) : tail.length ≤ t.length := by
  induction h with
  | nil hg =>
      rw [List.length_append]
      exact Nat.le_add_left _ _
  | cons _ _ _ _ _ ih =>
      simp only [List.length_append, List.length_cons]
      omega

/-- A search over a value. -/
theorem findKey_value (hw : IsKey w) (hm : m.Plain) (ht : Breaks t) :
    findKey (m.value.text ++ t) w =
      if m.value = .str w then some (m.value.text ++ t) else findKey t w := by
  rw [findKey_eq hw, findKey_eq hw]
  cases hv : m.value with
  | num x => rw [if_neg Value.noConfusion, Value.text, strstr_skip x.no_quote]
  | str s =>
      rw [Value.text_str, strstr_string hw.1 (hm.value s hv) ht]
      by_cases hs : s = w
      · rw [if_pos hs, if_pos (congrArg Value.str hs)]
      · rw [if_neg hs, if_neg fun h => hs (Value.str.inj h)]

/-- A search behind the opening quote of a key goes on at the value. -/
theorem findKey_rest {b' : Text} (hw : IsKey w) (hm : m.Plain) (hb : IsBlank b) (hb' : IsBlank b') :
    findKey (m.key ++ '"' :: (b ++ ':' :: (b' ++ (m.value.text ++ t)))) w =
      findKey (m.value.text ++ t) w := by
  have hbreaks : Breaks (b ++ ':' :: (b' ++ (m.value.text ++ t))) :=
    (blank_isGap hb).breaks (breaks_cons (by decide) (by decide) _)
  have hcolon : b ++ ':' :: (b' ++ (m.value.text ++ t)) =
      (b ++ ':' :: b') ++ (m.value.text ++ t) := by simp
  have hno : '"' ∉ b ++ ':' :: b' := by
    simp only [List.mem_append, List.mem_cons, not_or]
    exact ⟨(blank_isGap hb).no_quote, by decide, (blank_isGap hb').no_quote⟩
  rw [findKey_eq hw, strstr_rest hw.1 hm.key.1 hbreaks, hcolon, strstr_skip hno, findKey_eq hw]

/-- A search over a key. -/
theorem findKey_member {b' : Text} (hw : IsKey w) (hm : m.Plain) (hb : IsBlank b)
    (hb' : IsBlank b') :
    findKey ('"' :: (m.key ++ '"' :: (b ++ ':' :: (b' ++ (m.value.text ++ t))))) w =
      if m.key = w then some ('"' :: (m.key ++ '"' :: (b ++ ':' :: (b' ++ (m.value.text ++ t)))))
      else findKey (m.value.text ++ t) w := by
  have hbreaks : Breaks (b ++ ':' :: (b' ++ (m.value.text ++ t))) :=
    (blank_isGap hb).breaks (breaks_cons (by decide) (by decide) _)
  rw [findKey_eq hw, strstr_string hw.1 hm.key.1 hbreaks]
  by_cases hkey : m.key = w
  · rw [if_pos hkey, if_pos hkey]
  · rw [if_neg hkey, if_neg hkey, ← findKey_rest hw hm hb hb', findKey_eq hw,
      strstr_rest hw.1 hm.key.1 hbreaks]

/-- A search for another word than the key of the first member goes on at its value. -/
theorem Row.unkeyed (h : Row tail (m :: ms) t) (hw : IsKey w) (hkey : m.key ≠ w) :
    m.Plain ∧ ∃ t', Row tail ms t' ∧ findKey t w = findKey (m.value.text ++ t') w := by
  cases h with
  | @cons g b b' t' _ _ hm hg hb hb' hrow =>
      refine ⟨hm, t', hrow, ?_⟩
      rw [findKey_skip hw hg.no_quote, findKey_member hw hm hb hb', if_neg hkey]

/-- A search for the key of the first member stops there, and started again it goes on at the
value. -/
theorem Row.keyed (h : Row tail (m :: ms) t) (hw : IsKey w) (hkey : m.key = w) :
    m.Plain ∧ ∃ e t', findKey t w = some e ∧ Row tail (m :: ms) e ∧ Row tail ms t' ∧
      findKey e.tail w = findKey (m.value.text ++ t') w := by
  cases h with
  | @cons g b b' t' _ _ hm hg hb hb' hrow =>
      refine ⟨hm, _, t', ?_, Row.cons hm isGap_nil hb hb' hrow, hrow, findKey_rest hw hm hb hb'⟩
      rw [findKey_skip hw hg.no_quote, findKey_member hw hm hb hb', if_pos hkey]
      rfl

/-- A search for a word that the first member does not hold goes on behind it. -/
theorem Row.skip (h : Row tail (m :: ms) t) (htail : Breaks tail) (hw : IsKey w) (hkey : m.key ≠ w)
    (hvalue : m.value ≠ .str w) : ∃ t', Row tail ms t' ∧ findKey t w = findKey t' w := by
  obtain ⟨hm, t', hrow, hfind⟩ := h.unkeyed hw hkey
  refine ⟨t', hrow, ?_⟩
  rw [hfind, findKey_value hw hm (hrow.breaks htail), if_neg hvalue]

/-! ## Where a search stops

By induction on the row: the search stops at the first key or value that is the word, or goes on behind
the row. Each function of the scanner then reads on from there. -/

/-- What a search through a row comes to: it stops at a key or at a value, or goes on behind the
row. -/
inductive Hit (w tail : Text) : List Member → Option Text → Prop
  | behind : Hit w tail [] (findKey tail w)
  | key {m : Member} {ms : List Member} {e : Text} : m.key = w → Row tail (m :: ms) e →
      Hit w tail (m :: ms) (some e)
  | value {m : Member} {ms : List Member} {t : Text} : m.key ≠ w → m.value = .str w →
      Row tail ms t → Hit w tail (m :: ms) (some (m.value.text ++ t))
  | pass {m : Member} {ms : List Member} {o : Option Text} : m.key ≠ w → m.value ≠ .str w →
      Hit w tail ms o → Hit w tail (m :: ms) o

theorem Row.hit (h : Row tail ms t) (htail : Breaks tail) (hw : IsKey w) :
    Hit w tail ms (findKey t w) := by
  induction ms generalizing t with
  | nil =>
      cases h with
      | nil hg =>
          rw [findKey_skip hw hg.no_quote]
          exact Hit.behind
  | cons m ms ih =>
      by_cases hkey : m.key = w
      · obtain ⟨-, e, -, hfind, hrow, -⟩ := h.keyed hw hkey
        rw [hfind]
        exact Hit.key hkey hrow
      · obtain ⟨hm, t', hrow, hfind⟩ := h.unkeyed hw hkey
        rw [hfind, findKey_value hw hm (hrow.breaks htail)]
        by_cases hvalue : m.value = .str w
        · rw [if_pos hvalue]
          exact Hit.value hkey hvalue hrow
        · rw [if_neg hvalue]
          exact Hit.pass hkey hvalue (ih hrow)

theorem Hit.passed {o : Option Text} (h : Hit w tail ms o)
    (hms : ∀ m ∈ ms, m.key ≠ w ∧ m.value ≠ .str w) : o = findKey tail w := by
  induction h with
  | behind => rfl
  | key hkey _ => exact absurd hkey (hms _ List.mem_cons_self).1
  | value _ hvalue _ => exact absurd hvalue (hms _ List.mem_cons_self).2
  | pass _ _ _ ih => exact ih fun m hm => hms m (List.mem_cons_of_mem _ hm)

/-- A search for a word that no member holds goes on behind the row. -/
theorem Row.pass (h : Row tail ms t) (htail : Breaks tail) (hw : IsKey w)
    (hms : ∀ m ∈ ms, m.key ≠ w ∧ m.value ≠ .str w) : findKey t w = findKey tail w :=
  (h.hit htail hw).passed hms

theorem Row.long (h : Row tail ms t) (htail : Breaks tail) :
    longBehind t = numberBehind tail ms := by
  cases h with
  | nil hg => exact longBehind_skip hg.no_colon
  | @cons g b b' t m ms hm hg hb hb' hrow =>
      have hno : ':' ∉ '"' :: (m.key ++ '"' :: b) := by
        simp only [List.mem_cons, List.mem_append, not_or]
        exact ⟨by decide, hm.key.2, by decide, (blank_isGap hb).no_colon⟩
      have hsplit : '"' :: (m.key ++ '"' :: (b ++ ':' :: (b' ++ (m.value.text ++ t)))) =
          '"' :: (m.key ++ '"' :: b) ++ ':' :: (b' ++ (m.value.text ++ t)) := by simp
      rw [longBehind_skip hg.no_colon, hsplit, longBehind_skip hno, longBehind_colon, numberBehind]
      congr 1
      cases hv : m.value with
      | num x => exact strtol_numeral hb' x (hrow.breaks htail)
      | str s => exact strtol_quote hb' _

theorem Row.quote (h : Row tail ms t) : quotedIn t = nextString tail ms := by
  cases h with
  | nil hg => exact quotedIn_skip hg.no_quote
  | cons hm hg _ _ _ =>
      rw [quotedIn_skip hg.no_quote, quotedIn_string hm.key.1]
      rfl

theorem Row.string (h : Row tail ms t) : stringBehind t = stringBehindRow tail ms := by
  cases h with
  | nil hg => exact stringBehind_skip hg.no_colon
  | @cons g b b' t m ms hm hg hb hb' hrow =>
      have hno : ':' ∉ '"' :: (m.key ++ '"' :: b) := by
        simp only [List.mem_cons, List.mem_append, not_or]
        exact ⟨by decide, hm.key.2, by decide, (blank_isGap hb).no_colon⟩
      have hsplit : '"' :: (m.key ++ '"' :: (b ++ ':' :: (b' ++ (m.value.text ++ t)))) =
          '"' :: (m.key ++ '"' :: b) ++ ':' :: (b' ++ (m.value.text ++ t)) := by simp
      rw [stringBehind_skip hg.no_colon, hsplit, stringBehind_skip hno, stringBehind_colon,
        quotedIn_skip (blank_isGap hb').no_quote, stringBehindRow]
      cases hv : m.value with
      | num x =>
          rw [Value.text, quotedIn_skip (Numeral.no_quote x), hrow.quote, Value.string]
      | str s =>
          rw [Value.text_str, Value.string]
          exact quotedIn_string (hm.value s hv) t

/-- From the word in a value on, the scanner reads what stands behind the value. -/
theorem behind_value (hw : IsWord w) (hv : m.value = .str w) (t : Text) :
    longBehind (m.value.text ++ t) = longBehind t ∧
      stringBehind (m.value.text ++ t) = stringBehind t := by
  have hno : ':' ∉ m.value.text := by
    rw [hv, Value.text, quoted]
    simp only [List.mem_cons, List.mem_append, not_or]
    exact ⟨by decide, hw.no_colon, by decide, by simp⟩
  exact ⟨longBehind_skip hno, stringBehind_skip hno⟩

theorem Hit.long {o : Option Text} (h : Hit w tail ms o) (htail : Breaks tail) (hw : IsKey w) :
    o.bind longBehind = numberAfter w tail ms := by
  induction h with
  | behind => exact (readLongAfter_eq tail w).symm
  | key hkey hrow =>
      rw [numberAfter, if_pos hkey]
      exact hrow.long htail
  | value hkey hvalue hrow =>
      rw [numberAfter, if_neg hkey, if_pos hvalue, Option.bind_some, (behind_value hw.1 hvalue _).1]
      exact hrow.long htail
  | pass hkey hvalue _ ih =>
      rw [numberAfter, if_neg hkey, if_neg hvalue]
      exact ih

theorem Hit.string {o : Option Text} (h : Hit w tail ms o) (hw : IsKey w) :
    o.bind stringBehind = stringAfter w tail ms := by
  induction h with
  | behind => exact (readStringAfter_eq tail w).symm
  | key hkey hrow =>
      rw [stringAfter, if_pos hkey]
      exact hrow.string
  | value hkey hvalue hrow =>
      rw [stringAfter, if_neg hkey, if_pos hvalue, Option.bind_some, (behind_value hw.1 hvalue _).2]
      exact hrow.string
  | pass hkey hvalue _ ih =>
      rw [stringAfter, if_neg hkey, if_neg hvalue]
      exact ih

theorem Hit.found {o : Option Text} (h : Hit w tail ms o) : o.isSome = mentions w tail ms := by
  induction h with
  | behind => rfl
  | key hkey _ =>
      rw [mentions, decide_eq_true hkey]
      rfl
  | value hkey hvalue _ =>
      rw [mentions, decide_eq_true hvalue, Bool.or_true]
      rfl
  | pass hkey hvalue _ ih =>
      rw [mentions, decide_eq_false hkey, decide_eq_false hvalue]
      exact ih

theorem Row.readLong (h : Row tail ms t) (htail : Breaks tail) (hw : IsKey w) :
    readLongAfter t w = numberAfter w tail ms := by
  rw [readLongAfter_eq]
  exact (h.hit htail hw).long htail hw

theorem Row.readString (h : Row tail ms t) (htail : Breaks tail) (hw : IsKey w) :
    readStringAfter t w maxStr = stringAfter w tail ms := by
  rw [readStringAfter_eq]
  exact (h.hit htail hw).string hw

theorem Row.found (h : Row tail ms t) (htail : Breaks tail) (hw : IsKey w) :
    (findKey t w).isSome = mentions w tail ms := (h.hit htail hw).found

theorem Row.missing (h : Row tail ms t) (htail : Breaks tail) (hw : IsKey w) :
    findKey t w = none ↔ mentions w tail ms = false := by
  rw [← h.found htail hw, Option.isSome_eq_false_iff, Option.isNone_iff_eq_none]

theorem Value.paired (hm : m.Closed) : Paired m.value.text := by
  cases hv : m.value with
  | num x => exact paired_of_free x.no_bracket.1 x.no_bracket.2
  | str s =>
      have hquote : Paired ['"'] := paired_of_free (by decide) (by decide)
      exact hquote.append ((hm.value s hv).append hquote)

/-- In a row the brackets pair up if they do so in its strings. -/
theorem Row.paired (h : Row tail ms t) (hms : ∀ m ∈ ms, m.Closed) :
    ∃ body, t = body ++ tail ∧ Paired body := by
  induction h with
  | @nil g hg => exact ⟨g, rfl, paired_of_free hg.no_opening hg.no_closing⟩
  | @cons g b b' t m ms hm hg hb hb' hrow ih =>
      obtain ⟨body, rfl, hbody⟩ := ih fun m' hm' => hms m' (List.mem_cons_of_mem m hm')
      have hm := hms m List.mem_cons_self
      have hgap : ∀ {g : Text}, IsGap g → Paired g :=
        fun hg => paired_of_free hg.no_opening hg.no_closing
      have hrest := (hgap (blank_isGap hb')).append ((Value.paired hm).append hbody)
      have hcolon := (hgap (blank_isGap hb)).append
        (Paired.char (c := ':') (by decide) (by decide) hrest)
      have hkey := hm.key.append (Paired.char (c := '"') (by decide) (by decide) hcolon)
      refine ⟨_, ?_, (hgap hg).append (Paired.char (c := '"') (by decide) (by decide) hkey)⟩
      simp

end Row

end Registry

end MclWire
