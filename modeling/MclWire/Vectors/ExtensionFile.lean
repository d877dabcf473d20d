import MclWire.Vectors.ExtensionScan

/-!
# Files of extension vectors

A file of vectors as it is published: two sections, and in each the vectors one after the other, with
any other members between those that the validator looks for.

* `Positive`, `Negative`, `VectorFile` — such a file, as a row of tokens.
* `checkSection_positive`, `checkSection_negative` — a turn of `check_section` comes to the next vector,
  if its name and its digits fit the buffers.
* `expectedSize_eq`, `checkNegative_eq` — the members that a turn looks for.
* `find_sections` — where the sections start.
-/

namespace MclWire

open CText

namespace ExtensionVectors

/-! ## Files -/

/-- `"name"` -/
def nameKey : Text := "name".toList

/-- `"bytes_hex"` -/
def hexKey : Text := "bytes_hex".toList

/-- `"expect"` -/
def expectKey : Text := "expect".toList

/-- The members of a vector, from its name up to its bytes. -/
structure Vector where
  nameGap : Text
  name : Token
  between : List Token
  hexGap : Text
  hex : Token
  separators : IsSeparator nameGap ∧ IsSeparator hexGap
  plain : name.Plain ∧ (∀ k ∈ between, k.Plain) ∧ hex.Plain
  between_keys : ∀ k ∈ between, k.string ≠ hexKey

/-- The tokens behind the name, up to the bytes. -/
def Vector.members (v : Vector) : List Token := v.between ++ [⟨hexKey, v.hexGap⟩, v.hex]

/-- The tokens of the vector, up to its bytes. -/
def Vector.front (v : Vector) : List Token := ⟨nameKey, v.nameGap⟩ :: v.name :: v.members

/-- The name and the digits fit the buffers of `check_section`. -/
def Vector.Fits (v : Vector) : Prop :=
  v.name.string.length < 128 ∧ v.hex.string.length < maxHexChars

instance (v : Vector) : Decidable v.Fits := inferInstanceAs (Decidable (_ ∧ _))

/-- The tokens that are searched for `"size"`: the last string, without what stands behind it. -/
def Vector.window (v : Vector) : List Token := v.between ++ [⟨hexKey, v.hexGap⟩, ⟨v.hex.string, []⟩]

/-- The declared size: the number behind the first `"size"`. -/
def Vector.declaredSize (v : Vector) : Nat :=
  if ((lookup "size".toList v.window).any fun found => found.1.string.length < 64) then 0
  else
    match seek "size".toList v.window with
    | []     => 0
    | k :: _ => strtoul (k.gap.dropWhile fun c => c = ' ' || c = ':')

/-- A vector of the first section, with the members behind its bytes. -/
structure Positive extends Vector where
  behind : List Token
  behind_plain : ∀ k ∈ behind, k.Plain
  behind_keys : ∀ k ∈ behind, k.string ≠ nameKey

def Positive.tokens (v : Positive) : List Token := v.front ++ v.behind

/-- A vector of the second section, with the status that it expects and the members around that. -/
structure Negative extends Vector where
  before : List Token
  expectGap : Text
  expect : Token
  behind : List Token
  expect_separator : IsSeparator expectGap
  parts_plain : (∀ k ∈ before, k.Plain) ∧ expect.Plain ∧ ∀ k ∈ behind, k.Plain
  before_keys : ∀ k ∈ before, k.string ≠ nameKey ∧ k.string ≠ expectKey
  expect_key : expect.string ≠ nameKey
  behind_keys : ∀ k ∈ behind, k.string ≠ nameKey

/-- The tokens behind the bytes. -/
def Negative.others (v : Negative) : List Token :=
  v.before ++ ⟨expectKey, v.expectGap⟩ :: v.expect :: v.behind

def Negative.tokens (v : Negative) : List Token := v.front ++ v.others

/-- The vector names the decoder that does not know extensions. -/
def Negative.plainDecoder (v : Negative) : Bool :=
  (lookup "decoder".toList (v.members ++ v.others)).any fun found =>
    found.1.string = "mcl_wire_tier0_decode".toList

/-- A file of vectors. -/
structure VectorFile where
  lead : Text
  head : List Token
  positiveGap : Text
  positives : List Positive
  negativeGap : Text
  negatives : List Negative
  lead_plain : '"' ∉ lead ∧ Char.ofNat 0 ∉ lead
  head_plain : ∀ k ∈ head, k.Plain
  head_keys : ∀ k ∈ head, k.string ≠ "positive".toList ∧ k.string ≠ "negative".toList
  gaps_plain : Token.Plain ⟨"positive".toList, positiveGap⟩ ∧
    Token.Plain ⟨"negative".toList, negativeGap⟩
  positives_keys : ∀ v ∈ positives, ∀ k ∈ v.tokens, k.string ≠ "negative".toList

/-- The first section. -/
def VectorFile.positiveTokens (f : VectorFile) : List Token :=
  ⟨"positive".toList, f.positiveGap⟩ :: f.positives.flatMap Positive.tokens

/-- The second section. -/
def VectorFile.negativeTokens (f : VectorFile) : List Token :=
  ⟨"negative".toList, f.negativeGap⟩ :: f.negatives.flatMap Negative.tokens

/-- The text of the file. -/
def VectorFile.text (f : VectorFile) : Text :=
  f.lead ++ render (f.head ++ (f.positiveTokens ++ f.negativeTokens))

/-! ## Tokens of a vector -/

section Tokens

theorem plain_of_separator {w g : Text} (hw : IsWord w) (hg : IsSeparator g) : Token.Plain ⟨w, g⟩ := by
  have hlist : ∀ c ∈ [' ', ':', '\t', '\n', '\r'], c ≠ '"' ∧ c ≠ Char.ofNat 0 ∧
      isWordChar c = false ∧ c.isDigit = false := by decide
  have hall : ∀ c, isSeparator c = true → c ≠ '"' ∧ c ≠ Char.ofNat 0 ∧ isWordChar c = false ∧
      c.isDigit = false := by
    intro c hc
    apply hlist
    simpa [isSeparator, or_assoc] using hc
  refine ⟨hw.no_quote, ?_, ?_, ?_, ?_⟩
  · intro hmem
    exact (hall _ (hg _ hmem)).1 rfl
  · rintro c cs rfl
    exact (hall c (hg c List.mem_cons_self)).2.2
  · intro hmem
    exact absurd (hw.2 _ hmem) (by decide)
  · intro hmem
    exact (hall _ (hg _ hmem)).2.1 rfl

theorem Vector.members_plain (v : Vector) : ∀ k ∈ v.members, k.Plain := by
  obtain ⟨-, hbetween, hhex⟩ := v.plain
  have hkey : Token.Plain ⟨hexKey, v.hexGap⟩ := plain_of_separator (by decide) v.separators.2
  intro k hk
  simp only [Vector.members, List.mem_append, List.mem_cons, List.not_mem_nil, or_false] at hk
  rcases hk with hk | rfl | rfl
  · exact hbetween k hk
  · exact hkey
  · exact hhex

theorem Vector.front_plain (v : Vector) : ∀ k ∈ v.front, k.Plain := by
  have hkey : Token.Plain ⟨nameKey, v.nameGap⟩ := plain_of_separator (by decide) v.separators.1
  intro k hk
  rcases List.mem_cons.mp hk with rfl | hk
  · exact hkey
  · rcases List.mem_cons.mp hk with rfl | hk
    · exact v.plain.1
    · exact v.members_plain k hk

theorem Positive.tokens_plain (v : Positive) : ∀ k ∈ v.tokens, k.Plain := by
  intro k hk
  rcases List.mem_append.mp hk with hk | hk
  · exact v.front_plain k hk
  · exact v.behind_plain k hk

theorem Negative.others_plain (v : Negative) : ∀ k ∈ v.others, k.Plain := by
  obtain ⟨hbefore, hexpect, hbehind⟩ := v.parts_plain
  have hkey : Token.Plain ⟨expectKey, v.expectGap⟩ := plain_of_separator (by decide) v.expect_separator
  intro k hk
  simp only [Negative.others, List.mem_append, List.mem_cons] at hk
  rcases hk with hk | rfl | rfl | hk
  · exact hbefore k hk
  · exact hkey
  · exact hexpect
  · exact hbehind k hk

theorem Negative.tokens_plain (v : Negative) : ∀ k ∈ v.tokens, k.Plain := by
  intro k hk
  rcases List.mem_append.mp hk with hk | hk
  · exact v.front_plain k hk
  · exact v.others_plain k hk

/-- None of the members behind the bytes is a name. -/
theorem Negative.others_keys (v : Negative) : ∀ k ∈ v.others, k.string ≠ nameKey := by
  intro k hk
  simp only [Negative.others, List.mem_append, List.mem_cons] at hk
  rcases hk with hk | rfl | rfl | hk
  · exact (v.before_keys k hk).1
  · exact (by decide : expectKey ≠ nameKey)
  · exact v.expect_key
  · exact v.behind_keys k hk

end Tokens

/-! ## Turns of `check_section`

A turn looks for a name, for the digits behind it, and copies both. In a row of tokens each search comes
to the first token that is the key; what stands in front of it is passed over. -/

/-- The text behind the name. -/
def Vector.afterName (v : Vector) (rest : List Token) (stop : Text) : Text :=
  v.name.gap ++ (render (v.members ++ rest) ++ stop)

/-- The text behind the bytes. -/
def Vector.cursor (v : Vector) (rest : List Token) (stop : Text) : Text :=
  v.hex.gap ++ (render rest ++ stop)

section Turns

variable {g stop : Text} {as bs rest : List Token} {v : Vector} {k : Token}
  {locals : Nat → Locals} {positive : Bool} {n : Nat}

/-- The row behind one of its tokens. -/
theorem Row.behind (h : Row g (as ++ k :: bs) stop) : Row k.gap bs stop := by
  obtain ⟨hk, hbs⟩ := List.forall_mem_cons.mp fun k' hk' =>
    h.plain k' (List.mem_append_right as hk')
  exact ⟨⟨hk.gap, hk.nul.2⟩, hbs, h.breaks, h.nul⟩

theorem Row.behind_name (h : Row g (as ++ (v.front ++ rest)) stop) :
    Row v.name.gap (v.members ++ rest) stop := by
  have hsplit : as ++ (v.front ++ rest) =
      (as ++ [⟨nameKey, v.nameGap⟩]) ++ v.name :: (v.members ++ rest) := by simp [Vector.front]
  rw [hsplit] at h
  exact h.behind

theorem Row.behind_hex (h : Row g (v.members ++ rest) stop) : Row v.hex.gap rest stop := by
  have hsplit : v.members ++ rest = (v.between ++ [⟨hexKey, v.hexGap⟩]) ++ v.hex :: rest := by
    simp [Vector.members]
  rw [hsplit] at h
  exact h.behind

/-- The search for the name of the next vector. -/
theorem find_name (h : Row g (as ++ (v.front ++ rest)) stop) (has : ∀ k ∈ as, k.string ≠ nameKey) :
    findStringValue (g ++ (render (as ++ (v.front ++ rest)) ++ stop)) stop "name".toList 128 =
      if v.name.string.length < 128 then some (v.name.string, v.afterName rest stop) else none := by
  have hlookup : lookup nameKey (as ++ (v.front ++ rest)) = some (v.name, v.members ++ rest) := by
    rw [lookup_skip has]
    exact lookup_here rfl v.separators.1
  have hfind := findStringValue_render 128 (by decide : IsKey nameKey) h (by decide)
  rw [hlookup] at hfind
  exact hfind

/-- The search for its bytes. -/
theorem find_hex (h : Row v.name.gap (v.members ++ rest) stop) :
    findStringValue (v.afterName rest stop) stop "bytes_hex".toList maxHexChars =
      if v.hex.string.length < maxHexChars then some (v.hex.string, v.cursor rest stop)
      else none := by
  have hlookup : lookup hexKey (v.members ++ rest) = some (v.hex, rest) := by
    rw [Vector.members, List.append_assoc, lookup_skip v.between_keys]
    exact lookup_here rfl v.separators.2
  have hfind := findStringValue_render maxHexChars (by decide : IsKey hexKey) h (by decide)
  rw [hlookup] at hfind
  exact hfind

/-- A vector that does not fit ends the section. -/
theorem checkSection_unfit (h : Row g (as ++ (v.front ++ rest)) stop)
    (has : ∀ k ∈ as, k.string ≠ nameKey) (hfits : ¬ v.Fits) :
    checkSection locals stop positive (n + 1) (g ++ (render (as ++ (v.front ++ rest)) ++ stop)) =
      [] := by
  rw [checkSection, find_name h has]
  by_cases hname : v.name.string.length < 128
  · rw [if_pos hname]
    simp only
    rw [find_hex h.behind_name, if_neg fun hhex => hfits ⟨hname, hhex⟩]
  · rw [if_neg hname]

/-- Digits that are none fail, and the cursor stays behind them. -/
theorem checkSection_notHex (h : Row g (as ++ (v.front ++ rest)) stop)
    (has : ∀ k ∈ as, k.string ≠ nameKey) (hfits : v.Fits)
    (hdecode : decodeHex v.hex.string 512 = none) :
    checkSection locals stop positive (n + 1) (g ++ (render (as ++ (v.front ++ rest)) ++ stop)) =
      ⟨v.name.string, some .notHex⟩ ::
        checkSection locals stop positive n (v.cursor rest stop) := by
  rw [checkSection, find_name h has, if_pos hfits.1]
  simp only
  rw [find_hex h.behind_name, if_pos hfits.2]
  simp only [hdecode]

/-- What a turn comes to in the first section. -/
theorem checkSection_positive (h : Row g (as ++ (v.front ++ rest)) stop)
    (has : ∀ k ∈ as, k.string ≠ nameKey) (hfits : v.Fits) {bytes : List UInt8}
    (hdecode : decodeHex v.hex.string 512 = some bytes) :
    checkSection locals stop true (n + 1) (g ++ (render (as ++ (v.front ++ rest)) ++ stop)) =
      ⟨v.name.string,
        checkPositive (locals n) (v.afterName rest stop) (v.cursor rest stop) bytes⟩ ::
        checkSection locals stop true n (v.cursor rest stop) := by
  rw [checkSection, find_name h has, if_pos hfits.1]
  simp only
  rw [find_hex h.behind_name, if_pos hfits.2]
  simp only [hdecode, if_true]

/-- What a turn comes to in the second one. -/
theorem checkSection_negative (h : Row g (as ++ (v.front ++ rest)) stop)
    (has : ∀ k ∈ as, k.string ≠ nameKey) (hfits : v.Fits) {bytes : List UInt8}
    (hdecode : decodeHex v.hex.string 512 = some bytes) {failure : Option Failure} {cursor : Text}
    (hchecked : checkNegative (locals n) (v.afterName rest stop) (v.cursor rest stop) bytes =
      (failure, cursor)) :
    checkSection locals stop false (n + 1) (g ++ (render (as ++ (v.front ++ rest)) ++ stop)) =
      ⟨v.name.string, failure⟩ :: checkSection locals stop false n cursor := by
  rw [checkSection, find_name h has, if_pos hfits.1]
  simp only
  rw [find_hex h.behind_name, if_pos hfits.2]
  simp only [hdecode, hchecked, Bool.false_eq_true, if_false]

/-- A section without a name is at its end. -/
theorem checkSection_nil (h : Row g as stop) (has : ∀ k ∈ as, k.string ≠ nameKey) :
    checkSection locals stop positive n (g ++ (render as ++ stop)) = [] := by
  cases n with
  | zero => rfl
  | succ n =>
      have hfind := findStringValue_render 128 (by decide : IsKey nameKey) h (by decide)
      rw [lookup_none has] at hfind
      have hnone : findStringValue (g ++ (render as ++ stop)) stop "name".toList 128 = none := hfind
      rw [checkSection, hnone]

end Turns

/-! ## Members

What is read of a vector besides its name and its digits: the declared size, which is looked for between
the two, the status that is expected, and whether the decoder without extensions is named. -/

section Size

variable {g stop : Text} {as rest : List Token} {v : Vector}

/-- The window of the search for `"size"`. -/
theorem Row.window (h : Row v.name.gap (v.members ++ rest) stop) :
    Row v.name.gap v.window (v.cursor rest stop) ∧
      v.afterName rest stop = v.name.gap ++ (render v.window ++ v.cursor rest stop) := by
  have hhex := v.plain.2.2
  constructor
  · refine ⟨h.gap, ?_, breaks_render hhex.breaks h.breaks, h.behind_hex.no_nul⟩
    intro k hk
    simp only [Vector.window, List.mem_append, List.mem_cons, List.not_mem_nil, or_false] at hk
    rcases hk with hk | rfl | rfl
    · exact v.plain.2.1 k hk
    · exact plain_of_separator (by decide) v.separators.2
    · exact ⟨hhex.string, List.not_mem_nil, breaks_nil, hhex.nul.1, List.not_mem_nil⟩
  · simp [Vector.afterName, Vector.cursor, Vector.members, Vector.window, render]

/-- `expected_size` -/
theorem expectedSize_eq (h : Row v.name.gap (v.members ++ rest) stop)
    (hhex : v.hex.string ≠ "size".toList) :
    expectedSize (v.afterName rest stop) (v.cursor rest stop) = v.declaredSize := by
  obtain ⟨hrow, htext⟩ := h.window
  have hkey : IsKey "size".toList := by decide
  have hfind := findStringValue_render 64 hkey hrow (by decide)
  rw [expectedSize, htext, hfind, Vector.declaredSize, strstrIn_eq hrow.no_nul,
    strstr_skip hrow.gap.1, strstr_render hkey.1 hrow.plain hrow.breaks]
  have hsome : ((lookup "size".toList v.window).bind fun found =>
      if found.1.string.length < 64 then
        some (found.1.string, found.1.gap ++ (render found.2 ++ v.cursor rest stop)) else none).isSome =
      (lookup "size".toList v.window).any fun found => found.1.string.length < 64 := by
    cases lookup "size".toList v.window with
    | none => rfl
    | some found =>
        rw [Option.bind_some, Option.any_some]
        split
        · next hlt => simpa using hlt
        · next hlt => simpa using hlt
  rw [hsome]
  congr 1
  rcases seek_cases "size".toList v.window with hseek | ⟨k, ks, hseek, hk⟩
  · rw [hseek, if_pos rfl]
    cases hbehind : strstr (quoted "size".toList) (v.cursor rest stop) with
    | none => rfl
    | some p => exact if_pos (strstr_isSuffix hbehind).length_le
  · -- behind the token there is another one, since the last one is not the key
    have hne : ks ≠ [] := by
      rintro rfl
      have hsuffix := seek_isSuffix "size".toList v.window
      rw [hseek] at hsuffix
      obtain ⟨front, hfront⟩ := hsuffix
      have hlast := congrArg List.getLast? hfront
      rw [List.getLast?_concat, Vector.window] at hlast
      simp only [List.getLast?_append, List.getLast?_cons_cons, List.getLast?_singleton,
        Option.some_or, Option.some.injEq] at hlast
      rw [hlast] at hk
      exact hhex hk
    obtain ⟨k', ks, rfl⟩ := List.exists_cons_of_ne_nil hne
    have hlong : ¬ (render (k :: k' :: ks) ++ v.cursor rest stop).length ≤
        (v.cursor rest stop).length := by
      rw [render_cons]
      simp only [List.length_cons, List.length_append]
      omega
    rw [hseek, if_neg (List.cons_ne_nil _ _)]
    simp only
    rw [if_neg hlong, render_cons, hk]
    show strtoul ((k.gap ++ (render (k' :: ks) ++ v.cursor rest stop)).dropWhile _) = _
    rw [render_cons, dropWhile_quote (by decide), strtoul_quote]

end Size

section Expected

variable {g : Text} {rest : List Token} {v : Negative} {vs : List Negative}

theorem Row.behind_expect {stop : Text} (h : Row g (v.others ++ rest) stop) :
    Row v.expect.gap (v.behind ++ rest) stop := by
  have hsplit : v.others ++ rest =
      (v.before ++ [⟨expectKey, v.expectGap⟩]) ++ v.expect :: (v.behind ++ rest) := by
    simp [Negative.others]
  rw [hsplit] at h
  exact h.behind

/-- The next vector, or the end of the file. -/
theorem bound_eq (h : Row g (v.behind ++ vs.flatMap Negative.tokens) []) :
    bound (g ++ (render (v.behind ++ vs.flatMap Negative.tokens) ++ [])) =
      render (vs.flatMap Negative.tokens) := by
  have hkey : IsWord nameKey := by decide
  have hfind : strstrIn (quoted nameKey)
      (g ++ (render (v.behind ++ vs.flatMap Negative.tokens) ++ [])) =
      if seek nameKey (vs.flatMap Negative.tokens) = [] then strstr (quoted nameKey) []
      else some (render (seek nameKey (vs.flatMap Negative.tokens)) ++ []) := by
    rw [strstrIn_eq h.no_nul, strstr_skip h.gap.1, strstr_render hkey h.plain h.breaks,
      seek_skip v.behind_keys]
  rw [bound]
  show (strstrIn (quoted nameKey) _).getD [] = _
  rw [hfind]
  cases vs with
  | nil => rfl
  | cons v' vs =>
      have hseek : seek nameKey ((v' :: vs).flatMap Negative.tokens) =
          (v' :: vs).flatMap Negative.tokens := by
        rw [List.flatMap_cons, Negative.tokens, Vector.front, List.cons_append, List.cons_append]
        exact seek_here rfl
      have hne : (v' :: vs).flatMap Negative.tokens ≠ [] := by
        rw [List.flatMap_cons, Negative.tokens, Vector.front, List.cons_append]
        exact List.cons_ne_nil _ _
      rw [hseek, if_neg hne, List.append_nil]
      rfl

/-- `use_plain` -/
theorem usePlain_eq (h : Row v.name.gap (v.members ++ (v.others ++ vs.flatMap Negative.tokens)) [])
    (hcursor : Row g (v.behind ++ vs.flatMap Negative.tokens) []) :
    usePlain (v.afterName (v.others ++ vs.flatMap Negative.tokens) [])
      (g ++ (render (v.behind ++ vs.flatMap Negative.tokens) ++ [])) = v.plainDecoder := by
  have hrow : Row v.name.gap (v.members ++ v.others) (render (vs.flatMap Negative.tokens)) := by
    refine ⟨h.gap, ?_, ?_, ?_⟩
    · intro k hk
      apply h.plain
      rw [← List.append_assoc]
      exact List.mem_append_left _ hk
    · cases vs with
      | nil => exact breaks_nil
      | cons v' vs => exact breaks_quote _
    · apply no_nul_render
      intro k hk
      apply h.plain
      rw [← List.append_assoc]
      exact List.mem_append_right _ hk
  have htext : v.afterName (v.others ++ vs.flatMap Negative.tokens) [] = v.name.gap ++
      (render (v.members ++ v.others) ++ render (vs.flatMap Negative.tokens)) := by
    simp [Vector.afterName]
  have hfind := findStringValue_render 64 (by decide : IsKey "decoder".toList) hrow
    (by decide)
  rw [usePlain, bound_eq hcursor, htext, hfind, Negative.plainDecoder]
  cases lookup "decoder".toList (v.members ++ v.others) with
  | none => rfl
  | some found =>
      rw [Option.bind_some, Option.any_some]
      by_cases hname : found.1.string = "mcl_wire_tier0_decode".toList
      · rw [if_pos (by rw [hname]; decide), Option.any_some]
      · rw [decide_eq_false hname]
        split
        · rw [Option.any_some, decide_eq_false hname]
        · rfl

/-- What is said of a negative vector whose digits are read, and where it leaves the cursor. -/
theorem checkNegative_eq (locals : Locals) (bytes : List UInt8)
    (h : Row v.name.gap (v.members ++ (v.others ++ vs.flatMap Negative.tokens)) []) :
    checkNegative locals (v.afterName (v.others ++ vs.flatMap Negative.tokens) [])
      (v.cursor (v.others ++ vs.flatMap Negative.tokens) []) bytes =
      if v.expect.string.length < 64 then
        (if negativeStatus locals v.plainDecoder bytes ≠
            some (.status (statusFromName v.expect.string)) then
          some (.status (negativeStatus locals v.plainDecoder bytes)
            (statusFromName v.expect.string)) else none,
          v.expect.gap ++ (render (v.behind ++ vs.flatMap Negative.tokens) ++ []))
      else (some .noExpect, v.cursor (v.others ++ vs.flatMap Negative.tokens) []) := by
  have hhex := h.behind_hex
  have hsplit : v.others ++ vs.flatMap Negative.tokens = v.before ++
      ⟨expectKey, v.expectGap⟩ :: v.expect :: (v.behind ++ vs.flatMap Negative.tokens) := by
    simp [Negative.others]
  have hcursor := hhex.behind_expect
  have hlookup : lookup expectKey (v.others ++ vs.flatMap Negative.tokens) =
      some (v.expect, v.behind ++ vs.flatMap Negative.tokens) := by
    rw [hsplit, lookup_skip fun k hk => (v.before_keys k hk).2]
    exact lookup_here rfl v.expect_separator
  have hfind := findStringValue_render 64 (by decide : IsKey expectKey) hhex (by decide)
  rw [hlookup, Option.bind_some] at hfind
  have hfound : findStringValue (v.cursor (v.others ++ vs.flatMap Negative.tokens) []) []
      "expect".toList 64 = if v.expect.string.length < 64 then some (v.expect.string,
        v.expect.gap ++ (render (v.behind ++ vs.flatMap Negative.tokens) ++ [])) else none := hfind
  rw [checkNegative, hfound]
  by_cases hfits : v.expect.string.length < 64
  · rw [if_pos hfits, if_pos hfits]
    simp only
    rw [usePlain_eq h hcursor]
  · rw [if_neg hfits, if_neg hfits]

end Expected

/-! ## Sections -/

section Sections

variable {f : VectorFile}

theorem VectorFile.positiveTokens_plain : ∀ k ∈ f.positiveTokens, k.Plain := by
  intro k hk
  rcases List.mem_cons.mp hk with rfl | hk
  · exact f.gaps_plain.1
  · obtain ⟨v, -, hv⟩ := List.mem_flatMap.mp hk
    exact v.tokens_plain k hv

theorem VectorFile.negativeTokens_plain : ∀ k ∈ f.negativeTokens, k.Plain := by
  intro k hk
  rcases List.mem_cons.mp hk with rfl | hk
  · exact f.gaps_plain.2
  · obtain ⟨v, -, hv⟩ := List.mem_flatMap.mp hk
    exact v.tokens_plain k hv

theorem VectorFile.row : Row f.lead (f.head ++ (f.positiveTokens ++ f.negativeTokens)) [] := by
  refine ⟨f.lead_plain, ?_, breaks_nil, List.not_mem_nil⟩
  intro k hk
  rcases List.mem_append.mp hk with hk | hk
  · exact f.head_plain k hk
  · rcases List.mem_append.mp hk with hk | hk
    · exact f.positiveTokens_plain k hk
    · exact f.negativeTokens_plain k hk

/-- Where the sections start. -/
theorem find_sections :
    strstrIn (quoted "positive".toList) f.text =
      some (render f.positiveTokens ++ render f.negativeTokens) ∧
    strstrIn (quoted "negative".toList) f.text = some (render f.negativeTokens) := by
  have hrow := f.row
  have htext : f.text = f.lead ++
      (render (f.head ++ (f.positiveTokens ++ f.negativeTokens)) ++ []) := by
    rw [VectorFile.text, List.append_nil]
  have hpositive : seek "positive".toList (f.head ++ (f.positiveTokens ++ f.negativeTokens)) =
      f.positiveTokens ++ f.negativeTokens := by
    rw [seek_skip fun k hk => (f.head_keys k hk).1]
    exact seek_here rfl
  have hkeys : ∀ k ∈ f.positiveTokens, k.string ≠ "negative".toList := by
    intro k hk
    rcases List.mem_cons.mp hk with rfl | hk
    · exact (by decide : "positive".toList ≠ "negative".toList)
    · obtain ⟨v, hv, hkv⟩ := List.mem_flatMap.mp hk
      exact f.positives_keys v hv k hkv
  have hnegative : seek "negative".toList (f.head ++ (f.positiveTokens ++ f.negativeTokens)) =
      f.negativeTokens := by
    rw [seek_skip fun k hk => (f.head_keys k hk).2, seek_skip hkeys]
    exact seek_here rfl
  have hsome : f.positiveTokens ++ f.negativeTokens ≠ [] := List.cons_ne_nil _ _
  have hlast : f.negativeTokens ≠ [] := List.cons_ne_nil _ _
  rw [htext]
  constructor
  · rw [strstrIn_eq hrow.no_nul, strstr_skip hrow.gap.1,
      strstr_render (by decide) hrow.plain hrow.breaks, hpositive, if_neg hsome, render_append,
      List.append_nil]
  · rw [strstrIn_eq hrow.no_nul, strstr_skip hrow.gap.1,
      strstr_render (by decide) hrow.plain hrow.breaks, hnegative, if_neg hlast, List.append_nil]

end Sections

end ExtensionVectors

end MclWire
