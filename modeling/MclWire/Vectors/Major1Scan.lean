import MclWire.Vectors.Major1Tool

/-!
# The scanner of the major-1 vectors over tokens

A place in the text is where a row of tokens starts, and a block is a part of that row: the tokens of
one vector. `read_string` and `read_number` search up to the end of a block and read what stands behind
the first string that is the key, be it a key or a value.

* `stringIn`, `numberIn` — what is recorded under a key in a block.
* `readString_block`, `readNumber_block` — this is what the scanner reads.
* `fromHex_spells` — the bytes that digits spell are read.
* `Recorded`, `recorded_iff` — and what is read from any other text.
-/

namespace MclWire

open CText

namespace Major1Vectors

/-! ## Places

This validator goes by indices into the text. A place is an index behind which a known row of tokens
starts; searches are followed from place to place. -/

/-- At a place of a text there is a gap, and behind it a row of tokens. -/
structure At (text : Text) (pos : Nat) (g : Text) (ks : List Token) : Prop where
  drop : text.drop pos = g ++ render ks
  gap : '"' ∉ g
  plain : ∀ k ∈ ks, k.Plain
  nul : Char.ofNat 0 ∉ text

/-- Where a row of tokens starts, at the end of a text. -/
def place (text : Text) (ks : List Token) : Nat := text.length - (render ks).length

section Places

variable {text g w : Text} {pos : Nat} {k : Token} {ks as bs rest : List Token}

theorem drop_place (h : render ks <:+ text) : text.drop (place text ks) = render ks := by
  obtain ⟨front, rfl⟩ := h
  rw [place, List.length_append, Nat.add_sub_cancel, List.drop_left]

theorem At.suffix (h : At text pos g (as ++ bs)) : render bs <:+ text := by
  refine List.IsSuffix.trans ?_ (List.drop_suffix pos text)
  rw [h.drop, render_append, ← List.append_assoc]
  exact List.suffix_append _ _

/-- The place of a part of the row. -/
theorem At.part (h : At text pos g (as ++ bs)) : At text (place text bs) [] bs :=
  ⟨drop_place h.suffix, List.not_mem_nil, fun k hk => h.plain k (List.mem_append_right _ hk), h.nul⟩

/-- A part of the row does not start in front of it. -/
theorem At.pos_le (h : At text pos g (as ++ bs)) (hbs : bs ≠ []) : pos ≤ place text bs := by
  have hsuffix : render bs <:+ text.drop pos := by
    rw [h.drop, render_append, ← List.append_assoc]
    exact List.suffix_append _ _
  have hle := hsuffix.length_le
  have hlen := length_le_render bs
  have hpos := List.length_pos_iff.mpr hbs
  rw [List.length_drop] at hle
  rw [place]
  omega

/-- Behind the string at a place there is its gap. -/
theorem At.behind (h : At text pos [] (k :: ks)) : At text (pos + (quoted k.string).length) k.gap ks := by
  obtain ⟨hk, hks⟩ := List.forall_mem_cons.mp h.plain
  refine ⟨?_, hk.gap, hks, h.nul⟩
  have htext : [] ++ render (k :: ks) = quoted k.string ++ (k.gap ++ render ks) := by
    simp [render, quoted]
  rw [← List.drop_drop, h.drop, htext, List.drop_left]

/-- A part that ends later starts later. -/
theorem place_lt (h : render (as ++ bs) <:+ text) (has : as ≠ []) :
    place text (as ++ bs) < place text bs := by
  have hle := h.length_le
  obtain ⟨k, as, rfl⟩ := List.exists_cons_of_ne_nil has
  rw [place, place]
  simp only [List.cons_append, render, List.length_cons, List.length_append, render_append] at hle ⊢
  omega

theorem place_le (h : render (as ++ bs) <:+ text) : place text (as ++ bs) ≤ place text bs := by
  cases as with
  | nil => exact Nat.le_refl _
  | cons k as => exact Nat.le_of_lt (place_lt h (List.cons_ne_nil _ _))

/-- `find_from` finds the first string that is the word. -/
theorem findFrom_eq (hw : IsWord w) (h : At text pos g ks) :
    findFrom text (quoted w) pos =
      if seek w ks = [] then none else some (place text (seek w ks)) := by
  have hnul : Char.ofNat 0 ∉ text.drop pos := fun hmem => h.nul (List.mem_of_mem_drop hmem)
  have hfind := strstr_render (t := []) hw h.plain breaks_nil
  rw [List.append_nil, List.append_nil] at hfind
  rw [findFrom, strstrIn_eq hnul, h.drop, strstr_skip h.gap, hfind]
  split
  · next hlong =>
    have hnil : ks = [] := by
      have hdrop := h.drop
      rw [List.drop_of_length_le hlong] at hdrop
      have hrender := (List.append_eq_nil_iff.mp hdrop.symm).2
      cases ks with
      | nil => rfl
      | cons k ks => cases hrender
    rw [hnil, seek_nil, if_pos rfl]
  · split
    · rfl
    · rfl

/-- A word that is not in a block is not found in front of its end. -/
theorem place_seek (h : At text pos g (as ++ bs)) (hbs : ∀ k ∈ bs.head?, k.string ≠ w)
    (hfound : seek w bs ≠ []) : place text bs < place text (seek w bs) := by
  obtain ⟨front, hfront⟩ := seek_isSuffix w bs
  have hsuffix := h.suffix
  have hne : front ≠ [] := by
    rintro rfl
    rw [List.nil_append] at hfront
    rcases seek_cases w bs with hnil | ⟨k, ks, hseek, hk⟩
    · exact hfound hnil
    · refine hbs k ?_ hk
      rw [← hfront, hseek]
      rfl
  rw [← hfront] at hsuffix
  have hlt := place_lt hsuffix hne
  rwa [hfront] at hlt

/-- What is not in a block is not found up to its end. -/
theorem findFrom_beyond (hw : IsWord w) (h : At text pos g (as ++ bs))
    (hbs : ∀ k ∈ bs.head?, k.string ≠ w) (habsent : seek w as = []) {p : Nat}
    (hfind : findFrom text (quoted w) pos = some p) : place text bs < p := by
  rw [findFrom_eq hw h, seek_append_nil habsent] at hfind
  split at hfind
  · cases hfind
  · next hfound =>
    cases hfind
    exact place_seek h hbs hfound

/-- What is in a block is found there. -/
theorem findFrom_within (hw : IsWord w) (h : At text pos g (as ++ bs)) (hpresent : seek w as ≠ []) :
    findFrom text (quoted w) pos = some (place text (seek w as ++ bs)) ∧
      place text (seek w as ++ bs) ≤ place text bs ∧
      At text (place text (seek w as ++ bs)) [] (seek w as ++ bs) := by
  have hfound : seek w as ++ bs ≠ [] := fun hnil => hpresent (List.append_eq_nil_iff.mp hnil).1
  obtain ⟨front, hfront⟩ := seek_isSuffix w as
  have hrow : At text pos g (front ++ (seek w as ++ bs)) := by
    rw [← List.append_assoc, hfront]
    exact h
  refine ⟨?_, place_le hrow.suffix, hrow.part⟩
  rw [findFrom_eq hw h, seek_append hpresent, if_neg hfound]

end Places

/-! ## Keys in a block

A search that starts in a block may run into the next one. It is cut off at the end of the block, so
that it comes to the first token of the block that is the key, or to nothing. -/

/-- Up to the next quote `read_string` goes on. -/
def IsOpen (g : Text) : Prop := ∀ c ∈ g, c ≠ ',' ∧ c ≠ '}'

instance (g : Text) : Decidable (IsOpen g) := inferInstanceAs (Decidable (∀ c ∈ g, _))

/-- The string recorded under a key. -/
def stringIn (w : Text) (ks : List Token) : Option Text :=
  match seek w ks with
  | k :: v :: _ => if IsOpen k.gap then some v.string else none
  | _ => none

/-- The number a gap starts with, behind the colon. -/
def gapNumber (g : Text) : Option Nat :=
  let value := g.dropWhile fun c => c = ':' || c = ' '
  if value.head?.any Char.isDigit then some (strtoul value) else none

/-- The number recorded under a key. -/
def numberIn (w : Text) (ks : List Token) : Option Nat := (seek w ks).head?.bind fun k => gapNumber k.gap

/-- A key that fits `pattern`. -/
def IsKey (w : Text) : Prop := IsWord w ∧ w.length + 2 ≤ 63

instance (w : Text) : Decidable (IsKey w) := inferInstanceAs (Decidable (_ ∧ _))

section Blocks

variable {text g w : Text} {pos : Nat} {k : Token} {ks bs rest : List Token}

theorem length_quoted (w : Text) : (quoted w).length = w.length + 2 := by
  simp [quoted]

/-- The search for a key up to the end of a block: a place behind it, with the gap there. -/
theorem findKey_block (hw : IsKey w) (h : At text pos g (bs ++ rest))
    (hrest : ∀ k ∈ rest.head?, k.string ≠ w) :
    (seek w bs = [] ∧ findKey text w pos (place text rest) = none) ∨
    ∃ k ks p, seek w bs = k :: ks ∧ findKey text w pos (place text rest) = some p ∧
      At text p k.gap (ks ++ rest) := by
  have htake : (quoted w).take 63 = quoted w := by
    rw [List.take_of_length_le]
    rw [length_quoted]
    exact hw.2
  rw [findKey, htake]
  rcases seek_cases w bs with hnone | ⟨k, ks, hseek, hk⟩
  · left
    refine ⟨hnone, ?_⟩
    cases hfind : findFrom text (quoted w) pos with
    | none => rfl
    | some p =>
        rw [Option.bind_eq_bind, Option.bind_some, if_pos (findFrom_beyond hw.1 h hrest hnone hfind)]
  · right
    have hne : seek w bs ≠ [] := by
      rw [hseek]
      exact List.cons_ne_nil _ _
    obtain ⟨hfind, hle, hat⟩ := findFrom_within hw.1 h hne
    rw [hseek] at hfind hle hat
    refine ⟨k, ks, place text (k :: ks ++ rest) + (quoted w).length, hseek, ?_, ?_⟩
    · rw [hfind, Option.bind_eq_bind, Option.bind_some, if_neg (Nat.not_lt_of_le hle)]
    · rw [← hk]
      exact hat.behind

theorem openString_gap {t : Text} (hg : '"' ∉ g) :
    openString (g ++ t) = if IsOpen g then openString t else none := by
  induction g with
  | nil =>
      have hnil : IsOpen [] := fun c hc => absurd hc List.not_mem_nil
      rw [if_pos hnil]
      rfl
  | cons c g ih =>
      rw [List.mem_cons, not_or] at hg
      rw [List.cons_append, openString, if_neg (Ne.symm hg.1)]
      by_cases hc : c = ',' ∨ c = '}'
      · rw [if_pos hc, if_neg]
        intro hopen
        have hne := hopen c List.mem_cons_self
        rcases hc with hc | hc
        · exact hne.1 hc
        · exact hne.2 hc
      · rw [if_neg hc, ih hg.2]
        have hiff : IsOpen (c :: g) ↔ IsOpen g := by
          rw [IsOpen, List.forall_mem_cons]
          rw [not_or] at hc
          exact and_iff_right hc
        simp only [hiff]

/-- `read_string` in a block whose last gap is not open. -/
theorem readString_block (hw : IsKey w) (h : At text pos g (bs ++ rest))
    (hrest : ∀ k ∈ rest.head?, k.string ≠ w) (hclosed : ∀ k ∈ bs.getLast?, ¬ IsOpen k.gap)
    (outSize : Nat) :
    readString text w pos (place text rest) outSize =
      (stringIn w bs).map fun s => s.take (outSize - 1) := by
  rw [readString, stringIn]
  rcases findKey_block hw h hrest with ⟨hnone, hfind⟩ | ⟨k, ks, p, hseek, hfind, hp⟩
  · rw [hfind, hnone]
    rfl
  · rw [hfind, hseek, Option.bind_eq_bind, Option.bind_some, hp.drop, openString_gap hp.gap]
    cases ks with
    | nil =>
        have hlast : ¬ IsOpen k.gap := by
          apply hclosed
          obtain ⟨front, hfront⟩ := seek_isSuffix w bs
          rw [← hfront, hseek, List.getLast?_concat]
          rfl
        rw [if_neg hlast]
        rfl
    | cons v ks =>
        by_cases hopen : IsOpen k.gap
        · have hv := hp.plain v List.mem_cons_self
          have htext : openString (render (v :: ks ++ rest)) =
              some (v.string ++ '"' :: (v.gap ++ render (ks ++ rest))) := rfl
          have htake : (v.string ++ '"' :: (v.gap ++ render (ks ++ rest))).takeWhile (· ≠ '"') =
              v.string := by
            rw [List.takeWhile_append_of_pos]
            · simp
            · intro c hc
              simp only [decide_eq_true_eq]
              rintro rfl
              exact hv.string hc
          have hnul : Char.ofNat 0 ∉ v.string.take (outSize - 1) :=
            fun hmem => hv.nul.1 (List.mem_of_mem_take hmem)
          simp only [if_pos hopen, htext, Option.bind_eq_bind, Option.bind_some, htake,
            cString_eq_self hnul, Option.map_some]
          rfl
        · simp only [if_neg hopen]
          rfl

theorem gapNumber_render (g : Text) (ks : List Token) : gapNumber (g ++ render ks) = gapNumber g := by
  cases ks with
  | nil => rw [render_nil, List.append_nil]
  | cons k ks =>
      rw [render, gapNumber, gapNumber, dropWhile_quote (by decide), strtoul_quote]
      cases g.dropWhile fun c => c = ':' || c = ' ' with
      | nil => rfl
      | cons c cs => rfl

/-- `read_number` in a block. -/
theorem readNumber_block (hw : IsKey w) (h : At text pos g (bs ++ rest))
    (hrest : ∀ k ∈ rest.head?, k.string ≠ w) :
    readNumber text w pos (place text rest) = numberIn w bs := by
  rw [readNumber, numberIn]
  rcases findKey_block hw h hrest with ⟨hnone, hfind⟩ | ⟨k, ks, p, hseek, hfind, hp⟩
  · rw [hfind, hnone]
    rfl
  · rw [hfind, hseek, Option.bind_eq_bind, Option.bind_some, hp.drop]
    exact gapNumber_render k.gap (ks ++ rest)

end Blocks

/-! ## Hexadecimal -/

section Hexadecimal

variable {t : Text} {bytes : List UInt8}

/-- `sscanf` reads two digits. -/
theorem scanHex_digits {c d : Char} {hi lo : Nat} (hhi : Hex.digit c = some hi)
    (hlo : Hex.digit d = some lo) (cs : Text) :
    scanHex (c :: d :: cs) = some (UInt32.ofNat (16 * hi + lo)) := by
  have hspace : ¬ isSpace c = true := by
    rw [Hex.digit_not_space hhi]
    exact Bool.false_ne_true
  have hx : ¬ (c = '0' ∧ (d = 'x' ∨ d = 'X')) := by
    rintro ⟨-, rfl | rfl⟩
    · exact Hex.digit_ne hlo rfl rfl
    · exact Hex.digit_ne hlo rfl rfl
  rw [scanHex, List.dropWhile_cons_of_neg hspace]
  simp only
  rw [if_neg (Hex.digit_ne hhi rfl), if_neg (Hex.digit_ne hhi rfl), if_neg hx, hhi, hlo]
  rfl

theorem scanBytes_spells (h : Hex.Spells t bytes) : scanBytes t = some bytes := by
  induction h with
  | nil => rfl
  | cons hhi hlo _ ih =>
      rw [scanBytes, scanHex_digits hhi hlo, ih]
      simp only [Option.bind_eq_bind, Option.bind_some, Option.pure_def, UInt32.toUInt8_ofNat']

/-- `from_hex` reads what digits spell. -/
theorem fromHex_spells {capacity : Nat} (h : Hex.Spells t bytes) (hcap : bytes.length ≤ capacity) :
    fromHex t capacity = bytes := by
  have hlen := h.length
  rw [fromHex, if_neg (by omega), scanBytes_spells h]
  rfl

/-- The bytes that a text records. Digits record the bytes that they spell, as long as these are no
more than the 64 bytes of the buffer; more characters, or an odd number of them, record nothing. What
else comes in pairs is up to `sscanf`. -/
inductive Recorded : Text → List UInt8 → Prop
  | spelled {hex : Text} {read : List UInt8} :
      Hex.Spells hex read → read.length ≤ 64 → Recorded hex read
  | long {hex : Text} : 128 < hex.length → Recorded hex []
  | odd {hex : Text} : hex.length % 2 = 1 → Recorded hex []
  | scanned {hex : Text} {read : List UInt8} : hex.length ≤ 128 → hex.length % 2 = 0 →
      (∀ spelled, ¬ Hex.Spells hex spelled) → (scanBytes hex).getD [] = read → Recorded hex read

/-- What is recorded is what `from_hex` reads, although `read_string` has cut the text off before. -/
theorem recorded_iff : Recorded t bytes ↔ fromHex (t.take 255) 64 = bytes := by
  have hnone : 128 < t.length ∨ t.length % 2 = 1 → fromHex (t.take 255) 64 = [] := by
    intro h
    rw [fromHex, if_pos]
    rw [List.length_take]
    omega
  constructor
  · rintro (⟨hspells, hcap⟩ | hlong | hodd | ⟨hlen, heven, -, hscan⟩)
    · have hlen := hspells.length
      rw [List.take_of_length_le (by omega), fromHex_spells hspells hcap]
    · exact hnone (Or.inl hlong)
    · exact hnone (Or.inr hodd)
    · rw [List.take_of_length_le (by omega), fromHex, if_neg (by omega), hscan]
  · rintro rfl
    by_cases hlong : 128 < t.length
    · rw [hnone (Or.inl hlong)]
      exact Recorded.long hlong
    by_cases hodd : t.length % 2 = 1
    · rw [hnone (Or.inr hodd)]
      exact Recorded.odd hodd
    have htake : t.take 255 = t := List.take_of_length_le (by omega)
    by_cases hspelled : ∃ spelled, Hex.Spells t spelled
    · obtain ⟨spelled, hspells⟩ := hspelled
      have hlen := hspells.length
      rw [htake, fromHex_spells hspells (by omega)]
      exact Recorded.spelled hspells (by omega)
    · refine Recorded.scanned (by omega) (by omega) (not_exists.mp hspelled) ?_
      rw [htake, fromHex, if_neg (by omega)]

/-- So that each text records something. -/
theorem exists_recorded (t : Text) : ∃ bytes, Recorded t bytes := ⟨_, recorded_iff.mpr rfl⟩

end Hexadecimal

end Major1Vectors

end MclWire
