import MclWire.Agreement
import MclWire.Refusals
import MclWire.Vectors.ExtensionFile

/-!
# What the validator of the extension vectors accepts

* `Positive.Sound` — the bytes are a frame without critical extensions.
* `Negative.Sound` — the decoder that the vector names refuses its bytes with the status that it
  expects.
* `extension_vectors_iff` — the validator accepts a file if and only if its vectors are sound, up to
  the first one in each section that does not fit its buffers.
-/

namespace MclWire

open CText

namespace ExtensionVectors

/-! ## Hexadecimal -/

section Hexadecimal

variable {t : Text} {bytes : List UInt8} {cap : Nat}

theorem hexBytes_spells (h : Hex.Spells t bytes) : hexBytes t = some bytes := by
  induction h with
  | nil => rfl
  | cons hhi hlo _ ih =>
      rw [hexBytes, hexValue, hexValue, hhi, hlo, ih, ← Hex.or_halves (Hex.digit_lt hlo)]
      rfl

theorem spells_of_hexBytes (h : hexBytes t = some bytes) (heven : t.length % 2 = 0) :
    Hex.Spells t bytes := by
  induction t using hexBytes.induct generalizing bytes with
  | case1 c d cs ih =>
      rw [hexBytes, hexValue, hexValue] at h
      cases hhi : Hex.digit c with
      | none =>
          rw [hhi] at h
          cases h
      | some hi =>
          cases hlo : Hex.digit d with
          | none =>
              rw [hhi, hlo] at h
              cases h
          | some lo =>
              cases hrest : hexBytes cs with
              | none =>
                  rw [hhi, hlo, hrest] at h
                  cases h
              | some rest =>
                  rw [hhi, hlo, hrest] at h
                  simp only [List.length_cons] at heven
                  obtain rfl : UInt8.ofNat (hi <<< 4 ||| lo) :: rest = bytes := Option.some.inj h
                  rw [Hex.or_halves (Hex.digit_lt hlo)]
                  exact Hex.Spells.cons hhi hlo (ih hrest (by omega))
  | case2 t hshort =>
      match t, hshort with
      | [], _ =>
          cases h
          exact Hex.Spells.nil
      | [c], _ => cases heven
      | c :: d :: cs, hshort => exact absurd rfl (hshort c d cs)

theorem decodeHex_iff : decodeHex t cap = some bytes ↔ Hex.Spells t bytes ∧ bytes.length ≤ cap := by
  rw [decodeHex]
  constructor
  · intro h
    split at h
    · cases h
    · next hsize =>
      have hspells := spells_of_hexBytes h (by omega)
      have hlen := hspells.length
      exact ⟨hspells, by omega⟩
  · rintro ⟨hspells, hcap⟩
    have hlen := hspells.length
    rw [if_neg (by omega), hexBytes_spells hspells]

end Hexadecimal

/-! ## One vector

Given the bytes, what is said of a vector depends on the decoder alone. A positive one is decoded and
its block is walked over again; a negative one is decoded by one of two decoders. -/

section Checks

variable {locals : Locals} {afterName cursor : Text} {bytes : List UInt8}

theorem length_le_blockOf (ts : List Tlv) : ts.length ≤ (blockOf ts).length := by
  induction ts with
  | nil => exact Nat.le_refl _
  | cons t ts ih =>
      have htwo := t.two_le_length
      have hrow : blockOf (t :: ts) = t.bytes ++ blockOf ts := tlvCode.row_cons t ts
      rw [hrow, List.length_append, List.length_cons]
      omega

theorem walk_iterates {r r' : ExtensionReader} {ys : List (Extension (List UInt8))} {n : Nat}
    (h : Iterates r ys r') (hn : ys.length < n) : walk n r = none := by
  induction h generalizing n with
  | done hnext =>
      obtain ⟨n, rfl⟩ : ∃ m, n = m + 1 := ⟨n - 1, by omega⟩
      rw [walk, hnext]
  | next hnext _ ih =>
      rw [List.length_cons] at hn
      obtain ⟨n, rfl⟩ : ∃ m, n = m + 1 := ⟨n - 1, by omega⟩
      rw [walk, hnext]
      exact ih (by omega)

/-- The walk over a block that the decoder has accepted does not fail. -/
theorem walk_reader {f : Frame} {data : List UInt8} (h : f.bytes <+: data) :
    walk ((f.reader data).size + 1) (f.reader data) = none := by
  obtain ⟨r', hiter⟩ := (Frame.iterates_reader h).mpr rfl
  apply walk_iterates hiter
  have hlen := length_le_blockOf f.extensions
  rw [List.length_map]
  show f.extensions.length < (blockOf f.extensions).length + 1
  omega

/-- Nothing fails exactly if the bytes are a frame without critical extensions, of the declared
size. -/
theorem checkPositive_iff : checkPositive locals afterName cursor bytes = none ↔
    (∃ f : Frame, f.bytes = bytes ∧ ∀ t ∈ f.extensions, t.val.critical = 0) ∧
      (expectedSize afterName cursor = 0 ∨ expectedSize afterName cursor = bytes.length) := by
  unfold checkPositive
  cases hrun : (tier0DecodeExt bytes).run locals.out with
  | error e out =>
      refine iff_of_false (Option.some_ne_none _) ?_
      rintro ⟨⟨f, rfl, hplain⟩, -⟩
      have hconsult : consultAll none f.extensions locals.out.user = (true, locals.out.user) :=
        consultAll_plain hplain
      have hok := Frame.tier0DecodeExtAccept_run (List.prefix_refl f.bytes)
        (congrArg Prod.fst hconsult)
      rw [tier0DecodeExt, hok] at hrun
      cases hrun
  | ok u out =>
      obtain ⟨f, hf, hconsult, -, hreader, hconsumed⟩ := tier0DecodeExtAccept_eq_ok.mp hrun
      have hplain := consultAll_none_iff.mp (congrArg Prod.fst hconsult)
      simp only
      by_cases hlen : out.consumed = bytes.length
      · have hbytes : f.bytes = bytes := hf.eq_of_length (hconsumed.symm.trans hlen)
        rw [if_neg fun h => h hlen, hreader, walk_reader hf]
        have hframe : ∃ f : Frame, f.bytes = bytes ∧ ∀ t ∈ f.extensions, t.val.critical = 0 :=
          ⟨f, hbytes, hplain⟩
        simp only [hframe, true_and]
        split
        · next hsize => exact iff_of_false (Option.some_ne_none _) (by omega)
        · next hsize => exact iff_of_true rfl (by omega)
      · rw [if_pos hlen]
        refine iff_of_false (Option.some_ne_none _) ?_
        rintro ⟨⟨f', rfl, -⟩, -⟩
        have hsame := Frame.unique hf (List.prefix_refl _)
        rw [hsame] at hconsumed
        exact hlen hconsumed

/-- The status of a negative vector is a reason to refuse its bytes. -/
theorem negativeStatus_iff {plain : Bool} {e : Err} :
    negativeStatus locals plain bytes = some (.status e) ↔
      if plain then PlainRefusal bytes e else Refusal none bytes () e := by
  unfold negativeStatus
  cases plain with
  | true =>
      rw [if_pos rfl, if_pos rfl, decode_status_iff]
      constructor
      · rintro ⟨e', he, h⟩
        cases he
        exact h
      · intro h
        exact ⟨e, rfl, h⟩
  | false =>
      rw [if_neg (by decide), if_neg (by decide)]
      constructor
      · intro h
        obtain ⟨e', he, hrefusal⟩ := refusal_of_status h
        cases he
        exact hrefusal
      · intro h
        exact Refusal.status (s := locals.out) h

end Checks

/-! ## Sound vectors -/

/-- The bytes are a frame without critical extensions, and its size is the declared one, if any. -/
def Positive.Sound (v : Positive) : Prop :=
  ∃ f : Frame, Hex.Spells v.hex.string f.bytes ∧ (∀ t ∈ f.extensions, t.val.critical = 0) ∧
    (v.declaredSize = 0 ∨ v.declaredSize = f.bytes.length)

/-- The decoder refuses the bytes with the status that is expected. -/
def Negative.Sound (v : Negative) : Prop :=
  v.expect.string.length < 64 ∧ ∃ bytes, Hex.Spells v.hex.string bytes ∧
    if v.plainDecoder then PlainRefusal bytes (statusFromName v.expect.string)
    else Refusal (σ := Unit) none bytes () (statusFromName v.expect.string)

section Sound

variable {stop : Text} {rest : List Token} {locals : Locals} {bytes : List UInt8}

/-- The digits are not taken for a key. -/
theorem hex_ne_size {v : Vector} (h : Hex.Spells v.hex.string bytes) :
    v.hex.string ≠ "size".toList := by
  intro heq
  rw [heq] at h
  exact h.digits 's' (by decide) (by decide)

/-- What is said of a positive vector whose digits are read. -/
theorem positive_sound {v : Positive} (h : Row v.name.gap (v.members ++ rest) stop)
    (hspells : Hex.Spells v.hex.string bytes) :
    checkPositive locals (v.afterName rest stop) (v.cursor rest stop) bytes = none ↔ v.Sound := by
  rw [checkPositive_iff, expectedSize_eq h (hex_ne_size hspells)]
  constructor
  · rintro ⟨⟨f, rfl, hplain⟩, hsize⟩
    exact ⟨f, hspells, hplain, hsize⟩
  · rintro ⟨f, hf, hplain, hsize⟩
    rw [hf.unique hspells] at hsize
    exact ⟨⟨f, hf.unique hspells, hplain⟩, hsize⟩

/-- What is said of a negative vector whose digits are read. -/
theorem negative_sound {v : Negative} (hspells : Hex.Spells v.hex.string bytes)
    (hexpect : v.expect.string.length < 64) :
    (if negativeStatus locals v.plainDecoder bytes ≠ some (.status (statusFromName v.expect.string))
      then some (Failure.status (negativeStatus locals v.plainDecoder bytes)
        (statusFromName v.expect.string)) else none) = none ↔ v.Sound := by
  have hsound : v.Sound ↔
      negativeStatus locals v.plainDecoder bytes = some (.status (statusFromName v.expect.string)) := by
    rw [negativeStatus_iff]
    constructor
    · rintro ⟨-, bytes', hspells', hrefusal⟩
      rw [hspells.unique hspells']
      exact hrefusal
    · intro hrefusal
      exact ⟨hexpect, bytes, hspells, hrefusal⟩
  rw [hsound]
  split
  · next hne => exact iff_of_false (Option.some_ne_none _) hne
  · next heq => exact iff_of_true rfl (not_not.mp heq)

end Sound

/-! ## Sections

By induction on the vectors, the section comes to each of them up to the first one that does not fit its
buffers. That one ends the section without a word. -/

/-- The vectors that `check_section` comes to: those in front of the first one that does not fit. -/
def reached {α : Type} (vector : α → Vector) (vs : List α) : List α :=
  vs.takeWhile fun v => (vector v).Fits

/-- A vector is sound, if nothing fails. -/
def Settles {α : Type} (sound : α → Prop) (c : Checked) (v : α) : Prop := c.failure = none ↔ sound v

section Sections

variable {g stop : Text} {as : List Token} {locals : Nat → Locals} {n : Nat}

/-- What the digits of a vector that fits spell, fits `bytes`. -/
theorem decodeHex_fits {v : Vector} (hfits : v.Fits) {bytes : List UInt8} :
    decodeHex v.hex.string 512 = some bytes ↔ Hex.Spells v.hex.string bytes := by
  rw [decodeHex_iff]
  constructor
  · exact And.left
  · intro h
    have hlen := h.length
    have hlt : v.hex.string.length < 1024 := hfits.2
    exact ⟨h, by omega⟩

/-- The section of the positive vectors. -/
theorem checkSection_positives {vs : List Positive}
    (h : Row g (as ++ vs.flatMap Positive.tokens) stop) (has : ∀ k ∈ as, k.string ≠ nameKey)
    (hn : vs.length < n) :
    List.Forall₂ (Settles Positive.Sound)
      (checkSection locals stop true n (g ++ (render (as ++ vs.flatMap Positive.tokens) ++ stop)))
      (reached Positive.toVector vs) := by
  induction vs generalizing g as n with
  | nil =>
      rw [List.flatMap_nil, List.append_nil] at h ⊢
      rw [checkSection_nil h has]
      exact List.Forall₂.nil
  | cons v vs ih =>
      obtain ⟨n, rfl⟩ : ∃ m, n = m + 1 := ⟨n - 1, by omega⟩
      rw [List.length_cons] at hn
      have hrest : as ++ (v :: vs).flatMap Positive.tokens =
          as ++ (v.front ++ (v.behind ++ vs.flatMap Positive.tokens)) := by
        rw [List.flatMap_cons, Positive.tokens, List.append_assoc]
      rw [hrest] at h ⊢
      rw [reached, List.takeWhile_cons]
      by_cases hfits : v.Fits
      · have htail := ih (n := n) h.behind_name.behind_hex v.behind_keys (by omega)
        rw [if_pos (decide_eq_true hfits)]
        cases hdecode : decodeHex v.hex.string 512 with
        | none =>
            rw [checkSection_notHex h has hfits hdecode]
            refine List.Forall₂.cons (iff_of_false (Option.some_ne_none _) ?_) htail
            rintro ⟨f, hf, -⟩
            rw [(decodeHex_fits hfits).mpr hf] at hdecode
            cases hdecode
        | some bytes =>
            have hspells := (decodeHex_fits hfits).mp hdecode
            rw [checkSection_positive h has hfits hdecode]
            exact List.Forall₂.cons (positive_sound h.behind_name hspells) htail
      · rw [checkSection_unfit h has hfits, if_neg (by simpa using hfits)]
        exact List.Forall₂.nil

/-- The section of the negative vectors. -/
theorem checkSection_negatives {vs : List Negative}
    (h : Row g (as ++ vs.flatMap Negative.tokens) []) (has : ∀ k ∈ as, k.string ≠ nameKey)
    (hn : vs.length < n) :
    List.Forall₂ (Settles Negative.Sound)
      (checkSection locals [] false n (g ++ (render (as ++ vs.flatMap Negative.tokens) ++ [])))
      (reached Negative.toVector vs) := by
  induction vs generalizing g as n with
  | nil =>
      rw [List.flatMap_nil, List.append_nil as] at h ⊢
      rw [checkSection_nil h has]
      exact List.Forall₂.nil
  | cons v vs ih =>
      obtain ⟨n, rfl⟩ : ∃ m, n = m + 1 := ⟨n - 1, by omega⟩
      rw [List.length_cons] at hn
      have hrest : as ++ (v :: vs).flatMap Negative.tokens =
          as ++ (v.front ++ (v.others ++ vs.flatMap Negative.tokens)) := by
        rw [List.flatMap_cons, Negative.tokens, List.append_assoc]
      rw [hrest] at h ⊢
      rw [reached, List.takeWhile_cons]
      by_cases hfits : v.Fits
      · have hname := h.behind_name
        have hskipped := ih (n := n) hname.behind_hex v.others_keys (by omega)
        rw [if_pos (decide_eq_true hfits)]
        cases hdecode : decodeHex v.hex.string 512 with
        | none =>
            rw [checkSection_notHex h has hfits hdecode]
            refine List.Forall₂.cons (iff_of_false (Option.some_ne_none _) ?_) hskipped
            rintro ⟨-, bytes, hbytes, -⟩
            rw [(decodeHex_fits hfits).mpr hbytes] at hdecode
            cases hdecode
        | some bytes =>
            have hspells := (decodeHex_fits hfits).mp hdecode
            have hchecked := checkNegative_eq (locals n) bytes hname
            by_cases hexpect : v.expect.string.length < 64
            · rw [if_pos hexpect] at hchecked
              rw [checkSection_negative h has hfits hdecode hchecked]
              exact List.Forall₂.cons (negative_sound hspells hexpect)
                (ih (n := n) hname.behind_hex.behind_expect v.behind_keys (by omega))
            · rw [if_neg hexpect] at hchecked
              rw [checkSection_negative h has hfits hdecode hchecked]
              refine List.Forall₂.cons (iff_of_false (Option.some_ne_none _) ?_) hskipped
              rintro ⟨hlt, -⟩
              exact hexpect hlt
      · rw [checkSection_unfit h has hfits, if_neg (by simpa using hfits)]
        exact List.Forall₂.nil

end Sections

/-! ## Files -/

section Files

variable {f : VectorFile} {locals : Nat → Locals}

theorem settles_iff {α : Type} {sound : α → Prop} {cs : List Checked} {vs : List α}
    (h : List.Forall₂ (Settles sound) cs vs) :
    (∀ c ∈ cs, c.failure = none) ↔ ∀ v ∈ vs, sound v :=
  forall₂_forall_iff h fun _ _ hsettles => hsettles

/-- What the sections come to. -/
theorem checkFile_settles (locals : Nat → Locals) (f : VectorFile) :
    List.Forall₂ (Settles Positive.Sound)
      (checkSection locals (render f.negativeTokens) true (f.text.length + 1)
        (render f.positiveTokens ++ render f.negativeTokens)) (reached Positive.toVector f.positives) ∧
    List.Forall₂ (Settles Negative.Sound)
      (checkSection locals [] false (f.text.length + 1) (render f.negativeTokens))
      (reached Negative.toVector f.negatives) := by
  have hlong : f.positives.length < f.text.length + 1 ∧ f.negatives.length < f.text.length + 1 := by
    have hpositive : ∀ v : Positive, v.tokens ≠ [] := fun v => List.cons_ne_nil _ _
    have hnegative : ∀ v : Negative, v.tokens ≠ [] := fun v => List.cons_ne_nil _ _
    have hpositives := length_le_flatMap hpositive f.positives
    have hnegatives := length_le_flatMap hnegative f.negatives
    have hrender := length_le_render (f.head ++ (f.positiveTokens ++ f.negativeTokens))
    simp only [VectorFile.positiveTokens, VectorFile.negativeTokens, List.length_append,
      List.length_cons] at hrender
    rw [VectorFile.text, List.length_append]
    simp only [VectorFile.positiveTokens, VectorFile.negativeTokens]
    omega
  have hpositiveKey : ∀ k ∈ [(⟨"positive".toList, f.positiveGap⟩ : Token)], k.string ≠ nameKey := by
    intro k hk
    rw [List.mem_singleton.mp hk]
    exact (by decide : "positive".toList ≠ nameKey)
  have hnegativeKey : ∀ k ∈ [(⟨"negative".toList, f.negativeGap⟩ : Token)], k.string ≠ nameKey := by
    intro k hk
    rw [List.mem_singleton.mp hk]
    exact (by decide : "negative".toList ≠ nameKey)
  have hpositiveRow : Row [] f.positiveTokens (render f.negativeTokens) :=
    ⟨⟨List.not_mem_nil, List.not_mem_nil⟩, f.positiveTokens_plain, breaks_quote _,
      no_nul_render f.negativeTokens_plain⟩
  have hnegativeRow : Row [] f.negativeTokens [] :=
    ⟨⟨List.not_mem_nil, List.not_mem_nil⟩, f.negativeTokens_plain, breaks_nil, List.not_mem_nil⟩
  constructor
  · exact checkSection_positives hpositiveRow hpositiveKey hlong.1
  · rw [← List.append_nil (render f.negativeTokens)]
    exact checkSection_negatives hnegativeRow hnegativeKey hlong.2

/-- The status that `main` returns for what the sections come to. -/
theorem status_iff {cs : List Checked} :
    (if cs = [] then 2 else if cs.countP (fun c => c.failure ≠ none) = 0 then 0 else 1) = 0 ↔
      cs ≠ [] ∧ ∀ c ∈ cs, c.failure = none := by
  by_cases hnil : cs = []
  · rw [if_pos hnil]
    simp [hnil]
  · rw [if_neg hnil]
    have hcount : cs.countP (fun c => c.failure ≠ none) = 0 ↔ ∀ c ∈ cs, c.failure = none := by
      rw [List.countP_eq_zero]
      simp
    rw [← hcount]
    split
    · next hzero => exact iff_of_true rfl ⟨hnil, hzero⟩
    · next hsome => exact iff_of_false Nat.one_ne_zero fun h => hsome h.2

/-- `tools/validate_extension_vectors.c` accepts a file, if and only if it comes to a vector, every
positive vector it comes to is a frame without critical extensions, of the declared size if one is
declared, and every negative one is refused by the decoder that it names with the status that it
expects. It comes to the vectors in front of the first one in each section whose name or digits do not
fit its buffers, and no further. -/
theorem extension_vectors_iff (locals : Nat → Locals) (f : VectorFile)
    (hsize : f.text.length < maxFileSize - 1) : exitStatus locals f.text = 0 ↔
      (reached Positive.toVector f.positives ≠ [] ∨ reached Negative.toVector f.negatives ≠ []) ∧
      (∀ v ∈ reached Positive.toVector f.positives, v.Sound) ∧
      ∀ v ∈ reached Negative.toVector f.negatives, v.Sound := by
  obtain ⟨hpositive, hnegative⟩ := find_sections (f := f)
  obtain ⟨hpositives, hnegatives⟩ := checkFile_settles locals f
  have htake : f.text.take (maxFileSize - 1) = f.text := List.take_of_length_le (Nat.le_of_lt hsize)
  have hpos : f.text.length ≠ 0 := by
    intro hzero
    rw [List.length_eq_zero_iff.mp hzero] at hpositive
    cases hpositive
  have horder : ¬ (render f.positiveTokens ++ render f.negativeTokens).length ≤
      (render f.negativeTokens).length := by
    rw [VectorFile.positiveTokens, render_cons]
    simp only [List.length_cons, List.length_append]
    omega
  unfold exitStatus
  simp only [htake]
  rw [if_neg (by omega), hpositive, hnegative]
  simp only
  rw [if_neg horder, ← settles_iff hpositives, ← settles_iff hnegatives, Ne, Ne,
    ← forall₂_eq_nil hpositives, ← forall₂_eq_nil hnegatives, status_iff, checkFile,
    List.forall_mem_append, Ne, List.append_eq_nil_iff, not_and_or]

/-- A PRESENCE, and the same object with an empty block behind it. -/
def emptyBlockFile : VectorFile where
  lead := ['{']
  head := []
  positiveGap := ":[\x7b".toList
  positives := [{
    nameGap := [':']
    name := ⟨"no_extensions".toList, [',']⟩
    between := [⟨"size".toList, ":11,".toList⟩]
    hexGap := [':']
    hex := ⟨"00020000a17c03abcdef3c".toList, "\x7d],".toList⟩
    separators := by decide
    plain := by decide
    between_keys := by decide
    behind := []
    behind_plain := by decide
    behind_keys := by decide }]
  negativeGap := ":[\x7b".toList
  negatives := [{
    nameGap := [':']
    name := ⟨"empty_block_with_bit_set".toList, [',']⟩
    between := []
    hexGap := [':']
    hex := ⟨"00030000a17c03abcdef3c00".toList, [',']⟩
    separators := by decide
    plain := by decide
    between_keys := by decide
    before := []
    expectGap := [':']
    expect := ⟨"NONCANONICAL".toList, "\x7d]\x7d".toList⟩
    behind := []
    expect_separator := by decide
    parts_plain := by decide
    before_keys := by decide
    expect_key := by decide
    behind_keys := by decide }]
  lead_plain := by decide
  head_plain := by decide
  head_keys := by decide
  gaps_plain := by decide
  positives_keys := by decide

theorem extension_vectors_iff_empty_block :
    exitStatus (fun _ => ⟨⟨0, 0, .presence {}⟩, ⟨[], 0, 0, 0, 0⟩⟩) emptyBlockFile.text = 0 := by
  rw [extension_vectors_iff _ emptyBlockFile (by decide +kernel)]
  refine ⟨Or.inl (List.cons_ne_nil _ _), ?_, ?_⟩
  · intro v hv
    obtain rfl := List.mem_singleton.mp ((List.takeWhile_prefix _).subset hv)
    have hspells := (@decodeHex_iff "00020000a17c03abcdef3c".toList
      [0x00, 0x02, 0x00, 0x00, 0xa1, 0x7c, 0x03, 0xab, 0xcd, 0xef, 0x3c] 11).mp (by decide)
    obtain ⟨⟨f, hf, hplain⟩, -⟩ := (@checkPositive_iff ⟨⟨0, 0, .presence {}⟩, ⟨[], 0, 0, 0, 0⟩⟩ [] []
      [0x00, 0x02, 0x00, 0x00, 0xa1, 0x7c, 0x03, 0xab, 0xcd, 0xef, 0x3c]).mp (by decide +kernel)
    rw [← hf] at hspells
    exact ⟨f, hspells.1, hplain, Or.inr (by rw [hf]; decide +kernel)⟩
  · intro v hv
    obtain rfl := List.mem_singleton.mp ((List.takeWhile_prefix _).subset hv)
    have hspells := (@decodeHex_iff "00030000a17c03abcdef3c00".toList
      [0x00, 0x03, 0x00, 0x00, 0xa1, 0x7c, 0x03, 0xab, 0xcd, 0xef, 0x3c, 0x00] 12).mp (by decide)
    have hrefusal := (@negativeStatus_iff ⟨⟨0, 0, .presence {}⟩, ⟨[], 0, 0, 0, 0⟩⟩
      [0x00, 0x03, 0x00, 0x00, 0xa1, 0x7c, 0x03, 0xab, 0xcd, 0xef, 0x3c, 0x00] false
      .noncanonical).mp (by decide +kernel)
    exact ⟨by decide, _, hspells.1, hrefusal⟩

end Files

end ExtensionVectors

end MclWire
