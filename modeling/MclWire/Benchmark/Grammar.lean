import Mathlib.Computability.Language
import Mathlib.Data.List.DropRight
import MclWire.Benchmark.Event

/-!
# What the reader of the benchmark reads

The texts that `parse_event` takes, as formal languages: of each event the language of the texts that
say it. The grammar is wider than that of JSON. A comma may stand behind the last field, a number may
have leading zeros, and its magnitude is taken modulo `2 ^ 64`; keys may occur twice.

* `parseInteger_iff`, `parseField_iff` — what is read, and up to where.
* `parseEvent_iff` — an event is read exactly from the texts that say it.
-/

namespace MclWire

open CText

namespace Benchmark

/-! ## The grammar -/

/-- White space. -/
def blanks : Language Char := {b | IsBlank b}

/-- A string in quotes, with room for its final NUL in the array it is read into. -/
def stringText (key : Text) : Language Char :=
  {t | ∃ raw, t = '"' :: (raw ++ ['"']) ∧ '"' ∉ raw ∧ '\\' ∉ raw ∧ raw.length < maxKey ∧
    cString raw = key}

/-- What a number is in 64 bits. -/
def wrapped (negative : Bool) (n : Nat) : Int :=
  if negative then -(n % 2 ^ 64 : Nat) else (n % 2 ^ 64 : Nat)

/-- A number. -/
def integerText (value : Int64) : Language Char :=
  {t | ∃ x : Numeral, t = x.text ∧ wrapped x.negative (readDigits 0 x.digits) = value.toInt}

/-- A key with its value. -/
def fieldText (f : Field) : Language Char :=
  blanks * (stringText f.key * (blanks * ({[':']} * (blanks * integerText f.value))))

/-- What stands between the braces. -/
def bodyText : List Field → Language Char
  | []      => blanks
  | f :: fs => fieldText f * (blanks * ((if fs = [] then 1 else 0) + {[',']} * bodyText fs))

/-- An event. -/
def eventText (fields : List Field) : Language Char :=
  blanks * ({['{']} * (bodyText fields * {['}']}))

/-- What `parse_event` asks for: few enough fields, with keys of the table. -/
structure Admissible (fields : List Field) : Prop where
  count : fields.length ≤ maxFields
  known : ∀ f ∈ fields, (lookupField f.key).isSome

instance (fields : List Field) : Decidable (Admissible fields) :=
  decidable_of_iff (fields.length ≤ maxFields ∧ ∀ f ∈ fields, (lookupField f.key).isSome)
    ⟨fun h => ⟨h.1, h.2⟩, fun h => ⟨h.count, h.known⟩⟩

theorem mem_fieldText {f : Field} {t : Text} : t ∈ fieldText f ↔ ∃ b s b' b'' n, IsBlank b ∧
    s ∈ stringText f.key ∧ IsBlank b' ∧ IsBlank b'' ∧ n ∈ integerText f.value ∧
    t = b ++ (s ++ (b' ++ ':' :: (b'' ++ n))) := by
  constructor
  · rintro ⟨b, hb, _, ⟨s, hs, _, ⟨b', hb', _, ⟨_, rfl, _, ⟨b'', hb'', n, hn, rfl⟩, rfl⟩, rfl⟩, rfl⟩,
      rfl⟩
    exact ⟨b, s, b', b'', n, hb, hs, hb', hb'', hn, rfl⟩
  · rintro ⟨b, s, b', b'', n, hb, hs, hb', hb'', hn, rfl⟩
    exact ⟨b, hb, _, ⟨s, hs, _, ⟨b', hb', _, ⟨_, rfl, _, ⟨b'', hb'', n, hn, rfl⟩, rfl⟩, rfl⟩, rfl⟩,
      rfl⟩

theorem mem_bodyText_cons {f : Field} {fs : List Field} {t : Text} : t ∈ bodyText (f :: fs) ↔
    ∃ u ∈ fieldText f, ∃ b, IsBlank b ∧
      ((fs = [] ∧ t = u ++ b) ∨ ∃ v ∈ bodyText fs, t = u ++ (b ++ ',' :: v)) := by
  rw [bodyText]
  constructor
  · rintro ⟨u, hu, _, ⟨b, hb, w, hw, rfl⟩, rfl⟩
    refine ⟨u, hu, b, hb, ?_⟩
    rcases (Language.mem_add _ _ _).mp hw with hw | ⟨_, rfl, v, hv, rfl⟩
    · left
      split at hw
      · next hfs =>
        rw [(Language.mem_one w).mp hw]
        exact ⟨hfs, by simp⟩
      · exact absurd hw (Language.notMem_zero w)
    · exact Or.inr ⟨v, hv, rfl⟩
  · rintro ⟨u, hu, b, hb, ⟨hfs, rfl⟩ | ⟨v, hv, rfl⟩⟩
    · refine ⟨u, hu, b, ⟨b, hb, [], Or.inl ?_, List.append_nil b⟩, rfl⟩
      rw [if_pos hfs]
      exact Language.nil_mem_one
    · exact ⟨u, hu, b ++ ',' :: v, ⟨b, hb, ',' :: v, Or.inr ⟨[','], rfl, v, hv, rfl⟩, rfl⟩, rfl⟩

theorem mem_eventText {fs : List Field} {t : Text} : t ∈ eventText fs ↔
    ∃ b u, IsBlank b ∧ u ∈ bodyText fs ∧ t = b ++ '{' :: (u ++ ['}']) := by
  constructor
  · rintro ⟨b, hb, _, ⟨_, rfl, _, ⟨u, hu, _, rfl, rfl⟩, rfl⟩, rfl⟩
    exact ⟨b, u, hb, hu, rfl⟩
  · rintro ⟨b, u, hb, hu, rfl⟩
    exact ⟨b, hb, _, ⟨_, rfl, _, ⟨u, hu, _, rfl, rfl⟩, rfl⟩, rfl⟩

/-! ## The leaves

White space, single characters and strings: each function of the parser reads a text exactly if it
starts with a word of its language, and gives back what is behind. -/

/-- No number goes on into the text. -/
def NoDigit (t : Text) : Prop := ∀ c ∈ t.head?, c.isDigit = false

section Leaves

variable {b p q r t : Text} {c : Char}

theorem noDigit_cons (h : c.isDigit = false) : NoDigit (c :: t) := by
  intro d hd
  rw [List.head?_cons, Option.mem_some_iff] at hd
  rw [← hd, h]

theorem noDigit_blank (hb : IsBlank b) (ht : NoDigit t) : NoDigit (b ++ t) := by
  cases b with
  | nil => exact ht
  | cons d b =>
      apply noDigit_cons
      by_contra hdigit
      rw [Bool.not_eq_false] at hdigit
      have hspace := hb d List.mem_cons_self
      rw [(digit_cases hdigit).1] at hspace
      cases hspace

theorem expect_eq_some : expect c p = some q ↔ p = c :: q := by
  cases p with
  | nil => simp [expect]
  | cons x xs =>
      rw [expect]
      split
      · next h =>
        rw [h, Option.some.injEq, List.cons.injEq]
        simp
      · next h =>
        rw [List.cons.injEq]
        simp [h]

theorem exists_blank (p : Text) : ∃ b, IsBlank b ∧ p = b ++ skipWs p := by
  refine ⟨p.takeWhile isSpace, ?_, ?_⟩
  · intro c hc
    exact List.mem_takeWhile_imp hc
  · exact List.takeWhile_append_dropWhile.symm

theorem skipWs_skipWs (p : Text) : skipWs (skipWs p) = skipWs p := List.dropWhile_idempotent isSpace p

theorem skipWs_blank (hb : IsBlank b) (hc : isSpace c = false) :
    skipWs (b ++ c :: t) = c :: t := dropWhile_blank hb hc

/-- What comes first behind the white space. -/
theorem expect_skipWs (hc : isSpace c = false) :
    expect c (skipWs p) = some q ↔ ∃ b, IsBlank b ∧ p = b ++ c :: q := by
  rw [expect_eq_some]
  constructor
  · intro h
    obtain ⟨b, hb, hp⟩ := exists_blank p
    rw [h] at hp
    exact ⟨b, hb, hp⟩
  · rintro ⟨b, hb, rfl⟩
    exact skipWs_blank hb hc

/-- Another character comes first. -/
theorem expect_skipWs_other (hb : IsBlank b) (hc : isSpace c = false) {d : Char} (hne : c ≠ d) :
    expect d (skipWs (b ++ c :: t)) = none := by
  rw [skipWs_blank hb hc, expect, if_neg hne]

theorem parseStringLoop_iff {outSize : Nat} {out key : Text} (hout : out.length < outSize) :
    parseStringLoop outSize out p = some (key, r) ↔ ∃ raw, p = raw ++ '"' :: r ∧ key = out ++ raw ∧
      '"' ∉ raw ∧ '\\' ∉ raw ∧ key.length < outSize := by
  induction p generalizing out with
  | nil => simp [parseStringLoop]
  | cons c cs ih =>
      rw [parseStringLoop]
      by_cases hquote : c = '"'
      · -- the closing quote
        rw [if_pos hquote, hquote]
        constructor
        · intro h
          cases h
          exact ⟨[], rfl, (List.append_nil _).symm, by simp, by simp, hout⟩
        · rintro ⟨raw, hp, rfl, hno, -, -⟩
          cases raw with
          | nil =>
              cases hp
              rw [List.append_nil]
          | cons d raw =>
              have hd := (List.cons.inj hp).1
              exact absurd (hd ▸ List.mem_cons_self) hno
      · rw [if_neg hquote]
        by_cases hstop : c = '\\' ∨ out.length + 1 ≥ outSize
        · rw [if_pos hstop]
          constructor
          · intro h
            cases h
          · rintro ⟨raw, hp, rfl, -, hback, hlen⟩
            cases raw with
            | nil => exact absurd (List.cons.inj hp).1 hquote
            | cons d raw =>
                have hd := (List.cons.inj hp).1
                rcases hstop with hc | hfull
                · exact absurd ((hc ▸ hd) ▸ List.mem_cons_self) hback
                · rw [List.length_append, List.length_cons] at hlen
                  omega
        · rw [if_neg hstop]
          rw [not_or, ge_iff_le, Nat.not_le] at hstop
          rw [ih (by rw [List.length_append]; exact hstop.2)]
          constructor
          · rintro ⟨raw, rfl, rfl, hno, hback, hlen⟩
            refine ⟨c :: raw, rfl, by simp, ?_, ?_, hlen⟩
            · rw [List.mem_cons, not_or]
              exact ⟨Ne.symm hquote, hno⟩
            · rw [List.mem_cons, not_or]
              exact ⟨Ne.symm hstop.1, hback⟩
          · rintro ⟨raw, hp, rfl, hno, hback, hlen⟩
            cases raw with
            | nil => exact absurd (List.cons.inj hp).1 hquote
            | cons d raw =>
                obtain ⟨rfl, rfl⟩ := List.cons.inj hp
                rw [List.mem_cons, not_or] at hno hback
                exact ⟨raw, rfl, by simp, hno.2, hback.2, hlen⟩

theorem parseString_iff {key : Text} : parseString p maxKey = some (key, r) ↔
    ∃ b s, IsBlank b ∧ s ∈ stringText key ∧ p = b ++ (s ++ r) := by
  rw [parseString]
  simp only [Option.bind_eq_bind, Option.bind_eq_some_iff, Prod.exists, Option.pure_def,
    Option.some.injEq, Prod.mk.injEq, expect_skipWs (c := '"') (by decide),
    parseStringLoop_iff (show ([] : Text).length < maxKey by decide)]
  constructor
  · rintro ⟨q, ⟨b, hb, rfl⟩, out, _, ⟨raw, rfl, hout, hno, hback, hlen⟩, rfl, rfl⟩
    rw [List.nil_append] at hout
    subst hout
    exact ⟨b, _, hb, ⟨out, rfl, hno, hback, hlen, rfl⟩, by simp⟩
  · rintro ⟨b, _, hb, ⟨raw, rfl, hno, hback, hlen, rfl⟩, rfl⟩
    exact ⟨raw ++ '"' :: r, ⟨b, hb, by simp⟩, raw, r, ⟨raw, rfl, rfl, hno, hback, hlen⟩, rfl, rfl⟩

end Leaves

/-! ## Numbers

A number is read to its last digit, so that it has to end where no digit follows. The magnitude is
accumulated in 64 bits; what does not fit wraps around, as it does in the source. -/

section Numbers

variable {b p q r t : Text} {v : Int64}

theorem readDigits_takeWhile (acc : Nat) (t : Text) :
    readDigits acc t = readDigits acc (t.takeWhile Char.isDigit) := by
  induction t generalizing acc with
  | nil => rfl
  | cons c t ih =>
      by_cases hc : c.isDigit = true
      · rw [List.takeWhile_cons_of_pos hc, readDigits, readDigits, if_pos hc, if_pos hc]
        exact ih _
      · rw [List.takeWhile_cons_of_neg hc, readDigits, readDigits, if_neg hc]

theorem parseDigits_eq (acc : Nat) (t : Text) : parseDigits (UInt64.ofNat acc) t =
    (UInt64.ofNat (readDigits acc t), t.dropWhile Char.isDigit) := by
  induction t generalizing acc with
  | nil => rfl
  | cons c t ih =>
      rw [parseDigits, readDigits]
      split
      · next hc =>
        have hstep : UInt64.ofNat acc * 10 + UInt64.ofNat (c.toNat - '0'.toNat) =
            UInt64.ofNat (10 * acc + (c.toNat - '0'.toNat)) := by
          rw [UInt64.ofNat_add, Nat.mul_comm, UInt64.ofNat_mul]
          rfl
        rw [hstep, ih, List.dropWhile_cons_of_pos hc]
      · next hc => rw [List.dropWhile_cons_of_neg hc]

/-- The digits at the start of a text. -/
theorem parseDigits_iff {m : UInt64} : parseDigits 0 p = (m, r) ↔ NoDigit r ∧
    ∃ ds, (∀ c ∈ ds, c.isDigit = true) ∧ p = ds ++ r ∧ m = UInt64.ofNat (readDigits 0 ds) := by
  have heq : parseDigits 0 p = (UInt64.ofNat (readDigits 0 p), p.dropWhile Char.isDigit) :=
    parseDigits_eq 0 p
  rw [heq, Prod.mk.injEq]
  constructor
  · rintro ⟨rfl, rfl⟩
    refine ⟨?_, p.takeWhile Char.isDigit, ?_, List.takeWhile_append_dropWhile.symm, ?_⟩
    · intro c hc
      have hhead := List.head?_dropWhile_not Char.isDigit p
      rw [Option.mem_def.mp hc] at hhead
      simpa using hhead
    · intro c hc
      exact List.mem_takeWhile_imp hc
    · rw [← readDigits_takeWhile]
  · rintro ⟨hr, ds, hds, rfl, rfl⟩
    have hstop : r.dropWhile Char.isDigit = r ∧ r.takeWhile Char.isDigit = [] := by
      cases r with
      | nil => exact ⟨rfl, rfl⟩
      | cons c r =>
          have hc : ¬ c.isDigit = true := by
            rw [hr c rfl]
            exact Bool.false_ne_true
          exact ⟨List.dropWhile_cons_of_neg hc, List.takeWhile_cons_of_neg hc⟩
    rw [List.dropWhile_append_of_pos hds, hstop.1, readDigits_takeWhile 0 (ds ++ r),
      List.takeWhile_append_of_pos hds, hstop.2, List.append_nil]
    exact ⟨rfl, rfl⟩

theorem toInt_of_small {m : UInt64} (h : m.toNat < 2 ^ 63) : m.toInt64.toInt = m.toNat := by
  have hlt : 2 * m.toBitVec.toNat < 2 ^ 64 := by
    show 2 * m.toNat < 2 ^ 64
    omega
  exact BitVec.toInt_eq_toNat_of_lt hlt

theorem toInt_neg_of_small {m : UInt64} (h : m.toNat < 2 ^ 63) :
    (-m.toInt64).toInt = -m.toNat := by
  rw [Int64.toInt_neg, toInt_of_small h]
  apply Int.bmod_eq_of_le <;> omega

/-- A magnitude has a value if, with its sign, it fits into 64 bits. -/
theorem signedValue_iff {negative : Bool} {m : UInt64} : signedValue negative m = some v ↔
    (if negative then -(m.toNat : Int) else m.toNat) = v.toInt := by
  have hmax : (int64Max + 1).toNat = 2 ^ 63 := rfl
  have hle := v.toInt_lt
  have hge := v.le_toInt
  cases negative with
  | true =>
      rw [signedValue, if_pos rfl, if_pos rfl]
      split
      · next h =>
        rw [gt_iff_lt, UInt64.lt_iff_toNat_lt, hmax] at h
        constructor
        · intro hnone
          cases hnone
        · intro hv
          omega
      · next h =>
        rw [gt_iff_lt, UInt64.lt_iff_toNat_lt, hmax, Nat.not_lt] at h
        split
        · next heq =>
          rw [heq, hmax, Option.some.injEq, ← Int64.toInt_inj]
          rfl
        · next hne =>
          rw [← UInt64.toNat_inj, hmax] at hne
          rw [Option.some.injEq, ← Int64.toInt_inj, toInt_neg_of_small (by omega)]
  | false =>
      have hmax' : int64Max.toNat = 2 ^ 63 - 1 := rfl
      rw [signedValue, if_neg Bool.false_ne_true, if_neg Bool.false_ne_true]
      split
      · next h =>
        rw [gt_iff_lt, UInt64.lt_iff_toNat_lt, hmax'] at h
        constructor
        · intro hnone
          cases hnone
        · intro hv
          omega
      · next h =>
        rw [gt_iff_lt, UInt64.lt_iff_toNat_lt, hmax', Nat.not_lt] at h
        rw [Option.some.injEq, ← Int64.toInt_inj, toInt_of_small (by omega)]

theorem parseMagnitude_iff {negative : Bool} : parseMagnitude negative p = some (v, r) ↔
    NoDigit r ∧ ∃ ds, ds ≠ [] ∧ (∀ c ∈ ds, c.isDigit = true) ∧ p = ds ++ r ∧
      wrapped negative (readDigits 0 ds) = v.toInt := by
  have hstart : p.head?.any Char.isDigit = true ↔ ∃ c t, p = c :: t ∧ c.isDigit = true := by
    cases p with
    | nil => simp
    | cons c t => simp
  have hvalue : ∀ n : Nat, signedValue negative (UInt64.ofNat n) = some v ↔
      wrapped negative n = v.toInt := by
    intro n
    rw [signedValue_iff, UInt64.toNat_ofNat']
    rfl
  rw [parseMagnitude]
  split
  · next hdigit =>
    obtain ⟨c, t, rfl, hc⟩ := hstart.mp hdigit
    obtain ⟨hr, ds, hds, hsplit, hm⟩ := parseDigits_iff.mp (rfl : parseDigits 0 (c :: t) = (_, _))
    simp only [Option.bind_eq_bind, Option.bind_eq_some_iff, Option.pure_def, Option.some.injEq,
      Prod.mk.injEq]
    constructor
    · rintro ⟨w, hw, rfl, rfl⟩
      refine ⟨hr, ds, ?_, hds, hsplit, ?_⟩
      · rintro rfl
        rw [List.nil_append] at hsplit
        have hno := hr c (by rw [← hsplit]; rfl)
        rw [hc] at hno
        cases hno
      · rw [← hvalue, ← hm]
        exact hw
    · rintro ⟨hr', ds', -, hds', hsplit', hw⟩
      have hread := parseDigits_iff.mpr ⟨hr', ds', hds', hsplit', rfl⟩
      rw [hread]
      exact ⟨v, (hvalue _).mpr hw, rfl, rfl⟩
  · next hno =>
    constructor
    · intro h
      cases h
    · rintro ⟨-, ds, hne, hds, rfl, -⟩
      cases ds with
      | nil => exact absurd rfl hne
      | cons c ds => exact absurd (hstart.mpr ⟨c, ds ++ r, rfl, hds c List.mem_cons_self⟩) hno

/-- A number is read to its last digit. -/
theorem parseInteger_iff : parseInteger p = some (v, r) ↔
    NoDigit r ∧ ∃ b n, IsBlank b ∧ n ∈ integerText v ∧ p = b ++ (n ++ r) := by
  rw [parseInteger]
  cases h : expect '-' (skipWs p) with
  | some q =>
      obtain ⟨b, hb, rfl⟩ := (expect_skipWs (by decide)).mp h
      simp only [parseMagnitude_iff]
      constructor
      · rintro ⟨hr, ds, hne, hds, rfl, hw⟩
        exact ⟨hr, b, _, hb, ⟨⟨true, ds, hds, hne⟩, rfl, hw⟩, rfl⟩
      · rintro ⟨hr, b', _, hb', ⟨⟨negative, ds, hds, hne⟩, rfl, hw⟩, hp⟩
        have hskip := congrArg skipWs hp
        rw [skipWs_blank hb (by decide)] at hskip
        cases negative with
        | true =>
            have hq : '-' :: q = '-' :: (ds ++ r) := hskip.trans (skipWs_blank hb' (by decide))
            exact ⟨hr, ds, hne, hds, (List.cons.inj hq).2, hw⟩
        | false =>
            cases ds with
            | nil => exact absurd rfl hne
            | cons c ds =>
                obtain ⟨hspace, hminus, -⟩ := digit_cases (hds c List.mem_cons_self)
                have hq : '-' :: q = c :: (ds ++ r) := hskip.trans (skipWs_blank hb' hspace)
                exact absurd (List.cons.inj hq).1.symm hminus
  | none =>
      simp only [parseMagnitude_iff]
      constructor
      · rintro ⟨hr, ds, hne, hds, hp, hw⟩
        obtain ⟨b, hb, hsplit⟩ := exists_blank p
        rw [hp] at hsplit
        exact ⟨hr, b, _, hb, ⟨⟨false, ds, hds, hne⟩, rfl, hw⟩, hsplit⟩
      · rintro ⟨hr, b', _, hb', ⟨⟨negative, ds, hds, hne⟩, rfl, hw⟩, rfl⟩
        cases negative with
        | true =>
            have hminus : expect '-' (skipWs (b' ++ '-' :: (ds ++ r))) = some (ds ++ r) :=
              (expect_skipWs (by decide)).mpr ⟨b', hb', rfl⟩
            exact absurd (hminus.symm.trans h) (by simp)
        | false =>
            refine ⟨hr, ds, hne, hds, ?_, hw⟩
            cases ds with
            | nil => exact absurd rfl hne
            | cons c ds =>
                have hspace := (digit_cases (hds c List.mem_cons_self)).1
                exact skipWs_blank hb' hspace

end Numbers

/-! ## Events

The induction is on the room for fields. A field starts with a quote and the end of an event with a
brace, so that each turn of the loop knows which of the two comes next. -/

section Events

variable {p r t : Text} {f : Field} {fs : List Field}

theorem parseField_iff : parseField p = some (f, r) ↔
    NoDigit r ∧ (lookupField f.key).isSome ∧ ∃ t ∈ fieldText f, p = t ++ r := by
  obtain ⟨key, value⟩ := f
  rw [parseField]
  simp only [Option.bind_eq_bind, Option.bind_eq_some_iff, Prod.exists, Option.pure_def,
    Option.some.injEq, Prod.mk.injEq, Field.mk.injEq, parseString_iff, parseInteger_iff,
    expect_skipWs (c := ':') (by decide)]
  constructor
  · rintro ⟨key, _, ⟨b, s, hb, hs, rfl⟩, info, hinfo, _, ⟨b', hb', rfl⟩, value, r,
      ⟨hr, b'', n, hb'', hn, rfl⟩, ⟨rfl, rfl⟩, rfl⟩
    refine ⟨hr, Option.isSome_iff_exists.mpr ⟨info, hinfo⟩, _,
      mem_fieldText.mpr ⟨b, s, b', b'', n, hb, hs, hb', hb'', hn, rfl⟩, ?_⟩
    simp
  · rintro ⟨hr, hinfo, _, ht, rfl⟩
    obtain ⟨b, s, b', b'', n, hb, hs, hb', hb'', hn, rfl⟩ := mem_fieldText.mp ht
    obtain ⟨info, hinfo⟩ := Option.isSome_iff_exists.mp hinfo
    refine ⟨key, b' ++ ':' :: (b'' ++ (n ++ r)), ⟨b, s, hb, hs, by simp⟩, info, hinfo, _,
      ⟨b', hb', rfl⟩, value, r, ⟨hr, b'', n, hb'', hn, rfl⟩, ⟨rfl, rfl⟩, rfl⟩

theorem parseField_skipWs (p : Text) : parseField (skipWs p) = parseField p := by
  rw [parseField, parseString, skipWs_skipWs]
  rfl

/-- A field starts with the quote of its key. -/
theorem fieldText_start (ht : t ∈ fieldText f) : ∃ b u, IsBlank b ∧ t = b ++ '"' :: u := by
  obtain ⟨b, _, b', b'', n, hb, ⟨raw, rfl, -⟩, -, -, -, rfl⟩ := mem_fieldText.mp ht
  exact ⟨b, _, hb, rfl⟩

theorem expect_close : expect '}' (skipWs p) = some r ↔ ∃ t ∈ bodyText [], p = t ++ '}' :: r :=
  expect_skipWs (by decide)

/-- No brace comes first where there is a field. -/
theorem expect_close_field (ht : t ∈ bodyText (f :: fs)) :
    expect '}' (skipWs (t ++ r)) = none := by
  obtain ⟨u, hu, b, -, hshape⟩ := mem_bodyText_cons.mp ht
  obtain ⟨b', w, hb', rfl⟩ := fieldText_start hu
  rcases hshape with ⟨-, rfl⟩ | ⟨v, -, rfl⟩
  · rw [List.append_assoc, List.append_assoc]
    exact expect_skipWs_other hb' (by decide) (by decide)
  · rw [List.append_assoc, List.append_assoc]
    exact expect_skipWs_other hb' (by decide) (by decide)

/-- What is read between the braces, with room for `room` fields. -/
theorem parseFields_iff {room : Nat} : parseFields room p = some (fs, r) ↔
    fs.length ≤ room ∧ (∀ f ∈ fs, (lookupField f.key).isSome) ∧
      ∃ t ∈ bodyText fs, p = t ++ '}' :: r := by
  induction room generalizing p fs r with
  | zero =>
      rw [parseFields]
      simp only [Option.bind_eq_bind, Option.bind_eq_some_iff, Option.pure_def, Option.some.injEq,
        Prod.mk.injEq, expect_close]
      constructor
      · rintro ⟨q, ⟨t, ht, rfl⟩, rfl, rfl⟩
        exact ⟨Nat.le_refl 0, by simp, t, ht, rfl⟩
      · rintro ⟨hcount, -, t, ht, rfl⟩
        cases List.length_eq_zero_iff.mp (Nat.le_zero.mp hcount)
        exact ⟨r, ⟨t, ht, rfl⟩, rfl, rfl⟩
  | succ room ih =>
      rw [parseFields]
      constructor
      · intro h
        split at h
        · next q hclose =>
          cases h
          exact ⟨Nat.zero_le _, by simp, expect_close.mp hclose⟩
        · next hopen =>
          rw [parseField_skipWs] at h
          simp only [Option.bind_eq_bind, Option.bind_eq_some_iff, Prod.exists,
            parseField_iff] at h
          obtain ⟨f, q, ⟨-, hknown, t, ht, rfl⟩, h⟩ := h
          split at h
          · next q' hcomma =>
            obtain ⟨b, hb, rfl⟩ := (expect_skipWs (by decide)).mp hcomma
            simp only [Option.bind_eq_some_iff, Prod.exists, Option.pure_def, Option.some.injEq,
              Prod.mk.injEq, ih] at h
            obtain ⟨fs', r', ⟨hcount, hknown', u, hu, rfl⟩, rfl, rfl⟩ := h
            refine ⟨Nat.succ_le_succ hcount, List.forall_mem_cons.mpr ⟨hknown, hknown'⟩, _,
              mem_bodyText_cons.mpr ⟨t, ht, b, hb, Or.inr ⟨u, hu, rfl⟩⟩, by simp⟩
          · next =>
            simp only [Option.bind_eq_some_iff, Option.pure_def, Option.some.injEq,
              Prod.mk.injEq] at h
            obtain ⟨q', hclose, rfl, rfl⟩ := h
            obtain ⟨b, hb, rfl⟩ := (expect_skipWs (by decide)).mp hclose
            refine ⟨Nat.succ_le_succ (Nat.zero_le _), List.forall_mem_cons.mpr ⟨hknown, by simp⟩, _,
              mem_bodyText_cons.mpr ⟨t, ht, b, hb, Or.inl ⟨rfl, rfl⟩⟩, by simp⟩
      · rintro ⟨hcount, hknown, t, ht, rfl⟩
        cases fs with
        | nil => rw [expect_close.mpr ⟨t, ht, rfl⟩]
        | cons f fs =>
            rw [expect_close_field ht, parseField_skipWs]
            obtain ⟨hf, hfs⟩ := List.forall_mem_cons.mp hknown
            simp only [Option.bind_eq_bind, Option.bind_eq_some_iff, Prod.exists, parseField_iff]
            obtain ⟨u, hu, b, hb, ⟨rfl, rfl⟩ | ⟨v, hv, rfl⟩⟩ := mem_bodyText_cons.mp ht
            · -- the last field
              refine ⟨f, b ++ '}' :: r, ⟨?_, hf, u, hu, by simp⟩, ?_⟩
              · exact noDigit_blank hb (noDigit_cons (by decide))
              · rw [expect_skipWs_other hb (by decide) (by decide)]
                simp only [Option.bind_eq_some_iff]
                exact ⟨r, (expect_skipWs (by decide)).mpr ⟨b, hb, rfl⟩, rfl⟩
            · -- a comma, and the rest
              refine ⟨f, b ++ ',' :: (v ++ '}' :: r), ⟨?_, hf, u, hu, by simp⟩, ?_⟩
              · exact noDigit_blank hb (noDigit_cons (by decide))
              · rw [(expect_skipWs (by decide)).mpr ⟨b, hb, rfl⟩]
                simp only [Option.bind_eq_some_iff, Prod.exists]
                exact ⟨fs, r, ih.mpr ⟨Nat.le_of_succ_le_succ hcount, hfs, v, hv, rfl⟩, rfl⟩

/-- `parse_event` reads an event from the texts that say it, and only from them. -/
theorem parseEvent_iff : parseEvent p = some (fs, r) ↔
    Admissible fs ∧ ∃ t ∈ eventText fs, p = t ++ r := by
  rw [parseEvent]
  simp only [Option.bind_eq_bind, Option.bind_eq_some_iff, parseFields_iff,
    expect_skipWs (c := '{') (by decide)]
  constructor
  · rintro ⟨_, ⟨b, hb, rfl⟩, hcount, hknown, u, hu, rfl⟩
    exact ⟨⟨hcount, hknown⟩, _, mem_eventText.mpr ⟨b, u, hb, hu, rfl⟩, by simp⟩
  · rintro ⟨h, _, ht, rfl⟩
    obtain ⟨b, u, hb, hu, rfl⟩ := mem_eventText.mp ht
    exact ⟨u ++ '}' :: r, ⟨b, hb, by simp⟩, h.count, h.known, u, hu, rfl⟩

end Events

end Benchmark

end MclWire
