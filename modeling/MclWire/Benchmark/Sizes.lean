import MclWire.Benchmark.Grammar
import MclWire.Cbor
import MclWire.Protobuf

/-!
# The sizes the benchmark compares

`benchmarks/benchmark_source.c`: `decimal_size` to `protobuf_size`. They count the bytes of formats
the benchmark has no encoder for. Here the formats are said as languages, and the counts are the
lengths of the shortest encodings.

* `shortest_eventText` — `json_size`: the shortest text that `parse_event` reads as the event.
* `shortest_cbor` — `cbor_size`: the shortest map, with names or with numbers for keys.
* `shortest_protobuf` — `protobuf_size`: the shortest message.
* `event_grammar`, `sizes_shortest` — what is read and what is counted, and that each format tells
  the event.
-/

namespace MclWire

open CText

namespace Benchmark

/-! ## The functions

The sizes as the benchmark computes them, with a loop for each format. A loop that goes on until a
condition fails has as many turns as its variable can take at most. -/

/-- The loop of `decimal_size`; a magnitude of 64 bits is below 10 after at most 19 turns. -/
def decimalSizeLoop : Nat → UInt64 → Nat → Nat
  | 0, _, size => size
  | n + 1, magnitude, size =>
      if magnitude ≥ 10 then decimalSizeLoop n (magnitude / 10) (size + 1) else size

/-- `decimal_size` -/
def decimalSize (value : Int64) : Nat :=
  if value < 0 then decimalSizeLoop 19 ((-(value + 1)).toUInt64 + 1) 2
  else decimalSizeLoop 19 value.toUInt64 1

/-- `cbor_head_size` -/
def cborHeadSize (value : UInt64) : Nat :=
  if value < 24 then 1
  else if value ≤ 0xff then 2
  else if value ≤ 0xffff then 3
  else if value ≤ 0xffffffff then 5
  else 9

/-- `cbor_int_size` -/
def cborIntSize (value : Int64) : Nat :=
  cborHeadSize (if value ≥ 0 then value.toUInt64 else (-(value + 1)).toUInt64)

/-- `cbor_text_size` -/
def cborTextSize (text : Text) : Nat := cborHeadSize (UInt64.ofNat text.length) + text.length

/-- The loop of `varint_size`; a value of 64 bits is below `0x80` after at most nine turns. -/
def varintSizeLoop : Nat → UInt64 → Nat → Nat
  | 0, _, size => size
  | n + 1, value, size =>
      if value ≥ 0x80 then varintSizeLoop n (value >>> 7) (size + 1) else size

/-- `varint_size` -/
def varintSize (value : UInt64) : Nat := varintSizeLoop 9 value 1

/-- `zigzag32` -/
def zigzag32 (value : Int64) : UInt64 :=
  let narrowed := value.toInt32
  if narrowed < 0 then
    let magnitude := (-narrowed.toInt64).toUInt64.toUInt32
    ((magnitude <<< 1) - 1).toUInt64
  else
    (narrowed.toUInt32 <<< 1).toUInt64

/-- The loop of `json_size`. -/
def jsonSizeLoop : List Field → Nat → Nat → Nat
  | [], _, size => size
  | field :: fields, i, size =>
      let size := if i ≠ 0 then size + 1 else size
      jsonSizeLoop fields (i + 1) (size + (2 + field.key.length + 1 + decimalSize field.value))

/-- `json_size` -/
def jsonSize (event : List Field) : Nat := jsonSizeLoop event 0 2

/-- A turn of the loop of `cbor_size`; `none` where the key is not known. -/
def cborStep (integerKeys : Bool) (size : Nat) (field : Field) : Option Nat := do
  let info ← lookupField field.key
  let size := size + if integerKeys then cborHeadSize info.protobufNumber.toUInt64
    else cborTextSize info.name
  return size + cborIntSize field.value

/-- `cbor_size` -/
def cborSize (event : List Field) (integerKeys : Bool) : Option Nat :=
  event.foldlM (cborStep integerKeys) (cborHeadSize (UInt64.ofNat event.length))

/-- A turn of the loop of `protobuf_size`; `none` where the key is not known. -/
def protobufStep (size : Nat) (field : Field) : Option Nat := do
  let info ← lookupField field.key
  if field.value = 0 then
    return size
  else
    let size := size + varintSize (info.protobufNumber.toUInt32 <<< 3).toUInt64
    let value := if info.protobufSigned then zigzag32 field.value else field.value.toUInt64
    return size + varintSize value

/-- `protobuf_size` -/
def protobufSize (event : List Field) : Option Nat := event.foldlM protobufStep 0

/-! ## The formats

What the sizes are sizes of. The three formats are languages of texts or bytes, with all the spellings
that they admit; these two are put together from the libraries of CBOR and of Protocol Buffers with the
table of the benchmark. -/

/-- The bytes of a key. -/
def keyBytes (key : Text) : List UInt8 := key.map fun c => UInt8.ofNat c.toNat

/-- The entry of a key in the table. -/
def infoOf (key : Text) : FieldInfo := (lookupField key).getD ⟨[], 0, false⟩

/-- A key of a map: its number or its name. -/
def cborKey (integerKeys : Bool) (key : Text) : Language UInt8 :=
  if integerKeys then Cbor.integer (infoOf key).protobufNumber.toNat else Cbor.text (keyBytes key)

/-- A map from keys to values. -/
def cbor (integerKeys : Bool) (event : List Field) : Language UInt8 :=
  Cbor.map (cborKey integerKeys) (fun value : Int64 => Cbor.integer value.toInt)
    (event.map fun f => (f.key, f.value))

/-- The number of a field and its value as a varint: signed fields have 32 bits. -/
def wire (f : Field) : Nat × Nat :=
  ((infoOf f.key).protobufNumber.toNat,
    if (infoOf f.key).protobufSigned then Protobuf.zigzag f.value.toInt32.toInt
    else f.value.toUInt64.toNat)

/-- A message whose fields may be left out where they are 0. -/
def protobuf (event : List Field) : Language UInt8 :=
  Protobuf.message (fun f => Protobuf.field (wire f)) (fun f => f.value = 0) event

/-! ## Decimal numbers

`decimal_size` counts the digits of the magnitude. It takes `-(value+1)` for a negative one, so that
`INT64_MIN` does not overflow. A text with fewer characters has a smaller magnitude, which is why no
number that is read as the value is shorter than the printed one. -/

section Decimal

variable {v : Int64}

theorem toNat_toUInt64 (v : Int64) :
    (v.toUInt64.toNat : Int) = if v.toInt < 0 then v.toInt + 2 ^ 64 else v.toInt := by
  have hcond : v.toInt = if 2 * v.toUInt64.toNat < 2 ^ 64 then (v.toUInt64.toNat : Int)
      else v.toUInt64.toNat - (2 ^ 64 : Nat) := BitVec.toInt_eq_toNat_cond v.toBitVec
  have hlt := v.toUInt64.toNat_lt
  split_ifs at hcond with h
  · rw [if_neg (by omega)]
    omega
  · rw [if_pos (by omega)]
    omega

theorem toNat_of_nonneg (h : 0 ≤ v.toInt) : v.toUInt64.toNat = v.toInt.toNat := by
  have hcast := toNat_toUInt64 v
  rw [if_neg (by omega)] at hcast
  omega

theorem lt_zero_iff : v < 0 ↔ v.toInt < 0 := by rw [Int64.lt_iff_toInt_lt, Int64.toInt_zero]

/-- `-(value+1)` does not overflow. -/
theorem toInt_opposite (h : v.toInt < 0) : (-(v + 1)).toInt = -1 - v.toInt := by
  have hle := v.le_toInt
  rw [Int64.toInt_neg, Int64.toInt_add, Int64.toInt_one, Int.bmod_eq_of_le (n := v.toInt + 1),
    Int.bmod_eq_of_le] <;> omega

theorem toNat_opposite (h : v.toInt < 0) : (-(v + 1)).toUInt64.toNat = (-1 - v.toInt).toNat := by
  have heq := toInt_opposite h
  rw [toNat_of_nonneg (by omega), heq]

theorem decimalSizeLoop_eq {n : Nat} {m : UInt64} (size : Nat) (h : m.toNat < 10 ^ (n + 1)) :
    decimalSizeLoop n m size + 1 = size + (Nat.toDigits 10 m.toNat).length := by
  induction n generalizing m size with
  | zero =>
      rw [decimalSizeLoop, Nat.toDigits_of_lt_base (by omega)]
      rfl
  | succ n ih =>
      rw [decimalSizeLoop]
      split
      · next hge =>
        simp only [ge_iff_le, UInt64.le_iff_toNat_le, UInt64.reduceToNat] at hge
        have hdiv : (m / 10).toNat = m.toNat / 10 := UInt64.toNat_div m 10
        rw [Nat.pow_succ] at h
        rw [ih _ (by omega), hdiv, Nat.toDigits_of_base_le (by omega) hge, List.length_append,
          List.length_singleton]
        omega
      · next hlt =>
        simp only [ge_iff_le, UInt64.le_iff_toNat_le, UInt64.reduceToNat, Nat.not_le] at hlt
        rw [Nat.toDigits_of_lt_base hlt]
        rfl

theorem decimalSize_eq (v : Int64) : decimalSize v =
    (if v.toInt < 0 then 1 else 0) + (Nat.toDigits 10 v.toInt.natAbs).length := by
  have hle := v.le_toInt
  rw [decimalSize]
  by_cases h : v.toInt < 0
  · rw [if_pos (lt_zero_iff.mpr h), if_pos h]
    have hm : ((-(v + 1)).toUInt64 + 1).toNat = v.toInt.natAbs := by
      have hone : (1 : UInt64).toNat = 1 := rfl
      rw [UInt64.toNat_add, toNat_opposite h, hone]
      omega
    have hloop := decimalSizeLoop_eq (n := 19) (m := (-(v + 1)).toUInt64 + 1) 2
      (by rw [hm]; omega)
    rw [hm] at hloop
    omega
  · rw [if_neg (mt lt_zero_iff.mp h), if_neg h]
    have hlt := v.toInt_lt
    have hm : v.toUInt64.toNat = v.toInt.natAbs := by
      rw [toNat_of_nonneg (by omega)]
      omega
    have hloop := decimalSizeLoop_eq (n := 19) (m := v.toUInt64) 1 (by rw [hm]; omega)
    rw [hm] at hloop
    omega

theorem readDigits_lt (acc : Nat) (t : Text) :
    readDigits acc t < (acc + 1) * 10 ^ t.length := by
  induction t generalizing acc with
  | nil => simp [readDigits]
  | cons c t ih =>
      rw [readDigits, List.length_cons, Nat.pow_succ]
      split
      · next hc =>
        have hdigit : c.toNat - '0'.toNat ≤ 9 := by
          have hle := (Char.isDigit_iff_toNat.mp hc).2
          have hzero : '0'.toNat = 48 := rfl
          have hnine : '9'.toNat = 57 := rfl
          omega
        have hstep := ih (10 * acc + (c.toNat - '0'.toNat))
        have hmono : (10 * acc + (c.toNat - '0'.toNat) + 1) * 10 ^ t.length ≤
            10 * (acc + 1) * 10 ^ t.length := Nat.mul_le_mul_right _ (by omega)
        calc readDigits (10 * acc + (c.toNat - '0'.toNat)) t
            < (10 * acc + (c.toNat - '0'.toNat) + 1) * 10 ^ t.length := hstep
          _ ≤ 10 * (acc + 1) * 10 ^ t.length := hmono
          _ = (acc + 1) * (10 ^ t.length * 10) := by
            rw [Nat.mul_comm 10, Nat.mul_assoc, Nat.mul_comm 10]
      · exact Nat.lt_of_lt_of_le (Nat.lt_succ_self acc)
          (Nat.le_mul_of_pos_right _ (Nat.mul_pos (Nat.pow_pos (by omega)) (by omega)))

/-- A value as it is printed. -/
def printed (v : Int64) : Numeral where
  negative := v.toInt < 0
  digits := Nat.toDigits 10 v.toInt.natAbs
  isDigit _ hc := Nat.isDigit_of_mem_toDigits (by decide) (by decide) hc
  ne_nil := Nat.toDigits_ne_nil

theorem length_text (x : Numeral) :
    x.text.length = (if x.negative then 1 else 0) + x.digits.length := by
  rw [Numeral.text, List.length_append]
  cases x.negative <;> rfl

theorem readDigits_toDigits (n : Nat) : readDigits 0 (Nat.toDigits 10 n) = n := by
  rw [readDigits_eq fun c hc => Nat.isDigit_of_mem_toDigits (by decide) (by decide) hc]
  exact Nat.ofDigitChars_ten_toDigits

/-- No number with the value is shorter than the printed one. -/
theorem shortest_integerText (v : Int64) : Shortest (integerText v) (decimalSize v) := by
  have hle := v.le_toInt
  have hlt := v.toInt_lt
  have hlen : (printed v).text.length = decimalSize v := by
    rw [length_text, decimalSize_eq]
    show (if decide (v.toInt < 0) = true then 1 else 0) + _ = _
    simp only [decide_eq_true_eq]
    rfl
  rw [← hlen]
  apply Shortest.of_word
  · refine ⟨printed v, rfl, ?_⟩
    show wrapped (v.toInt < 0) (readDigits 0 (Nat.toDigits 10 v.toInt.natAbs)) = v.toInt
    rw [readDigits_toDigits, wrapped, Nat.mod_eq_of_lt (by omega)]
    by_cases h : v.toInt < 0
    · rw [if_pos (decide_eq_true h)]
      omega
    · rw [if_neg (by simpa using h)]
      omega
  · rintro _ ⟨x, rfl, hx⟩
    rw [hlen, decimalSize_eq, length_text]
    have hmod := Nat.mod_le (readDigits 0 x.digits) (2 ^ 64)
    have hbound := readDigits_lt 0 x.digits
    have habs : v.toInt.natAbs = readDigits 0 x.digits % 2 ^ 64 ∧
        (v.toInt < 0 → x.negative = true) := by
      rw [wrapped] at hx
      split at hx
      · next hneg => exact ⟨by omega, fun _ => hneg⟩
      · exact ⟨by omega, fun h => by omega⟩
    have hdigits : (Nat.toDigits 10 v.toInt.natAbs).length ≤ x.digits.length := by
      rw [Nat.length_toDigits_le_iff (by decide) (List.length_pos_iff.mpr x.ne_nil)]
      omega
    apply Nat.add_le_add _ hdigits
    split
    · next h => rw [if_pos (habs.2 h)]
    · exact Nat.zero_le _

end Decimal

/-! ## Texts

The text of an event is a concatenation of parts of which each may be spelled in several ways. The length
of the shortest one is the sum of the shortest lengths (`Shortest.mul`), so that the lemmas here follow
the grammar rule by rule, and at last the loop of `json_size` adds up the same numbers. -/

section Json

variable {f : Field} {fs : List Field}

theorem shortest_blanks : Shortest blanks 0 := by
  apply Shortest.of_word (w := [])
  · intro c hc
    cases hc
  · intro v _
    exact Nat.zero_le _

/-- The names of the table can be written as keys. -/
theorem name_plain : ∀ info ∈ fieldInfo, '"' ∉ info.name ∧ '\\' ∉ info.name ∧
    info.name.length < maxKey ∧ cString info.name = info.name := by
  decide +kernel

theorem lookupField_eq {key : Text} {info : FieldInfo} (h : lookupField key = some info) :
    info ∈ fieldInfo ∧ info.name = key := by
  have hname := List.find?_some h
  exact ⟨List.mem_of_find?_eq_some h, (of_decide_eq_true hname).symm⟩

theorem shortest_stringText {key : Text} (h : (lookupField key).isSome) :
    Shortest (stringText key) (key.length + 2) := by
  obtain ⟨info, hinfo⟩ := Option.isSome_iff_exists.mp h
  obtain ⟨hmem, rfl⟩ := lookupField_eq hinfo
  obtain ⟨hquote, hback, hlen, hstring⟩ := name_plain info hmem
  have hword : ('"' :: (info.name ++ ['"'])).length = info.name.length + 2 := by simp
  rw [← hword]
  apply Shortest.of_word
  · exact ⟨info.name, rfl, hquote, hback, hlen, hstring⟩
  · rintro _ ⟨raw, rfl, -, -, -, hraw⟩
    have hle : info.name.length ≤ raw.length := by
      rw [← hraw]
      exact (List.takeWhile_prefix _).length_le
    rw [List.length_cons, List.length_cons, List.length_append, List.length_append]
    omega

/-- The characters of a field. -/
def jsonFieldSize (f : Field) : Nat := 2 + f.key.length + 1 + decimalSize f.value

theorem shortest_fieldText (h : (lookupField f.key).isSome) :
    Shortest (fieldText f) (jsonFieldSize f) := by
  have hshort := shortest_blanks.mul ((shortest_stringText h).mul (shortest_blanks.mul
    ((Shortest.word [':']).mul (shortest_blanks.mul (shortest_integerText f.value)))))
  have hsize : 0 + (f.key.length + 2 + (0 + ([':'].length + (0 + decimalSize f.value)))) =
      jsonFieldSize f := by
    rw [jsonFieldSize, List.length_singleton]
    omega
  rw [← hsize]
  exact hshort

theorem shortest_bodyText (h : ∀ g ∈ f :: fs, (lookupField g.key).isSome) :
    Shortest (bodyText (f :: fs)) (jsonFieldSize f + (fs.map fun g => 1 + jsonFieldSize g).sum) := by
  have hf := shortest_fieldText (h f List.mem_cons_self)
  induction fs generalizing f with
  | nil =>
      rw [bodyText, if_pos rfl]
      have hshort := hf.mul (shortest_blanks.mul
        (Shortest.one.add ((Shortest.word [',']).mul shortest_blanks)))
      exact hshort
  | cons g fs ih =>
      rw [bodyText, if_neg (List.cons_ne_nil g fs), zero_add]
      obtain ⟨-, hknown⟩ := List.forall_mem_cons.mp h
      have hrest := ih hknown (shortest_fieldText (hknown g List.mem_cons_self))
      have hshort := hf.mul (shortest_blanks.mul ((Shortest.word [',']).mul hrest))
      rw [List.map_cons, List.sum_cons, Nat.add_assoc 1]
      rw [Nat.zero_add, List.length_singleton] at hshort
      exact hshort

theorem jsonSizeLoop_eq (fs : List Field) (i size : Nat) (hi : i ≠ 0) :
    jsonSizeLoop fs i size = size + (fs.map fun g => 1 + jsonFieldSize g).sum := by
  induction fs generalizing i size with
  | nil => rfl
  | cons f fs ih =>
      rw [jsonSizeLoop, if_pos hi, ih _ _ (Nat.succ_ne_zero i), List.map_cons, List.sum_cons,
        jsonFieldSize]
      omega

/-- `json_size` is the length of the shortest text of the event. -/
theorem shortest_eventText (h : ∀ g ∈ fs, (lookupField g.key).isSome) :
    Shortest (eventText fs) (jsonSize fs) := by
  cases fs with
  | nil => exact shortest_blanks.mul ((Shortest.word ['{']).mul
      (shortest_blanks.mul (Shortest.word ['}'])))
  | cons f fs =>
      have hshort := shortest_blanks.mul ((Shortest.word ['{']).mul
        ((shortest_bodyText h).mul (Shortest.word ['}'])))
      have hsize : jsonSize (f :: fs) = 0 + (['{'].length + (jsonFieldSize f +
          (fs.map fun g => 1 + jsonFieldSize g).sum + ['}'].length)) := by
        rw [jsonSize, jsonSizeLoop, if_neg (by simp), jsonSizeLoop_eq _ _ _ (by omega),
          List.length_singleton, List.length_singleton, jsonFieldSize]
        omega
      rw [hsize]
      exact hshort

end Json

/-! ## Bytes

The same for the two binary formats. A turn of the loop adds the size of one field, a fold adds up what
its turns add (`foldlM_add`), and the library knows the shortest spelling of a field. -/

section Bytes

variable {fs : List Field}

/-- A loop that adds up what its turns add. -/
theorem foldlM_add {α : Type} {step : Nat → α → Option Nat} {g : α → Nat} {xs : List α}
    (h : ∀ x ∈ xs, ∀ s, step s x = some (s + g x)) (s : Nat) :
    xs.foldlM step s = some (s + (xs.map g).sum) := by
  induction xs generalizing s with
  | nil => rfl
  | cons x xs ih =>
      rw [List.foldlM_cons, h x List.mem_cons_self]
      show xs.foldlM step (s + g x) = _
      rw [ih fun y hy => h y (List.mem_cons_of_mem x hy), List.map_cons, List.sum_cons,
        Nat.add_assoc]

theorem cborHeadSize_eq (value : UInt64) : cborHeadSize value = Cbor.headSize value.toNat := by
  simp only [cborHeadSize, Cbor.headSize, UInt64.lt_iff_toNat_lt, UInt64.le_iff_toNat_le,
    UInt64.reduceToNat]
  split_ifs <;> omega

theorem cborIntSize_eq (value : Int64) :
    cborIntSize value = Cbor.headSize (Cbor.integerHead value.toInt).2 := by
  rw [cborIntSize, cborHeadSize_eq, Cbor.integerHead]
  by_cases h : 0 ≤ value.toInt
  · rw [if_pos h, if_pos, toNat_of_nonneg h]
    rw [ge_iff_le, Int64.le_iff_toInt_le, Int64.toInt_zero]
    exact h
  · rw [if_neg h, if_neg, toNat_opposite (by omega)]
    rw [ge_iff_le, Int64.le_iff_toInt_le, Int64.toInt_zero]
    exact h

theorem infoOf_eq {key : Text} {info : FieldInfo} (h : lookupField key = some info) :
    infoOf key = info := by
  rw [infoOf, h]
  rfl

theorem name_infoOf {key : Text} (h : (lookupField key).isSome) :
    infoOf key ∈ fieldInfo ∧ (infoOf key).name = key := by
  obtain ⟨info, hinfo⟩ := Option.isSome_iff_exists.mp h
  rw [infoOf_eq hinfo]
  exact lookupField_eq hinfo

theorem shortest_value (value : Int64) :
    Shortest (Cbor.integer value.toInt) (cborIntSize value) := by
  have hle := value.le_toInt
  have hlt := value.toInt_lt
  rw [cborIntSize_eq]
  exact Cbor.shortest_integer (by omega) (by omega)

/-- What a turn of the loop of `cbor_size` adds for the key. -/
def cborKeySize (integerKeys : Bool) (info : FieldInfo) : Nat :=
  if integerKeys then cborHeadSize info.protobufNumber.toUInt64 else cborTextSize info.name

theorem shortest_cborKey (integerKeys : Bool) {key : Text} (h : (lookupField key).isSome) :
    Shortest (cborKey integerKeys key) (cborKeySize integerKeys (infoOf key)) := by
  obtain ⟨hmem, hname⟩ := name_infoOf h
  cases integerKeys with
  | true =>
      have hlt := (infoOf key).protobufNumber.toNat_lt
      show Shortest (Cbor.integer _) (cborHeadSize _)
      rw [cborHeadSize_eq, UInt8.toNat_toUInt64]
      exact Cbor.shortest_integer (by omega) (by omega)
  | false =>
      have hlt := (name_plain _ hmem).2.2.1
      have hmax : maxKey = 32 := rfl
      have hlen : (keyBytes key).length = key.length := List.length_map ..
      have hcast : (UInt64.ofNat key.length).toNat = key.length := by
        rw [hname] at hlt
        rw [UInt64.toNat_ofNat']
        omega
      show Shortest (Cbor.text _) (cborTextSize _)
      rw [hname] at hlt ⊢
      rw [cborTextSize, cborHeadSize_eq, hcast, ← hlen]
      exact Cbor.shortest_text (by omega)

/-- `cbor_size` is the length of the shortest map. -/
theorem shortest_cbor (integerKeys : Bool) (h : Admissible fs) :
    ∃ n, cborSize fs integerKeys = some n ∧ Shortest (cbor integerKeys fs) n := by
  have hstep : ∀ f ∈ fs, ∀ size, cborStep integerKeys size f =
      some (size + (cborKeySize integerKeys (infoOf f.key) + cborIntSize f.value)) := by
    intro f hf size
    obtain ⟨info, hinfo⟩ := Option.isSome_iff_exists.mp (h.known f hf)
    rw [cborStep, hinfo, infoOf_eq hinfo, ← Nat.add_assoc]
    rfl
  have hcount : (UInt64.ofNat fs.length).toNat = fs.length := by
    have hle := h.count
    have hmax : maxFields = 16 := rfl
    rw [UInt64.toNat_ofNat']
    omega
  have hlen : (fs.map fun f => (f.key, f.value)).length = fs.length := List.length_map ..
  have hmap : Shortest (cbor integerKeys fs) (Cbor.headSize fs.length +
      (fs.map fun f => cborKeySize integerKeys (infoOf f.key) + cborIntSize f.value).sum) := by
    have hshort := Cbor.shortest_map (fs.map fun f => (f.key, f.value)) (f := cborKey integerKeys)
      (g := fun value : Int64 => Cbor.integer value.toInt)
      (m := fun key => cborKeySize integerKeys (infoOf key)) (n := cborIntSize) ?_ ?_ ?_
    · rw [hlen, List.map_map] at hshort
      exact hshort
    · rw [hlen, ← hcount]
      exact (UInt64.ofNat fs.length).toNat_lt
    · intro p hp
      obtain ⟨f, hf, rfl⟩ := List.mem_map.mp hp
      exact shortest_cborKey integerKeys (h.known f hf)
    · intro p _
      exact shortest_value p.2
  refine ⟨_, foldlM_add hstep _, ?_⟩
  rw [cborHeadSize_eq, hcount]
  exact hmap

theorem varintSizeLoop_eq {n : Nat} {value : UInt64} (size : Nat)
    (h : value.toNat < 128 ^ (n + 1)) :
    varintSizeLoop n value size + 1 = size + (Base128.encode value.toNat).length := by
  induction n generalizing value size with
  | zero =>
      rw [varintSizeLoop, Protobuf.length_encode_of_lt (by omega)]
  | succ n ih =>
      rw [varintSizeLoop]
      split
      · next hge =>
        simp only [ge_iff_le, UInt64.le_iff_toNat_le, UInt64.reduceToNat] at hge
        have hshift : (value >>> 7).toNat = value.toNat / 128 := by
          rw [UInt64.toNat_shiftRight, show (7 : UInt64).toNat = 7 from rfl, Nat.shiftRight_eq_div_pow]
        rw [Nat.pow_succ] at h
        rw [ih _ (by omega), hshift, Protobuf.length_encode_of_ge hge]
        omega
      · next hlt =>
        simp only [ge_iff_le, UInt64.le_iff_toNat_le, UInt64.reduceToNat, Nat.not_le] at hlt
        rw [Protobuf.length_encode_of_lt hlt]

theorem varintSize_eq (value : UInt64) :
    varintSize value = (Base128.encode value.toNat).length := by
  have hlt := value.toNat_lt
  have hloop := varintSizeLoop_eq (n := 9) 1 (show value.toNat < 128 ^ (9 + 1) by omega)
  rw [varintSize]
  omega

/-- `zigzag32` doubles, also for `INT32_MIN`, where the doubled magnitude overflows. -/
theorem zigzag32_eq (value : Int64) :
    (zigzag32 value).toNat = Protobuf.zigzag value.toInt32.toInt := by
  have hle := value.toInt32.le_toInt
  have hlt := value.toInt32.toInt_lt
  have hdouble : ∀ m : UInt32, (m <<< 1).toNat = 2 * m.toNat % 2 ^ 32 := by
    intro m
    rw [UInt32.toNat_shiftLeft, show (1 : UInt32).toNat = 1 from rfl, Nat.shiftLeft_eq,
      Nat.mul_comm]
  rw [zigzag32, Protobuf.zigzag]
  dsimp only
  by_cases h : value.toInt32.toInt < 0
  · rw [if_pos (by rw [Int32.lt_iff_toInt_lt, Int32.toInt_zero]; exact h), if_neg (by omega)]
    have hwide : (-value.toInt32.toInt64).toInt = -value.toInt32.toInt := by
      rw [Int64.toInt_neg, Int32.toInt_toInt64, Int.bmod_eq_of_le] <;> omega
    have hmagnitude : (-value.toInt32.toInt64).toUInt64.toUInt32.toNat =
        (-value.toInt32.toInt).toNat := by
      rw [UInt64.toNat_toUInt32, toNat_of_nonneg (by omega), hwide]
      omega
    rw [UInt32.toNat_toUInt64, UInt32.toNat_sub, hdouble, hmagnitude,
      show (1 : UInt32).toNat = 1 from rfl]
    omega
  · rw [if_neg (by rw [Int32.lt_iff_toInt_lt, Int32.toInt_zero]; exact h), if_pos (by omega)]
    have hsame : value.toInt32.toUInt32.toNat = value.toInt32.toInt.toNat := by
      have hcond : value.toInt32.toInt = if 2 * value.toInt32.toUInt32.toNat < 2 ^ 32 then
          (value.toInt32.toUInt32.toNat : Int) else value.toInt32.toUInt32.toNat - (2 ^ 32 : Nat) :=
        BitVec.toInt_eq_toNat_cond value.toInt32.toBitVec
      have hbound := value.toInt32.toUInt32.toNat_lt
      split_ifs at hcond <;> omega
    rw [UInt32.toNat_toUInt64, hdouble, hsame]
    omega

/-- `protobuf_size` is the length of the shortest message. -/
theorem shortest_protobuf (h : ∀ f ∈ fs, (lookupField f.key).isSome) :
    ∃ n, protobufSize fs = some n ∧ Shortest (protobuf fs) n := by
  have hstep : ∀ f ∈ fs, ∀ size, protobufStep size f = some (size +
      if decide (f.value = 0) then 0 else
        (Base128.encode (8 * (wire f).1)).length + (Base128.encode (wire f).2).length) := by
    intro f hf size
    obtain ⟨info, hinfo⟩ := Option.isSome_iff_exists.mp (h f hf)
    rw [protobufStep, hinfo, wire, infoOf_eq hinfo]
    by_cases hzero : f.value = 0
    · simp [hzero]
    · have htag : (info.protobufNumber.toUInt32 <<< 3).toUInt64.toNat =
          8 * info.protobufNumber.toNat := by
        have hlt := info.protobufNumber.toNat_lt
        rw [UInt32.toNat_toUInt64, UInt32.toNat_shiftLeft, show (3 : UInt32).toNat = 3 from rfl,
          Nat.shiftLeft_eq, UInt8.toNat_toUInt32, show 2 ^ (3 % 32) = 8 from rfl]
        omega
      have hvalue : (if info.protobufSigned then zigzag32 f.value else f.value.toUInt64).toNat =
          if info.protobufSigned then Protobuf.zigzag f.value.toInt32.toInt
          else f.value.toUInt64.toNat := by
        split
        · exact zigzag32_eq f.value
        · rfl
      simp only [Option.bind_eq_bind, Option.bind_some, hzero, if_false, decide_false,
        Bool.false_eq_true, Option.pure_def, varintSize_eq, htag, hvalue, Nat.add_assoc]
  refine ⟨_, foldlM_add hstep 0, ?_⟩
  rw [Nat.zero_add]
  apply Protobuf.shortest_message
  intro f _
  exact Protobuf.shortest_field (wire f)

end Bytes

/-! ## What the bytes tell

A size would mean little if different events had the same encoding. They have not: the keys tell the
fields, and the values can be read back, in Protocol Buffers as far as they fit the type of the field. -/

section Unique

variable {fs gs : List Field} {w : List UInt8}

/-- Different entries have different names, numbers and spellings of their names. -/
theorem fieldInfo_distinct : ∀ x ∈ fieldInfo, ∀ y ∈ fieldInfo,
    (x.protobufNumber = y.protobufNumber → x = y) ∧ (keyBytes x.name = keyBytes y.name → x = y) := by
  decide +kernel

theorem key_of_number {key key' : Text} (h : (lookupField key).isSome)
    (h' : (lookupField key').isSome)
    (heq : (infoOf key).protobufNumber = (infoOf key').protobufNumber) : key = key' := by
  obtain ⟨hmem, hname⟩ := name_infoOf h
  obtain ⟨hmem', hname'⟩ := name_infoOf h'
  rw [← hname, ← hname', (fieldInfo_distinct _ hmem _ hmem').1 heq]

theorem key_of_bytes {key key' : Text} (h : (lookupField key).isSome)
    (h' : (lookupField key').isSome) (heq : keyBytes key = keyBytes key') : key = key' := by
  obtain ⟨hmem, hname⟩ := name_infoOf h
  obtain ⟨hmem', hname'⟩ := name_infoOf h'
  rw [← hname, ← hname'] at heq ⊢
  rw [(fieldInfo_distinct _ hmem _ hmem').2 heq]

theorem eq_of_map_eq {α β : Type} {g : α → β} {xs ys : List α}
    (hinj : ∀ x ∈ xs, ∀ y ∈ ys, g x = g y → x = y) (h : xs.map g = ys.map g) : xs = ys := by
  induction xs generalizing ys with
  | nil => exact (List.map_eq_nil_iff.mp h.symm).symm
  | cons x xs ih =>
      cases ys with
      | nil => cases h
      | cons y ys =>
          rw [List.map_cons, List.map_cons] at h
          obtain ⟨hhead, htail⟩ := List.cons.inj h
          rw [hinj x List.mem_cons_self y List.mem_cons_self hhead]
          rw [ih (fun a ha b hb => hinj a (List.mem_cons_of_mem x ha) b (List.mem_cons_of_mem y hb))
            htail]

/-- Where the keys tell the fields, a map does. -/
theorem map_unique {κ : Type} {f : κ → Language UInt8} {a : Text → κ} (hf : Delimited f)
    (ha : ∀ x ∈ fs, ∀ y ∈ gs, a x.key = a y.key → x.key = y.key)
    (hw : w ∈ Cbor.map (f ∘ a) (fun value : Int64 => Cbor.integer value.toInt)
      (fs.map fun f => (f.key, f.value)))
    (hw' : w ∈ Cbor.map (f ∘ a) (fun value : Int64 => Cbor.integer value.toInt)
      (gs.map fun f => (f.key, f.value))) : fs = gs := by
  have hmap : ∀ hs : List Field, Cbor.map (f ∘ a) (fun value : Int64 => Cbor.integer value.toInt)
      (hs.map fun f => (f.key, f.value)) =
        Cbor.map f Cbor.integer (hs.map fun f => (a f.key, f.value.toInt)) := by
    intro hs
    rw [Cbor.map, Cbor.map, List.length_map, List.length_map, List.map_map, List.map_map]
    rfl
  rw [hmap] at hw hw'
  apply eq_of_map_eq _ ((Cbor.delimited_map hf Cbor.delimited_integer).unique hw hw')
  rintro ⟨key, value⟩ hx ⟨key', value'⟩ hy heq
  obtain ⟨hkey, hvalue⟩ := Prod.mk.inj heq
  rw [Field.mk.injEq]
  exact ⟨ha _ hx _ hy hkey, Int64.toInt_inj.mp hvalue⟩

theorem cbor_unique {integerKeys : Bool} (h : Admissible fs) (h' : Admissible gs)
    (hw : w ∈ cbor integerKeys fs) (hw' : w ∈ cbor integerKeys gs) : fs = gs := by
  cases integerKeys with
  | true =>
      apply map_unique Cbor.delimited_integer _ hw hw'
      intro x hx y hy heq
      apply key_of_number (h.known x hx) (h'.known y hy)
      rw [← UInt8.toNat_inj]
      exact Int.ofNat.inj heq
  | false =>
      apply map_unique Cbor.delimited_text _ hw hw'
      intro x hx y hy heq
      exact key_of_bytes (h.known x hx) (h'.known y hy) heq

/-- The value fits into the type of the field. -/
def Narrow (f : Field) : Prop :=
  (infoOf f.key).protobufSigned = true → -2 ^ 31 ≤ f.value.toInt ∧ f.value.toInt < 2 ^ 31

theorem wire_inj {f g : Field} (hf : (lookupField f.key).isSome) (hg : (lookupField g.key).isSome)
    (hf' : Narrow f) (hg' : Narrow g) (h : wire f = wire g) : f = g := by
  obtain ⟨key, value⟩ := f
  obtain ⟨key', value'⟩ := g
  obtain ⟨hnumber, hvalue⟩ := Prod.mk.inj h
  obtain rfl : key = key' := key_of_number hf hg (UInt8.toNat_inj.mp hnumber)
  rw [Field.mk.injEq]
  refine ⟨rfl, ?_⟩
  rw [Narrow] at hf' hg'
  dsimp only at hvalue hf' hg'
  split at hvalue
  · next hsigned =>
    have hz := Protobuf.zigzag_inj hvalue
    rw [Int64.toInt_toInt32, Int64.toInt_toInt32] at hz
    obtain ⟨hle, hlt⟩ := hf' hsigned
    obtain ⟨hle', hlt'⟩ := hg' hsigned
    rw [Int.bmod_eq_of_le (by omega) (by omega), Int.bmod_eq_of_le (by omega) (by omega)] at hz
    exact Int64.toInt_inj.mp hz
  · have hbits := UInt64.toNat_inj.mp hvalue
    rw [← Int64.toInt64_toUInt64 value, hbits, Int64.toInt64_toUInt64]

theorem protobuf_unique (h : ∀ f ∈ fs, (lookupField f.key).isSome ∧ Narrow f)
    (h' : ∀ f ∈ gs, (lookupField f.key).isSome ∧ Narrow f) (hw : w ∈ protobuf fs)
    (hw' : w ∈ protobuf gs) :
    (fs.filter fun f => !decide (f.value = 0)) = gs.filter fun f => !decide (f.value = 0) := by
  obtain ⟨js, hsub, hrow, hfilter⟩ := Protobuf.exists_row hw
  obtain ⟨ks, hsub', hrow', hfilter'⟩ := Protobuf.exists_row hw'
  rw [← hfilter, ← hfilter']
  have hwire : ∀ hs : List Field, (hs.map fun f => Protobuf.field (wire f)) =
      (hs.map wire).map Protobuf.field := by
    intro hs
    rw [List.map_map]
    rfl
  rw [hwire] at hrow hrow'
  have hjs : js.map wire = ks.map wire :=
    Protobuf.delimited_field.prod_unique Protobuf.nil_not_field hrow hrow'
  rw [eq_of_map_eq _ hjs]
  intro x hx y hy heq
  obtain ⟨hknown, hnarrow⟩ := h x (hsub.subset hx)
  obtain ⟨hknown', hnarrow'⟩ := h' y (hsub'.subset hy)
  exact wire_inj hknown hknown' hnarrow hnarrow' heq

end Unique

/-- What `parse_event` reads, in any text. It reads the events with few enough fields and known keys
from the texts that say them, and stops behind such a text; each of these events has a text; and no
text says two of them, or goes on where another one ends. -/
theorem event_grammar :
    (∀ p event r, parseEvent p = some (event, r) ↔
      Admissible event ∧ ∃ t ∈ eventText event, p = t ++ r) ∧
    (∀ event, Admissible event → ∃ t ∈ eventText event, parseEvent t = some (event, [])) ∧
    ∀ event event' t t' r r', Admissible event → Admissible event' → t ∈ eventText event →
      t' ∈ eventText event' → t ++ r = t' ++ r' → event = event' ∧ t = t' ∧ r = r' := by
  refine ⟨fun p event r => parseEvent_iff, ?_, ?_⟩
  · intro event h
    obtain ⟨t, ht, -⟩ := (shortest_eventText h.known).exists_word
    exact ⟨t, ht, parseEvent_iff.mpr ⟨h, t, ht, (List.append_nil t).symm⟩⟩
  · intro event event' t t' r r' h h' ht ht' heq
    have hread : parseEvent (t ++ r) = some (event, r) := parseEvent_iff.mpr ⟨h, t, ht, rfl⟩
    have hread' : parseEvent (t ++ r) = some (event', r') :=
      parseEvent_iff.mpr ⟨h', t', ht', heq⟩
    obtain ⟨rfl, rfl⟩ := Prod.mk.inj (Option.some.inj (hread.symm.trans hread'))
    exact ⟨rfl, List.append_cancel_right heq, rfl⟩

/-- The benchmark compares shortest encodings. Of an event that `parse_event` can have read,
`json_size` is the length of the shortest texts it is read from, `cbor_size` that of the shortest
maps, and `protobuf_size` that of the shortest messages. A map belongs to one event only, and so does
a message, up to fields that are 0 and to signed values that do not fit into 32 bits. -/
theorem sizes_shortest {event : List Field} (h : Admissible event) :
    Shortest ({t | parseEvent t = some (event, [])} : Language Char) (jsonSize event) ∧
    (∀ integerKeys, ∃ n, cborSize event integerKeys = some n ∧
      Shortest (cbor integerKeys event) n) ∧
    (∃ n, protobufSize event = some n ∧ Shortest (protobuf event) n) ∧
    ∀ (event' : List Field) (w : List UInt8), Admissible event' →
      (∀ integerKeys, w ∈ cbor integerKeys event → w ∈ cbor integerKeys event' →
        event = event') ∧
      ((∀ f ∈ event ++ event', Narrow f) → w ∈ protobuf event → w ∈ protobuf event' →
        (event.filter fun f => f.value ≠ 0) = event'.filter fun f => f.value ≠ 0) := by
  have hread : ({t | parseEvent t = some (event, [])} : Language Char) = eventText event := by
    apply Language.ext
    intro t
    show parseEvent t = some (event, []) ↔ _
    rw [parseEvent_iff]
    constructor
    · rintro ⟨-, u, hu, rfl⟩
      rwa [List.append_nil]
    · intro ht
      exact ⟨h, t, ht, (List.append_nil t).symm⟩
  refine ⟨?_, fun k => shortest_cbor k h, shortest_protobuf h.known, ?_⟩
  · rw [hread]
    exact shortest_eventText h.known
  · intro event' w h'
    refine ⟨fun k hw hw' => cbor_unique h h' hw hw', ?_⟩
    intro hnarrow hw hw'
    simp only [ne_eq, decide_not]
    apply protobuf_unique _ _ hw hw'
    · intro f hf
      exact ⟨h.known f hf, hnarrow f (List.mem_append_left event' hf)⟩
    · intro f hf
      exact ⟨h'.known f hf, hnarrow f (List.mem_append_right event hf)⟩

/-- A type and a negative coordinate. -/
def sampleEvent : List Field := [⟨"type".toList, 1⟩, ⟨"x".toList, -16⟩]

theorem sizes_shortest_sample :
    Shortest ({t | parseEvent t = some (sampleEvent, [])} : Language Char) 18 ∧
      Shortest (cbor true sampleEvent) 5 ∧ Shortest (protobuf sampleEvent) 4 := by
  have h : Admissible sampleEvent := by decide +kernel
  obtain ⟨hjson, hcbor, ⟨n, hn, hprotobuf⟩, -⟩ := sizes_shortest h
  obtain ⟨m, hm, hcbor⟩ := hcbor true
  have hj : jsonSize sampleEvent = 18 := by decide +kernel
  rw [hj] at hjson
  have hm' : cborSize sampleEvent true = some 5 := by decide +kernel
  have hn' : protobufSize sampleEvent = some 4 := by decide +kernel
  cases hm.symm.trans hm'
  cases hn.symm.trans hn'
  exact ⟨hjson, hcbor, hprotobuf⟩

end Benchmark

end MclWire
