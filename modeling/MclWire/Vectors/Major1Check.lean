import MclWire.Agreement
import MclWire.Vectors.Major1Scan

/-!
# What the validator of the major-1 vectors accepts

A file of vectors as it is published: two sections, and in each the vectors one after the other. A vector
is what stands from one `"name"` to the next, with its members in any order.

* `Vector`, `VectorFile` — such a file, as a row of tokens.
* `Vector.Sound` — the bytes are a Stable object, without extensions and with the recorded fields.
  `Vector.Refused` — they are no object without extensions.
* `checkLoop_run` — the loops of `main` come to every vector.
* `major1_vectors_iff` — the validator accepts a file if and only if its first section is sound, and its
  second one is refused.
-/

namespace MclWire

open CText

namespace Major1Vectors

/-! ## Files -/

/-- `"name"` -/
def nameKey : Text := "name".toList

/-- `"negative_vectors"` -/
def negativesKey : Text := "negative_vectors".toList

/-- A vector: the tokens from its name up to the next one. -/
structure Vector where
  nameGap : Text
  name : Token
  others : List Token
  plain : Token.Plain ⟨nameKey, nameGap⟩ ∧ ∀ k ∈ name :: others, k.Plain
  named : IsOpen nameGap
  keys : ∀ k ∈ name :: others, k.string ≠ nameKey
  closed : ∀ k ∈ (name :: others).getLast?, ¬ IsOpen k.gap

def Vector.tokens (v : Vector) : List Token := ⟨nameKey, v.nameGap⟩ :: v.name :: v.others

/-- The bytes that are recorded under `"hex"`. -/
def Vector.Bytes (v : Vector) (bytes : List UInt8) : Prop :=
  ∃ hex, stringIn "hex".toList v.tokens = some hex ∧ Recorded hex bytes

/-- They are what `from_hex` reads. -/
theorem Vector.bytes_iff {v : Vector} {hex : Text} {bytes : List UInt8}
    (hhex : stringIn "hex".toList v.tokens = some hex) :
    v.Bytes bytes ↔ fromHex (hex.take 255) 64 = bytes := by
  rw [← recorded_iff]
  constructor
  · rintro ⟨hex', hhex', h⟩
    rw [hhex] at hhex'
    cases hhex'
    exact h
  · intro h
    exact ⟨hex, hhex, h⟩

/-- The tokens from `"fields"` on. -/
def Vector.fields (v : Vector) : List Token := seek "fields".toList v.tokens

/-- The fields of a Stable object are recorded, and it has no machine class. -/
def Records (ks : List Token) (o : Tier0) : Prop :=
  ∃ fields, bodyFields o.body = some fields ∧
    (∀ p ∈ commonFields o ++ fields, numberIn p.1 ks = some p.2) ∧
    ∀ b, o.body = .presence b → b.machineClass = 0

/-- The bytes are an object without extensions, at whichever major, with the recorded length and the
recorded fields. -/
def Vector.Sound (v : Vector) : Prop :=
  ∃ f : Frame, f.extensions = [] ∧ v.Bytes f.bytes ∧
    numberIn "length".toList v.tokens = some f.bytes.length ∧ v.fields ≠ [] ∧
    Records v.fields f.object

/-- The bytes, if there are any recorded, are no object without extensions. -/
def Vector.Refused (v : Vector) : Prop :=
  ∀ bytes, v.Bytes bytes → bytes ≠ [] ∧ ∀ f : Frame, f.extensions = [] → f.bytes ≠ bytes

/-- A file of vectors. -/
structure VectorFile where
  lead : Text
  head : List Token
  positivesGap : Text
  positives : List Vector
  negativesGap : Text
  negatives : List Vector
  lead_plain : '"' ∉ lead ∧ Char.ofNat 0 ∉ lead
  head_plain : ∀ k ∈ head, k.Plain
  head_keys : ∀ k ∈ head, k.string ≠ "vectors".toList ∧ k.string ≠ negativesKey
  gaps_plain : Token.Plain ⟨"vectors".toList, positivesGap⟩ ∧ Token.Plain ⟨negativesKey, negativesGap⟩
  positives_keys : ∀ v ∈ positives, ∀ k ∈ v.tokens, k.string ≠ negativesKey

/-- The second section. -/
def VectorFile.negativeTokens (f : VectorFile) : List Token :=
  ⟨negativesKey, f.negativesGap⟩ :: f.negatives.flatMap Vector.tokens

/-- The first section, and what is behind it. -/
def VectorFile.tokens (f : VectorFile) : List Token :=
  ⟨"vectors".toList, f.positivesGap⟩ :: (f.positives.flatMap Vector.tokens ++ f.negativeTokens)

/-- The text of the file. -/
def VectorFile.text (f : VectorFile) : Text := f.lead ++ render (f.head ++ f.tokens)

/-! ## Turns of the loops

A loop looks for the next name and takes what stands up to the one behind it as a block. By induction on
the vectors of a section, each turn has one vector as its block. -/

section Turns

variable {text g : Text} {pos n : Nat} {as rest last : List Token} {v : Vector} {vs : List Vector}
  {check : Tier0 → Text → Text → Nat → Nat → Checked} {objects : Nat → Tier0}

/-- Behind a block there is the next vector, the next section or nothing. -/
def Next (rest : List Token) : Prop := ∀ k ∈ rest.head?, k.string = nameKey ∨ k.string = negativesKey

theorem Next.ne {w : Text} (h : Next rest) (hname : w ≠ nameKey) (hnegatives : w ≠ negativesKey) :
    ∀ k ∈ rest.head?, k.string ≠ w := by
  rintro k hk rfl
  rcases h k hk with h | h
  · exact hname h
  · exact hnegatives h

theorem next_flatMap (hlast : Next last) : Next (vs.flatMap Vector.tokens ++ last) := by
  cases vs with
  | nil => exact hlast
  | cons v vs =>
      intro k hk
      cases hk
      exact Or.inl rfl

theorem Vector.tokens_closed (v : Vector) : ∀ k ∈ v.tokens.getLast?, ¬ IsOpen k.gap := by
  rw [Vector.tokens, List.getLast?_cons_cons]
  exact v.closed

theorem Vector.tokens_plain (v : Vector) : ∀ k ∈ v.tokens, k.Plain :=
  List.forall_mem_cons.mpr v.plain

/-- The search from the place in front of a string finds the string. -/
theorem findFrom_before {k : Token} {ks : List Token} (hw : IsWord k.string)
    (h : At text (place text (k :: ks)) [] (k :: ks)) (hpos : 0 < place text (k :: ks)) :
    findFrom text (quoted k.string) (place text (k :: ks) - 1) = some (place text (k :: ks)) := by
  have hlt : place text (k :: ks) - 1 < text.length := by
    have : place text (k :: ks) ≤ text.length := Nat.sub_le _ _
    omega
  have hdrop : text.drop (place text (k :: ks) - 1) =
      text[place text (k :: ks) - 1] :: render (k :: ks) := by
    rw [List.drop_eq_getElem_cons hlt, Nat.sub_add_cancel hpos, h.drop, List.nil_append]
  have hnul : Char.ofNat 0 ∉ text.drop (place text (k :: ks) - 1) :=
    fun hmem => h.nul (List.mem_of_mem_drop hmem)
  have hne : ¬ quoted k.string <+: text[place text (k :: ks) - 1] :: render (k :: ks) := by
    intro hprefix
    obtain ⟨hnil, hchars⟩ := hw
    obtain ⟨c, cs, hstring⟩ := List.exists_cons_of_ne_nil hnil
    rw [quoted, List.cons_prefix_cons, render, hstring, List.cons_append] at hprefix
    have hc := (List.cons_prefix_cons.mp hprefix.2).1
    have hword := hchars c (by rw [hstring]; exact List.mem_cons_self)
    rw [hc] at hword
    exact absurd hword (by decide)
  rw [findFrom, if_neg (Nat.not_le_of_lt hlt), strstrIn_eq hnul, hdrop, strstr_cons hne]
  have hhere : strstr (quoted k.string) (render (k :: ks)) = some (render (k :: ks)) :=
    strstr_here k.string (k.gap ++ render ks)
  rw [hhere]
  rfl

/-- The name of a vector is read. -/
theorem readName_vector (h : At text (place text (v.tokens ++ rest)) [] (v.tokens ++ rest))
    (hpos : 0 < place text (v.tokens ++ rest)) :
    ∃ name, readName text (place text (v.tokens ++ rest)) = some name := by
  have hkey : IsWord nameKey := by decide
  have hfind : findFrom text (quoted nameKey) (place text (v.tokens ++ rest) - 1) =
      some (place text (v.tokens ++ rest)) := findFrom_before hkey h hpos
  have hbehind : At text (place text (v.tokens ++ rest) + 6) v.nameGap (v.name :: v.others ++ rest) :=
    h.behind
  have htake : (quoted nameKey).take 63 = quoted nameKey := by decide
  have hlimit : ¬ place text (v.tokens ++ rest) > place text (v.tokens ++ rest) + 64 := by omega
  have hfound : findKey text "name".toList (place text (v.tokens ++ rest) - 1)
      (place text (v.tokens ++ rest) + 64) = some (place text (v.tokens ++ rest) + 6) := by
    show findKey text nameKey _ _ = _
    rw [findKey, htake, hfind, Option.bind_eq_bind, Option.bind_some, if_neg hlimit]
    rfl
  apply Option.isSome_iff_exists.mp
  rw [readName, if_neg (by omega), readString, hfound, Option.bind_eq_bind, Option.bind_some,
    hbehind.drop, openString_gap hbehind.gap, if_pos v.named]
  rfl

/-- The next vector is found, and it is not behind the section. -/
theorem findFrom_vector (h : At text pos g (as ++ (v.tokens ++ (vs.flatMap Vector.tokens ++ last))))
    (has : ∀ k ∈ as, k.string ≠ nameKey) :
    findFrom text (quoted "name".toList) pos =
        some (place text (v.tokens ++ (vs.flatMap Vector.tokens ++ last))) ∧
      place text (v.tokens ++ (vs.flatMap Vector.tokens ++ last)) ≤ place text last := by
  have hseek : seek nameKey (as ++ (v.tokens ++ (vs.flatMap Vector.tokens ++ last))) =
      v.tokens ++ (vs.flatMap Vector.tokens ++ last) := by
    rw [seek_skip has]
    exact seek_here rfl
  constructor
  · have hfind := findFrom_eq (by decide : IsWord nameKey) h
    rw [hseek] at hfind
    exact hfind.trans (if_neg (List.cons_ne_nil _ _))
  · have hsuffix := h.suffix
    rw [← List.append_assoc] at hsuffix ⊢
    exact place_le hsuffix

/-- A block ends with the next vector, or with the section. -/
theorem blockEnd_vector
    (h : At text (place text (v.tokens ++ (vs.flatMap Vector.tokens ++ last))) []
      (v.tokens ++ (vs.flatMap Vector.tokens ++ last))) (hlast : ∀ k ∈ last.head?, k.string ≠ nameKey) :
    blockEnd text (place text (v.tokens ++ (vs.flatMap Vector.tokens ++ last))) (place text last) =
      place text (vs.flatMap Vector.tokens ++ last) := by
  have hbehind : At text (place text (v.tokens ++ (vs.flatMap Vector.tokens ++ last)) + 6) v.nameGap
      ((v.name :: v.others) ++ (vs.flatMap Vector.tokens ++ last)) := h.behind
  rw [blockEnd]
  cases vs with
  | nil =>
      have hnil : seek nameKey (v.name :: v.others) = [] := seek_eq_nil v.keys
      cases hfind : findFrom text (quoted "name".toList)
        (place text (v.tokens ++ ([].flatMap Vector.tokens ++ last)) + 6) with
      | none => rfl
      | some p =>
          exact if_pos (findFrom_beyond (by decide : IsWord nameKey) hbehind hlast hnil hfind)
  | cons v' vs =>
      rw [List.flatMap_cons, List.append_assoc] at hbehind ⊢
      obtain ⟨hfind, hle⟩ := findFrom_vector hbehind v.keys
      rw [hfind]
      exact if_neg (Nat.not_lt_of_le hle)

/-- A turn of a loop. -/
theorem checkLoop_turn (check : Tier0 → Text → Text → Nat → Nat → Checked) (objects : Nat → Tier0)
    (n : Nat) (h : At text pos g (as ++ (v.tokens ++ (vs.flatMap Vector.tokens ++ last))))
    (has : ∀ k ∈ as, k.string ≠ nameKey) (hlast : ∀ k ∈ last.head?, k.string ≠ nameKey)
    (hpos : 0 < place text (v.tokens ++ (vs.flatMap Vector.tokens ++ last))) :
    ∃ name, checkLoop check objects text (place text last) (n + 1) pos =
      check (objects n) text name (place text (v.tokens ++ (vs.flatMap Vector.tokens ++ last)))
        (place text (vs.flatMap Vector.tokens ++ last)) ::
      checkLoop check objects text (place text last) n
        (place text (v.tokens ++ (vs.flatMap Vector.tokens ++ last)) + 6) := by
  have hpart := h.part
  obtain ⟨hfind, hle⟩ := findFrom_vector h has
  obtain ⟨name, hname⟩ := readName_vector hpart hpos
  refine ⟨name, ?_⟩
  rw [checkLoop, hfind]
  simp only
  rw [if_neg (Nat.not_lt_of_le hle), hname, blockEnd_vector hpart hlast]

/-- Behind the last vector a loop ends. -/
theorem checkLoop_nil (h : At text pos g (as ++ last)) (has : ∀ k ∈ as, k.string ≠ nameKey)
    (hlast : ∀ k ∈ last.head?, k.string ≠ nameKey) :
    checkLoop check objects text (place text last) n pos = [] := by
  cases n with
  | zero => rfl
  | succ n =>
      have habsent : seek nameKey as = [] := seek_eq_nil has
      rw [checkLoop]
      cases hfind : findFrom text (quoted "name".toList) pos with
      | none => rfl
      | some p =>
          exact if_pos (findFrom_beyond (by decide : IsWord nameKey) h hlast habsent hfind)

/-- A loop comes to every vector of its section. -/
theorem checkLoop_run {R : Checked → Vector → Prop} (hnext : Next last)
    (hlast : ∀ k ∈ last.head?, k.string ≠ nameKey)
    (hcheck : ∀ (v : Vector) (rest : List Token) (namePos : Nat) (name : Text) (object : Tier0),
      At text namePos [] (v.tokens ++ rest) → Next rest →
      R (check object text name namePos (place text rest)) v)
    (h : At text pos g (as ++ (vs.flatMap Vector.tokens ++ last)))
    (has : ∀ k ∈ as, k.string ≠ nameKey) (hpos : 0 < pos ∨ as ≠ []) (hn : vs.length < n) :
    List.Forall₂ R (checkLoop check objects text (place text last) n pos) vs := by
  induction vs generalizing pos g as n with
  | nil =>
      rw [List.flatMap_nil, List.nil_append] at h
      rw [checkLoop_nil h has hlast]
      exact List.Forall₂.nil
  | cons v vs ih =>
      obtain ⟨n, rfl⟩ : ∃ m, n = m + 1 := ⟨n - 1, by omega⟩
      rw [List.length_cons] at hn
      rw [List.flatMap_cons, List.append_assoc] at h
      have hpart := h.part
      have hle := h.pos_le (List.cons_ne_nil _ _)
      have hplace : 0 < place text (v.tokens ++ (vs.flatMap Vector.tokens ++ last)) := by
        rcases hpos with hpos | hne
        · exact Nat.lt_of_lt_of_le hpos hle
        · have hwhole : At text pos g ([] ++ (as ++ (v.tokens ++ (vs.flatMap Vector.tokens ++ last)))) :=
            h
          exact Nat.lt_of_le_of_lt (Nat.zero_le _) (place_lt hwhole.suffix hne)
      obtain ⟨name, hturn⟩ := checkLoop_turn check objects n h has hlast hplace
      rw [hturn]
      have hbehind : At text (place text (v.tokens ++ (vs.flatMap Vector.tokens ++ last)) + 6)
          v.nameGap ((v.name :: v.others) ++ (vs.flatMap Vector.tokens ++ last)) := hpart.behind
      exact List.Forall₂.cons (hcheck v _ _ _ _ hpart (next_flatMap hnext))
        (ih hbehind v.keys (Or.inl (Nat.succ_pos _)) (by omega))

end Turns

/-! ## The checks of a vector

In a block the searches for a key find what is recorded under it, or nothing. What the checks compare
with that is what the decoder returns for the bytes. -/

section Checks

variable {text name : Text} {namePos : Nat} {rest : List Token} {v : Vector} {bytes : List UInt8}

theorem commonFields_keys (o : Tier0) :
    (commonFields o).map Prod.fst = ["priority".toList, "source_ref".toList] := rfl

/-- The keys of the body's fields, kind by kind. -/
theorem bodyFields_keys {b : Body} {fields : List (Text × Nat)} (h : bodyFields b = some fields) :
    fields.map Prod.fst = ["capability_tag".toList, "ttl".toList] ∨
    fields.map Prod.fst = ["migration_ref".toList, "transport_id".toList, "profile_id".toList,
      "endpoint_token".toList, "validity".toList] ∨
    fields.map Prod.fst = ["migration_ref".toList, "transport_id".toList, "profile_id".toList,
      "session_ref".toList] := by
  cases b with
  | presence b =>
      cases h
      exact Or.inl rfl
  | transportOffer b =>
      cases h
      exact Or.inr (Or.inl rfl)
  | transportAccept b =>
      cases h
      exact Or.inr (Or.inr rfl)
  | hazard b => cases h
  | request b => cases h
  | authorityClaim b => cases h
  | degradedState b => cases h
  | unassigned code => cases h

/-- The fields have names that the scanner can look for. -/
theorem field_keys {o : Tier0} {fields : List (Text × Nat)} (h : bodyFields o.body = some fields) :
    ∀ p ∈ commonFields o ++ fields, IsKey p.1 ∧ p.1 ≠ nameKey ∧ p.1 ≠ negativesKey := by
  have hkeys : ∀ w ∈ (commonFields o ++ fields).map Prod.fst,
      IsKey w ∧ w ≠ nameKey ∧ w ≠ negativesKey := by
    rw [List.map_append, commonFields_keys]
    rcases bodyFields_keys h with hbody | hbody | hbody
    · rw [hbody]
      decide
    · rw [hbody]
      decide
    · rw [hbody]
      decide
  intro p hp
  exact hkeys p.1 (List.mem_map_of_mem hp)

/-- `check_field` -/
theorem checkField_iff {ks : List Token} {pos : Nat} {p : Text × Nat} (h : At text pos [] (ks ++ rest))
    (hkey : IsKey p.1) (hrest : ∀ k ∈ rest.head?, k.string ≠ p.1) :
    checkField text name pos (place text rest) p = [] ↔ numberIn p.1 ks = some p.2 := by
  rw [checkField, readNumber_block hkey h hrest]
  cases numberIn p.1 ks with
  | none => simp
  | some n => simp

/-- The fields that are compared. -/
theorem checkFields_iff {ks : List Token} {pos : Nat} {o : Tier0} (h : At text pos [] (ks ++ rest))
    (hnext : Next rest) :
    checkFields text name pos (place text rest) o = [] ↔ Records ks o := by
  rw [checkFields, List.append_eq_nil_iff, Records]
  cases hfields : bodyFields o.body with
  | none => simp
  | some fields =>
      have hkeys := field_keys hfields
      have hcheck : ∀ p ∈ commonFields o ++ fields,
          (checkField text name pos (place text rest) p = [] ↔ numberIn p.1 ks = some p.2) := by
        intro p hp
        obtain ⟨hkey, hname, hnegatives⟩ := hkeys p hp
        exact checkField_iff h hkey (hnext.ne hname hnegatives)
      have hclass : machineClassCheck name o.body = [] ↔
          ∀ b, o.body = .presence b → b.machineClass = 0 := by
        cases o.body <;> simp [machineClassCheck]
      simp only [List.append_eq_nil_iff, List.flatMap_eq_nil_iff, hclass, Option.some.injEq,
        exists_eq_left', List.forall_mem_append]
      rw [List.forall_mem_append] at hcheck
      rw [forall₂_congr hcheck.1, forall₂_congr hcheck.2, and_assoc]

/-- From the name of a vector on, its fields are found in its block or not at all. -/
theorem fields_found (h : At text namePos [] (v.tokens ++ rest)) (hnext : Next rest) :
    (v.fields = [] ∧ ∀ p, findFrom text (quoted "fields".toList) namePos = some p →
      place text rest < p) ∨
    (v.fields ≠ [] ∧ ∃ p, findFrom text (quoted "fields".toList) namePos = some p ∧
      p ≤ place text rest ∧ At text p [] (v.fields ++ rest)) := by
  have hword : IsWord "fields".toList := by decide
  by_cases hfields : v.fields = []
  · have hrest := hnext.ne (by decide : "fields".toList ≠ nameKey) (by decide)
    exact Or.inl ⟨hfields, fun p hfind => findFrom_beyond hword h hrest hfields hfind⟩
  · obtain ⟨hfind, hle, hat⟩ := findFrom_within hword h hfields
    exact Or.inr ⟨hfields, _, hfind, hle, hat⟩

/-- What is said of the bytes of a positive vector. -/
theorem checkBytes_iff (h : At text namePos [] (v.tokens ++ rest)) (hnext : Next rest)
    (object : Tier0) : checkBytes object text name namePos (place text rest) bytes = [] ↔
      ∃ f : Frame, f.extensions = [] ∧ bytes = f.bytes ∧
        numberIn "length".toList v.tokens = some f.bytes.length ∧ v.fields ≠ [] ∧
        Records v.fields f.object := by
  have hlength := readNumber_block (by decide : IsKey "length".toList) h
    (hnext.ne (by decide) (by decide))
  unfold checkBytes
  rw [hlength]
  by_cases hnil : bytes = []
  · rw [if_pos hnil]
    refine iff_of_false (List.cons_ne_nil _ _) ?_
    rintro ⟨f, -, hbytes, -⟩
    exact f.bytes_ne_nil (hbytes.symm.trans hnil)
  · rw [if_neg hnil, List.append_eq_nil_iff]
    cases hrun : (tier0Decode bytes).run ⟨object, 0⟩ with
    | error e out =>
        refine iff_of_false (fun habs => List.cons_ne_nil _ _ habs.2) ?_
        rintro ⟨f, hf, rfl, -⟩
        rw [Frame.tier0Decode_run hf] at hrun
        cases hrun
    | ok u out =>
        simp only [List.append_eq_nil_iff]
        constructor
        · rintro ⟨hlen, hall, hrecorded⟩
          obtain hlen := not_not.mp fun hne => List.cons_ne_nil _ _ ((if_pos hne).symm.trans hlen)
          obtain hall := not_not.mp fun hne => List.cons_ne_nil _ _ ((if_pos hne).symm.trans hall)
          obtain ⟨f, hf, hbytes, hobject⟩ := frame_of_decode hrun hall
          rw [hobject] at hrecorded
          refine ⟨f, hf, hbytes.symm, by rw [hlen, hbytes], ?_⟩
          rcases fields_found h hnext with ⟨-, hmissing⟩ | ⟨hfields, p, hfind, hle, hp⟩
          · exfalso
            cases hfind : findFrom text (quoted "fields".toList) namePos with
            | none =>
                rw [hfind] at hrecorded
                cases hrecorded
            | some p =>
                rw [hfind] at hrecorded
                simp only [if_pos (hmissing p hfind)] at hrecorded
                cases hrecorded
          · rw [hfind] at hrecorded
            simp only [if_neg (Nat.not_lt_of_le hle)] at hrecorded
            exact ⟨hfields, (checkFields_iff hp hnext).mp hrecorded⟩
        · rintro ⟨f, hf, rfl, hlen, hfields, hrecords⟩
          rw [Frame.tier0Decode_run hf] at hrun
          cases hrun
          rcases fields_found h hnext with ⟨hnone, -⟩ | ⟨-, p, hfind, hle, hp⟩
          · exact absurd hnone hfields
          · refine ⟨if_neg (not_not.mpr hlen), if_neg (not_not.mpr rfl), ?_⟩
            rw [hfind]
            simp only [if_neg (Nat.not_lt_of_le hle)]
            exact (checkFields_iff hp hnext).mpr hrecords

/-- The digits of a vector. -/
theorem readString_hex (h : At text namePos [] (v.tokens ++ rest)) (hnext : Next rest) :
    readString text "hex".toList namePos (place text rest) 256 =
      (stringIn "hex".toList v.tokens).map fun hex => hex.take 255 :=
  readString_block (by decide) h (hnext.ne (by decide) (by decide)) v.tokens_closed 256

/-- A positive vector. -/
theorem checkPositive_sound (h : At text namePos [] (v.tokens ++ rest)) (hnext : Next rest)
    (object : Tier0) :
    ((checkPositive object text name namePos (place text rest)).failures = [] ↔ v.Sound) ∧
      ((checkPositive object text name namePos (place text rest)).failures = [] →
        (checkPositive object text name namePos (place text rest)).counted = true) := by
  rw [checkPositive, readString_hex h hnext, Vector.Sound]
  cases hhex : stringIn "hex".toList v.tokens with
  | none =>
      constructor
      · refine iff_of_false (List.cons_ne_nil _ _) ?_
        rintro ⟨f, -, ⟨hex, hsome, -⟩, -⟩
        cases hhex.symm.trans hsome
      · intro habs
        cases habs
  | some hex =>
      refine ⟨?_, fun _ => rfl⟩
      simp only [Option.map_some, Vector.bytes_iff hhex]
      exact checkBytes_iff h hnext object

/-- What is said of the bytes of a negative one. -/
theorem refuseBytes_iff (object : Tier0) : refuseBytes object name bytes = [] ↔
    bytes ≠ [] ∧ ∀ f : Frame, f.extensions = [] → f.bytes ≠ bytes := by
  unfold refuseBytes
  by_cases hnil : bytes = []
  · rw [if_pos hnil]
    exact iff_of_false (List.cons_ne_nil _ _) fun habs => habs.1 hnil
  · rw [if_neg hnil]
    cases hrun : (tier0Decode bytes).run ⟨object, 0⟩ with
    | error e out =>
        refine iff_of_true rfl ⟨hnil, ?_⟩
        rintro f hf rfl
        rw [Frame.tier0Decode_run hf] at hrun
        cases hrun
    | ok u out =>
        by_cases hall : out.consumed = bytes.length
        · obtain ⟨f, hf, hbytes, -⟩ := frame_of_decode hrun hall
          refine iff_of_false (fun habs => ?_) fun habs => habs.2 f hf hbytes
          exact List.cons_ne_nil _ _ ((if_pos hall).symm.trans habs)
        · refine iff_of_true (if_neg hall) ⟨hnil, ?_⟩
          rintro f hf rfl
          rw [Frame.tier0Decode_run hf] at hrun
          cases hrun
          exact hall rfl

/-- A negative vector. -/
theorem checkNegative_refused (h : At text namePos [] (v.tokens ++ rest)) (hnext : Next rest)
    (object : Tier0) :
    ((checkNegative object text name namePos (place text rest)).failures = [] ↔ v.Refused) ∧
      ((checkNegative object text name namePos (place text rest)).counted = true ↔
        ∃ bytes, v.Bytes bytes) := by
  rw [checkNegative, readString_hex h hnext, Vector.Refused]
  cases hhex : stringIn "hex".toList v.tokens with
  | none =>
      constructor
      · refine iff_of_true rfl ?_
        rintro bytes ⟨hex, hsome, -⟩
        cases hhex.symm.trans hsome
      · refine iff_of_false Bool.false_ne_true ?_
        rintro ⟨bytes, hex, hsome, -⟩
        cases hhex.symm.trans hsome
  | some hex =>
      obtain ⟨bytes, hbytes⟩ := exists_recorded hex
      refine ⟨?_, iff_of_true rfl ⟨bytes, hex, hhex, hbytes⟩⟩
      simp only [Option.map_some, Vector.bytes_iff hhex, forall_eq']
      exact refuseBytes_iff object

end Checks

/-! ## Files -/

section Files

variable {f : VectorFile} {objects : Nat → Tier0}

theorem VectorFile.tokens_plain (f : VectorFile) : ∀ k ∈ f.head ++ f.tokens, k.Plain := by
  have hvectors : ∀ vs : List Vector, ∀ k ∈ vs.flatMap Vector.tokens, k.Plain := by
    intro vs k hk
    obtain ⟨v, -, hv⟩ := List.mem_flatMap.mp hk
    exact v.tokens_plain k hv
  intro k hk
  simp only [VectorFile.tokens, VectorFile.negativeTokens, List.mem_append, List.mem_cons] at hk
  rcases hk with hk | rfl | hk | rfl | hk
  · exact f.head_plain k hk
  · exact f.gaps_plain.1
  · exact hvectors _ k hk
  · exact f.gaps_plain.2
  · exact hvectors _ k hk

theorem VectorFile.at (f : VectorFile) : At f.text 0 f.lead (f.head ++ f.tokens) := by
  refine ⟨rfl, f.lead_plain.1, f.tokens_plain, ?_⟩
  rw [VectorFile.text, List.mem_append, not_or]
  exact ⟨f.lead_plain.2, no_nul_render f.tokens_plain⟩

/-- Where the sections start. -/
theorem find_sections (f : VectorFile) :
    findFrom f.text (quoted "vectors".toList) 0 = some (place f.text f.tokens) ∧
    findFrom f.text (quoted "negative_vectors".toList) 0 =
      some (place f.text f.negativeTokens) := by
  have hvectors : seek "vectors".toList (f.head ++ f.tokens) = f.tokens := by
    rw [seek_skip fun k hk => (f.head_keys k hk).1]
    exact seek_here rfl
  have hkeys : ∀ k ∈ f.positives.flatMap Vector.tokens, k.string ≠ negativesKey := by
    intro k hk
    obtain ⟨v, hv, hkv⟩ := List.mem_flatMap.mp hk
    exact f.positives_keys v hv k hkv
  have hnegatives : seek negativesKey (f.head ++ f.tokens) = f.negativeTokens := by
    rw [seek_skip fun k hk => (f.head_keys k hk).2, VectorFile.tokens,
      seek_cons (by decide : "vectors".toList ≠ negativesKey), seek_skip hkeys]
    exact seek_here rfl
  constructor
  · rw [findFrom_eq (by decide) f.at, hvectors]
    exact if_neg (List.cons_ne_nil _ _)
  · show findFrom f.text (quoted negativesKey) 0 = _
    rw [findFrom_eq (by decide) f.at, hnegatives]
    exact if_neg (List.cons_ne_nil _ _)

/-- There are enough turns for the vectors. -/
theorem length_vectors (f : VectorFile) :
    f.positives.length < f.text.length + 1 ∧ f.negatives.length < f.text.length + 1 := by
  have hne : ∀ v : Vector, v.tokens ≠ [] := fun v => List.cons_ne_nil _ _
  have hpositives := length_le_flatMap hne f.positives
  have hnegatives := length_le_flatMap hne f.negatives
  have hrender := length_le_render (f.head ++ f.tokens)
  simp only [VectorFile.tokens, VectorFile.negativeTokens, List.length_append,
    List.length_cons] at hrender
  rw [VectorFile.text, List.length_append]
  simp only [VectorFile.tokens, VectorFile.negativeTokens]
  omega

/-- The first loop. -/
theorem positives_run (f : VectorFile) (objects : Nat → Tier0) :
    List.Forall₂ (fun c v => (c.failures = [] ↔ v.Sound) ∧ (c.failures = [] → c.counted = true))
      (checkLoop checkPositive objects f.text (place f.text f.negativeTokens) (f.text.length + 1)
        (place f.text f.tokens)) f.positives := by
  have hnext : Next f.negativeTokens := by
    intro k hk
    cases hk
    exact Or.inr rfl
  have hlast : ∀ k ∈ f.negativeTokens.head?, k.string ≠ nameKey := by
    intro k hk
    cases hk
    exact (by decide : negativesKey ≠ nameKey)
  have hkey : ∀ k ∈ [(⟨"vectors".toList, f.positivesGap⟩ : Token)], k.string ≠ nameKey := by
    intro k hk
    rw [List.mem_singleton.mp hk]
    exact (by decide : "vectors".toList ≠ nameKey)
  have hat : At f.text (place f.text f.tokens) []
      ([⟨"vectors".toList, f.positivesGap⟩] ++
        (f.positives.flatMap Vector.tokens ++ f.negativeTokens)) := f.at.part
  exact checkLoop_run hnext hlast (fun v rest namePos name object h hnext =>
    checkPositive_sound h hnext object) hat hkey (Or.inr (List.cons_ne_nil _ _)) (length_vectors f).1

/-- The second one. -/
theorem negatives_run (f : VectorFile) (objects : Nat → Tier0) :
    List.Forall₂ (fun c v => (c.failures = [] ↔ v.Refused) ∧ (c.counted = true ↔ ∃ bytes, v.Bytes bytes))
      (checkLoop checkNegative objects f.text f.text.length (f.text.length + 1)
        (place f.text f.negativeTokens)) f.negatives := by
  have hnone : ∀ P : Token → Prop, ∀ k ∈ ([] : List Token).head?, P k := by
    intro P k hk
    cases hk
  have hkey : ∀ k ∈ [(⟨negativesKey, f.negativesGap⟩ : Token)], k.string ≠ nameKey := by
    intro k hk
    rw [List.mem_singleton.mp hk]
    exact (by decide : negativesKey ≠ nameKey)
  have hall := f.at
  rw [VectorFile.tokens, ← List.cons_append, ← List.append_assoc] at hall
  have hat : At f.text (place f.text f.negativeTokens) []
      ([⟨negativesKey, f.negativesGap⟩] ++ (f.negatives.flatMap Vector.tokens ++ [])) := by
    rw [List.append_nil]
    exact hall.part
  exact checkLoop_run (hnone _) (hnone _) (fun v rest namePos name object h hnext =>
    checkNegative_refused h hnext object) hat hkey (Or.inr (List.cons_ne_nil _ _)) (length_vectors f).2

/-- The status that `main` returns for what the loops come to. -/
theorem status_iff {ps ns : List Checked} :
    (if ps.countP Checked.counted = 0 then 1 else if ns.countP Checked.counted = 0 then 1
      else if (ps ++ ns).flatMap Checked.failures = [] then 0 else 1) = 0 ↔
      ((∃ c ∈ ps, c.counted = true) ∧ ∃ c ∈ ns, c.counted = true) ∧
      (∀ c ∈ ps, c.failures = []) ∧ ∀ c ∈ ns, c.failures = [] := by
  have hcount : ∀ cs : List Checked, cs.countP Checked.counted = 0 ↔ ¬ ∃ c ∈ cs, c.counted = true :=
    fun cs => by rw [← List.countP_pos_iff, Nat.pos_iff_ne_zero, not_not]
  have hfailures : (ps ++ ns).flatMap Checked.failures = [] ↔
      (∀ c ∈ ps, c.failures = []) ∧ ∀ c ∈ ns, c.failures = [] := by
    rw [List.flatMap_eq_nil_iff, List.forall_mem_append]
  rw [← hfailures]
  by_cases hps : ps.countP Checked.counted = 0
  · rw [if_pos hps]
    exact iff_of_false Nat.one_ne_zero fun h => (hcount ps).mp hps h.1.1
  rw [if_neg hps]
  by_cases hns : ns.countP Checked.counted = 0
  · rw [if_pos hns]
    exact iff_of_false Nat.one_ne_zero fun h => (hcount ns).mp hns h.1.2
  rw [if_neg hns]
  rw [hcount, not_not] at hps hns
  split
  · next hall => exact iff_of_true rfl ⟨⟨hps, hns⟩, hall⟩
  · next hall => exact iff_of_false Nat.one_ne_zero fun h => hall h.2

/-- The sections of a file that is accepted. -/
structure VectorFile.Accepted (f : VectorFile) : Prop where
  positive : f.positives ≠ []
  recorded : ∃ v ∈ f.negatives, ∃ bytes, v.Bytes bytes
  sound : ∀ v ∈ f.positives, v.Sound
  refused : ∀ v ∈ f.negatives, v.Refused

theorem VectorFile.exitStatus_eq_zero (f : VectorFile) (objects : Nat → Tier0)
    (hsize : f.text.length ≤ textCapacity) : exitStatus objects f.text = 0 ↔ f.Accepted := by
  obtain ⟨hvectors, hnegatives⟩ := find_sections f
  have hpositive := positives_run f objects
  have hnegative := negatives_run f objects
  have htext : f.text.take textCapacity = f.text := List.take_of_length_le hsize
  have hsound := forall₂_forall_iff hpositive fun _ _ h => h.1
  have hrefused := forall₂_forall_iff hnegative fun _ _ h => h.1
  have hrecorded := forall₂_exists_iff hnegative fun _ _ h => h.2
  have hcounted := forall₂_eq_nil hpositive
  have hcounts := (forall₂_forall_iff hpositive fun _ _ h => iff_true_intro h.2).mpr fun _ _ => trivial
  simp only [exitStatus, htext, hvectors, hnegatives, Option.getD_some, reduceCtorEq, if_false,
    List.nil_append]
  rw [status_iff, hsound, hrefused, hrecorded]
  constructor
  · rintro ⟨⟨⟨c, hc, -⟩, hsome⟩, hall, hnone⟩
    exact ⟨fun hnil => List.ne_nil_of_mem hc (hcounted.mpr hnil), hsome, hall, hnone⟩
  · rintro ⟨hne, hsome, hall, hnone⟩
    obtain ⟨c, hc⟩ := List.exists_mem_of_ne_nil _ fun hnil => hne (hcounted.mp hnil)
    exact ⟨⟨⟨c, hc, hcounts c hc (hsound.mpr hall c hc)⟩, hsome⟩, hall, hnone⟩

/-- `tools/validate_major1_vectors.c` accepts a file, if and only if there are vectors in its first
section and bytes recorded in its second one, the bytes of every positive vector are a Stable object
without extensions, of the recorded length and with the recorded fields, and the bytes that a negative
vector records are no object without extensions. The wire major is not among the fields that are
compared. -/
theorem major1_vectors_iff (objects : Nat → Tier0) (f : VectorFile)
    (hsize : f.text.length ≤ textCapacity) : exitStatus objects f.text = 0 ↔
      (f.positives ≠ [] ∧ ∃ v ∈ f.negatives, ∃ bytes, v.Bytes bytes) ∧
      (∀ v ∈ f.positives, v.Sound) ∧ ∀ v ∈ f.negatives, v.Refused := by
  rw [f.exitStatus_eq_zero objects hsize]
  constructor
  · intro h
    exact ⟨⟨h.positive, h.recorded⟩, h.sound, h.refused⟩
  · rintro ⟨⟨hpositive, hrecorded⟩, hsound, hrefused⟩
    exact ⟨hpositive, hrecorded, hsound, hrefused⟩

/-- A vector by itself. -/
theorem Vector.at (v : Vector) : At (render v.tokens) 0 [] (v.tokens ++ []) := by
  rw [List.append_nil]
  exact ⟨rfl, List.not_mem_nil, v.tokens_plain, no_nul_render v.tokens_plain⟩

/-- The vectors of a PRESENCE, at the wire major that it declares and in the length of the other one. -/
def presenceFile : VectorFile where
  lead := "\x7b ".toList
  head := [⟨"wire_major".toList, ": 1, ".toList⟩]
  positivesGap := ":[\x7b".toList
  positives := [{
    nameGap := [':']
    name := ⟨"PRESENCE".toList, [',']⟩
    others := [⟨"length".toList, ":10,".toList⟩, ⟨"hex".toList, [':']⟩,
      ⟨"10020badcafe00abcd3c".toList, [',']⟩, ⟨"fields".toList, ":\x7b".toList⟩,
      ⟨"priority".toList, ":1,".toList⟩, ⟨"source_ref".toList, ":195939070,".toList⟩,
      ⟨"capability_tag".toList, ":43981,".toList⟩, ⟨"ttl".toList, ":60\x7d\x7d],".toList⟩]
    plain := by decide
    named := by decide
    keys := by decide
    closed := by decide }]
  negativesGap := ":[\x7b".toList
  negatives := [{
    nameGap := [':']
    name := ⟨"PRESENCE_with_major_0_length".toList, [',']⟩
    others := [⟨"hex".toList, [':']⟩, ⟨"10020badcafe0000abcd3c".toList, "\x7d]\x7d".toList⟩]
    plain := by decide
    named := by decide
    keys := by decide
    closed := by decide }]
  lead_plain := by decide
  head_plain := by decide
  head_keys := by decide
  gaps_plain := by decide
  positives_keys := by decide

theorem major1_vectors_iff_presence :
    exitStatus (fun _ => ⟨0, 0, .presence {}⟩) presenceFile.text = 0 := by
  rw [major1_vectors_iff _ presenceFile (by decide +kernel)]
  have hnone : Next [] := fun k hk => by cases hk
  refine ⟨⟨List.cons_ne_nil _ _, _, List.mem_singleton_self _, ?_⟩, ?_, ?_⟩
  · obtain ⟨bytes, hbytes⟩ := exists_recorded "10020badcafe0000abcd3c".toList
    exact ⟨bytes, _, by decide +kernel, hbytes⟩
  · intro v hv
    obtain rfl := List.mem_singleton.mp hv
    exact (@checkPositive_sound _ [] 0 [] _ (Vector.at _) hnone ⟨0, 0, .presence {}⟩).1.mp
      (by decide +kernel)
  · intro v hv
    obtain rfl := List.mem_singleton.mp hv
    exact (@checkNegative_refused _ [] 0 [] _ (Vector.at _) hnone ⟨0, 0, .presence {}⟩).1.mp
      (by decide +kernel)

end Files

end Major1Vectors

end MclWire
