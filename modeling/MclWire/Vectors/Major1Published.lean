import MclWire.Vectors.Major1Check

/-!
# Major-1 vectors that are accepted

A file of vectors for given objects, with their fields printed in decimal and their bytes in hexadecimal.

* `StableFrame.vector` — the vector of an object of a Stable kind, which is sound.
* `refusedVector` — the vector of bytes that are to be refused.
* `publish_accepted` — when the validator accepts the file.
-/

namespace MclWire

open CText

namespace Major1Vectors

/-! ## Numbers -/

theorem gapNumber_numberGap {n : Nat} (hn : n ≤ ulongMax) : gapNumber (numberGap n) = some n := by
  have hstop : ∀ c : Char, c.isDigit = true → (c = ':' || c = ' ') = false := by
    intro c hc
    simp only [Bool.or_eq_false_iff, decide_eq_false_iff_not]
    constructor
    · rintro rfl
      exact absurd hc (by decide)
    · rintro rfl
      exact absurd hc (by decide)
  obtain ⟨c, ds, hc, htext⟩ := Numeral.starts_ofNat n
  rw [gapNumber, dropWhile_numberGap (by decide) hstop]
  simp only [strtoul_numeral hn breaks_comma]
  rw [htext, List.cons_append, List.head?_cons, Option.any_some, if_pos hc]

/-- Under its key a number is found. -/
theorem numberIn_tokens {ps : List (Text × Nat)} (hkeys : (ps.map Prod.fst).Nodup)
    (hmax : ∀ p ∈ ps, p.2 ≤ ulongMax) : ∀ p ∈ ps, numberIn p.1 (ps.map numberToken) = some p.2 := by
  induction ps with
  | nil =>
      intro p hp
      cases hp
  | cons q ps ih =>
      rw [List.map_cons, List.nodup_cons] at hkeys
      rw [List.forall_mem_cons] at hmax
      intro p hp
      rcases List.mem_cons.mp hp with rfl | hp
      · have hkey : (numberToken p).string = p.1 := rfl
        rw [numberIn, List.map_cons, seek_here hkey, List.head?_cons, Option.bind_some]
        exact gapNumber_numberGap hmax.1
      · have hne : (numberToken q).string ≠ p.1 := by
          intro heq
          apply hkeys.1
          rw [show q.1 = p.1 from heq]
          exact List.mem_map_of_mem hp
        rw [numberIn, List.map_cons, seek_cons hne]
        exact ih hkeys.2 hmax.2 p hp

section Fields

variable {o : Tier0} {fields : List (Text × Nat)}

/-- The fields that are compared have keys of their own. -/
theorem fields_nodup (h : bodyFields o.body = some fields) :
    ("fields".toList :: (commonFields o ++ fields).map Prod.fst).Nodup := by
  rw [List.map_append, commonFields_keys]
  rcases bodyFields_keys h with hbody | hbody | hbody
  · rw [hbody]
    decide
  · rw [hbody]
    decide
  · rw [hbody]
    decide

/-- Their values are read. -/
theorem fields_le (h : bodyFields o.body = some fields) :
    ∀ p ∈ commonFields o ++ fields, p.2 ≤ ulongMax := by
  have h32 : ∀ x : UInt32, x.toNat ≤ ulongMax :=
    fun x => Nat.le_trans (Nat.le_of_lt x.toNat_lt) (by decide)
  have h8 : ∀ x : UInt8, x.toNat ≤ ulongMax :=
    fun x => Nat.le_trans (Nat.le_of_lt x.toNat_lt) (by decide)
  have hcommon : ∀ p ∈ commonFields o, p.2 ≤ ulongMax := by
    simp [commonFields, h32, h8]
  refine List.forall_mem_append.mpr ⟨hcommon, ?_⟩
  cases hbody : o.body with
  | presence b =>
      rw [hbody] at h
      cases h
      simp [h32, h8]
  | transportOffer b =>
      rw [hbody] at h
      cases h
      simp [h32, h8]
  | transportAccept b =>
      rw [hbody] at h
      cases h
      simp [h32, h8]
  | _ =>
      rw [hbody] at h
      cases h

end Fields

/-! ## Vectors

The members of a published vector are tokens of which it is known where each key stands, so that the
conditions of the previous module can be evaluated. -/

/-- An object of a Stable kind, without extensions and without a machine class. -/
structure StableFrame extends Frame where
  noExtensions : extensions = []
  fields : List (Text × Nat)
  recorded : bodyFields object.body = some fields
  unclassed : ∀ b, object.body = .presence b → b.machineClass = 0

section Vectors

variable (s : StableFrame) (bytes : List UInt8)

/-- The fields, as they are recorded. -/
def StableFrame.fieldTokens : List Token :=
  ⟨"fields".toList, [':', '{']⟩ :: (commonFields s.object ++ s.fields).map numberToken

/-- The members behind the name. -/
def StableFrame.members : List Token :=
  numberToken ("length".toList, s.bytes.length) :: ⟨"hex".toList, [':', ' ']⟩ ::
    ⟨Hex.text s.bytes, [',']⟩ :: s.fieldTokens

theorem StableFrame.field_cases {k : Token} (hk : k ∈ s.fieldTokens) :
    k = ⟨"fields".toList, [':', '{']⟩ ∨
      ∃ p ∈ commonFields s.object ++ s.fields, k = numberToken p := by
  rcases List.mem_cons.mp hk with hk | hk
  · exact Or.inl hk
  · obtain ⟨p, hp, rfl⟩ := List.mem_map.mp hk
    exact Or.inr ⟨p, hp, rfl⟩

theorem StableFrame.members_plain : ∀ k ∈ s.members, k.Plain := by
  intro k hk
  simp only [StableFrame.members, List.mem_cons] at hk
  rcases hk with rfl | rfl | rfl | hk
  · exact numberToken_plain (by decide : IsWord "length".toList)
  · decide
  · exact Hex.text_plain s.bytes
  · rcases s.field_cases hk with rfl | ⟨p, hp, rfl⟩
    · decide
    · exact numberToken_plain (field_keys s.recorded p hp).1.1

theorem StableFrame.members_ne {w : Text} (hlength : "length".toList ≠ w) (hhex : "hex".toList ≠ w)
    (htext : Hex.text s.bytes ≠ w) (hfields : "fields".toList ≠ w)
    (hkeys : ∀ p ∈ commonFields s.object ++ s.fields, p.1 ≠ w) : ∀ k ∈ s.members, k.string ≠ w := by
  intro k hk
  simp only [StableFrame.members, List.mem_cons] at hk
  rcases hk with rfl | rfl | rfl | hk
  · exact hlength
  · exact hhex
  · exact htext
  · rcases s.field_cases hk with rfl | ⟨p, hp, rfl⟩
    · exact hfields
    · exact hkeys p hp

theorem numberToken_closed (p : Text × Nat) : ¬ IsOpen (numberToken p).gap := by
  intro hopen
  exact (hopen ',' (comma_mem_numberGap p.2)).1 rfl

theorem StableFrame.members_closed : ∀ k ∈ s.members.getLast?, ¬ IsOpen k.gap := by
  have hlast : s.members.getLast? =
      ((commonFields s.object ++ s.fields).map numberToken).getLast? := by
    rfl
  intro k hk
  rw [hlast] at hk
  obtain ⟨p, -, rfl⟩ := List.mem_map.mp (List.mem_of_mem_getLast? hk)
  exact numberToken_closed p

/-- The vector of such an object. -/
def StableFrame.vector : Vector where
  nameGap := [':', ' ']
  name := ⟨"object".toList, [',', ' ']⟩
  others := s.members
  plain := ⟨by decide, List.forall_mem_cons.mpr ⟨by decide, s.members_plain⟩⟩
  named := by decide
  keys := List.forall_mem_cons.mpr ⟨by decide, s.members_ne (by decide) (by decide)
    (Hex.text_ne (by decide : 'n' ∈ nameKey) rfl) (by decide)
    fun p hp => (field_keys s.recorded p hp).2.1⟩
  closed := s.members_closed

theorem StableFrame.length_le : s.bytes.length ≤ 64 := by
  have hsize := Frame.length_plain s.noExtensions
  have hmax : s.object.size s.major ≤ tier0MaxSize := size_le_max
  rw [tier0MaxSize] at hmax
  omega

theorem StableFrame.fields_eq : s.vector.fields = s.fieldTokens := by
  have hskip : ∀ k ∈ [(⟨nameKey, [':', ' ']⟩ : Token), ⟨"object".toList, [',', ' ']⟩,
      numberToken ("length".toList, s.bytes.length), ⟨"hex".toList, [':', ' ']⟩,
      ⟨Hex.text s.bytes, [',']⟩], k.string ≠ "fields".toList := by
    simp only [List.forall_mem_cons, List.not_mem_nil, false_implies, implies_true, and_true]
    exact ⟨by decide, by decide, (by decide : "length".toList ≠ "fields".toList), by decide,
      Hex.text_ne (by decide : 's' ∈ "fields".toList) rfl⟩
  have htokens : s.vector.tokens = [(⟨nameKey, [':', ' ']⟩ : Token), ⟨"object".toList, [',', ' ']⟩,
      numberToken ("length".toList, s.bytes.length), ⟨"hex".toList, [':', ' ']⟩,
      ⟨Hex.text s.bytes, [',']⟩] ++ s.fieldTokens := rfl
  rw [Vector.fields, htokens, seek_skip hskip]
  exact seek_here rfl

theorem StableFrame.vector_sound : s.vector.Sound := by
  have hhex : stringIn "hex".toList s.vector.tokens = some (Hex.text s.bytes) := by
    rfl
  have hlength : numberIn "length".toList s.vector.tokens = gapNumber (numberGap s.bytes.length) := by
    rfl
  have hle := s.length_le
  refine ⟨s.toFrame, s.noExtensions, ⟨_, hhex, Recorded.spelled (Hex.spells_text _) hle⟩, ?_, ?_, ?_⟩
  · rw [hlength]
    exact gapNumber_numberGap (by rw [ulongMax]; omega)
  · rw [s.fields_eq]
    exact List.cons_ne_nil _ _
  · have hkeys := fields_nodup s.recorded
    rw [List.nodup_cons] at hkeys
    refine ⟨s.fields, s.recorded, ?_, s.unclassed⟩
    intro p hp
    have hne : "fields".toList ≠ p.1 := by
      intro heq
      rw [heq] at hkeys
      exact hkeys.1 (List.mem_map_of_mem hp)
    rw [s.fields_eq, StableFrame.fieldTokens, numberIn, seek_cons hne]
    exact numberIn_tokens hkeys.2 (fields_le s.recorded) p hp

/-- The vector of bytes that are to be refused. -/
def refusedVector : Vector where
  nameGap := [':', ' ']
  name := ⟨"bytes".toList, [',', ' ']⟩
  others := [⟨"hex".toList, [':', ' ']⟩, ⟨Hex.text bytes, [',']⟩]
  plain := ⟨by decide, by
    simp only [List.forall_mem_cons, List.not_mem_nil, false_implies, implies_true, and_true]
    exact ⟨by decide, by decide, Hex.text_plain bytes⟩⟩
  named := by decide
  keys := by
    simp only [List.forall_mem_cons, List.not_mem_nil, false_implies, implies_true, and_true]
    exact ⟨by decide, by decide, Hex.text_ne (by decide : 'n' ∈ nameKey) rfl⟩
  closed := by
    intro k hk
    cases hk
    exact (by decide : ¬ IsOpen [','])

/-- The bytes have to be few enough for the buffer, and no object without extensions. -/
theorem refusedVector_refused : (refusedVector bytes).Refused ↔
    (bytes ≠ [] ∧ bytes.length ≤ 64) ∧ ∀ f : Frame, f.extensions = [] → f.bytes ≠ bytes := by
  have hhex : stringIn "hex".toList (refusedVector bytes).tokens = some (Hex.text bytes) := by
    rfl
  have hlen := (Hex.spells_text bytes).length
  by_cases hcap : bytes.length ≤ 64
  · have hread : fromHex ((Hex.text bytes).take 255) 64 = bytes :=
      recorded_iff.mp (Recorded.spelled (Hex.spells_text bytes) hcap)
    simp only [Vector.Refused, Vector.bytes_iff hhex, hread, forall_eq', hcap, and_true]
  · have hbytes : (refusedVector bytes).Bytes [] := ⟨_, hhex, Recorded.long (by omega)⟩
    refine iff_of_false (fun h => ?_) fun h => hcap h.1.2
    exact (h [] hbytes).1 rfl

end Vectors

/-! ## Files -/

section Files

variable {stable : List StableFrame} {refused : List (List UInt8)} {objects : Nat → Tier0}

theorem StableFrame.vector_keys (s : StableFrame) : ∀ k ∈ s.vector.tokens, k.string ≠ negativesKey := by
  have hmembers := s.members_ne (by decide) (by decide)
    (Hex.text_ne (by decide : 'n' ∈ negativesKey) rfl) (by decide)
    fun p hp => (field_keys s.recorded p hp).2.2
  have htokens : s.vector.tokens =
      ⟨nameKey, [':', ' ']⟩ :: ⟨"object".toList, [',', ' ']⟩ :: s.members := rfl
  rw [htokens, List.forall_mem_cons, List.forall_mem_cons]
  exact ⟨(by decide : nameKey ≠ negativesKey), (by decide : "object".toList ≠ negativesKey), hmembers⟩

/-- A file of vectors for some objects, and for bytes that are to be refused. -/
def publish (stable : List StableFrame) (refused : List (List UInt8)) : VectorFile where
  lead := ['{', '\n']
  head := [⟨"wire_major".toList, [':', '1', ',']⟩]
  positivesGap := [':', '[', '{']
  positives := stable.map StableFrame.vector
  negativesGap := [':', '[', '{']
  negatives := refused.map refusedVector
  lead_plain := by decide
  head_plain := by decide
  head_keys := by decide
  gaps_plain := by decide
  positives_keys := by
    intro v hv
    obtain ⟨s, -, rfl⟩ := List.mem_map.mp hv
    exact s.vector_keys

/-- The validator accepts what is published, if and only if there is something in both sections, and
the bytes to be refused are no object without extensions, but no more than fit its buffer. -/
theorem publish_accepted (hsize : (publish stable refused).text.length ≤ textCapacity) :
    exitStatus objects (publish stable refused).text = 0 ↔ (stable ≠ [] ∧ refused ≠ []) ∧
      ∀ bytes ∈ refused, (bytes ≠ [] ∧ bytes.length ≤ 64) ∧
        ∀ f : Frame, f.extensions = [] → f.bytes ≠ bytes := by
  have hsound : ∀ v ∈ (publish stable refused).positives, v.Sound := by
    intro v hv
    obtain ⟨s, -, rfl⟩ := List.mem_map.mp hv
    exact s.vector_sound
  have hrefused : (∀ v ∈ (publish stable refused).negatives, v.Refused) ↔
      ∀ bytes ∈ refused, (bytes ≠ [] ∧ bytes.length ≤ 64) ∧
        ∀ f : Frame, f.extensions = [] → f.bytes ≠ bytes := by
    rw [publish, List.forall_mem_map]
    exact forall₂_congr fun bytes _ => refusedVector_refused bytes
  have hrecorded : (∃ v ∈ (publish stable refused).negatives, ∃ bytes, v.Bytes bytes) ↔
      refused ≠ [] := by
    constructor
    · rintro ⟨v, hv, -⟩ rfl
      cases hv
    · intro hne
      obtain ⟨bytes, hbytes⟩ := List.exists_mem_of_ne_nil refused hne
      refine ⟨refusedVector bytes, List.mem_map_of_mem hbytes, ?_⟩
      obtain ⟨read, hread⟩ := exists_recorded (Hex.text bytes)
      exact ⟨read, _, rfl, hread⟩
  rw [VectorFile.exitStatus_eq_zero _ objects hsize]
  constructor
  · intro h
    have hstable : stable ≠ [] := by
      rintro rfl
      exact h.positive rfl
    exact ⟨⟨hstable, hrecorded.mp h.recorded⟩, hrefused.mp h.refused⟩
  · rintro ⟨⟨hstable, hne⟩, hall⟩
    have hpositive : (publish stable refused).positives ≠ [] := by
      rw [publish, Ne, List.map_eq_nil_iff]
      exact hstable
    exact ⟨hpositive, hrecorded.mpr hne, hsound, hrefused.mpr hall⟩

/-- A PRESENCE of major 1. -/
def presenceFrame : StableFrame where
  toFrame := Frame.plain 1 ⟨1, 195939070, .presence { capabilityTag := 43981, ttl := 60 }⟩ (by decide)
    (by decide)
  noExtensions := rfl
  fields := [("capability_tag".toList, 43981), ("ttl".toList, 60)]
  recorded := rfl
  unclassed := by
    intro b hb
    cases hb
    rfl

theorem publish_accepted_presence : exitStatus (fun _ => ⟨0, 0, .presence {}⟩)
    (publish [presenceFrame] [[0x10, 0x02, 0x0b, 0xad, 0xca, 0xfe, 0x00, 0x00, 0xab, 0xcd, 0x3c]]).text =
      0 := by
  rw [publish_accepted (by decide +kernel)]
  refine ⟨⟨List.cons_ne_nil _ _, List.cons_ne_nil _ _⟩, ?_⟩
  intro bytes hbytes
  obtain rfl := List.mem_singleton.mp hbytes
  have hrefused := (@refuseBytes_iff []
    [0x10, 0x02, 0x0b, 0xad, 0xca, 0xfe, 0x00, 0x00, 0xab, 0xcd, 0x3c] ⟨0, 0, .presence {}⟩).mp
    (by decide +kernel)
  exact ⟨⟨hrefused.1, by decide⟩, hrefused.2⟩

end Files

end Major1Vectors

end MclWire
