import MclWire.Tier0.Image

/-!
# What the Tier-0 decoder accepts

The decoder reads the row of fields back (`objectAt`) and checks the padding behind it.

* `tier0DecodeBody_run` — the whole of its behaviour, its failures included: nothing is written
  before the head is accepted, and from then on only non-zero padding can stop it.
* `Presents` — a buffer starts with the image of an in-range object. It names the object, the major
  and the extension bit uniquely (`Presents.unique`).
* `tier0DecodeBody_eq_ok` — the decoder accepts exactly the buffers that present an object, and
  returns that object.
-/

namespace MclWire

open BitField (Field Holds)

/-! ## Running the decoder -/

/-- The body that stands behind `source_ref`. -/
def bodyAt (f : Nat → Bool) (major : UInt8) : Kind → Body
  | .presence        => .presence (storeAll f 48 (presenceReads major) {})
  | .hazard          => .hazard (storeAll f 48 hazardReads {})
  | .request         => .request (storeAll f 48 requestReads {})
  | .authorityClaim  => .authorityClaim (storeAll f 48 authorityClaimReads {})
  | .degradedState   => .degradedState (storeAll f 48 degradedStateReads {})
  | .transportOffer  => .transportOffer (storeAll f 48 transportOfferReads {})
  | .transportAccept => .transportAccept (storeAll f 48 transportAcceptReads {})
  | .unassigned c    => .unassigned c

@[simp] theorem kind_bodyAt (f : Nat → Bool) (major : UInt8) (kind : Kind) :
    (bodyAt f major kind).kind = kind := by
  cases kind <;> rfl

/-- The object that stands behind an accepted head. -/
def objectAt (f : Nat → Bool) (head : Head) : Tier0 where
  priority := head.header.priority
  sourceRef := UInt32.ofNat (BitField.read f 16 32)
  body := bodyAt f head.header.majorVersion head.kind

/-- A row of reads into one member of the union. -/
theorem readFields_run {β : Type} {mk : β → Body} {xs : List (ReadField β)} {b : β} {r : BitReader}
    {s : DecodeOut} (hbody : s.object.body = mk b) (hpos : r.position = 48)
    (hwide : ∀ x ∈ xs, x.Wide) (hroom : 48 + readSpan xs ≤ r.sizeBits)
    (hsize : r.sizeBits ≤ 8 * r.buffer.length) :
    (readFields (assignBody mk) xs b r).run s = .ok { r with position := 48 + readSpan xs }
      (assignBody mk (storeAll (bitsOf r.buffer) 48 xs b) s) := by
  have hassign : ∀ b b' s, assignBody mk b' (assignBody mk b s) = assignBody mk b' s :=
    fun _ _ _ => rfl
  have hb : assignBody mk b s = s := by rw [assignBody, ← hbody]
  have hrun := readFields_spec hassign hb hwide (hpos.symm ▸ hroom) hsize
  rwa [hpos] at hrun

theorem presenceReads_wide (major : UInt8) : ∀ x ∈ presenceReads major, x.Wide := by
  intro x hx
  simp only [presenceReads, List.mem_append, List.mem_cons, List.not_mem_nil, or_false] at hx
  rcases hx with hx | rfl | rfl
  · split at hx
    · rw [List.mem_singleton] at hx
      subst hx
      simp [ReadField.Wide]
    · simp at hx
  · simp [ReadField.Wide]
  · simp [ReadField.Wide]

/-- The `switch` of the decoder reads the body of a carried kind. -/
theorem decodeFields_run (major : UInt8) {kind : Kind} {r : BitReader} {s : DecodeOut}
    (hkind : ∀ c, kind ≠ .unassigned c) (hbody : s.object.body = .zero kind)
    (hpos : r.position = 48) (hroom : 48 + bodyWidth major kind ≤ r.sizeBits)
    (hsize : r.sizeBits ≤ 8 * r.buffer.length) :
    (decodeFields major kind r).run s = .ok { r with position := 48 + bodyWidth major kind }
      { s with object := { s.object with body := bodyAt (bitsOf r.buffer) major kind } } := by
  cases kind with
  | unassigned c => exact absurd rfl (hkind c)
  | presence => exact readFields_run hbody hpos (presenceReads_wide major) hroom hsize
  | hazard =>
      exact readFields_run hbody hpos (by simp [hazardReads, ReadField.Wide]) hroom hsize
  | request =>
      exact readFields_run hbody hpos (by simp [requestReads, ReadField.Wide]) hroom hsize
  | authorityClaim =>
      exact readFields_run hbody hpos (by simp [authorityClaimReads, ReadField.Wide]) hroom hsize
  | degradedState =>
      exact readFields_run hbody hpos (by simp [degradedStateReads, ReadField.Wide]) hroom hsize
  | transportOffer =>
      exact readFields_run hbody hpos (by simp [transportOfferReads, ReadField.Wide]) hroom hsize
  | transportAccept =>
      exact readFields_run hbody hpos (by simp [transportAcceptReads, ReadField.Wide]) hroom hsize

/-! ## The head -/

theorem kindToCode_of_codeToKind {category opcode : UInt8} {kind : Kind}
    (h : codeToKind category opcode = .ok kind) : kindToCode kind = (category, opcode) := by
  unfold codeToKind at h
  repeat' split at h
  all_goals
    first
    | cases h
      next hcode => rw [hcode.1, hcode.2]; rfl
    | simp at h

theorem codeToKind_kindToCode {kind : Kind} (h : ∀ c, kind ≠ .unassigned c) :
    codeToKind (kindToCode kind).1 (kindToCode kind).2 = .ok kind := by
  cases kind with
  | unassigned c => exact absurd rfl (h c)
  | _ => rfl

/-- What an accepted head says: the header stands in the first two bytes, names a kind its major
carries, and the buffer is long enough for it. -/
structure Head.Of (head : Head) (data : List UInt8) : Prop where
  header : headerDecode data = .ok head.header
  code : kindToCode head.kind = (head.header.category, head.header.opcode)
  carried : kindAllowedAtMajor head.header.majorVersion head.kind = true
  required : head.required = tier0EncodedSizeAtMajor head.header.majorVersion head.kind
  length : head.required ≤ data.length

theorem decodeHead_eq_ok {data : List UInt8} {head : Head} :
    decodeHead data = .ok head ↔ head.Of data := by
  constructor
  · intro h
    unfold decodeHead at h
    simp only [except_bind_eq_ok, failIf_eq_ok] at h
    obtain ⟨-, -, header, hheader, -, hmajor, kind, hkind, -, hsize, -, hlen, h⟩ := h
    cases h
    rw [size_eq_zero_iff, Bool.not_eq_false] at hsize
    exact ⟨hheader, kindToCode_of_codeToKind hkind, hsize, rfl, by simpa using hlen⟩
  · rintro ⟨hheader, hcode, hcarried, hrequired, hlen⟩
    obtain ⟨hmajor, hkind⟩ := carried_cases hcarried
    have hcommon := two_le_size hcarried
    have hsize : ¬ tier0EncodedSizeAtMajor head.header.majorVersion head.kind = 0 := by
      rw [size_eq_zero_iff, hcarried]
      decide
    have hdecode := codeToKind_kindToCode hkind
    rw [hcode] at hdecode
    unfold decodeHead
    rw [failIf_neg _ (by omega), except_bind_ok, hheader, except_bind_ok,
      failIf_neg _ (by rcases hmajor with h | h <;> rw [h] <;> decide), except_bind_ok,
      hdecode, except_bind_ok]
    simp only []
    rw [failIf_neg _ hsize, except_bind_ok, failIf_neg _ (by omega), except_bind_ok]
    cases head
    simp only [pure, Except.pure]
    rw [← hrequired]

/-- The checks before the body stay inside the buffer. -/
theorem decodeHead_ne_fault (data : List UInt8) : decodeHead data ≠ .error .fault := by
  unfold decodeHead
  by_cases hlen : data.length < commonHeaderSize
  · rw [failIf_pos _ hlen, except_bind_error]
    simp
  · obtain ⟨header, hheader, -⟩ := headerDecode_spec (Nat.le_of_not_lt hlen)
    rw [failIf_neg _ hlen, except_bind_ok, hheader, except_bind_ok]
    apply failIf_bind_ne_fault
    cases hkind : codeToKind header.category header.opcode with
    | error e =>
        rw [except_bind_error]
        unfold codeToKind at hkind
        repeat' split at hkind
        all_goals
          first
          | cases hkind; done
          | cases hkind; simp
    | ok kind =>
        rw [except_bind_ok]
        refine failIf_bind_ne_fault (failIf_bind_ne_fault ?_)
        simp [pure, Except.pure]

/-! ## The whole decoder -/

/-- The padding behind a body is clear. -/
def Padded (f : Nat → Bool) (head : Head) : Prop :=
  BitField.read f (48 + bodyWidth head.header.majorVersion head.kind)
    (padWidth head.header.majorVersion head.kind) = 0

instance (f : Nat → Bool) (head : Head) : Decidable (Padded f head) :=
  inferInstanceAs (Decidable (_ = _))

/-- The padding check reads exactly the padding. -/
theorem padded_iff {f : Nat → Bool} {data : List UInt8} {head : Head} (h : head.Of data) :
    Padded f head ↔ ∀ i, 48 + bodyWidth head.header.majorVersion head.kind ≤ i →
      i < head.required * 8 → f i = false := by
  have hle := bodyWidth_le h.carried
  rw [← h.required] at hle
  rw [Padded, BitField.read_eq_iff (Nat.two_pow_pos _), padWidth, ← h.required]
  simp only [Nat.zero_testBit]
  constructor
  · intro hz i hi hi'
    have := hz (i - (48 + bodyWidth head.header.majorVersion head.kind)) (by omega)
    rwa [Nat.add_sub_cancel' hi] at this
  · exact fun hz i hi => hz _ (by omega) (by omega)

/-- What the decoder does. A head that is not accepted leaves both out-parameters alone; behind an
accepted one the object is stored in any case, and the padding decides the status. -/
theorem tier0DecodeBody_run (data : List UInt8) (s : DecodeOut) :
    (tier0DecodeBody data).run s =
      match decodeHead data with
      | .error e => .error e s
      | .ok head =>
          if Padded (bitsOf data) head then
            .ok () { object := objectAt (bitsOf data) head, consumed := head.required }
          else
            .error (.status .noncanonical) { s with object := objectAt (bitsOf data) head } := by
  cases hhead : decodeHead data with
  | error e => rw [tier0DecodeBody, hhead, run_liftM_error_bind]
  | ok head =>
      have hof := decodeHead_eq_ok.mp hhead
      have hkind := (carried_cases hof.carried).2
      have hle := bodyWidth_le hof.carried
      have hlen := hof.length
      rw [← hof.required] at hle
      have hsource := readU_spec
        (r := { buffer := data, sizeBits := head.required * 8, position := 16 }) (Nat.le_refl 32)
        (by simp only; omega) (by simp only; omega)
      have hbody := decodeFields_run head.header.majorVersion
        (r := { buffer := data, sizeBits := head.required * 8, position := 16 + 32 })
        (s := { s with object := {
          priority := head.header.priority
          sourceRef := UInt32.ofNat (BitField.read (bitsOf data) 16 32)
          body := .zero head.kind } })
        hkind rfl rfl (by simp only; omega) (by simp only; omega)
      obtain ⟨hpad, hnopad⟩ := requireZeroPadding_spec
        (r := {
          buffer := data
          sizeBits := head.required * 8
          position := 48 + bodyWidth head.header.majorVersion head.kind })
        (by simp only; omega)
      have hiff := padded_iff (f := bitsOf data) hof
      rw [tier0DecodeBody, hhead, run_liftM_ok_bind, run_modify_bind, hsource, run_liftM_ok_bind]
      simp only []
      rw [run_modify_bind, run_bind_ok hbody]
      simp only []
      split
      · next hzero =>
        obtain ⟨r', hr'⟩ := hpad (hiff.mp hzero)
        rw [hr', run_liftM_ok_bind]
        rfl
      · next hset =>
        rw [hnopad (mt hiff.mpr hset), run_liftM_error_bind]
        rfl

/-- Only the bits under the body matter. -/
theorem bodyAt_congr {f g : Nat → Bool} {major : UInt8} {kind : Kind}
    (h : ∀ i < bodyWidth major kind, f (48 + i) = g (48 + i)) :
    bodyAt f major kind = bodyAt g major kind := by
  cases kind with
  | presence => exact congrArg Body.presence (storeAll_congr h _)
  | hazard => exact congrArg Body.hazard (storeAll_congr h _)
  | request => exact congrArg Body.request (storeAll_congr h _)
  | authorityClaim => exact congrArg Body.authorityClaim (storeAll_congr h _)
  | degradedState => exact congrArg Body.degradedState (storeAll_congr h _)
  | transportOffer => exact congrArg Body.transportOffer (storeAll_congr h _)
  | transportAccept => exact congrArg Body.transportAccept (storeAll_congr h _)
  | unassigned c => rfl

/-- Behind an accepted head only the bits of the fixed body matter. -/
theorem objectAt_congr {f g : Nat → Bool} {data : List UInt8} {head : Head} (h : head.Of data)
    (hbits : ∀ i, 16 ≤ i → i < head.required * 8 → f i = g i) :
    objectAt f head = objectAt g head ∧ (Padded f head ↔ Padded g head) := by
  have hle := bodyWidth_le h.carried
  rw [← h.required] at hle
  have hsource : BitField.read f 16 32 = BitField.read g 16 32 :=
    BitField.read_congr (fun i hi => hbits _ (by omega) (by omega))
  have hbody : bodyAt f head.header.majorVersion head.kind =
      bodyAt g head.header.majorVersion head.kind :=
    bodyAt_congr (fun i hi => hbits (48 + i) (by omega) (by omega))
  refine ⟨by rw [objectAt, objectAt, hsource, hbody], ?_⟩
  rw [Padded, Padded, BitField.read_congr]
  intro i hi
  rw [padWidth, ← h.required] at hi
  exact hbits _ (by omega) (by omega)

/-! ## A decoder that refuses extensions -/

theorem tier0Decode_short {data : List UInt8} (h : data.length < commonHeaderSize) (s : DecodeOut) :
    (tier0Decode data).run s = .error (.status .truncated) s := by
  rw [tier0Decode, run_failIf_stop h]

/-- `mcl_wire_tier0_decode` is the decoder of the fixed body where the extension bit is clear. -/
theorem tier0Decode_run {data : List UInt8} {header : Header} (h : headerDecode data = .ok header)
    (s : DecodeOut) : (tier0Decode data).run s =
      if header.extensionPresent = 0 then (tier0DecodeBody data).run s
      else .error (.status .unsupportedSemantic) s := by
  have hlen : ¬ data.length < commonHeaderSize := by
    match data, h with
    | _ :: _ :: _, _ => simp [commonHeaderSize]
  rw [tier0Decode, run_failIf_skip hlen, h, run_liftM_ok_bind]
  by_cases hext : header.extensionPresent = 0
  · rw [run_failIf_skip (not_not_intro hext), if_pos hext]
  · rw [run_failIf_stop hext, if_neg hext]

/-! ## A field read and written again

The decoder reads a row of fields, and the encoder writes one. That the two rows are the same is shown
by writing back what has been read: each write writes the bits that stand there. -/

/-- A write of exactly the bits that stand at `off`. -/
def Carries (f : Nat → Bool) (off : Nat) (x : WriteField) : Prop :=
  x.InRange ∧ BitField.read f off x.field.width = x.field.value

/-- A row of writes of exactly the bits that stand at `off`. -/
def CarriesAll (f : Nat → Bool) : Nat → List WriteField → Prop
  | _, []        => True
  | off, x :: xs => Carries f off x ∧ CarriesAll f (off + x.field.width) xs

theorem carriesAll_iff {f : Nat → Bool} {off : Nat} {xs : List WriteField} :
    CarriesAll f off xs ↔ (∀ x ∈ xs, x.InRange) ∧ Holds f off (xs.map WriteField.field) := by
  induction xs generalizing off with
  | nil => simp [CarriesAll]
  | cons x xs ih =>
      simp only [CarriesAll, ih, Carries, List.forall_mem_cons, List.map_cons, BitField.holds_cons]
      tauto

section Scalars

variable {f : Nat → Bool} {off w : Nat}

/-- A row that writes back what it was read from does so field by field. -/
theorem carries_of_eq {v : UInt32} (h : v.toNat = BitField.read f off w) : Carries f off (.u v w) :=
  ⟨by rw [WriteField.InRange, h]; exact BitField.read_lt f off w, h.symm⟩

theorem carries_u32 (hw : w ≤ 32) : Carries f off (.u (UInt32.ofNat (BitField.read f off w)) w) :=
  carries_of_eq (toNat_ofNat_read _ _ hw)

theorem carries_u16 (hw : w ≤ 16) :
    Carries f off (.u (UInt32.ofNat (BitField.read f off w)).toUInt16.toUInt32 w) := by
  have hlt := BitField.read_lt f off w
  have hle : 2 ^ w ≤ 2 ^ 16 := Nat.pow_le_pow_right (by omega) hw
  apply carries_of_eq
  rw [UInt16.toNat_toUInt32, UInt32.toNat_toUInt16, toNat_ofNat_read _ _ (by omega),
    Nat.mod_eq_of_lt (by omega)]

theorem carries_u8 (hw : w ≤ 8) :
    Carries f off (.u (UInt32.ofNat (BitField.read f off w)).toUInt8.toUInt32 w) := by
  have hlt := BitField.read_lt f off w
  have hle : 2 ^ w ≤ 2 ^ 8 := Nat.pow_le_pow_right (by omega) hw
  apply carries_of_eq
  rw [UInt8.toNat_toUInt32, UInt32.toNat_toUInt8, toNat_ofNat_read _ _ (by omega),
    Nat.mod_eq_of_lt (by omega)]

/-- A signed value of at most sixteen bits survives `int16_t`. -/
theorem toInt_narrow16 {z : Int} (hw : w ≤ 16) (hz : BitField.SignedFits w z) :
    (Int32.ofInt z).toInt16.toInt32.toInt = z := by
  have hle : (2 : Int) ^ (w - 1) ≤ 2 ^ 15 := pow_le_pow_right₀ (by norm_num) (by omega)
  obtain ⟨hlo, hhi⟩ := hz
  have h32 : (Int32.ofInt z).toInt = z := by
    rw [Int32.toInt_ofInt]
    exact Int.bmod_eq_of_le_mul_two (by norm_num [Int32.size]; omega) (by norm_num [Int32.size]; omega)
  rw [Int16.toInt_toInt32, Int32.toInt_toInt16, h32]
  exact Int.bmod_eq_of_le_mul_two (by norm_num; omega) (by norm_num; omega)

theorem carries_s16 (hw : 0 < w) (hw' : w ≤ 16) :
    Carries f off
      (.s (Int32.ofInt (BitField.signed w (BitField.read f off w))).toInt16.toInt32 w) := by
  have hfits := BitField.signedFits_signed hw (BitField.read f off w)
  have hval := toInt_narrow16 hw' hfits
  refine ⟨by rw [WriteField.InRange, hval]; exact hfits, ?_⟩
  rw [WriteField.field, hval]
  exact (BitField.twos_signed (BitField.read_lt f off w)).symm

theorem Carries.u32 {v : UInt32} (h : Carries f off (.u v w)) :
    UInt32.ofNat (BitField.read f off w) = v := by
  rw [show BitField.read f off w = v.toNat from h.2, UInt32.ofNat_toNat]

theorem Carries.u16 {v : UInt16} (h : Carries f off (.u v.toUInt32 w)) :
    (UInt32.ofNat (BitField.read f off w)).toUInt16 = v := by
  rw [h.u32, UInt16.toUInt16_toUInt32]

theorem Carries.u8 {v : UInt8} (h : Carries f off (.u v.toUInt32 w)) :
    (UInt32.ofNat (BitField.read f off w)).toUInt8 = v := by
  rw [h.u32, UInt8.toUInt8_toUInt32]

theorem Carries.s16 {v : Int16} (hw : 0 < w) (h : Carries f off (.s v.toInt32 w)) :
    (Int32.ofInt (BitField.signed w (BitField.read f off w))).toInt16 = v := by
  have hread : BitField.read f off w = BitField.twos w v.toInt32.toInt := h.2
  rw [hread, BitField.signed_twos hw h.1, Int32.ofInt_toInt, Int16.toInt16_toInt32]

end Scalars

/-- The body a decoder reads is in range, and its fields are the bits it was read from. -/
theorem carriesAll_bodyAt (f : Nat → Bool) (major : UInt8) (kind : Kind) :
    CarriesAll f 48 (bodyWrites major (bodyAt f major kind)) := by
  cases kind with
  | presence =>
      simp only [bodyAt, bodyWrites, presenceReads, presenceWrites]
      split
      · exact ⟨carries_u8 (by omega), carries_u32 (by omega), carries_u8 (by omega), trivial⟩
      · exact ⟨carries_u32 (by omega), carries_u8 (by omega), trivial⟩
  | hazard =>
      exact ⟨carries_u8 (by omega), carries_u8 (by omega), carries_u8 (by omega),
        carries_s16 (by omega) (by omega), carries_s16 (by omega) (by omega),
        carries_s16 (by omega) (by omega), carries_u16 (by omega), carries_u8 (by omega), trivial⟩
  | request =>
      exact ⟨carries_u8 (by omega), carries_u32 (by omega), carries_s16 (by omega) (by omega),
        carries_s16 (by omega) (by omega), carries_u16 (by omega), carries_u8 (by omega), trivial⟩
  | authorityClaim =>
      exact ⟨carries_u8 (by omega), carries_u16 (by omega), carries_u32 (by omega),
        carries_u8 (by omega), trivial⟩
  | degradedState =>
      exact ⟨carries_u8 (by omega), carries_u8 (by omega), carries_u8 (by omega),
        carries_u8 (by omega), trivial⟩
  | transportOffer =>
      exact ⟨carries_u32 (by omega), carries_u8 (by omega), carries_u8 (by omega),
        carries_u32 (by omega), carries_u8 (by omega), trivial⟩
  | transportAccept =>
      exact ⟨carries_u32 (by omega), carries_u8 (by omega), carries_u8 (by omega),
        carries_u32 (by omega), trivial⟩
  | unassigned c => trivial

/-- Where the bits are those of a body, the decoder reads that body back, as far as the major
carries it. -/
theorem bodyAt_eq {f : Nat → Bool} {major : UInt8} {body : Body}
    (h : CarriesAll f 48 (bodyWrites major body)) : bodyAt f major body.kind = body.atMajor major := by
  cases body with
  | presence b =>
      simp only [bodyWrites, presenceWrites] at h
      simp only [Body.kind, bodyAt, presenceReads, Body.atMajor]
      by_cases hmajor : major = stableMajor
      · rw [if_neg (not_not_intro hmajor)] at h ⊢
        simp only [List.nil_append, CarriesAll, WriteField.field] at h
        obtain ⟨h₁, h₂, -⟩ := h
        rw [if_pos hmajor]
        simp only [List.nil_append, storeAll, ReadField.store, ReadField.width]
        rw [h₁.u32, h₂.u8]
      · rw [if_pos hmajor] at h ⊢
        simp only [List.cons_append, List.nil_append, CarriesAll, WriteField.field] at h
        obtain ⟨h₁, h₂, h₃, -⟩ := h
        rw [if_neg hmajor]
        simp only [List.cons_append, List.nil_append, storeAll, ReadField.store, ReadField.width]
        rw [h₁.u8, h₂.u32, h₃.u8]
  | hazard b =>
      simp only [bodyWrites, hazardWrites, CarriesAll, WriteField.field] at h
      obtain ⟨h₁, h₂, h₃, h₄, h₅, h₆, h₇, h₈, -⟩ := h
      simp only [Body.kind, bodyAt, hazardReads, storeAll, ReadField.store, ReadField.width,
        Body.atMajor]
      rw [h₁.u8, h₂.u8, h₃.u8, h₄.s16 (by omega), h₅.s16 (by omega), h₆.s16 (by omega), h₇.u16,
        h₈.u8]
  | request b =>
      simp only [bodyWrites, requestWrites, CarriesAll, WriteField.field] at h
      obtain ⟨h₁, h₂, h₃, h₄, h₅, h₆, -⟩ := h
      simp only [Body.kind, bodyAt, requestReads, storeAll, ReadField.store, ReadField.width,
        Body.atMajor]
      rw [h₁.u8, h₂.u32, h₃.s16 (by omega), h₄.s16 (by omega), h₅.u16, h₆.u8]
  | authorityClaim b =>
      simp only [bodyWrites, authorityClaimWrites, CarriesAll, WriteField.field] at h
      obtain ⟨h₁, h₂, h₃, h₄, -⟩ := h
      simp only [Body.kind, bodyAt, authorityClaimReads, storeAll, ReadField.store,
        ReadField.width, Body.atMajor]
      rw [h₁.u8, h₂.u16, h₃.u32, h₄.u8]
  | degradedState b =>
      simp only [bodyWrites, degradedStateWrites, CarriesAll, WriteField.field] at h
      obtain ⟨h₁, h₂, h₃, h₄, -⟩ := h
      simp only [Body.kind, bodyAt, degradedStateReads, storeAll, ReadField.store, ReadField.width,
        Body.atMajor]
      rw [h₁.u8, h₂.u8, h₃.u8, h₄.u8]
  | transportOffer b =>
      simp only [bodyWrites, transportOfferWrites, CarriesAll, WriteField.field] at h
      obtain ⟨h₁, h₂, h₃, h₄, h₅, -⟩ := h
      simp only [Body.kind, bodyAt, transportOfferReads, storeAll, ReadField.store,
        ReadField.width, Body.atMajor]
      rw [h₁.u32, h₂.u8, h₃.u8, h₄.u32, h₅.u8]
  | transportAccept b =>
      simp only [bodyWrites, transportAcceptWrites, CarriesAll, WriteField.field] at h
      obtain ⟨h₁, h₂, h₃, h₄, -⟩ := h
      simp only [Body.kind, bodyAt, transportAcceptReads, storeAll, ReadField.store,
        ReadField.width, Body.atMajor]
      rw [h₁.u32, h₂.u8, h₃.u8, h₄.u32]
  | unassigned c => rfl

/-! ## Buffers that present an object

A buffer presents an object if it starts with its image. This is what the decoder of the fixed body
accepts, with the object in range and carried by the major of the header. -/

/-- `data` starts with the image of `o`, an in-range object that its major carries whole. -/
structure Presents (data : List UInt8) (major e : UInt8) (o : Tier0) : Prop where
  carried : kindAllowedAtMajor major o.kind = true
  inRange : o.InRange major
  ext_le : e ≤ 1
  whole : o.atMajor major = o
  starts : o.image major e <+: data

/-- The head of an object. -/
def Tier0.head (major e : UInt8) (o : Tier0) : Head where
  header := o.header major e
  kind := o.kind
  required := o.size major

@[simp] theorem Tier0.extensionPresent_head (major e : UInt8) (o : Tier0) :
    (o.head major e).header.extensionPresent = e := rfl

@[simp] theorem Tier0.required_head (major e : UInt8) (o : Tier0) :
    (o.head major e).required = o.size major := rfl

section Presents

variable {data : List UInt8} {major e : UInt8} {o : Tier0}

theorem Presents.length (h : Presents data major e o) : o.size major ≤ data.length := by
  have := h.starts.length_le
  rwa [Tier0.length_image] at this

theorem Presents.holds (h : Presents data major e o) :
    Holds (bitsOf data) 0 (o.fields major e) :=
  ((Tier0.image_prefix_iff h.carried h.inRange h.ext_le).mp h.starts).2

/-- The parts of the row: header, `source_ref`, body, padding. -/
theorem holds_fields {f : Nat → Bool} : Holds f 0 (o.fields major e) ↔
    Holds f 0 (o.header major e).fields ∧ BitField.read f 16 32 = o.sourceRef.toNat ∧
      Holds f 48 (o.body.fields major) ∧
      BitField.read f (48 + bodyWidth major o.kind) (padWidth major o.kind) = 0 := by
  rw [Tier0.fields, BitField.holds_append, span_header, BitField.holds_cons, BitField.holds_append,
    span_bodyFields, BitField.holds_cons]
  simp only [Nat.zero_add, Nat.reduceAdd, BitField.holds_nil, and_true]
  rfl

/-- The head of a presented object is the one the decoder accepts. -/
theorem Presents.head_of (h : Presents data major e o) : (o.head major e).Of data := by
  have hlen := h.length
  have hcommon := two_le_size h.carried
  obtain ⟨header, hdecode, -, hheader⟩ :=
    headerDecode_spec (Nat.le_trans hcommon hlen)
  have heq : header = o.header major e :=
    Header.eq_of_holds hheader (holds_fields.mp h.holds).1
  exact ⟨by rw [hdecode, heq]; rfl, rfl, h.carried, rfl, hlen⟩

theorem Presents.padded (h : Presents data major e o) : Padded (bitsOf data) (o.head major e) :=
  (holds_fields.mp h.holds).2.2.2

/-- The decoder reads the presented object back. -/
theorem Presents.objectAt_eq (h : Presents data major e o) :
    objectAt (bitsOf data) (o.head major e) = o := by
  obtain ⟨-, hsource, hbody, -⟩ := holds_fields.mp h.holds
  have hbodyAt := bodyAt_eq (carriesAll_iff.mpr ⟨h.inRange.2, hbody⟩)
  have hwhole : o.body.atMajor major = o.body := congrArg Tier0.body h.whole
  have hsourceRef : UInt32.ofNat (BitField.read (bitsOf data) 16 32) = o.sourceRef := by
    rw [hsource, UInt32.ofNat_toNat]
  cases o with
  | mk priority sourceRef body =>
      simp only [objectAt, Tier0.head, Tier0.header, Tier0.kind] at *
      rw [hsourceRef, hbodyAt, hwhole]

/-- A major keeps the in-range fields of a body and the bits they are written to. -/
theorem bodyWrites_atMajor (major : UInt8) (body : Body) :
    bodyWrites major (body.atMajor major) = bodyWrites major body := by
  cases body with
  | presence b =>
      by_cases hmajor : major = stableMajor
      · simp [Body.atMajor, bodyWrites, presenceWrites, hmajor]
      · simp [Body.atMajor, hmajor]
  | _ => rfl

theorem bodyAt_atMajor (f : Nat → Bool) (major : UInt8) (kind : Kind) :
    (bodyAt f major kind).atMajor major = bodyAt f major kind := by
  have h := bodyAt_eq (carriesAll_bodyAt f major kind)
  rw [kind_bodyAt] at h
  exact h.symm

/-- An accepted head with clear padding behind the body presents the object the decoder reads. -/
theorem Head.Of.presents {head : Head} (h : head.Of data) (hpad : Padded (bitsOf data) head) :
    Presents data head.header.majorVersion head.header.extensionPresent
      (objectAt (bitsOf data) head) := by
  have hlen := h.length
  have hcommon := two_le_size h.carried
  rw [← h.required] at hcommon
  obtain ⟨header, hdecode, hrange, hheader⟩ := headerDecode_spec (Nat.le_trans hcommon hlen)
  rw [h.header] at hdecode
  cases hdecode
  obtain ⟨hfit, hholds⟩ := carriesAll_iff.mp
    (carriesAll_bodyAt (bitsOf data) head.header.majorVersion head.kind)
  have hkind : (objectAt (bitsOf data) head).kind = head.kind := kind_bodyAt _ _ _
  have hbuilt : (objectAt (bitsOf data) head).header head.header.majorVersion
      head.header.extensionPresent = head.header := by
    rw [Tier0.header, hkind, h.code]
    rfl
  have hcarried : kindAllowedAtMajor head.header.majorVersion (objectAt (bitsOf data) head).kind =
      true := by
    rw [hkind]
    exact h.carried
  have hinRange : (objectAt (bitsOf data) head).InRange head.header.majorVersion :=
    ⟨hrange.2.2.2.1, hfit⟩
  refine ⟨hcarried, hinRange, hrange.2.2.2.2, ?_, ?_⟩
  · rw [Tier0.atMajor, objectAt, bodyAt_atMajor]
  · rw [Tier0.image_prefix_iff hcarried hinRange hrange.2.2.2.2, holds_fields, hbuilt, hkind]
    refine ⟨?_, hheader, ?_, hholds, hpad⟩
    · rw [Tier0.size, hkind, ← h.required]
      exact hlen
    · exact (toNat_ofNat_read _ _ (by omega)).symm

/-- A buffer presents at most one object, at one major and with one extension bit. -/
theorem Presents.unique {major' e' : UInt8} {o' : Tier0} (h : Presents data major e o)
    (h' : Presents data major' e' o') : major = major' ∧ e = e' ∧ o = o' := by
  have hheader : o.header major e = o'.header major' e' := by
    have heq := h.head_of.header.symm.trans h'.head_of.header
    exact Except.ok.inj heq
  have hmajor : major = major' := congrArg Header.majorVersion hheader
  have hext : e = e' := congrArg Header.extensionPresent hheader
  have hhead : decodeHead data = .ok (o'.head major' e') := decodeHead_eq_ok.mpr h'.head_of
  rw [decodeHead_eq_ok.mpr h.head_of] at hhead
  refine ⟨hmajor, hext, ?_⟩
  rw [← h.objectAt_eq, ← h'.objectAt_eq, Except.ok.inj hhead]

/-- The decoder of the fixed body accepts exactly the buffers that present an object. -/
theorem tier0DecodeBody_eq_ok {s s' : DecodeOut} :
    (tier0DecodeBody data).run s = .ok () s' ↔
      ∃ major e, Presents data major e s'.object ∧ s'.consumed = s'.object.size major := by
  rw [tier0DecodeBody_run]
  constructor
  · intro h
    cases hhead : decodeHead data with
    | error e => simp [hhead] at h
    | ok head =>
        have hof := decodeHead_eq_ok.mp hhead
        simp only [hhead] at h
        split at h
        · next hpad =>
          cases h
          refine ⟨_, _, hof.presents hpad, ?_⟩
          simp only [Tier0.size, Tier0.kind, objectAt, kind_bodyAt]
          exact hof.required
        · simp at h
  · rintro ⟨major, e, h, hconsumed⟩
    rw [decodeHead_eq_ok.mpr h.head_of]
    simp only []
    rw [if_pos h.padded, h.objectAt_eq]
    cases s'
    simp only at hconsumed
    rw [hconsumed]
    rfl

/-- An accepted buffer presents the object at the major and with the extension bit of its header. -/
theorem tier0DecodeBody_presents {header : Header} {s s' : DecodeOut}
    (h : (tier0DecodeBody data).run s = .ok () s') (hheader : headerDecode data = .ok header) :
    Presents data header.majorVersion header.extensionPresent s'.object := by
  obtain ⟨major, e, hpresents, -⟩ := tier0DecodeBody_eq_ok.mp h
  have heq := hpresents.head_of.header.symm.trans hheader
  rw [← Except.ok.inj heq]
  exact hpresents

/-- The decoder reads back what an encoder writes at the experimental major. -/
theorem tier0Decode_image {o : Tier0} (hc : kindAllowedAtMajor experimentalMajor o.kind = true)
    (hr : o.InRange experimentalMajor) (s : DecodeOut) :
    (tier0Decode (o.image experimentalMajor 0)).run s = .ok () ⟨o, o.size experimentalMajor⟩ := by
  have hpresents : Presents (o.image experimentalMajor 0) experimentalMajor 0 o :=
    ⟨hc, hr, by decide, o.atMajor_experimental, List.prefix_refl _⟩
  rw [tier0Decode_run hpresents.head_of.header]
  show (tier0DecodeBody (o.image experimentalMajor 0)).run s = _
  exact tier0DecodeBody_eq_ok.mpr ⟨experimentalMajor, 0, hpresents, rfl⟩

end Presents

end MclWire
