import MclWire.Tier0.LayoutProbes
import MclWire.Window

/-!
# A row of its own

A pass over a row tells where the row ends, but not where it starts: a row that is too narrow passes
if it ends with its field.

* `shows_of_tail` — the end of a field passes.
* `row_accepted_iff` — for a body that is cleared but for the field of the probe, nothing else does.
-/

namespace MclWire

namespace LayoutTool

/-! ## The values of the probes

A row is probed with extreme values: all bits set if it is unsigned, the greatest and the least number
if it is signed. What matters of them is which bits they have. -/

section Values

variable {kind : Kind} {k : KindRow} {f g : FieldRow} {body : Body}

/-- `set_field` leaves the other members alone. -/
theorem getField_setField {b b' : Body} {name name' : FieldName} {v : Int32}
    (h : b.setField name v = some b') (hne : name' ≠ name) : b'.getField name' = b.getField name' := by
  unfold Body.setField at h
  split at h <;> cases h <;> cases name' <;> first | rfl | exact absurd rfl hne

/-- The bits an unsigned row is probed with. -/
def ones (f : FieldRow) : Nat := if f.width = 32 then 0xFEDCBA98 else 2 ^ f.width - 1

/-- The probe of an unsigned row. Its first bit is set. -/
theorem probe_unsigned (hf : Probed f) (h : f.isSigned = false) :
    (probeValue f false).toInt = (if f.width = 32 then (ones f : Int) - 2 ^ 32 else (ones f : Int)) ∧
      (expectedBits f (probeValue f false)).toNat = ones f ∧
      2 ^ (f.width - 1) ≤ ones f ∧ ones f < 2 ^ f.width := by
  have hall : ∀ w < 33, 1 ≤ w →
      (probeValue ⟨.x, 0, w, false⟩ false).toInt =
        (if w = 32 then (ones ⟨.x, 0, w, false⟩ : Int) - 2 ^ 32
          else (ones ⟨.x, 0, w, false⟩ : Int)) ∧
      (expectedBits ⟨.x, 0, w, false⟩ (probeValue ⟨.x, 0, w, false⟩ false)).toNat =
        ones ⟨.x, 0, w, false⟩ ∧
      2 ^ (w - 1) ≤ ones ⟨.x, 0, w, false⟩ ∧ ones ⟨.x, 0, w, false⟩ < 2 ^ w := by
    decide +kernel
  cases f with
  | mk name offset width isSigned =>
      cases h
      obtain ⟨hlo, hhi⟩ : 1 ≤ width ∧ width ≤ 32 := hf
      exact hall width (by omega) hlo

/-- The probes of a signed row. Of the second one the first bit is set, and no other. -/
theorem probe_signed (hf : Probed f) (h : f.isSigned = true) :
    (probeValue f false).toInt = 2 ^ (f.width - 1) - 1 ∧
      (expectedBits f (probeValue f false)).toNat = 2 ^ (f.width - 1) - 1 ∧
      (probeValue f true).toInt = -2 ^ (f.width - 1) ∧
      (expectedBits f (probeValue f true)).toNat = 2 ^ (f.width - 1) := by
  have hall : ∀ w < 32, 2 ≤ w →
      (probeValue ⟨.x, 0, w, true⟩ false).toInt = 2 ^ (w - 1) - 1 ∧
      (expectedBits ⟨.x, 0, w, true⟩ (probeValue ⟨.x, 0, w, true⟩ false)).toNat = 2 ^ (w - 1) - 1 ∧
      (probeValue ⟨.x, 0, w, true⟩ true).toInt = -2 ^ (w - 1) ∧
      (expectedBits ⟨.x, 0, w, true⟩ (probeValue ⟨.x, 0, w, true⟩ true)).toNat = 2 ^ (w - 1) := by
    decide +kernel
  cases f with
  | mk name offset width isSigned =>
      cases h
      obtain ⟨hlo, hhi⟩ : 2 ≤ width ∧ width ≤ 31 := hf
      exact hall width (by omega) hlo

/-- Only a signed row has a second probe. -/
theorem useMin_eq_false {useMin : Bool} (hmin : useMin = true → f.isSigned = true)
    (hf : f.isSigned = false) : useMin = false := by
  rw [← Bool.not_eq_true]
  intro htrue
  rw [hmin htrue] at hf
  cases hf

/-- The bit of the sign, and the bits below it. -/
theorem two_pow_width (hf : Probed f) : 2 ^ f.width = 2 * 2 ^ (f.width - 1) := by
  rw [← Nat.pow_succ', Nat.succ_eq_add_one, Nat.sub_add_cancel hf.bounds.1]

theorem probe_first (hf : Probed f) :
    (expectedBits f (probeValue f f.isSigned)).toNat.testBit (f.width - 1) = true := by
  have hpos := hf.bounds.1
  cases hsigned : f.isSigned with
  | true =>
      obtain ⟨-, -, -, hbits⟩ := probe_signed hf hsigned
      rw [hbits, Nat.testBit_two_pow_self]
  | false =>
      obtain ⟨-, hbits, hlo, hhi⟩ := probe_unsigned hf hsigned
      rw [hbits]
      apply Nat.testBit_of_two_pow_le_and_two_pow_add_one_gt hlo
      rw [Nat.sub_add_cancel hpos]
      exact hhi

/-- The bits of a row, in the image of a probe. -/
theorem Shows.bit {value : Int32} (h : Shows kind f value body) (hw : f.width ≤ 32) {i : Nat}
    (hi : i < f.width) : bitsOf ((probe body).image experimentalMajor 0) (f.offset + i) =
      (expectedBits f value).toNat.testBit (f.width - 1 - i) := by
  rw [← h.bits, readBits_eq _ _ hw, BitField.testBit_read, decide_eq_true (by omega), Bool.true_and]
  congr 1
  omega

/-- A probe is of the kind that it is a probe of. -/
theorem kindRow_probe {name : FieldName} {v : Int32} (hk : kindRow experimentalMajor kind = some k)
    (hset : (saneBody kind).setField name v = some body) :
    kindRow experimentalMajor (probe body).kind = some k := by
  show kindRow experimentalMajor body.kind = some k
  rw [kind_setField hset, kind_saneBody, hk]

/-- The value of the member fits the published row. -/
theorem fits_published (hk : kindRow experimentalMajor (probe body).kind = some k) (hg : g ∈ k.fields)
    (hr : (probe body).InRange experimentalMajor) {z : Int} (hz : body.getField g.name = some z) :
    g.Fits z := by
  have hfits := (forall_layout_fits (o := probe body) (e := 0) (published hk).carried (by decide)
    hk).mpr hr
  apply hfits g (List.mem_append_right _ hg)
  rw [getField_published hk hg]
  exact hz

/-- A value of a narrow signed field is the `int32_t` it was cast to. -/
theorem signed_value {z : Int} {v : Int32} (hz : Int32.ofInt z = v) (hw : g.width ≤ 16)
    (hfits : BitField.SignedFits g.width z) : z = v.toInt := by
  have hpow : (2 : Int) ^ (g.width - 1) ≤ 2 ^ 15 := pow_le_pow_right₀ (by norm_num) (by omega)
  obtain ⟨hlo, hhi⟩ := hfits
  rw [← hz, Int32.toInt_ofInt, Int.bmod_eq_of_le] <;> norm_num [Int32.size] <;> omega

/-- A value of an unsigned field is the `uint32_t` it was cast to. -/
theorem unsigned_value {z : Int} {v : Int32} (hz : Int32.ofInt z = v) (hw : g.width ≤ 32)
    (hlo : 0 ≤ z) (hhi : z < 2 ^ g.width) : z = v.toInt % 2 ^ 32 := by
  have hpow : (2 : Int) ^ g.width ≤ 2 ^ 32 := pow_le_pow_right₀ (by norm_num) hw
  calc z = z % (2 ^ 32 : Nat) := (Int.emod_eq_of_lt hlo (by norm_num; omega)).symm
    _ = z.bmod (2 ^ 32) % (2 ^ 32 : Nat) := Int.bmod_emod.symm
    _ = v.toInt % 2 ^ 32 := by
        have hsize : Int32.size = 2 ^ 32 := by norm_num [Int32.size]
        rw [← hz, Int32.toInt_ofInt, hsize, BitField.natCast_two_pow]

/-- The bits of the probe of an unsigned row, in a field that can take it. -/
theorem bits_unsigned (hf : Probed f) (hfsigned : f.isSigned = false) (hg : Probed g)
    (hnarrow : g.isSigned = true → g.width ≤ 16) {z : Int}
    (hz : Int32.ofInt z = probeValue f false) (hfits : g.Fits z) :
    g.bits z = ones f ∧ f.width + (if g.isSigned then 1 else 0) ≤ g.width := by
  obtain ⟨hvalue, -, hlo, hhi⟩ := probe_unsigned hf hfsigned
  have hbounds := hf.bounds
  have hgbounds := hg.bounds
  have hcast := BitField.natCast_two_pow f.width
  have hcast' := BitField.natCast_two_pow g.width
  unfold FieldRow.Fits at hfits
  unfold FieldRow.bits
  cases hgsigned : g.isSigned with
  | true =>
      have hw := hnarrow hgsigned
      rw [hgsigned, if_pos rfl] at hfits
      have hzv := signed_value hz hw hfits
      obtain ⟨hlo', hhi'⟩ := hfits
      have hpow : (2 : Int) ^ (g.width - 1) ≤ 2 ^ 15 := pow_le_pow_right₀ (by norm_num) (by omega)
      have hcast'' := BitField.natCast_two_pow (g.width - 1)
      rw [hvalue] at hzv
      split at hzv
      · next h32 =>
        -- no narrow field takes that value
        have hones : ones f = 0xFEDCBA98 := if_pos h32
        exfalso
        omega
      · next h32 =>
        have hones : ones f = 2 ^ f.width - 1 := if_neg h32
        have hle : f.width ≤ g.width - 1 := by
          have hpow : 2 ^ f.width ≤ 2 ^ (g.width - 1) := by omega
          exact (Nat.pow_le_pow_iff_right (by omega)).mp hpow
        have hlt : 2 ^ (g.width - 1) ≤ 2 ^ g.width := Nat.pow_le_pow_right (by omega) (by omega)
        rw [if_pos rfl, if_pos rfl, BitField.twos_of_nonneg (by omega) (by omega)]
        omega
  | false =>
      rw [hgsigned, if_neg (by decide)] at hfits
      have hzv := unsigned_value hz hgbounds.2 hfits.1 hfits.2
      have hle : 2 ^ f.width ≤ 2 ^ 32 := Nat.pow_le_pow_right (by omega) hbounds.2
      have hones : z = ones f := by
        rw [hzv, hvalue]
        split <;> omega
      have hlt : f.width - 1 < g.width := by
        have hpow : 2 ^ (f.width - 1) < 2 ^ g.width := by
          have := hfits.2
          omega
        exact (Nat.pow_lt_pow_iff_right (by omega)).mp hpow
      rw [if_neg (by decide), if_neg (by decide)]
      omega

/-- The bits of the extreme value of a signed row, in a field that can take it. -/
theorem bits_extreme (hf : Probed f) (hfsigned : f.isSigned = true) (hg : Probed g)
    (hnarrow : g.isSigned = true → g.width ≤ 16) {z : Int}
    (hz : Int32.ofInt z = probeValue f true) (hfits : g.Fits z) :
    g.bits z + 2 ^ (f.width - 1) = 2 ^ g.width ∧ f.width ≤ g.width ∧
      (g.isSigned = true ∨ g.width = 32) := by
  obtain ⟨-, -, hvalue, -⟩ := probe_signed hf hfsigned
  have hgbounds := hg.bounds
  have hcast := BitField.natCast_two_pow (f.width - 1)
  have hcast' := BitField.natCast_two_pow g.width
  have hpos := Nat.two_pow_pos (f.width - 1)
  unfold Probed at hf
  rw [hfsigned, if_pos rfl] at hf
  unfold FieldRow.Fits at hfits
  unfold FieldRow.bits
  cases hgsigned : g.isSigned with
  | true =>
      rw [hgsigned, if_pos rfl] at hfits
      have hzv := signed_value hz (hnarrow hgsigned) hfits
      rw [hvalue] at hzv
      have hle : f.width - 1 ≤ g.width - 1 := by
        have hpow := BitField.natCast_two_pow (g.width - 1)
        have hle : 2 ^ (f.width - 1) ≤ 2 ^ (g.width - 1) := by
          have := hfits.1
          omega
        exact (Nat.pow_le_pow_iff_right (by omega)).mp hle
      have hlt : 2 ^ (f.width - 1) < 2 ^ g.width := Nat.pow_lt_pow_right (by omega) (by omega)
      have hmod : z % 2 ^ g.width = 2 ^ g.width - 2 ^ (f.width - 1) := by
        rw [hzv, ← Int.add_emod_right, Int.emod_eq_of_lt] <;> omega
      refine ⟨?_, by omega, Or.inl rfl⟩
      rw [if_pos rfl, BitField.twos, hmod]
      omega
  | false =>
      rw [hgsigned, if_neg (by decide)] at hfits
      have hzv := unsigned_value hz hgbounds.2 hfits.1 hfits.2
      have hle : (2 : Int) ^ (f.width - 1) ≤ 2 ^ 30 := pow_le_pow_right₀ (by norm_num) (by omega)
      have hmod : z = 2 ^ 32 - 2 ^ (f.width - 1) := by
        rw [hzv, hvalue, ← Int.add_emod_right, Int.emod_eq_of_lt] <;> omega
      have hwidth : g.width = 32 := by
        by_contra hne
        have hpow : (2 : Int) ^ g.width ≤ 2 ^ 31 := pow_le_pow_right₀ (by norm_num) (by omega)
        have := hfits.2
        omega
      refine ⟨?_, by omega, Or.inr hwidth⟩
      rw [if_neg (by decide), hwidth, hmod]
      omega

end Values

/-! ## Setting a field

`set_field` casts the value of the probe to the type of the member. A value that the published row can
take survives the cast, so that the probe is in range and has that value in the field. -/

section Setting

variable {kind : Kind} {k : KindRow} {g : FieldRow} {body : Body} {name : FieldName} {o w : Nat}
  {v : Int32}

theorem toNat_toUInt32 (v : Int32) : (v.toUInt32.toNat : Int) = v.toInt % 2 ^ 32 := by
  have hbmod : v.toInt = (v.toUInt32.toNat : Int).bmod (2 ^ 32) := BitVec.toInt_eq_toNat_bmod _
  have hlt := v.toUInt32.toNat_lt
  have hmod := Int.bmod_emod (x := (v.toUInt32.toNat : Int)) (m := 2 ^ 32)
  rw [← hbmod, BitField.natCast_two_pow] at hmod
  rw [hmod]
  omega

/-- A value that fits the row survives the cast to `uint8_t`. -/
theorem cast_u8 (hw : w ≤ 8) (hv : FieldRow.Fits ⟨name, o, w, false⟩ v.toInt ∨ w = 32) :
    Int32.ofInt (v.toUInt32.toUInt8.toNat : Int) = v ∧
      FieldRow.Fits ⟨name, o, w, false⟩ (v.toUInt32.toUInt8.toNat : Int) := by
  have hcast := toNat_toUInt32 v
  have hpow : (2 : Int) ^ w ≤ 2 ^ 8 := pow_le_pow_right₀ (by norm_num) hw
  rcases hv with hfits | h32
  · obtain ⟨hlo, hhi⟩ : 0 ≤ v.toInt ∧ v.toInt < 2 ^ w := hfits
    have hsame : (v.toUInt32.toUInt8.toNat : Int) = v.toInt := by
      rw [UInt32.toNat_toUInt8]
      omega
    rw [hsame]
    exact ⟨Int32.ofInt_toInt v, hlo, hhi⟩
  · omega

/-- So it does the cast to `uint16_t`. -/
theorem cast_u16 (hw : w ≤ 16) (hv : FieldRow.Fits ⟨name, o, w, false⟩ v.toInt ∨ w = 32) :
    Int32.ofInt (v.toUInt32.toUInt16.toNat : Int) = v ∧
      FieldRow.Fits ⟨name, o, w, false⟩ (v.toUInt32.toUInt16.toNat : Int) := by
  have hcast := toNat_toUInt32 v
  have hpow : (2 : Int) ^ w ≤ 2 ^ 16 := pow_le_pow_right₀ (by norm_num) hw
  rcases hv with hfits | h32
  · obtain ⟨hlo, hhi⟩ : 0 ≤ v.toInt ∧ v.toInt < 2 ^ w := hfits
    have hsame : (v.toUInt32.toUInt16.toNat : Int) = v.toInt := by
      rw [UInt32.toNat_toUInt16]
      omega
    rw [hsame]
    exact ⟨Int32.ofInt_toInt v, hlo, hhi⟩
  · omega

/-- A `uint32_t` takes any value, if the row has all of its bits. -/
theorem cast_u32 (hw : w ≤ 32) (hv : FieldRow.Fits ⟨name, o, w, false⟩ v.toInt ∨ w = 32) :
    Int32.ofInt (v.toUInt32.toNat : Int) = v ∧
      FieldRow.Fits ⟨name, o, w, false⟩ (v.toUInt32.toNat : Int) := by
  have hcast := toNat_toUInt32 v
  have hpow : (2 : Int) ^ w ≤ 2 ^ 32 := pow_le_pow_right₀ (by norm_num) hw
  constructor
  · rw [← Int32.toInt_inj, Int32.toInt_ofInt]
    exact (BitVec.toInt_eq_toNat_bmod v.toBitVec).symm
  · show (0 : Int) ≤ v.toUInt32.toNat ∧ (v.toUInt32.toNat : Int) < 2 ^ w
    rcases hv with hfits | h32
    · obtain ⟨hlo, hhi⟩ : 0 ≤ v.toInt ∧ v.toInt < 2 ^ w := hfits
      omega
    · have hlt := v.toUInt32.toNat_lt
      rw [h32]
      omega

/-- And a value that fits a signed row the cast to `int16_t`. -/
theorem cast_s16 (hw : w ≤ 16) (hv : FieldRow.Fits ⟨name, o, w, true⟩ v.toInt ∨ w = 32) :
    Int32.ofInt v.toInt16.toInt = v ∧ FieldRow.Fits ⟨name, o, w, true⟩ v.toInt16.toInt := by
  have hpow : (2 : Int) ^ (w - 1) ≤ 2 ^ 15 := pow_le_pow_right₀ (by norm_num) (by omega)
  rcases hv with hfits | h32
  · obtain ⟨hlo, hhi⟩ : -2 ^ (w - 1) ≤ v.toInt ∧ v.toInt < 2 ^ (w - 1) := hfits
    have hsame : v.toInt16.toInt = v.toInt := by
      rw [Int32.toInt_toInt16]
      exact Int.bmod_eq_of_le_mul_two (by norm_num; omega) (by norm_num; omega)
    rw [hsame]
    exact ⟨Int32.ofInt_toInt v, hlo, hhi⟩
  · omega

/-- The member of a published row takes the values that fit the row. -/
theorem setField_published (hk : kindRow experimentalMajor kind = some k) (hg : g ∈ k.fields)
    (hv : g.Fits v.toInt ∨ g.width = 32) :
    ∃ body z, (saneBody kind).setField g.name v = some body ∧ body.getField g.name = some z ∧
      Int32.ofInt z = v ∧ g.Fits z := by
  cases kind with
  | unassigned c => cases hk
  | _ =>
      cases hk
      simp only [presenceFields, hazardFields, requestFields, authorityFields, degradedFields,
        offerFields, acceptFields, List.mem_cons, List.not_mem_nil, or_false] at hg
      repeat' rcases hg with rfl | hg
      all_goals
        refine ⟨_, _, rfl, rfl, ?_⟩
        first
        | exact cast_u8 (by decide) hv
        | exact cast_u16 (by decide) hv
        | exact cast_u32 (by decide) hv
        | exact cast_s16 (by decide) hv

/-- A probe whose value fits is in range. -/
theorem inRange_setField (hk : kindRow experimentalMajor kind = some k) (hg : g ∈ k.fields)
    (hset : (saneBody kind).setField g.name v = some body) {z : Int}
    (hz : body.getField g.name = some z) (hfits : g.Fits z) :
    (probe body).InRange experimentalMajor := by
  have hpub := published hk
  have hk' := kindRow_probe hk hset
  have hcleared : ∀ f ∈ k.layout, ∀ v, (cleared kind 0).getField k experimentalMajor 0 f.name = some v →
      f.Fits v :=
    (forall_layout_fits (cleared_carried hpub.carried) (by decide) (by rw [kind_cleared, hk])).mpr
      (cleared_inRange 0 hpub.carried)
  refine (forall_layout_fits (e := 0) (published hk').carried (by decide) hk').mp ?_
  intro f hf v' hv'
  rcases List.mem_append.mp hf with hcommon | hfields
  · apply hcleared f hf v'
    rw [← hv']
    simp only [commonFields, List.mem_cons, List.not_mem_nil, or_false] at hcommon
    rcases hcommon with rfl | rfl | rfl | rfl | rfl | rfl <;> rfl
  · rw [getField_published hk hfields] at hv'
    by_cases hname : f.name = g.name
    · have hfg := hpub.names f hfields g hg hname
      subst hfg
      cases hz.symm.trans hv'
      exact hfits
    · apply hcleared f hf v'
      rw [getField_published hk hfields, ← hv']
      exact (getField_setField hset hname).symm

end Setting

/-! ## The end of a field

A row may be too narrow and still pass: if it is the end of a field, its bits are the low bits of the
value, and the value is given back whole. -/

section Tail

variable {kind : Kind} {k : KindRow} {f g : FieldRow} {body : Body} {decoded : Tier0} {s : Out}

/-- The row is the end of a field, and of a signed one not all of it if the row has no sign. -/
def TailOf (f g : FieldRow) : Prop :=
  f.name = g.name ∧ f.offset + f.width = g.offset + g.width ∧
    if f.isSigned then f.width ≤ g.width ∧ (g.isSigned = true ∨ g.width = 32)
    else f.width + (if g.isSigned then 1 else 0) ≤ g.width

instance (f g : FieldRow) : Decidable (TailOf f g) :=
  inferInstanceAs (Decidable (_ ∧ _ ∧ if f.isSigned then f.width ≤ g.width ∧ (g.isSigned = true ∨
    g.width = 32) else f.width + (if g.isSigned then 1 else 0) ≤ g.width))

theorem tailOf_self (f : FieldRow) : TailOf f f := by
  refine ⟨rfl, rfl, ?_⟩
  cases hsigned : f.isSigned with
  | true => simp
  | false => simp

theorem TailOf.width_le (h : TailOf f g) : f.width ≤ g.width := by
  obtain ⟨-, -, hwidth⟩ := h
  split at hwidth
  · exact hwidth.1
  · omega

/-- The bits of the first probe of a signed row. -/
theorem bits_largest (hf : Probed f) (hfsigned : f.isSigned = true) (hg : Probed g)
    (hnarrow : g.isSigned = true → g.width ≤ 16) {z : Int}
    (hz : Int32.ofInt z = probeValue f false) (hfits : g.Fits z) :
    g.bits z = 2 ^ (f.width - 1) - 1 := by
  obtain ⟨hvalue, -⟩ := probe_signed hf hfsigned
  have hcast := BitField.natCast_two_pow (f.width - 1)
  have hpos := Nat.two_pow_pos (f.width - 1)
  unfold Probed at hf
  rw [hfsigned, if_pos rfl] at hf
  unfold FieldRow.Fits at hfits
  unfold FieldRow.bits
  cases hgsigned : g.isSigned with
  | true =>
      rw [hgsigned, if_pos rfl] at hfits
      have hzv := signed_value hz (hnarrow hgsigned) hfits
      have hle : (2 : Int) ^ (g.width - 1) ≤ 2 ^ g.width :=
        pow_le_pow_right₀ (by norm_num) (by omega)
      have hhi := hfits.2
      rw [if_pos rfl, BitField.twos_of_nonneg (by omega) (by omega)]
      omega
  | false =>
      rw [hgsigned, if_neg (by decide)] at hfits
      have hzv := unsigned_value hz hg.bounds.2 hfits.1 hfits.2
      have hle : (2 : Int) ^ (f.width - 1) ≤ 2 ^ 30 := pow_le_pow_right₀ (by norm_num) (by omega)
      rw [hvalue, Int.emod_eq_of_lt (by omega) (by omega)] at hzv
      rw [if_neg (by decide)]
      omega

/-- A probe of the end of a field fits the field. -/
theorem probe_fits (hf : Probed f) (hg : Probed g) (h : TailOf f g) {useMin : Bool}
    (hmin : useMin = true → f.isSigned = true) :
    g.Fits (probeValue f useMin).toInt ∨ g.width = 32 := by
  have hgbounds := hg.bounds
  have hbounds := hf.bounds
  by_cases h32 : g.width = 32
  · exact Or.inr h32
  · left
    obtain ⟨-, -, hwidth⟩ := h
    unfold FieldRow.Fits
    cases hsigned : f.isSigned with
    | true =>
        obtain ⟨hlargest, -, hextreme, -⟩ := probe_signed hf hsigned
        rw [hsigned, if_pos rfl] at hwidth
        obtain ⟨hle, hgsigned | habs⟩ := hwidth
        · have hpos : (1 : Int) ≤ 2 ^ (f.width - 1) := one_le_pow₀ (by norm_num)
          have hpow : (2 : Int) ^ (f.width - 1) ≤ 2 ^ (g.width - 1) :=
            pow_le_pow_right₀ (by norm_num) (by omega)
          rw [if_pos hgsigned]
          show -2 ^ (g.width - 1) ≤ _ ∧ _ < (2 : Int) ^ (g.width - 1)
          cases useMin with
          | true => omega
          | false => omega
        · exact absurd habs h32
    | false =>
        obtain ⟨hvalue, -⟩ := probe_unsigned hf hsigned
        rw [hsigned, if_neg (by decide)] at hwidth
        have hne : f.width ≠ 32 := by omega
        have hones : ones f = 2 ^ f.width - 1 := if_neg hne
        have hpos := Nat.two_pow_pos f.width
        have hcast := BitField.natCast_two_pow f.width
        rw [if_neg hne] at hvalue
        rw [useMin_eq_false hmin hsigned, hvalue, hones]
        split
        · next hgsigned =>
          rw [if_pos hgsigned] at hwidth
          have hpow : (2 : Int) ^ f.width ≤ 2 ^ (g.width - 1) :=
            pow_le_pow_right₀ (by norm_num) (by omega)
          show -2 ^ (g.width - 1) ≤ _ ∧ _ < (2 : Int) ^ (g.width - 1)
          omega
        · next hgsigned =>
          rw [if_neg hgsigned] at hwidth
          have hpow : (2 : Int) ^ f.width ≤ 2 ^ g.width :=
            pow_le_pow_right₀ (by norm_num) (by omega)
          omega

/-- The bits of a probe, cut to the row, are those that the tool expects. -/
theorem bits_mod (hf : Probed f) (hg : Probed g) (hnarrow : g.isSigned = true → g.width ≤ 16)
    {useMin : Bool} (hmin : useMin = true → f.isSigned = true) {z : Int}
    (hz : Int32.ofInt z = probeValue f useMin) (hfits : g.Fits z) :
    g.bits z % 2 ^ f.width = (expectedBits f (probeValue f useMin)).toNat := by
  have hsplit := two_pow_width hf
  have hpos := Nat.two_pow_pos (f.width - 1)
  cases hsigned : f.isSigned with
  | true =>
      obtain ⟨-, hlargest, -, hextreme⟩ := probe_signed hf hsigned
      cases useMin with
      | false =>
          rw [bits_largest hf hsigned hg hnarrow hz hfits, hlargest]
          exact Nat.mod_eq_of_lt (by omega)
      | true =>
          obtain ⟨hbits, hle, -⟩ := bits_extreme hf hsigned hg hnarrow hz hfits
          obtain ⟨a, ha⟩ : 2 ^ f.width ∣ 2 ^ g.width := Nat.pow_dvd_pow 2 hle
          rw [hextreme]
          obtain ⟨a, rfl⟩ : ∃ c, a = c + 1 := by
            refine ⟨a - 1, ?_⟩
            cases a with
            | zero =>
                have := Nat.two_pow_pos g.width
                omega
            | succ a => rfl
          have hsame : g.bits z = a * 2 ^ f.width + 2 ^ (f.width - 1) := by
            rw [Nat.mul_comm, Nat.add_mul] at ha
            omega
          rw [hsame, Nat.mul_add_mod_of_lt (by omega)]
  | false =>
      rw [useMin_eq_false hmin hsigned] at hz ⊢
      obtain ⟨-, hexpected, -, hlt⟩ := probe_unsigned hf hsigned
      rw [(bits_unsigned hf hsigned hg hnarrow hz hfits).1, hexpected, Nat.mod_eq_of_lt hlt]

/-- The end of a field passes. -/
theorem shows_of_tail (hk : kindRow experimentalMajor kind = some k) (hg : g ∈ k.fields)
    (hf : Probed f) (h : TailOf f g) {useMin : Bool} (hmin : useMin = true → f.isSigned = true) :
    ∃ body, Shows kind f (probeValue f useMin) body := by
  have hpub := published hk
  have hgprobed := hpub.contiguous.probed g hg
  obtain ⟨body, z, hset, hz, hvalue, hfits⟩ :=
    setField_published hk hg (probe_fits hf hgprobed h hmin)
  have hr := inRange_setField hk hg hset hz hfits
  have hread := read_published (o := probe body) (kindRow_probe hk hset) hr hg hz
  refine ⟨body, by rw [h.1, hset], hr, ?_, z, by rw [h.1, hz], hvalue⟩
  rw [← UInt32.toNat_inj, readBits_eq _ _ hf.bounds.2, BitField.read_tail _ h.2.1 h.width_le, hread,
    bits_mod hf hgprobed (hpub.narrow g hg) hmin hvalue hfits]

end Tail

/-! ## Nothing but the end of a field

The other direction. A probe that starts from a cleared body has bits in its own field only, so that a
row whose bits show the value has to end where the field ends. -/

section Plain

variable {kind : Kind} {k : KindRow} {f g : FieldRow} {body : Body} {v : Int32}

/-- A member of a body has a row. -/
theorem exists_row (hk : kindRow experimentalMajor body.kind = some k) {name : FieldName} {z : Int}
    (hz : body.getField name = some z) : ∃ g ∈ k.fields, g.name = name := by
  unfold Body.getField at hz
  split at hz
  all_goals
    first
    | cases hz; done
    | cases hk
      decide

/-- The kinds whose probes start from a cleared body. -/
def Plain (kind : Kind) : Prop := kind ≠ .transportOffer ∧ kind ≠ .transportAccept

theorem getField_plain (hplain : Plain kind) (hk : kindRow experimentalMajor kind = some k)
    (hg : g ∈ k.fields) : (saneBody kind).getField g.name = some 0 := by
  have hzero : ∀ g ∈ k.fields, (saneBody kind).getField g.name = some 0 := by
    cases kind with
    | unassigned c => cases hk
    | transportOffer => exact absurd rfl hplain.1
    | transportAccept => exact absurd rfl hplain.2
    | _ =>
        cases hk
        decide
  exact hzero g hg

theorem bits_zero (g : FieldRow) : g.bits 0 = 0 := by
  unfold FieldRow.bits
  split
  · exact BitField.twos_of_nonneg (Int.le_refl 0) (by positivity)
  · rfl

/-- In the image of such a probe only the bits of its field can be set. -/
theorem alone_probe (hplain : Plain kind) (hk : kindRow experimentalMajor kind = some k)
    (hg : g ∈ k.fields) (hset : (saneBody kind).setField g.name v = some body)
    (hr : (probe body).InRange experimentalMajor) {z : Int} (hz : body.getField g.name = some z) :
    BitField.Alone (bitsOf ((probe body).image experimentalMajor 0)) 48 (8 * k.bytes) g.offset
      ⟨g.width, g.bits z⟩ := by
  have hpub := published hk
  have hk' := kindRow_probe hk hset
  have hread := read_published hk' hr hg hz
  refine ⟨?_, hread, ?_⟩
  · show g.bits z < 2 ^ g.width
    rw [← hread]
    exact BitField.read_lt _ _ _
  · intro i hlo hhi hout
    by_cases hend : i < bodyEnd k
    · -- the bit belongs to another field, which is cleared
      obtain ⟨g', hg', hcover⟩ := hpub.contiguous.follows.exists_cover hlo hend
      have hne : g'.name ≠ g.name := by
        intro hname
        rw [hpub.names g' hg' g hg hname] at hcover
        exact hout hcover
      have hzero := getField_plain hplain hk hg'
      rw [← getField_setField hset hne] at hzero
      rw [bit_published hk' hr hg' hzero hcover, bits_zero, Nat.zero_testBit]
    · exact bit_padding hk' hr (by omega) hhi

/-- Where the bits of a probe show, there its field ends. -/
theorem Shows.aligned (hplain : Plain kind) (hk : kindRow experimentalMajor kind = some k)
    (hg : g ∈ k.fields) (hname : f.name = g.name) (hw : f.width ≤ 32) (hlo : 48 ≤ f.offset)
    (hhi : f.offset + f.width ≤ 8 * k.bytes) (h : Shows kind f v body) {z : Int}
    (hz : body.getField g.name = some z) (hsame : g.bits z = (expectedBits f v).toNat)
    (hpos : 0 < g.bits z) (hlt : g.bits z < 2 ^ f.width) :
    f.offset + f.width = g.offset + g.width := by
  have halone := alone_probe hplain hk hg (by rw [← hname]; exact h.set) h.inRange hz
  apply (halone.read_value_iff hlo hhi hpos hlt).mp
  show _ = g.bits z
  rw [hsame, ← h.bits, readBits_eq _ _ hw]

/-- A row that passes is the end of a field. -/
theorem tail_of_shows (hplain : Plain kind) (hk : kindRow experimentalMajor kind = some k)
    (hf : Probed f) (hlo : 48 ≤ f.offset) (hhi : f.offset + f.width ≤ 8 * k.bytes)
    (h : ∀ useMin, (useMin = true → f.isSigned = true) →
      ∃ body, Shows kind f (probeValue f useMin) body) : ∃ g ∈ k.fields, TailOf f g := by
  have hpub := published hk
  have hbounds := hf.bounds
  obtain ⟨body, hshows⟩ := h false (fun habs => absurd habs (by decide))
  obtain ⟨z, hz, hvalue⟩ := hshows.value
  have hk' := kindRow_probe hk hshows.set
  obtain ⟨g, hg, hname⟩ := exists_row hk' hz
  rw [← hname] at hz
  have hgprobed := hpub.contiguous.probed g hg
  have hnarrow := hpub.narrow g hg
  have hfits := fits_published hk' hg hshows.inRange hz
  refine ⟨g, hg, hname.symm, ?_⟩
  cases hsigned : f.isSigned with
  | true =>
      obtain ⟨-, hlargest, -⟩ := probe_signed hf hsigned
      have hbits := bits_largest hf hsigned hgprobed hnarrow hvalue hfits
      -- the second probe says what the first one does not: that the field has the sign
      obtain ⟨body', hshows'⟩ := h true (fun _ => hsigned)
      obtain ⟨z', hz', hvalue'⟩ := hshows'.value
      have hk'' := kindRow_probe hk hshows'.set
      rw [← hname] at hz'
      have hextreme := bits_extreme hf hsigned hgprobed hnarrow hvalue'
        (fits_published hk'' hg hshows'.inRange hz')
      have hpow := two_pow_width hf
      have htwo : 2 ^ 1 ≤ 2 ^ (f.width - 1) := by
        unfold Probed at hf
        rw [hsigned, if_pos rfl] at hf
        exact Nat.pow_le_pow_right (by omega) (by omega)
      refine ⟨?_, ?_⟩
      · apply hshows.aligned hplain hk hg hname.symm hbounds.2 hlo hhi hz (by rw [hbits, hlargest])
        · omega
        · omega
      · rw [if_pos rfl]
        exact hextreme.2
  | false =>
      obtain ⟨-, hexpected, hle, hlt⟩ := probe_unsigned hf hsigned
      obtain ⟨hbits, hwidth⟩ := bits_unsigned hf hsigned hgprobed hnarrow hvalue hfits
      have hpos := Nat.two_pow_pos (f.width - 1)
      refine ⟨?_, ?_⟩
      · apply hshows.aligned hplain hk hg hname.symm hbounds.2 hlo hhi hz (by rw [hbits, hexpected])
        · omega
        · omega
      · rw [if_neg (by decide)]
        exact hwidth

end Plain

/-- What `check_kind` sees of a row. Of a kind whose probes start from a cleared body it accepts, for
whatever stands in `buffer` and `decoded`, the ends of the fields: the offset of a row may be wrong, if
the width is wrong by the same number of bits. -/
theorem row_accepted_iff (decoded : Tier0) (kind : Kind) (k : KindRow) (f : FieldRow) (s : Out)
    (hplain : Plain kind) (hk : kindRow experimentalMajor kind = some k) (hf : Probed f)
    (hlo : 48 ≤ f.offset) (hhi : f.offset + f.width ≤ 8 * k.bytes) :
    ((checkRow decoded kind k f).run s).1 = [] ↔ ∃ g ∈ k.fields, TailOf f g := by
  have hpub := published hk
  rw [checkRow_iff hpub.carried hpub.bytes.symm hf.bounds.2 hhi]
  constructor
  · exact tail_of_shows hplain hk hf hlo hhi
  · rintro ⟨g, hg, htail⟩ useMin hmin
    exact shows_of_tail hk hg hf htail hmin

theorem row_accepted_iff_narrow :
    ((checkRow nearHazard .hazard ⟨3, 1, 15, 2, hazardFields⟩ ⟨.y, 80, 10, true⟩).run
      ⟨fun _ => 0xff, 0⟩).1 = [] ∧
    ((checkRow nearHazard .hazard ⟨3, 1, 15, 2, hazardFields⟩ ⟨.y, 78, 10, true⟩).run
      ⟨fun _ => 0xff, 0⟩).1 ≠ [] := by
  constructor
  · rw [row_accepted_iff nearHazard .hazard _ _ _ ⟨by decide, by decide⟩ rfl (by decide) (by decide)
      (by decide)]
    decide
  · rw [Ne, row_accepted_iff nearHazard .hazard _ _ _ ⟨by decide, by decide⟩ rfl (by decide)
      (by decide) (by decide)]
    decide

end LayoutTool

end MclWire
