import MclWire.Tier0.Reading

/-!
# The published bit layout

The tables of `spec/tier0-layout-v0.2.md`, typed from the document as the layout tool types them,
and the tool's accessor `read_bits`, which knows nothing of a reader's position: it takes absolute
bit offsets.

* `readBits_eq` — the accessor reads the bit-field library's fields.
* `layout_cells` — each row of the table is one write of the encoder, at the offset the writer's
  position has reached by then.
* `layout_agrees` — the encoder puts every field where the table says, and the decoder takes it
  from there.
-/

namespace MclWire

open BitField (Field Holds)

/-! ## The tables -/

/-- The fields the document names. -/
inductive FieldName where
  | majorVersion | category | opcode | priority | extensionPresent | sourceRef
  | machineClass | capabilityTag | ttl
  | hazardClass | severity | confidence | x | y | z | radius
  | requestClass | targetRef
  | authorityClass | jurisdiction | credentialRef | validity
  | affectedCapability | health
  | migrationRef | transportId | profileId | endpointToken | sessionRef
  deriving DecidableEq, Repr

/-- `field_row_t` -/
structure FieldRow where
  name : FieldName
  offset : Nat
  width : Nat
  isSigned : Bool := false
  deriving DecidableEq, Repr

/-- `kind_row_t` -/
structure KindRow where
  category : UInt8
  opcode : UInt8
  bytes : Nat
  padBits : Nat
  fields : List FieldRow
  deriving DecidableEq, Repr

/-- The common header and `source_ref`, in front of every body. -/
def commonFields : List FieldRow :=
  [⟨.majorVersion, 0, 4, false⟩, ⟨.category, 4, 4, false⟩, ⟨.opcode, 8, 5, false⟩,
    ⟨.priority, 13, 2, false⟩, ⟨.extensionPresent, 15, 1, false⟩, ⟨.sourceRef, 16, 32, false⟩]

/-- Section 4.1, major 0. -/
def presenceFields : List FieldRow :=
  [⟨.machineClass, 48, 8, false⟩, ⟨.capabilityTag, 56, 24, false⟩, ⟨.ttl, 80, 8, false⟩]

/-- Section 4.1, major 1. -/
def stablePresenceFields : List FieldRow :=
  [⟨.capabilityTag, 48, 24, false⟩, ⟨.ttl, 72, 8, false⟩]

/-- Section 4.2. -/
def hazardFields : List FieldRow :=
  [⟨.hazardClass, 48, 8, false⟩, ⟨.severity, 56, 3, false⟩, ⟨.confidence, 59, 7, false⟩,
    ⟨.x, 66, 12, true⟩, ⟨.y, 78, 12, true⟩, ⟨.z, 90, 10, true⟩, ⟨.radius, 100, 10, false⟩,
    ⟨.ttl, 110, 8, false⟩]

/-- Section 4.3. -/
def requestFields : List FieldRow :=
  [⟨.requestClass, 48, 8, false⟩, ⟨.targetRef, 56, 32, false⟩, ⟨.x, 88, 12, true⟩,
    ⟨.y, 100, 12, true⟩, ⟨.radius, 112, 10, false⟩, ⟨.ttl, 122, 8, false⟩]

/-- Section 4.4. -/
def authorityFields : List FieldRow :=
  [⟨.authorityClass, 48, 6, false⟩, ⟨.jurisdiction, 54, 12, false⟩, ⟨.credentialRef, 66, 32, false⟩,
    ⟨.validity, 98, 8, false⟩]

/-- Section 4.5. -/
def degradedFields : List FieldRow :=
  [⟨.affectedCapability, 48, 8, false⟩, ⟨.health, 56, 7, false⟩, ⟨.severity, 63, 3, false⟩,
    ⟨.ttl, 66, 8, false⟩]

/-- Section 4.6. -/
def offerFields : List FieldRow :=
  [⟨.migrationRef, 48, 32, false⟩, ⟨.transportId, 80, 8, false⟩, ⟨.profileId, 88, 8, false⟩,
    ⟨.endpointToken, 96, 32, false⟩, ⟨.validity, 128, 8, false⟩]

/-- Section 4.7. -/
def acceptFields : List FieldRow :=
  [⟨.migrationRef, 48, 32, false⟩, ⟨.transportId, 80, 8, false⟩, ⟨.profileId, 88, 8, false⟩,
    ⟨.sessionRef, 96, 32, false⟩]

/-- The row of a kind at a major, where the document has one. -/
def kindRow (major : UInt8) : Kind → Option KindRow
  | .presence =>
      if major = 0 then some ⟨0, 0, 11, 0, presenceFields⟩
      else if major = 1 then some ⟨0, 0, 10, 0, stablePresenceFields⟩
      else none
  | .hazard         => if major = 0 then some ⟨3, 1, 15, 2, hazardFields⟩ else none
  | .request        => if major = 0 then some ⟨5, 1, 17, 6, requestFields⟩ else none
  | .authorityClaim => if major = 0 then some ⟨1, 1, 14, 6, authorityFields⟩ else none
  | .degradedState  => if major = 0 then some ⟨6, 1, 10, 6, degradedFields⟩ else none
  | .transportOffer =>
      if major = 0 ∨ major = 1 then some ⟨8, 0, 17, 0, offerFields⟩ else none
  | .transportAccept =>
      if major = 0 ∨ major = 1 then some ⟨8, 1, 16, 0, acceptFields⟩ else none
  | .unassigned _ => none

/-- All fields of a row, in the order they stand in. -/
def KindRow.layout (row : KindRow) : List FieldRow := commonFields ++ row.fields

/-! ## Access by name and by offset -/

/-- `read_bits`: `width` bits at an absolute offset, most significant first. -/
def readBits (data : List UInt8) (offset width : Nat) : UInt32 :=
  (List.range width).foldl (fun value i =>
    let bit := offset + i
    let byte := data.getD (bit >>> 3) 0
    let shift := 7 - (bit &&& 7)
    (value <<< 1) ||| ((byte >>> UInt8.ofNat shift) &&& 1).toUInt32) 0

/-- `get_field`: the member of the active body under a name. -/
def Body.getField : Body → FieldName → Option Int
  | .presence b, .machineClass            => some b.machineClass.toNat
  | .presence b, .capabilityTag           => some b.capabilityTag.toNat
  | .presence b, .ttl                     => some b.ttl.toNat
  | .hazard b, .hazardClass               => some b.hazardClass.toNat
  | .hazard b, .severity                  => some b.severity.toNat
  | .hazard b, .confidence                => some b.confidence.toNat
  | .hazard b, .x                         => some b.x.toInt
  | .hazard b, .y                         => some b.y.toInt
  | .hazard b, .z                         => some b.z.toInt
  | .hazard b, .radius                    => some b.radius.toNat
  | .hazard b, .ttl                       => some b.ttl.toNat
  | .request b, .requestClass             => some b.requestClass.toNat
  | .request b, .targetRef                => some b.targetRef.toNat
  | .request b, .x                        => some b.x.toInt
  | .request b, .y                        => some b.y.toInt
  | .request b, .radius                   => some b.radius.toNat
  | .request b, .ttl                      => some b.ttl.toNat
  | .authorityClaim b, .authorityClass    => some b.authorityClass.toNat
  | .authorityClaim b, .jurisdiction      => some b.jurisdiction.toNat
  | .authorityClaim b, .credentialRef     => some b.credentialRef.toNat
  | .authorityClaim b, .validity          => some b.validity.toNat
  | .degradedState b, .affectedCapability => some b.affectedCapability.toNat
  | .degradedState b, .health             => some b.health.toNat
  | .degradedState b, .severity           => some b.severity.toNat
  | .degradedState b, .ttl                => some b.ttl.toNat
  | .transportOffer b, .migrationRef      => some b.migrationRef.toNat
  | .transportOffer b, .transportId       => some b.transportId.toNat
  | .transportOffer b, .profileId         => some b.profileId.toNat
  | .transportOffer b, .endpointToken     => some b.endpointToken.toNat
  | .transportOffer b, .validity          => some b.validity.toNat
  | .transportAccept b, .migrationRef     => some b.migrationRef.toNat
  | .transportAccept b, .transportId      => some b.transportId.toNat
  | .transportAccept b, .profileId        => some b.profileId.toNat
  | .transportAccept b, .sessionRef       => some b.sessionRef.toNat
  | _, _                                  => none

/-- The value of any field of an object encoded at a major; category and opcode are the table's. -/
def Tier0.getField (row : KindRow) (major e : UInt8) (o : Tier0) : FieldName → Option Int
  | .majorVersion     => some major.toNat
  | .category         => some row.category.toNat
  | .opcode           => some row.opcode.toNat
  | .priority         => some o.priority.toNat
  | .extensionPresent => some e.toNat
  | .sourceRef        => some o.sourceRef.toNat
  | name              => o.body.getField name

/-- The values a row can represent. -/
def FieldRow.Fits (row : FieldRow) (v : Int) : Prop :=
  if row.isSigned then BitField.SignedFits row.width v else 0 ≤ v ∧ v < 2 ^ row.width

/-- The bits of a value: two's complement for a signed row. -/
def FieldRow.bits (row : FieldRow) (v : Int) : Nat :=
  if row.isSigned then BitField.twos row.width v else v.toNat

/-- The value a buffer has in a row, sign-extended for a signed one. -/
def FieldRow.valueIn (row : FieldRow) (data : List UInt8) : Int :=
  if row.isSigned then BitField.signed row.width (readBits data row.offset row.width).toNat
  else (readBits data row.offset row.width).toNat

/-- A bit that belongs to a row. -/
def FieldRow.Covers (row : FieldRow) (bit : Nat) : Prop :=
  row.offset ≤ bit ∧ bit < row.offset + row.width

/-- In range, as the table puts it and without a word of the encoder: the priority has two bits, and
every field that the table lists for the kind at the major is a member of the body whose value the
field can represent. -/
def Tier0.FitsLayout (major : UInt8) (o : Tier0) : Prop :=
  o.priority ≤ 3 ∧ ∃ row, kindRow major o.kind = some row ∧
    ∀ f ∈ row.fields, ∃ v, o.body.getField f.name = some v ∧ f.Fits v

/-- Out of range, as the table puts it: three bits of priority, or a tabulated field whose value the
field cannot represent. -/
def Tier0.ExceedsLayout (major : UInt8) (o : Tier0) : Prop :=
  3 < o.priority ∨ ∃ row, kindRow major o.kind = some row ∧
    ∃ f ∈ row.fields, ∃ v, o.body.getField f.name = some v ∧ ¬ f.Fits v

/-! ## Rows and writes

The table is a list of offsets and widths, and the code is a row of writes, each behind the one before.
A cell is what the two have in common. That they agree is checked kind by kind (`layout_cells`), and it
is the only place where they are compared. -/

/-- The accessor reads the fields of the bit-field library. -/
theorem readBits_eq (data : List UInt8) (offset : Nat) {width : Nat} (hw : width ≤ 32) :
    (readBits data offset width).toNat = BitField.read (bitsOf data) offset width := by
  induction width with
  | zero => rfl
  | succ w ih =>
      have hprev := ih (by omega)
      have hlt := BitField.read_lt (bitsOf data) offset w
      have hle : 2 ^ w ≤ 2 ^ 31 := Nat.pow_le_pow_right (by omega) (by omega)
      have hbit : ((data.getD ((offset + w) >>> 3) 0 >>> UInt8.ofNat (7 - ((offset + w) &&& 7))) &&&
          1).toNat = (bitsOf data (offset + w)).toNat := by
        rw [position_shiftRight, position_and, bitsOf, BitField.byteBits, UInt8.toNat_and,
          UInt8.toNat_shiftRight, UInt8.toNat_ofNat',
          Nat.mod_eq_of_lt (show 7 - (offset + w) % 8 < 2 ^ 8 by omega),
          Nat.mod_eq_of_lt (show 7 - (offset + w) % 8 < 8 by omega), UInt8.toNat_one,
          Nat.and_one_is_mod, Nat.shiftRight_eq_div_pow, ← Nat.toNat_testBit]
      have hb := Bool.toNat_le (bitsOf data (offset + w))
      rw [readBits, List.range_succ, List.foldl_append, ← readBits, List.foldl_cons, List.foldl_nil]
      simp only []
      rw [toNat_shiftLeft_or_bit (by omega) (by omega), hprev, hbit, BitField.read_succ]

/-- Signedness and value of a write. -/
def WriteField.isSigned : WriteField → Bool
  | .u _ _ => false
  | .s _ _ => true

def WriteField.value : WriteField → Int
  | .u value _ => value.toNat
  | .s value _ => value.toInt

/-- A row of the table with the value an object has in it. -/
structure Cell where
  offset : Nat
  width : Nat
  isSigned : Bool
  value : Option Int
  deriving DecidableEq

/-- The cells a row of writes fills, from an offset on. -/
def cells : Nat → List WriteField → List Cell
  | _, []        => []
  | off, x :: xs =>
      ⟨off, x.field.width, x.isSigned, some x.value⟩ :: cells (off + x.field.width) xs

/-- A row of the table as a cell. -/
def FieldRow.cell (value : FieldName → Option Int) (row : FieldRow) : Cell :=
  ⟨row.offset, row.width, row.isSigned, value row.name⟩

/-- The whole object as a row of writes, the header included. -/
def Tier0.row (major e : UInt8) (o : Tier0) : List WriteField :=
  [.u major.toUInt32 4, .u (kindToCode o.kind).1.toUInt32 4, .u (kindToCode o.kind).2.toUInt32 5,
    .u o.priority.toUInt32 2, .u e.toUInt32 1, .u o.sourceRef 32] ++ bodyWrites major o.body

/-- The table and the code agree on where every field stands and what value it has. -/
theorem layout_cells {major e : UInt8} {o : Tier0} (h : kindAllowedAtMajor major o.kind = true) :
    ∃ row, kindRow major o.kind = some row ∧ row.bytes = o.size major ∧
      8 * row.bytes - row.padBits = 48 + bodyWidth major o.kind ∧
      row.layout.map (FieldRow.cell (o.getField row major e)) = cells 0 (o.row major e) := by
  obtain ⟨hmajor, hkind⟩ := carried_cases h
  cases o with
  | mk priority sourceRef body =>
      cases body with
      | unassigned c => exact absurd rfl (hkind c)
      | _ =>
          simp only [Tier0.kind, Body.kind] at h
          rcases hmajor with rfl | rfl <;>
            first
            | exact absurd h (by decide)
            | exact ⟨_, rfl, rfl, rfl, rfl⟩
            | exact ⟨_, rfl, rfl, rfl, by
                simp only [KindRow.layout, commonFields, hazardFields, requestFields, List.cons_append,
                  List.nil_append, List.map_cons, List.map_nil, FieldRow.cell, Tier0.getField,
                  Body.getField, ← Int16.toInt_toInt32]
                rfl⟩

/-- The rows of the body alone are the writes of the body encoder, which start behind the header
and `source_ref`. -/
theorem body_cells {major : UInt8} {o : Tier0} (h : kindAllowedAtMajor major o.kind = true) :
    ∃ row, kindRow major o.kind = some row ∧
      row.fields.map (FieldRow.cell o.body.getField) = cells 48 (bodyWrites major o.body) := by
  obtain ⟨hmajor, hkind⟩ := carried_cases h
  cases o with
  | mk priority sourceRef body =>
      cases body with
      | unassigned c => exact absurd rfl (hkind c)
      | _ =>
          simp only [Tier0.kind, Body.kind] at h
          rcases hmajor with rfl | rfl <;>
            first
            | exact absurd h (by decide)
            | exact ⟨_, rfl, rfl⟩
            | exact ⟨_, rfl, by
                simp only [hazardFields, requestFields, List.map_cons, List.map_nil, FieldRow.cell,
                  Body.getField, ← Int16.toInt_toInt32]
                rfl⟩

/-- The document has a row for a kind at a major exactly where the guard of the encoders lets the
kind through. -/
theorem kindRow_isSome_iff {major : UInt8} {kind : Kind} :
    (∃ row, kindRow major kind = some row) ↔ kindAllowedAtMajor major kind = true := by
  constructor
  · rintro ⟨row, hrow⟩
    by_cases hmajor : major = 0 ∨ major = 1
    · rcases hmajor with rfl | rfl <;> cases kind <;> first | rfl | cases hrow
    · rw [not_or] at hmajor
      cases kind <;> simp [kindRow, hmajor] at hrow
  · intro h
    obtain ⟨hmajor, hkind⟩ := carried_cases h
    cases kind with
    | unassigned c => exact absurd rfl (hkind c)
    | _ => rcases hmajor with rfl | rfl <;> first | exact ⟨_, rfl⟩ | exact absurd h (by decide)

/-! ## What a cell says about the bits

A row of writes that stands in a buffer fills its cells. The induction is on the row, and its offset is
carried along. -/

/-- The value fits the cell. -/
def Cell.Fits (c : Cell) : Prop := ∀ v, c.value = some v →
  if c.isSigned then BitField.SignedFits c.width v else 0 ≤ v ∧ v < 2 ^ c.width

/-- The cell's bits are those of its value. -/
def Cell.Written (data : List UInt8) (c : Cell) : Prop := ∃ v, c.value = some v ∧
  (readBits data c.offset c.width).toNat = if c.isSigned then BitField.twos c.width v else v.toNat

/-- The cell's value is the one its bits spell. -/
def Cell.Read (data : List UInt8) (c : Cell) : Prop := c.value = some
  (if c.isSigned then BitField.signed c.width (readBits data c.offset c.width).toNat
  else (readBits data c.offset c.width).toNat)

theorem forall_cells_fits (off : Nat) (xs : List WriteField) :
    (∀ c ∈ cells off xs, c.Fits) ↔ ∀ x ∈ xs, x.InRange := by
  induction xs generalizing off with
  | nil => simp [cells]
  | cons x xs ih =>
      rw [cells, List.forall_mem_cons, List.forall_mem_cons, ih]
      refine and_congr ?_ Iff.rfl
      cases x with
      | u value width =>
          have hcast : ((2 ^ width : Nat) : Int) = 2 ^ width := by push_cast; rfl
          simp only [Cell.Fits, WriteField.isSigned, WriteField.value, WriteField.field,
            WriteField.InRange, Option.some.injEq, forall_eq', Bool.false_eq_true, if_false, ← hcast]
          omega
      | s value width =>
          simp only [Cell.Fits, WriteField.isSigned, WriteField.value, WriteField.field,
            WriteField.InRange, Option.some.injEq, forall_eq', if_true]

/-- A row of writes that stands in a buffer fills its cells, and is read back from them. -/
theorem forall_cells_of_carriesAll {data : List UInt8} {off : Nat} {xs : List WriteField}
    (hwide : ∀ x ∈ xs, x.Wide) (h : CarriesAll (bitsOf data) off xs) :
    ∀ c ∈ cells off xs, c.Written data ∧ c.Read data := by
  induction xs generalizing off with
  | nil => simp [cells]
  | cons x xs ih =>
      rw [cells, List.forall_mem_cons]
      refine ⟨?_, ih (fun y hy => hwide y (by simp [hy])) h.2⟩
      obtain ⟨hrange, hread⟩ := h.1
      have hx := hwide x (by simp)
      cases x with
      | u value width =>
          simp only [WriteField.field] at hread
          simp [Cell.Written, Cell.Read, WriteField.isSigned, WriteField.value, WriteField.field,
            readBits_eq data off hx, hread]
      | s value width =>
          simp only [WriteField.field] at hread
          simp [Cell.Written, Cell.Read, WriteField.isSigned, WriteField.value, WriteField.field,
            readBits_eq data off (Nat.le_of_lt hx.2), hread,
            BitField.signed_twos hx.1 hrange]

/-- Cells leave no gap: a bit that none of them covers lies in front of the row or behind it. -/
theorem outside_of_uncovered {off i : Nat} {xs : List WriteField}
    (h : ∀ c ∈ cells off xs, ¬ (c.offset ≤ i ∧ i < c.offset + c.width)) :
    i < off ∨ off + BitField.span (xs.map WriteField.field) ≤ i := by
  induction xs generalizing off with
  | nil =>
      rw [List.map_nil, BitField.span_nil]
      omega
  | cons x xs ih =>
      rw [cells, List.forall_mem_cons] at h
      obtain ⟨hhead, htail⟩ := h
      have := ih htail
      rw [List.map_cons, BitField.span_cons]
      simp only at hhead
      omega

/-! ## The whole object

In range, and written: both are said of the table alone here (`FitsLayout`, `readBits`), and connected
to the row of writes by the cells. -/

theorem Tier0.fields_eq (major e : UInt8) (o : Tier0) : o.fields major e =
    (o.row major e).map WriteField.field ++ [⟨padWidth major o.kind, 0⟩] := by
  rw [Tier0.row, List.map_append, List.append_assoc]
  rfl

theorem Tier0.row_wide (major e : UInt8) (o : Tier0) : ∀ x ∈ o.row major e, x.Wide := by
  intro x hx
  rcases List.mem_append.mp hx with hx | hx
  · simp only [List.mem_cons, List.not_mem_nil, or_false] at hx
    rcases hx with rfl | rfl | rfl | rfl | rfl | rfl <;> simp [WriteField.Wide]
  · exact bodyWrites_wide major o.body x hx

theorem Tier0.row_inRange {major e : UInt8} {o : Tier0}
    (hc : kindAllowedAtMajor major o.kind = true) (he : e ≤ 1) :
    (∀ x ∈ o.row major e, x.InRange) ↔ o.InRange major := by
  rw [Tier0.row, List.forall_mem_append, Tier0.InRange]
  refine and_congr ?_ Iff.rfl
  simp only [List.forall_mem_cons, List.not_mem_nil, false_implies, implies_true, and_true,
    WriteField.InRange, UInt8.toNat_toUInt32]
  constructor
  · rintro ⟨-, -, -, h, -⟩
    rw [UInt8.le_iff_toNat_le]
    exact Nat.lt_succ_iff.mp h
  · intro hp
    obtain ⟨h₁, h₂, h₃, h₄, h₅⟩ := o.header_inRange hc hp he
    simp only [Tier0.header, UInt8.le_iff_toNat_le, UInt8.reduceToNat] at h₁ h₂ h₃ h₄ h₅
    have := o.sourceRef.toNat_lt
    omega

/-- In range, as the table puts it. -/
theorem forall_layout_fits {major e : UInt8} {o : Tier0} {row : KindRow}
    (hc : kindAllowedAtMajor major o.kind = true) (he : e ≤ 1) (hrow : kindRow major o.kind = some row) :
    (∀ f ∈ row.layout, ∀ v, o.getField row major e f.name = some v → f.Fits v) ↔
      o.InRange major := by
  obtain ⟨row', hrow', -, -, hcells⟩ := layout_cells (e := e) hc
  rw [hrow, Option.some.injEq] at hrow'
  subst hrow'
  have hfits := forall_cells_fits 0 (o.row major e)
  rw [o.row_inRange hc he, ← hcells, List.forall_mem_map] at hfits
  exact hfits

/-- Every write has a value. -/
theorem forall_cells_some (off : Nat) (xs : List WriteField) :
    ∀ c ∈ cells off xs, ∃ v, c.value = some v := by
  induction xs generalizing off with
  | nil => simp [cells]
  | cons x xs ih =>
      rw [cells, List.forall_mem_cons]
      exact ⟨⟨x.value, rfl⟩, ih _⟩

/-- What the table says is in range is what the body encoder can write: the rows of the table are its
writes, at the same widths and with the same values. -/
theorem fitsLayout_iff {major : UInt8} {o : Tier0}
    (hc : kindAllowedAtMajor major o.kind = true) : o.FitsLayout major ↔ o.InRange major := by
  obtain ⟨row, hrow, hcells⟩ := body_cells hc
  have hfits := forall_cells_fits 48 (bodyWrites major o.body)
  have hsome := forall_cells_some 48 (bodyWrites major o.body)
  rw [← hcells, List.forall_mem_map] at hfits hsome
  rw [Tier0.FitsLayout, Tier0.InRange, ← hfits]
  refine and_congr_right fun _ => ?_
  constructor
  · rintro ⟨row', hrow', hall⟩ f hf v hv
    rw [hrow, Option.some.injEq] at hrow'
    subst hrow'
    obtain ⟨w, hw, hfit⟩ := hall f hf
    have hvw : v = w := Option.some.inj (hv.symm.trans hw)
    rw [hvw]
    exact hfit
  · intro hall
    refine ⟨row, hrow, fun f hf => ?_⟩
    obtain ⟨v, hv⟩ := hsome f hf
    exact ⟨v, hv, hall f hf v hv⟩

/-- What is not in range by the table exceeds it somewhere. -/
theorem exceedsLayout_iff {major : UInt8} {o : Tier0}
    (hc : kindAllowedAtMajor major o.kind = true) : o.ExceedsLayout major ↔ ¬ o.FitsLayout major := by
  obtain ⟨row, hrow, hcells⟩ := body_cells hc
  have hsome := forall_cells_some 48 (bodyWrites major o.body)
  rw [← hcells, List.forall_mem_map] at hsome
  rw [Tier0.ExceedsLayout, Tier0.FitsLayout, Classical.not_and_iff_not_or_not, UInt8.not_le, hrow]
  simp only [Option.some.injEq, exists_eq_left', not_forall, not_exists, not_and]
  refine or_congr_right ?_
  constructor
  · rintro ⟨f, hf, v, hv, hno⟩
    refine ⟨f, hf, fun w hw => ?_⟩
    have hvw : v = w := Option.some.inj (hv.symm.trans hw)
    rw [← hvw]
    exact hno
  · rintro ⟨f, hf, hno⟩
    obtain ⟨v, hv⟩ := hsome f hf
    exact ⟨f, hf, v, hv, hno v hv⟩

/-- A buffer that holds an object has every field where the table says, and nothing else. -/
theorem forall_layout {data : List UInt8} {major e : UInt8} {o : Tier0}
    (hc : kindAllowedAtMajor major o.kind = true) (hr : o.InRange major) (he : e ≤ 1)
    (h : Holds (bitsOf data) 0 (o.fields major e)) :
    ∃ row, kindRow major o.kind = some row ∧ row.bytes = o.size major ∧
      (∀ f ∈ row.layout, (∃ v, o.getField row major e f.name = some v ∧
          (readBits data f.offset f.width).toNat = f.bits v) ∧
        o.getField row major e f.name = some (f.valueIn data)) ∧
      ∀ i < 8 * row.bytes, (∀ f ∈ row.layout, ¬ f.Covers i) → bitsOf data i = false := by
  obtain ⟨row, hrow, hbytes, -, hcells⟩ := layout_cells (e := e) hc
  rw [Tier0.fields_eq, BitField.holds_append, Nat.zero_add, BitField.holds_cons] at h
  obtain ⟨hholds, hpad, -⟩ := h
  have hall := forall_cells_of_carriesAll (o.row_wide major e)
    (carriesAll_iff.mpr ⟨(o.row_inRange hc he).mpr hr, hholds⟩)
  refine ⟨row, hrow, hbytes, ?_, ?_⟩
  · rw [← hcells, List.forall_mem_map] at hall
    exact hall
  · intro i hi hcover
    have hout : ∀ c ∈ cells 0 (o.row major e), ¬ (c.offset ≤ i ∧ i < c.offset + c.width) := by
      rw [← hcells, List.forall_mem_map]
      exact hcover
    have hle := outside_of_uncovered hout
    have hspan := o.span_fields (e := e) hc
    rw [Tier0.fields_eq, BitField.span_append, BitField.span_cons, BitField.span_nil] at hspan
    have hbit := (BitField.read_eq_iff (Nat.two_pow_pos _)).mp hpad
      (i - BitField.span ((o.row major e).map WriteField.field)) (by simp only at hspan ⊢; omega)
    rw [Nat.zero_testBit, Nat.add_sub_cancel' (by omega)] at hbit
    exact hbit

/-- The codec agrees with the published layout in both directions. The encoder turns every object a
major carries, whose values fit the rows of the table, into the table's number of bytes, with every
value at its tabulated offset and every other bit clear. Of a buffer the decoder accepts, every
field of the object it returns is the value at the tabulated offset, and every other bit is
clear. The table has a row for exactly the kinds a major carries. -/
theorem layout_agrees :
    (∀ (major : UInt8) (o : Tier0) (out cap : Nat) (s : Out),
      kindAllowedAtMajor major o.kind = true →
      (∀ row, kindRow major o.kind = some row →
        ∀ f ∈ row.layout, ∀ v, o.getField row major 0 f.name = some v → f.Fits v) →
      tier0EncodedSizeAtMajor major o.kind ≤ cap →
      ∃ row s', kindRow major o.kind = some row ∧
        (tier0EncodeAtMajor major o out cap).run s = .ok () s' ∧ s'.written = row.bytes ∧
        (∀ f ∈ row.layout, ∃ v, o.getField row major 0 f.name = some v ∧
          (readBits (s'.mem.bytes out s'.written) f.offset f.width).toNat = f.bits v) ∧
        ∀ i < 8 * s'.written, (∀ f ∈ row.layout, ¬ f.Covers i) →
          readBits (s'.mem.bytes out s'.written) i 1 = 0) ∧
    (∀ (data : List UInt8) (s s' : DecodeOut), (tier0DecodeBody data).run s = .ok () s' →
      ∃ major e row, kindRow major s'.object.kind = some row ∧ s'.consumed = row.bytes ∧
        row.bytes ≤ data.length ∧
        (∀ f ∈ row.layout, s'.object.getField row major e f.name = some (f.valueIn data)) ∧
        ∀ i < 8 * row.bytes, (∀ f ∈ row.layout, ¬ f.Covers i) → readBits data i 1 = 0) ∧
    ∀ (major : UInt8) (kind : Kind),
      (∃ row, kindRow major kind = some row) ↔ kindAllowedAtMajor major kind = true := by
  have hclear : ∀ {data : List UInt8} {i : Nat}, bitsOf data i = false → readBits data i 1 = 0 := by
    intro data i h
    rw [← UInt32.toNat_inj, readBits_eq _ _ (by omega), BitField.read_succ, Nat.add_zero, h]
    rfl
  refine ⟨?_, ?_, fun major kind => kindRow_isSome_iff⟩
  · intro major o out cap s hc hfits hcap
    obtain ⟨row, hrow, -⟩ := layout_cells (e := 0) hc
    have hr := (forall_layout_fits hc (by decide) hrow).mp (hfits row hrow)
    obtain ⟨m, hrun, hbytes, -⟩ := tier0EncodeAtMajor_ok hc hcap hr out s
    have hholds := ((Tier0.image_prefix_iff (e := 0) hc hr (by decide)).mp (List.prefix_refl _)).2
    obtain ⟨row', hrow', hsize, hfields, hzero⟩ := forall_layout hc hr (by decide) hholds
    rw [hrow, Option.some.injEq] at hrow'
    subst hrow'
    refine ⟨row, _, hrow, hrun, hsize.symm, ?_, ?_⟩
    · simp only [hbytes]
      exact fun f hf => (hfields f hf).1
    · simp only [hbytes]
      exact fun i hi hcover => hclear (hzero i (by omega) hcover)
  · intro data s s' hrun
    obtain ⟨major, e, hpresents, hconsumed⟩ := tier0DecodeBody_eq_ok.mp hrun
    obtain ⟨row, hrow, hsize, hfields, hzero⟩ :=
      forall_layout hpresents.carried hpresents.inRange hpresents.ext_le hpresents.holds
    have hlen := hpresents.length
    exact ⟨major, e, row, hrow, by omega, by omega, fun f hf => (hfields f hf).2,
      fun i hi hcover => hclear (hzero i hi hcover)⟩

/-- A hazard with its extreme coordinates. -/
def nearHazard : Tier0 :=
  ⟨3, 0xdeadbeef, .hazard ⟨7, 5, 100, -2048, 2047, -512, 1023, 200⟩⟩

/-- The layout of that hazard, and of a major-1 presence with a byte behind it. -/
theorem layout_agrees_nearHazard :
    (∃ row s', kindRow 0 nearHazard.kind = some row ∧
      (tier0EncodeAtMajor 0 nearHazard 4 15).run ⟨fun _ => 0xff, 0⟩ = .ok () s' ∧
      s'.written = row.bytes ∧
      (∀ f ∈ row.layout, ∃ v, nearHazard.getField row 0 0 f.name = some v ∧
        (readBits (s'.mem.bytes 4 s'.written) f.offset f.width).toNat = f.bits v) ∧
      ∀ i < 8 * s'.written, (∀ f ∈ row.layout, ¬ f.Covers i) →
        readBits (s'.mem.bytes 4 s'.written) i 1 = 0) ∧
    (tier0DecodeBody [0x10, 4, 0xde, 0xad, 0xbe, 0xef, 0x12, 0x34, 0x56, 60, 0xff]).run
        ⟨⟨0, 0, .hazard {}⟩, 0⟩ =
      .ok () ⟨⟨2, 0xdeadbeef, .presence ⟨0, 0x123456, 60⟩⟩, 10⟩ ∧
    ∃ major e row, kindRow major .presence = some row ∧ 10 = row.bytes ∧ row.bytes ≤ 11 ∧
      (∀ f ∈ row.layout,
        (Tier0.mk 2 0xdeadbeef (.presence ⟨0, 0x123456, 60⟩)).getField row major e f.name =
          some (f.valueIn [0x10, 4, 0xde, 0xad, 0xbe, 0xef, 0x12, 0x34, 0x56, 60, 0xff])) ∧
      ∀ i < 8 * row.bytes, (∀ f ∈ row.layout, ¬ f.Covers i) →
        readBits [0x10, 4, 0xde, 0xad, 0xbe, 0xef, 0x12, 0x34, 0x56, 60, 0xff] i 1 = 0 := by
  have hdecode : (tier0DecodeBody [0x10, 4, 0xde, 0xad, 0xbe, 0xef, 0x12, 0x34, 0x56, 60, 0xff]).run
      ⟨⟨0, 0, .hazard {}⟩, 0⟩ = .ok () ⟨⟨2, 0xdeadbeef, .presence ⟨0, 0x123456, 60⟩⟩, 10⟩ := by
    decide +kernel
  refine ⟨?_, hdecode, layout_agrees.2.1 _ _ _ hdecode⟩
  refine layout_agrees.1 0 nearHazard 4 15 ⟨fun _ => 0xff, 0⟩ rfl ?_ (by decide)
  intro row hrow f hf v hv
  cases hrow
  simp only [KindRow.layout, commonFields, hazardFields, List.cons_append, List.nil_append,
    List.mem_cons, List.not_mem_nil, or_false] at hf
  rcases hf with rfl | rfl | rfl | rfl | rfl | rfl | rfl | rfl | rfl | rfl | rfl | rfl | rfl | rfl <;>
    cases hv <;> simp only [FieldRow.Fits, BitField.SignedFits] <;> decide

end MclWire
