import MclWire.SelfDelimiting
import MclWire.Extension.Uvarint

/-!
# Extensions, and the grammar of a block

`mcl_wire_extension_t` is an id, a critical flag and a value. A caller of the encoder owns the
memory its value pointer points to (`CallerValue`); the reader hands out a piece of the block
(`Slice`); what both mean is the bytes.

A block is a row of TLVs with strictly increasing ids. `Tlv` is an extension that can stand in one,
and `tlvCode` is the row as a self-delimiting code: the state is the id of the TLV before.
-/

namespace MclWire

open SelfDelimiting (Code)

/-! ## Data -/

/-- `mcl_wire_extension_t`; `ν` stands for `value` and `value_size`. -/
structure Extension (ν : Type) where
  id : UInt32
  critical : UInt8
  value : ν
  deriving DecidableEq, Repr

/-- The same extension with its value seen another way. -/
def Extension.map {ν μ : Type} (f : ν → μ) (x : Extension ν) : Extension μ :=
  ⟨x.id, x.critical, f x.value⟩

/-- A value pointer and size of a caller of the encoder. -/
inductive CallerValue where
  | null (size : Nat)
  | bytes (content : List UInt8)
  deriving DecidableEq, Repr

/-- `value_size` -/
def CallerValue.size : CallerValue → Nat
  | .null size     => size
  | .bytes content => content.length

/-- `value == NULL` -/
def CallerValue.isNull : CallerValue → Bool
  | .null _  => true
  | .bytes _ => false

/-- The bytes of a value. -/
def CallerValue.content : CallerValue → List UInt8
  | .null _        => []
  | .bytes content => content

/-- A value inside the memory of a reader: its place and its size. -/
structure Slice where
  offset : Nat
  size : Nat
  deriving DecidableEq, Repr

/-- The bytes of a slice. -/
def Slice.content (data : List UInt8) (s : Slice) : List UInt8 := slice data s.offset s.size

/-! ## TLVs -/

/-- What an extension must be to stand in a block. -/
def Extension.Valid (x : Extension (List UInt8)) : Prop :=
  0 < x.id.toNat ∧ x.id.toNat < 2 ^ 31 ∧ x.critical.toNat ≤ 1 ∧ x.value.length < 2 ^ 32

instance (x : Extension (List UInt8)) : Decidable x.Valid := inferInstanceAs (Decidable (_ ∧ _))

/-- An extension that can stand in a block. -/
abbrev Tlv := { x : Extension (List UInt8) // x.Valid }

/-- The key of a TLV: the id above the critical bit. -/
def Tlv.key (t : Tlv) : Nat := 2 * t.val.id.toNat + t.val.critical.toNat

/-- The bytes of a TLV: key, length, value. -/
def Tlv.bytes (t : Tlv) : List UInt8 :=
  Base128.encode t.key ++ Base128.encode t.val.value.length ++ t.val.value

theorem Tlv.key_lt (t : Tlv) : t.key < 2 ^ 32 := by
  obtain ⟨-, hid, hcritical, -⟩ := t.property
  rw [Tlv.key]
  omega

theorem Tlv.length_bytes (t : Tlv) : t.bytes.length = (Base128.encode t.key).length +
    (Base128.encode t.val.value.length).length + t.val.value.length := by
  rw [Tlv.bytes, List.length_append, List.length_append]

/-- A TLV takes at least two bytes. -/
theorem Tlv.two_le_length (t : Tlv) : 2 ≤ t.bytes.length := by
  have hkey := Base128.length_encode_pos t.key
  have hlen := Base128.length_encode_pos t.val.value.length
  rw [t.length_bytes]
  omega

/-- Key, length and value determine a TLV. -/
theorem Tlv.ext {t u : Tlv} (hkey : t.key = u.key) (hvalue : t.val.value = u.val.value) : t = u := by
  obtain ⟨-, -, hcritical, -⟩ := t.property
  obtain ⟨-, -, hcritical', -⟩ := u.property
  rw [Tlv.key, Tlv.key] at hkey
  have hid : t.val.id = u.val.id := UInt32.toNat_inj.mp (by omega)
  have hcrit : t.val.critical = u.val.critical := UInt8.toNat_inj.mp (by omega)
  apply Subtype.ext
  cases ht : t.val
  cases hu : u.val
  simp_all

/-- A string starts with the bytes of at most one TLV. -/
theorem Tlv.bytes_unique {t u : Tlv} {d : List UInt8} (ht : t.bytes <+: d) (hu : u.bytes <+: d) :
    t = u := by
  obtain ⟨d', rfl⟩ := ht
  rw [Tlv.bytes, Tlv.bytes, List.append_assoc, List.append_assoc, List.append_assoc] at hu
  have hkey : t.key = u.key := Base128.encode_unique (List.prefix_append _ _)
    ((List.prefix_append _ _).trans hu)
  rw [← hkey, List.prefix_append_right_inj] at hu
  have hlen : t.val.value.length = u.val.value.length := Base128.encode_unique
    (List.prefix_append _ _) ((List.prefix_append _ _).trans hu)
  rw [← hlen, List.prefix_append_right_inj] at hu
  have hvalue : u.val.value = t.val.value := by
    have := List.prefix_of_prefix_length_le hu (List.prefix_append _ _) (by omega)
    exact this.eq_of_length hlen.symm
  exact Tlv.ext hkey hvalue.symm

/-- A key with an id, a length and that many bytes are a TLV. -/
theorem exists_tlv {key n : Nat} {d : List UInt8} (hkey : Base128.encode key <+: d)
    (hn : Base128.encode n <+: d.drop (Base128.encode key).length) (hid : 0 < key / 2)
    (hkeylt : key < 2 ^ 32) (hnlt : n < 2 ^ 32)
    (hroom : (Base128.encode key).length + (Base128.encode n).length + n ≤ d.length) :
    ∃ t : Tlv, t.key = key ∧ t.bytes <+: d := by
  obtain ⟨more, rfl⟩ := hkey
  rw [List.drop_left] at hn
  obtain ⟨more, rfl⟩ := hn
  simp only [List.length_append] at hroom
  have hvalue : (more.take n).length = n := List.length_take_of_le (by omega)
  have hid' : (UInt32.ofNat (key / 2)).toNat = key / 2 := by
    rw [UInt32.toNat_ofNat']
    omega
  have hcritical : (UInt8.ofNat (key % 2)).toNat = key % 2 := by
    rw [UInt8.toNat_ofNat']
    omega
  have hvalid : Extension.Valid ⟨UInt32.ofNat (key / 2), UInt8.ofNat (key % 2), more.take n⟩ := by
    simp only [Extension.Valid, hid', hcritical, hvalue]
    omega
  have htkey : Tlv.key ⟨_, hvalid⟩ = key := by
    simp only [Tlv.key, hid', hcritical]
    omega
  refine ⟨⟨_, hvalid⟩, htkey, ?_⟩
  rw [Tlv.bytes, htkey]
  simp only [hvalue]
  rw [List.append_assoc, List.prefix_append_right_inj, List.prefix_append_right_inj]
  exact List.take_prefix n more

/-- The row of TLVs of a block: each id is above the one before. -/
def tlvCode : Code (Option UInt32) Tlv UInt8 where
  spell := Tlv.bytes
  Follows previous t := ∀ p, previous = some p → p < t.val.id
  next _ t := some t.val.id
  spell_ne_nil t h := by
    have := t.two_le_length
    simp [h] at this
  spell_unique _ _ ht hu := Tlv.bytes_unique ht hu

/-- The bytes of a block. -/
abbrev blockOf (ts : List Tlv) : List UInt8 := tlvCode.row ts

@[simp] theorem blockOf_nil : blockOf [] = [] := rfl

@[simp] theorem blockOf_cons (t : Tlv) (ts : List Tlv) : blockOf (t :: ts) = t.bytes ++ blockOf ts :=
  rfl

/-- A row of TLVs that is a block. -/
abbrev IsBlock (ts : List Tlv) : Prop := tlvCode.Chain none ts

end MclWire
