import MclWire.Base128
import MclWire.Spellings

/-!
# Protocol buffers

The scalar fields of protocol buffers, as formal languages. A varint has groups of seven bits, lowest
first, and every byte but the last has its top bit set; the last groups may be zero. A field is the
varint of its number and of its wire type, which is 0 for a varint, and the varint of its value. A
message is a row of fields, and those that have their default value may be left out.

* `shortest_varint`, `delimited_varint` — the shortest varints have the length of `Base128.encode`,
  and a varint tells its number.
* `shortest_message`, `exists_row` — the shortest messages leave out all they may, and what is left of
  a message is a row of fields.
* `zigzag` — signed values.
-/

namespace Protobuf

open Base128 (Continues)

/-! ## Varints -/

/-- A spelling of a number in groups of seven bits. -/
inductive Varint : Nat → List UInt8 → Prop
  | last {b : UInt8} : ¬ Continues b → Varint b.toNat [b]
  | more {b : UInt8} {n : Nat} {w : List UInt8} : Continues b → Varint n w →
      Varint (128 * n + b.toNat % 128) (b :: w)

/-- The varints of a number. -/
def varint (n : Nat) : Language UInt8 := {w | Varint n w}

theorem Varint.lt {n : Nat} {w : List UInt8} (h : Varint n w) : n < 128 ^ w.length := by
  induction h with
  | @last b hb =>
      rw [Continues, Nat.not_le] at hb
      simpa using hb
  | @more b n w hb _ ih =>
      rw [List.length_cons, Nat.pow_succ]
      omega

theorem length_encode_of_ge {n : Nat} (h : 128 ≤ n) :
    (Base128.encode n).length = (Base128.encode (n / 128)).length + 1 := by
  rw [Base128.length_encode, Base128.length_encode, Base128.high_of_pos (n := n / 128) (by omega),
    List.length_append, List.length_singleton]

theorem length_encode_of_lt {n : Nat} (h : n < 128) : (Base128.encode n).length = 1 := by
  rw [Base128.length_encode, Nat.div_eq_of_lt h, Base128.high_zero]
  rfl

theorem exists_varint (n : Nat) : ∃ w, Varint n w ∧ w.length = (Base128.encode n).length := by
  induction n using Nat.strongRecOn with
  | _ n ih =>
    rcases Nat.lt_or_ge n 128 with hlt | hge
    · have hb : (UInt8.ofNat n).toNat = n := by
        rw [UInt8.toNat_ofNat']
        omega
      refine ⟨[UInt8.ofNat n], ?_, (length_encode_of_lt hlt).symm⟩
      have hlast := Varint.last (b := UInt8.ofNat n) (by rw [Continues, hb]; omega)
      rwa [hb] at hlast
    · obtain ⟨w, hw, hlen⟩ := ih (n / 128) (by omega)
      have hb : (UInt8.ofNat (128 + n % 128)).toNat = 128 + n % 128 := Base128.toNat_continuation n
      refine ⟨UInt8.ofNat (128 + n % 128) :: w, ?_, ?_⟩
      · have hmore := Varint.more (b := UInt8.ofNat (128 + n % 128)) (by rw [Continues, hb]; omega) hw
        rwa [hb, show 128 * (n / 128) + (128 + n % 128) % 128 = n by omega] at hmore
      · rw [List.length_cons, hlen, length_encode_of_ge hge]

theorem shortest_varint (n : Nat) : Shortest (varint n) (Base128.encode n).length := by
  obtain ⟨w, hw, hlen⟩ := exists_varint n
  rw [← hlen]
  apply Shortest.of_word hw
  intro v hv
  have hlt := Varint.lt hv
  rw [hlen]
  cases v with
  | nil => cases hv
  | cons b v => exact Base128.length_encode_le_iff.mpr hlt

/-- A varint tells its number. -/
theorem delimited_varint : Delimited varint := by
  intro m n v w r s hv hw h
  induction hv generalizing n w with
  | @last b hb =>
      cases hw with
      | last =>
          obtain ⟨rfl, rfl⟩ := List.cons.inj h
          exact ⟨rfl, rfl⟩
      | more hc =>
          obtain ⟨rfl, -⟩ := List.cons.inj h
          exact absurd hc hb
  | @more b m v hb _ ih =>
      cases hw with
      | last hc =>
          obtain ⟨rfl, -⟩ := List.cons.inj h
          exact absurd hb hc
      | more _ hw =>
          obtain ⟨rfl, hrest⟩ := List.cons.inj h
          obtain ⟨rfl, rfl⟩ := ih hw hrest
          exact ⟨rfl, rfl⟩

theorem nil_not_varint (n : Nat) : [] ∉ varint n := by
  intro h
  cases h

/-! ## Fields -/

/-- A field with a number and a value. -/
def field (p : Nat × Nat) : Language UInt8 := varint (8 * p.1) * varint p.2

theorem shortest_field (p : Nat × Nat) : Shortest (field p)
    ((Base128.encode (8 * p.1)).length + (Base128.encode p.2).length) :=
  (shortest_varint _).mul (shortest_varint _)

theorem delimited_field : Delimited field := by
  rintro ⟨m, x⟩ ⟨n, y⟩ _ _ r s ⟨v, hv, v', hv', rfl⟩ ⟨w, hw, w', hw', rfl⟩ h
  dsimp only at h
  rw [List.append_assoc, List.append_assoc] at h
  obtain ⟨htag, h⟩ := delimited_varint hv hw h
  obtain ⟨rfl, h⟩ := delimited_varint hv' hw' h
  have hmn : m = n := by
    dsimp only at htag
    omega
  exact ⟨by rw [hmn], h⟩

theorem nil_not_field (p : Nat × Nat) : [] ∉ field p := by
  rintro ⟨v, hv, w, -, h⟩
  cases (List.append_eq_nil_iff.mp h).1
  exact nil_not_varint _ hv

/-- A signed value. -/
def zigzag (z : Int) : Nat := if 0 ≤ z then 2 * z.toNat else 2 * (-z).toNat - 1

theorem zigzag_inj {y z : Int} (h : zigzag y = zigzag z) : y = z := by
  unfold zigzag at h
  split_ifs at h <;> omega

/-! ## Messages -/

section Message

variable {ι : Type} {f : ι → Language UInt8} {d : ι → Bool} {is : List ι}

/-- A row of fields; those that have their default value, `d`, may be left out. -/
def message (f : ι → Language UInt8) (d : ι → Bool) (is : List ι) : Language UInt8 :=
  (is.map fun i => if d i then 1 + f i else f i).prod

theorem shortest_message {n : ι → Nat} (h : ∀ i ∈ is, Shortest (f i) (n i)) :
    Shortest (message f d is) (is.map fun i => if d i then 0 else n i).sum := by
  apply Shortest.prod
  intro i hi
  split
  · have hadd := Shortest.one.add (h i hi)
    rwa [Nat.zero_min] at hadd
  · exact h i hi

/-- What a message holds: a row of fields, with all those that do not have their default value. -/
theorem exists_row {w : List UInt8} (hw : w ∈ message f d is) :
    ∃ js : List ι, js.Sublist is ∧ w ∈ (js.map f).prod ∧
      (js.filter fun j => !d j) = is.filter fun i => !d i := by
  induction is generalizing w with
  | nil => exact ⟨[], List.Sublist.refl [], hw, rfl⟩
  | cons i is ih =>
      rw [message, List.map_cons, List.prod_cons] at hw
      obtain ⟨v, hv, v', hv', rfl⟩ := hw
      obtain ⟨js, hsub, hrow, hfilter⟩ := ih hv'
      have htaken : v ∈ f i → ∃ js : List ι, js.Sublist (i :: is) ∧ v ++ v' ∈ (js.map f).prod ∧
          (js.filter fun j => !d j) = (i :: is).filter fun i => !d i := by
        intro hv
        refine ⟨i :: js, hsub.cons_cons i, ?_, ?_⟩
        · rw [List.map_cons, List.prod_cons]
          exact Language.append_mem_mul hv hrow
        · rw [List.filter_cons, List.filter_cons, hfilter]
      split at hv
      · next hd =>
        rcases (Language.mem_add _ _ _).mp hv with hnil | hv
        · rw [(Language.mem_one v).mp hnil]
          refine ⟨js, hsub.cons i, hrow, ?_⟩
          rw [List.filter_cons_of_neg (by simp [hd]), hfilter]
        · exact htaken hv
      · exact htaken hv

end Message

end Protobuf
