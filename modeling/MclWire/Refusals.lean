import MclWire.Extension.Resume
import MclWire.Extension.Canonical
import MclWire.Inside

/-!
# Why a buffer is refused

The decoders stop at the first thing that is wrong. What that is, is read off the bytes here: every
status of every decoder is a relation between a buffer and a status that mentions no decoder.

* `BadVarint`, `BadTlv`, `Stops` — why a varint, a TLV or a block is refused.
* `BadHead`, `Refusal` — why a buffer is refused, in the order of the checks.
* `extensionReaderNext_error_iff`, `validateLoop_error_iff` — one call of the reader, and the walk
  over a block.
* `decode_refusals` — the decoders refuse exactly for these reasons.
-/

namespace MclWire

open SelfDelimiting (Code)

variable {σ : Type}

/-! ## Varints

A varint is refused for one of three reasons, which exclude each other: the buffer ends in the middle of
it, it is longer than it has to be, or else it is too large. -/

/-- `BadVarint d e`: the bytes `d` start with no varint, and `e` says why. -/
inductive BadVarint (d : List UInt8) : Err → Prop
  | cutOff : CutOff d → BadVarint d .truncated
  | overlong : Overlong d → BadVarint d .noncanonical
  | range : NoVarint d → ¬ CutOff d → ¬ Overlong d → BadVarint d .range

theorem noVarint_of_error {d : List UInt8} {e : Exit} (h : uvarintDecode d d.length = .error e) :
    NoVarint d := by
  intro v hv
  have hok : uvarintDecode d d.length = .ok (v, (Base128.encode v.toNat).length) := by
    rw [uvarintDecode_eq_ok, List.take_length]
    exact ⟨hv, rfl⟩
  rw [h] at hok
  cases hok

/-- Why a varint is refused. -/
theorem uvarintDecode_error_iff {d : List UInt8} {e : Err} :
    uvarintDecode d d.length = .error (.status e) ↔ BadVarint d e := by
  constructor
  · intro h
    rcases uvarintDecode_error h with ⟨he, hcut⟩ | ⟨he, hover⟩ | ⟨he, hcut, hover⟩
    · cases he
      exact BadVarint.cutOff hcut
    · cases he
      exact BadVarint.overlong hover
    · cases he
      exact BadVarint.range (noVarint_of_error h) hcut hover
  · intro h
    cases hrun : uvarintDecode d d.length with
    | ok r =>
        obtain ⟨v, n⟩ := r
        obtain ⟨hcut, hover⟩ := uvarintDecode_accepted hrun
        cases h with
        | cutOff h => exact absurd h hcut
        | overlong h => exact absurd h hover
        | range h _ _ =>
            obtain ⟨hspell, -⟩ := uvarintDecode_eq_ok.mp hrun
            rw [List.take_length] at hspell
            exact absurd hspell (h v)
    | error x =>
        rcases uvarintDecode_error hrun with ⟨rfl, hcut⟩ | ⟨rfl, hover⟩ | ⟨rfl, hcut, hover⟩
        · cases h with
          | cutOff _ => rfl
          | overlong h => exact absurd hcut h.not_cutOff
          | range _ h _ => exact absurd hcut h
        · cases h with
          | cutOff h => exact absurd h hover.not_cutOff
          | overlong _ => rfl
          | range _ _ h => exact absurd hover h
        · cases h with
          | cutOff h => exact absurd h hcut
          | overlong h => exact absurd h hover
          | range _ _ _ => rfl

theorem BadVarint.noVarint {d : List UInt8} {e : Err} (h : BadVarint d e) : NoVarint d :=
  noVarint_of_error (uvarintDecode_error_iff.mpr h)

/-- There is one reason only. -/
theorem BadVarint.unique {d : List UInt8} {e e' : Err} (h : BadVarint d e) (h' : BadVarint d e') :
    e = e' := by
  have hrun := uvarintDecode_error_iff.mpr h
  rw [uvarintDecode_error_iff.mpr h'] at hrun
  cases hrun
  rfl

/-- The decoder looks at the first `size` bytes only. -/
theorem uvarintDecode_take {data : List UInt8} {size : Nat} (h : size ≤ data.length) :
    uvarintDecode data size = uvarintDecode (data.take size) (data.take size).length := by
  rw [List.length_take_of_le h]
  apply uvarintDecode_congr
  intro j hj
  rw [List.getElem?_take_of_lt hj]

/-! ## TLVs

The parts of a TLV are looked at in the order in which they stand: the key, the id in it, the length,
the value. Each constructor assumes that the parts before are in order, so that a TLV that is refused is
so for one reason (`BadTlv.unique`), and none of the TLVs that may follow starts there
(`BadTlv.no_tlv`). -/

/-- `BadTlv previous d e`: behind the id `previous` the bytes `d` start with a TLV that is refused
with the status `e`. -/
inductive BadTlv (previous : Option UInt32) : List UInt8 → Err → Prop
  | key {d : List UInt8} {e : Err} : d ≠ [] → BadVarint d e → BadTlv previous d e
  | id {key : UInt32} {d : List UInt8} : ¬ GoodId previous key →
      BadTlv previous (Base128.encode key.toNat ++ d) .noncanonical
  | length {key : UInt32} {d : List UInt8} {e : Err} : GoodId previous key → BadVarint d e →
      BadTlv previous (Base128.encode key.toNat ++ d) e
  | value {key size : UInt32} {d : List UInt8} : GoodId previous key → d.length < size.toNat →
      BadTlv previous (Base128.encode key.toNat ++ (Base128.encode size.toNat ++ d)) .truncated

section Tlvs

variable {previous : Option UInt32} {d : List UInt8} {e : Err}

theorem BadTlv.rejected (h : BadTlv previous d e) : ∃ d', Rejected previous d d' := by
  cases h with
  | key hne hbad => exact ⟨_, Rejected.key hne hbad.noVarint⟩
  | id hbad => exact ⟨_, Rejected.id hbad⟩
  | length hgood hbad => exact ⟨_, Rejected.length hgood hbad.noVarint⟩
  | value hgood hshort => exact ⟨_, Rejected.value hgood hshort⟩

theorem BadTlv.ne_nil (h : BadTlv previous d e) : d ≠ [] := by
  obtain ⟨d', hrejected⟩ := h.rejected
  exact hrejected.ne_nil

/-- No TLV stands where one is refused. -/
theorem BadTlv.no_tlv (h : BadTlv previous d e) {t : Tlv} (hfollows : tlvCode.Follows previous t) :
    ¬ t.bytes <+: d := by
  obtain ⟨d', hrejected⟩ := h.rejected
  exact hrejected.no_tlv hfollows

/-- A TLV is refused for one reason only. -/
theorem BadTlv.unique {e' : Err} (h : BadTlv previous d e) (h' : BadTlv previous d e') : e = e' := by
  generalize hd : d = c at h'
  cases h with
  | key _ hbad =>
      subst hd
      cases h' with
      | key _ hbad' => exact hbad.unique hbad'
      | id _ => exact hbad.noVarint.not_append.elim
      | length _ _ => exact hbad.noVarint.not_append.elim
      | value _ _ => exact hbad.noVarint.not_append.elim
  | id hno =>
      cases h' with
      | key _ hbad => exact (hd ▸ hbad.noVarint).not_append.elim
      | id _ => rfl
      | length hgood _ => exact absurd ((varint_unique hd).1 ▸ hgood) hno
      | value hgood _ => exact absurd ((varint_unique hd).1 ▸ hgood) hno
  | length hgood hbad =>
      cases h' with
      | key _ hbad' => exact (hd ▸ hbad'.noVarint).not_append.elim
      | id hno => exact absurd ((varint_unique hd).1 ▸ hgood) hno
      | length _ hbad' => exact hbad.unique ((varint_unique hd).2 ▸ hbad')
      | value _ _ => exact ((varint_unique hd).2 ▸ hbad.noVarint).not_append.elim
  | value hgood _ =>
      cases h' with
      | key _ hbad => exact (hd ▸ hbad.noVarint).not_append.elim
      | id hno => exact absurd ((varint_unique hd).1 ▸ hgood) hno
      | length _ hbad => exact ((varint_unique hd).2 ▸ hbad.noVarint).not_append.elim
      | value _ _ => rfl

end Tlvs

/-! ## One call of the reader

`Rejects` follows the exits of the code, with the reader that each of them leaves behind. Here only the
status counts: `extensionReaderNext_error_iff` reads it off the bytes in front of the reader. -/

section Calls

variable {r r' : ExtensionReader} {e : Err}

/-- A varint in the rest of a reader. -/
theorem uvarintDecode_rest_error_iff (hr : r.Ok) {off : Nat} (hoff : r.offset ≤ off)
    (hsize : off ≤ r.size) :
    uvarintDecode (r.data.drop off) (r.size - off) = .error (.status e) ↔
      BadVarint (r.rest.drop (off - r.offset)) e := by
  have hrest : (r.data.drop off).take (r.size - off) = r.rest.drop (off - r.offset) := by
    have hsub : r.size - r.offset - (off - r.offset) = r.size - off := by omega
    rw [ExtensionReader.rest, drop_slice, Nat.add_sub_cancel' hoff, hsub]
    rfl
  have hle := hr.size
  rw [uvarintDecode_take (by rw [List.length_drop]; omega), hrest, uvarintDecode_error_iff]

/-- The exits of the reader, with their statuses. -/
theorem Rejects.badTlv (hr : r.Ok) (hne : r.rest ≠ []) (h : Rejects r e r') :
    BadTlv r.previous r.rest e := by
  have hoffset := hr.offset
  have hfirst : ∀ {key : UInt32} {k : Nat},
      uvarintDecode (r.data.drop r.offset) (r.size - r.offset) = .ok (key, k) →
        r.rest = Base128.encode key.toNat ++ r.rest.drop k ∧ r.offset + k ≤ r.size := by
    intro key k hkey
    have hsplit := rest_split (Nat.le_refl _) hkey
    obtain ⟨hspell, rfl⟩ := (uvarintDecode_rest_eq_ok (Nat.le_refl _)).mp hkey
    have hle := hspell.length_le
    rw [Nat.sub_self, List.drop_zero, r.length_rest hr] at hle
    rw [Nat.sub_self, List.drop_zero, Nat.zero_add] at hsplit
    exact ⟨hsplit, by omega⟩
  cases h with
  | key hkey =>
      rw [uvarintDecode_rest_error_iff hr (Nat.le_refl _) hoffset, Nat.sub_self,
        List.drop_zero] at hkey
      exact BadTlv.key hne hkey
  | id hkey hbad =>
      rw [← not_not (a := _ ∨ _), goodId_iff] at hbad
      rw [(hfirst hkey).1]
      exact BadTlv.id hbad
  | length hkey hgood hlen =>
      obtain ⟨hsplit, hroom⟩ := hfirst hkey
      rw [uvarintDecode_rest_error_iff hr (Nat.le_add_right _ _) hroom,
        Nat.add_sub_cancel_left] at hlen
      rw [hsplit]
      exact BadTlv.length (goodId_iff.mp hgood) hlen
  | @value key size k l hkey hgood hlen hshort =>
      obtain ⟨hsplit, -⟩ := hfirst hkey
      have hsplit' := rest_split (Nat.le_add_right _ _) hlen
      rw [Nat.add_sub_cancel_left] at hsplit'
      rw [hsplit'] at hsplit
      rw [hsplit]
      refine BadTlv.value (goodId_iff.mp hgood) ?_
      rw [List.length_drop, r.length_rest hr]
      omega

/-- A call fails with a status exactly over a TLV that is refused with it. -/
theorem extensionReaderNext_error_iff (hr : r.Ok) :
    (∃ r', extensionReaderNext.run r = .error (.status e) r') ↔ BadTlv r.previous r.rest e := by
  have hsound : ∀ {x : Err} {r' : ExtensionReader},
      extensionReaderNext.run r = .error (.status x) r' → BadTlv r.previous r.rest x := by
    intro x r' hrun
    rcases next_cases hr with ⟨-, hrun'⟩ | ⟨t, -, -, hrun'⟩ | ⟨-, x', r'', hrejects, hrun'⟩
    · rw [hrun'] at hrun
      cases hrun
    · rw [hrun'] at hrun
      cases hrun
    · have hne : r.rest ≠ [] := by
        intro hnil
        rw [extensionReaderNext_done (offset_eq_size hr hnil)] at hrun
        cases hrun
      rw [hrun'] at hrun
      cases hrun
      exact hrejects.badTlv hr hne
  constructor
  · rintro ⟨r', hrun⟩
    exact hsound hrun
  · intro h
    rcases next_cases hr with ⟨hnil, -⟩ | ⟨t, hfollows, ht, -⟩ | ⟨-, x, r', -, hrun⟩
    · exact absurd hnil h.ne_nil
    · exact absurd ht (h.no_tlv hfollows)
    · rw [h.unique (hsound hrun)]
      exact ⟨r', hrun⟩

end Calls

/-! ## The walk over a block

`mcl_wire_tier0_decode_ext_accept` goes over the block TLV by TLV, and the caller may refuse any of them.
`Stops` says where it stops. By induction on the fuel of the loop the walk stops with a status exactly
where `Stops` has it: where a TLV stands, the verdict over it ends both or hands its state on to the
rest, and a string starts with one TLV at most; where none stands, the one call of the reader decides. -/

/-- `Stops accept previous d user e`: the walk over the block `d`, behind the id `previous` and with
the caller in the state `user`, stops with the status `e` at the first TLV that is malformed or that
the caller refuses. -/
inductive Stops (accept : Option (Accept σ)) : Option UInt32 → List UInt8 → σ → Err → Prop
  | malformed {previous : Option UInt32} {d : List UInt8} {user : σ} {e : Err} :
      BadTlv previous d e → Stops accept previous d user e
  | refused {previous : Option UInt32} {t : Tlv} {d : List UInt8} {user : σ} :
      tlvCode.Follows previous t → (consultAll accept [t] user).1 = false →
      Stops accept previous (t.bytes ++ d) user .unsupportedSemantic
  | next {previous : Option UInt32} {t : Tlv} {d : List UInt8} {user : σ} {e : Err} :
      tlvCode.Follows previous t → (consultAll accept [t] user).1 = true →
      Stops accept (some t.val.id) d (consultAll accept [t] user).2 e →
      Stops accept previous (t.bytes ++ d) user e

section Walk

variable {accept : Option (Accept σ)} {previous : Option UInt32} {d : List UInt8} {user : σ} {e : Err}

theorem Stops.ne_nil (h : Stops accept previous d user e) : d ≠ [] := by
  have hpos : ∀ (t : Tlv) (c : List UInt8), t.bytes ++ c ≠ [] := by
    intro t c hnil
    exact tlvCode.spell_ne_nil t (List.append_eq_nil_iff.mp hnil).1
  cases h with
  | malformed hbad => exact hbad.ne_nil
  | refused _ _ => exact hpos _ _
  | next _ _ _ => exact hpos _ _

/-- A string that starts with a TLV that may follow does so with one TLV only. -/
theorem tlv_append_inj {t u : Tlv} {c : List UInt8} (h : t.bytes ++ d = u.bytes ++ c) :
    t = u ∧ d = c := by
  have hu : u.bytes <+: t.bytes ++ d := by
    rw [h]
    exact List.prefix_append _ _
  have htu : t = u := Tlv.bytes_unique (List.prefix_append _ _) hu
  rw [htu] at h
  exact ⟨htu, List.append_cancel_left h⟩

/-- What the walk does with a TLV. -/
theorem stops_tlv_iff {t : Tlv} (hfollows : tlvCode.Follows previous t) :
    Stops accept previous (t.bytes ++ d) user e ↔
      ((consultAll accept [t] user).1 = false ∧ e = .unsupportedSemantic) ∨
      ((consultAll accept [t] user).1 = true ∧
        Stops accept (some t.val.id) d (consultAll accept [t] user).2 e) := by
  constructor
  · intro h
    generalize hc : t.bytes ++ d = c at h
    cases h with
    | malformed hbad =>
        rw [← hc] at hbad
        exact absurd (List.prefix_append _ _) (hbad.no_tlv hfollows)
    | refused _ hno =>
        obtain ⟨rfl, -⟩ := tlv_append_inj hc
        exact Or.inl ⟨hno, rfl⟩
    | next _ hyes htail =>
        obtain ⟨rfl, rfl⟩ := tlv_append_inj hc
        exact Or.inr ⟨hyes, htail⟩
  · rintro (⟨hno, rfl⟩ | ⟨hyes, htail⟩)
    · exact Stops.refused hfollows hno
    · exact Stops.next hfollows hyes htail

/-- What the walk does where no TLV stands. -/
theorem stops_iff_badTlv (hno : ∀ t, tlvCode.Follows previous t → ¬ t.bytes <+: d) :
    Stops accept previous d user e ↔ BadTlv previous d e := by
  constructor
  · intro h
    cases h with
    | malformed hbad => exact hbad
    | refused hfollows _ => exact absurd (List.prefix_append _ _) (hno _ hfollows)
    | next hfollows _ _ => exact absurd (List.prefix_append _ _) (hno _ hfollows)
  · exact Stops.malformed

/-- The walk stops with a status exactly where `Stops` says so. -/
theorem validateLoop_error_iff {n : Nat} {r : ExtensionReader} {s : DecodeExtOut σ} (hr : r.Ok)
    (hn : r.rest.length < n) :
    (∃ s', (validateLoop accept n r).run s = .error (.status e) s') ↔
      Stops accept r.previous r.rest s.user e := by
  induction n generalizing r s with
  | zero => exact absurd hn (Nat.not_lt_zero _)
  | succ n ih =>
      rcases extensionReaderNext_cases hr with ⟨hnil, hrun⟩ | ⟨t, hfollows, ht, hrun⟩ |
        ⟨-, hno, x, r', hrun⟩
      · rw [validateLoop_done hrun]
        constructor
        · rintro ⟨s', h⟩
          cases h
        · intro h
          exact absurd hnil h.ne_nil
      · obtain ⟨d, hd⟩ := ht
        have hskip : (r.skip t).rest = d := by rw [r.rest_skip, ← hd, List.drop_left]
        have hfound : (r.found t).map (Slice.content (r.skip t).data) = t.val :=
          ExtensionReader.content_found hr ⟨d, hd⟩
        have hconsult := consult_run accept hfound s
        rw [validateLoop_next hrun, ← hd, stops_tlv_iff hfollows]
        -- the verdict over this TLV ends the walk or hands its state on
        cases hverdict : (consultAll accept [t] s.user).1 with
        | false =>
            rw [hverdict, if_neg Bool.false_ne_true] at hconsult
            rw [run_bind_error hconsult]
            constructor
            · rintro ⟨s', h⟩
              cases h
              exact Or.inl ⟨rfl, rfl⟩
            · rintro (⟨-, rfl⟩ | ⟨hyes, -⟩)
              · exact ⟨_, rfl⟩
              · exact absurd hyes Bool.false_ne_true
        | true =>
            rw [hverdict, if_pos rfl] at hconsult
            have hshort : (r.skip t).rest.length < n := by
              have htwo := t.two_le_length
              rw [← hd, List.length_append] at hn
              rw [hskip]
              omega
            rw [run_bind_ok hconsult, ih (hr.skip ⟨d, hd⟩) hshort, hskip]
            constructor
            · intro h
              exact Or.inr ⟨rfl, h⟩
            · rintro (⟨hfalse, -⟩ | ⟨-, h⟩)
              · exact absurd hfalse (Ne.symm Bool.false_ne_true)
              · exact h
      · rw [validateLoop_stuck hrun, stops_iff_badTlv hno, ← extensionReaderNext_error_iff hr, hrun]
        constructor
        · rintro ⟨s', h⟩
          cases h
          exact ⟨r', rfl⟩
        · rintro ⟨r'', h⟩
          cases h
          exact ⟨s, rfl⟩

end Walk

/-! ## Heads

Before the body there is the length of the buffer, the major and the kind in the header, and the length
that the kind asks for. -/

/-- `BadHead data e`: the buffer is too short for a header, its header names no kind that its major
carries, or it is too short for the kind that the header names. -/
inductive BadHead (data : List UInt8) : Err → Prop
  | short : data.length < commonHeaderSize → BadHead data .truncated
  | unsupported {header : Header} : headerDecode data = .ok header →
      (∀ kind, kindAllowedAtMajor header.majorVersion kind = true →
        kindToCode kind ≠ (header.category, header.opcode)) →
      BadHead data .unsupportedSemantic
  | cut {header : Header} {kind : Kind} : headerDecode data = .ok header →
      kindAllowedAtMajor header.majorVersion kind = true →
      kindToCode kind = (header.category, header.opcode) →
      data.length < tier0EncodedSizeAtMajor header.majorVersion kind → BadHead data .truncated

section Heads

variable {data : List UInt8} {header : Header} {e : Err}

theorem length_of_headerDecode (h : headerDecode data = .ok header) :
    ¬ data.length < commonHeaderSize := by
  cases data with
  | nil => cases h
  | cons b data =>
      cases data with
      | nil => cases h
      | cons c data =>
          rw [List.length_cons, List.length_cons, commonHeaderSize]
          omega

theorem codeToKind_error {category opcode : UInt8} {x : Exit}
    (h : codeToKind category opcode = .error x) : x = .status .unsupportedSemantic := by
  unfold codeToKind at h
  repeat' split at h
  all_goals
    first
    | cases h; done
    | cases h; rfl

/-- A header that names a kind of its major. -/
theorem decodeHead_of_kind {kind : Kind} (hheader : headerDecode data = .ok header)
    (hcarried : kindAllowedAtMajor header.majorVersion kind = true)
    (hcode : kindToCode kind = (header.category, header.opcode)) :
    decodeHead data =
      if data.length < tier0EncodedSizeAtMajor header.majorVersion kind then
        .error (.status .truncated)
      else .ok ⟨header, kind, tier0EncodedSizeAtMajor header.majorVersion kind⟩ := by
  have hlen := length_of_headerDecode hheader
  obtain ⟨hmajor, hkind⟩ := carried_cases hcarried
  have hsize : ¬ tier0EncodedSizeAtMajor header.majorVersion kind = 0 := by
    rw [size_eq_zero_iff, hcarried]
    exact Ne.symm Bool.false_ne_true
  have hdecode := codeToKind_kindToCode hkind
  rw [hcode] at hdecode
  have hnot : ¬ (header.majorVersion ≠ experimentalMajor ∧ header.majorVersion ≠ stableMajor) := by
    rintro ⟨h₀, h₁⟩
    rcases hmajor with h | h
    · exact h₀ h
    · exact h₁ h
  unfold decodeHead
  rw [failIf_neg _ hlen, except_bind_ok, hheader, except_bind_ok, failIf_neg _ hnot, except_bind_ok,
    hdecode, except_bind_ok]
  simp only []
  rw [failIf_neg _ hsize, except_bind_ok]
  by_cases hshort : data.length < tier0EncodedSizeAtMajor header.majorVersion kind
  · rw [failIf_pos _ hshort, if_pos hshort, except_bind_error]
  · rw [failIf_neg _ hshort, if_neg hshort, except_bind_ok]
    rfl

/-- A header that names none. -/
theorem decodeHead_of_no_kind (hheader : headerDecode data = .ok header)
    (hno : ∀ kind, kindAllowedAtMajor header.majorVersion kind = true →
      kindToCode kind ≠ (header.category, header.opcode)) :
    decodeHead data = .error (.status .unsupportedSemantic) := by
  unfold decodeHead
  rw [failIf_neg _ (length_of_headerDecode hheader), except_bind_ok, hheader, except_bind_ok]
  by_cases hmajor : header.majorVersion ≠ experimentalMajor ∧ header.majorVersion ≠ stableMajor
  · rw [failIf_pos _ hmajor, except_bind_error]
  · rw [failIf_neg _ hmajor, except_bind_ok]
    cases hkind : codeToKind header.category header.opcode with
    | error x => rw [codeToKind_error hkind, except_bind_error]
    | ok kind =>
        have hcode := kindToCode_of_codeToKind hkind
        have hsize : tier0EncodedSizeAtMajor header.majorVersion kind = 0 := by
          rw [size_eq_zero_iff, ← Bool.not_eq_true]
          intro hcarried
          exact hno kind hcarried hcode
        rw [except_bind_ok]
        simp only []
        rw [failIf_pos _ hsize, except_bind_error]

/-- The checks before the body fail exactly for these reasons. -/
theorem decodeHead_error_iff : decodeHead data = .error (.status e) ↔ BadHead data e := by
  constructor
  · intro h
    by_cases hlen : data.length < commonHeaderSize
    · rw [decodeHead_short hlen] at h
      cases h
      exact BadHead.short hlen
    · obtain ⟨header, hheader, -⟩ := headerDecode_spec (Nat.le_of_not_lt hlen)
      by_cases hkind : ∃ kind, kindAllowedAtMajor header.majorVersion kind = true ∧
          kindToCode kind = (header.category, header.opcode)
      · obtain ⟨kind, hcarried, hcode⟩ := hkind
        rw [decodeHead_of_kind hheader hcarried hcode] at h
        split at h
        · next hshort =>
          cases h
          exact BadHead.cut hheader hcarried hcode hshort
        · cases h
      · have hno : ∀ kind, kindAllowedAtMajor header.majorVersion kind = true →
            kindToCode kind ≠ (header.category, header.opcode) := by
          intro kind hcarried hcode
          exact hkind ⟨kind, hcarried, hcode⟩
        rw [decodeHead_of_no_kind hheader hno] at h
        cases h
        exact BadHead.unsupported hheader hno
  · intro h
    cases h with
    | short hlen => exact decodeHead_short hlen
    | unsupported hheader hno => exact decodeHead_of_no_kind hheader hno
    | cut hheader hcarried hcode hshort =>
        rw [decodeHead_of_kind hheader hcarried hcode, if_pos hshort]

end Heads

/-! ## The length of the block

Where the extension bit is set, a varint behind the body says how long the block is. Its value has to be
one from 1 to 256, and so many bytes have to be there. -/

/-- `BadLength data body e`: behind the first `body` bytes stands no length of a block, or one that
is zero, too large, or larger than what is left. -/
inductive BadLength (data : List UInt8) (body : Nat) : Err → Prop
  | varint {e : Err} : BadVarint (data.drop body) e → BadLength data body e
  | empty : Base128.encode 0 <+: data.drop body → BadLength data body .noncanonical
  | tooLong {n : Nat} : Base128.encode n <+: data.drop body → extensionBlockMax < n → n < 2 ^ 32 →
      BadLength data body .range
  | cut {n : Nat} : Base128.encode n <+: data.drop body → 0 < n → n ≤ extensionBlockMax →
      data.length < body + (Base128.encode n).length + n → BadLength data body .truncated

section Lengths

variable {data : List UInt8} {body n : Nat} {e : Err}

/-- What the decoder makes of a length that is spelled correctly. -/
theorem blockHead_of_varint (hbody : body ≤ data.length) (hn : n < 2 ^ 32)
    (hspell : Base128.encode n <+: data.drop body) :
    blockHead data body =
      if n = 0 then .error (.status .noncanonical)
      else if extensionBlockMax < n then .error (.status .range)
      else if data.length < body + (Base128.encode n).length + n then .error (.status .truncated)
      else .ok (n, body + (Base128.encode n).length) := by
  have hvalue : (UInt32.ofNat n).toNat = n := by rw [UInt32.toNat_ofNat', Nat.mod_eq_of_lt hn]
  have hlength : uvarintDecode (data.drop body) (data.length - body) =
      .ok (UInt32.ofNat n, (Base128.encode n).length) := by
    rw [uvarintDecode_drop_eq_ok, hvalue]
    exact ⟨hspell, rfl⟩
  have hzero : UInt32.ofNat n = 0 ↔ n = 0 := by
    rw [← UInt32.toNat_inj, hvalue, UInt32.toNat_zero]
  have hle := hspell.length_le
  rw [List.length_drop] at hle
  unfold blockHead
  rw [sizeSub_of_le hbody, except_bind_ok, hlength, except_bind_ok]
  simp only [hvalue]
  by_cases hempty : n = 0
  · rw [failIf_pos _ (hzero.mpr hempty), if_pos hempty, except_bind_error]
  rw [failIf_neg _ (mt hzero.mp hempty), if_neg hempty, except_bind_ok]
  by_cases hlong : extensionBlockMax < n
  · rw [failIf_pos _ hlong, if_pos hlong, except_bind_error]
  rw [failIf_neg _ hlong, if_neg hlong, except_bind_ok, except_bind_ok, sizeSub_of_le hle,
    except_bind_ok]
  by_cases hcut : data.length < body + (Base128.encode n).length + n
  · rw [failIf_pos _ (show n > _ by omega), if_pos hcut, except_bind_error]
  · rw [failIf_neg _ (show ¬ n > _ by omega), if_neg hcut, except_bind_ok]
    rfl

/-- The block is not found exactly for these reasons. -/
theorem blockHead_error_iff (hbody : body ≤ data.length) :
    blockHead data body = .error (.status e) ↔ BadLength data body e := by
  have hpos : ¬ extensionBlockMax = 0 := by decide
  constructor
  · intro h
    cases hlength : uvarintDecode (data.drop body) (data.length - body) with
    | error x =>
        have hrun : blockHead data body = .error x := by
          unfold blockHead
          rw [sizeSub_of_le hbody, except_bind_ok, hlength, except_bind_error]
        rw [hrun] at h
        cases h
        rw [← List.length_drop, uvarintDecode_error_iff] at hlength
        exact BadLength.varint hlength
    | ok vk =>
        obtain ⟨v, k⟩ := vk
        obtain ⟨hspell, -⟩ := uvarintDecode_drop_eq_ok.mp hlength
        rw [blockHead_of_varint hbody v.toNat_lt hspell] at h
        split at h
        · next hempty =>
          cases h
          rw [hempty] at hspell
          exact BadLength.empty hspell
        · next hempty =>
          split at h
          · next hlong =>
            cases h
            exact BadLength.tooLong hspell hlong v.toNat_lt
          · next hlong =>
            split at h
            · next hcut =>
              cases h
              exact BadLength.cut hspell (Nat.pos_of_ne_zero hempty) (Nat.le_of_not_lt hlong) hcut
            · cases h
  · intro h
    cases h with
    | varint hbad =>
        have hlength := uvarintDecode_error_iff.mpr hbad
        unfold blockHead
        rw [sizeSub_of_le hbody, except_bind_ok, ← List.length_drop, hlength, except_bind_error]
    | empty hspell => rw [blockHead_of_varint hbody (by decide) hspell, if_pos rfl]
    | tooLong hspell hlong hlt =>
        rw [blockHead_of_varint hbody hlt hspell, if_neg (by omega), if_pos hlong]
    | cut hspell hn hsmall hcut =>
        have hlt := Nat.lt_of_le_of_lt hsmall (show extensionBlockMax < 2 ^ 32 by decide)
        rw [blockHead_of_varint hbody hlt hspell, if_neg (by omega), if_neg (by omega), if_pos hcut]

end Lengths

/-! ## The decoders

Each decoder makes these checks in an order of its own, and the first one that fails gives the status.
The constructors of the three relations are in that order, each with what has been passed before. That a
relation gives the status of the decoder is one evaluation for each constructor; that every status has
its constructor follows from the cases the decoder goes through. -/

/-- Why `mcl_wire_tier0_decode_body` refuses a buffer: the head, or the padding. -/
inductive BodyRefusal (data : List UInt8) : Err → Prop
  | head {e : Err} : BadHead data e → BodyRefusal data e
  | padding {head : Head} : head.Of data → ¬ Padded (bitsOf data) head →
      BodyRefusal data .noncanonical

/-- Why `mcl_wire_tier0_decode` refuses a buffer. The extension bit comes before the kind. -/
inductive PlainRefusal (data : List UInt8) : Err → Prop
  | short : data.length < commonHeaderSize → PlainRefusal data .truncated
  | extended {header : Header} : headerDecode data = .ok header → header.extensionPresent ≠ 0 →
      PlainRefusal data .unsupportedSemantic
  | body {header : Header} {e : Err} : headerDecode data = .ok header →
      header.extensionPresent = 0 → BodyRefusal data e → PlainRefusal data e

/-- `Refusal accept data user e`: why the decoder with extensions refuses a buffer, in the order of
its checks: the head, the padding, the length of the block, and the walk over it. -/
inductive Refusal (accept : Option (Accept σ)) (data : List UInt8) (user : σ) : Err → Prop
  | head {e : Err} : BadHead data e → Refusal accept data user e
  | padding {head : Head} : head.Of data → ¬ Padded (bitsOf data) head →
      Refusal accept data user .noncanonical
  | length {major : UInt8} {o : Tier0} {e : Err} : Presents data major 1 o →
      BadLength data (o.size major) e → Refusal accept data user e
  | block {major : UInt8} {o : Tier0} {b : List UInt8} {e : Err} : Encloses data major o b →
      Stops accept none b user e → Refusal accept data user e

section Decoders

variable {accept : Option (Accept σ)} {data : List UInt8} {e : Err}

/-- The walk over an enclosed block. -/
theorem Encloses.walk_error_iff {major : UInt8} {o : Tier0} {b : List UInt8} {s : DecodeExtOut σ}
    (h : Encloses data major o b) :
    statusOf ((tier0DecodeExtAccept data accept).run s) = some (.status e) ↔
      Stops accept none b s.user e := by
  obtain ⟨hsize, htake⟩ := h.starts
  have hr := extensionReaderInit_ok hsize
  have hrest : (extensionReaderInit (data.drop (o.size major + (Base128.encode b.length).length))
      b.length).rest = b := by rw [rest_init, htake]
  have hfuel : (extensionReaderInit (data.drop (o.size major + (Base128.encode b.length).length))
      b.length).rest.length < b.length + 1 := by
    rw [hrest]
    omega
  have hwalk : (∃ s', (validateLoop accept (b.length + 1) (extensionReaderInit
      (data.drop (o.size major + (Base128.encode b.length).length)) b.length)).run
      { s with object := o } = .error (.status e) s') ↔ _ := validateLoop_error_iff hr hfuel
  rw [hrest, previous_init] at hwalk
  rw [tier0DecodeExtAccept_encloses h, ← hwalk]
  cases hrun : (validateLoop accept (b.length + 1) (extensionReaderInit
      (data.drop (o.size major + (Base128.encode b.length).length)) b.length)).run
      { s with object := o } with
  | ok _ s' =>
      constructor
      · intro hstatus
        cases hstatus
      · rintro ⟨s'', h⟩
        cases h
  | error x s' =>
      simp only [statusOf_error]
      constructor
      · intro hstatus
        rw [Option.some.inj hstatus]
        exact ⟨s', rfl⟩
      · rintro ⟨s'', h⟩
        cases h
        rfl

/-- A reason to refuse a buffer is the status of the decoder. -/
theorem Refusal.status {s : DecodeExtOut σ} (h : Refusal accept data s.user e) :
    statusOf ((tier0DecodeExtAccept data accept).run s) = some (.status e) := by
  cases h with
  | head hbad => rw [tier0DecodeExtAccept_run, decodeHead_error_iff.mpr hbad, statusOf_error]
  | padding hof hpad =>
      rw [tier0DecodeExtAccept_run, decodeHead_eq_ok.mpr hof]
      simp only
      rw [if_neg hpad, statusOf_error]
  | length hpresents hbad =>
      have hone : ¬ (1 : UInt8) = 0 := by decide
      rw [tier0DecodeExtAccept_run, decodeHead_eq_ok.mpr hpresents.head_of]
      simp only [Tier0.extensionPresent_head, Tier0.required_head,
        (blockHead_error_iff hpresents.length).mpr hbad]
      rw [if_pos hpresents.padded, if_neg hone, statusOf_error]
  | block hencloses hstops => exact hencloses.walk_error_iff.mpr hstops

/-- The size of a decoded object is the one its head announces. -/
theorem size_objectAt {head : Head} (h : head.Of data) :
    (objectAt (bitsOf data) head).size head.header.majorVersion = head.required := by
  rw [h.required, Tier0.size]
  exact congrArg _ (kind_bodyAt _ _ _)

/-- Whatever fails, there is such a reason. -/
theorem refusal_of_status {s : DecodeExtOut σ} {x : Exit}
    (h : statusOf ((tier0DecodeExtAccept data accept).run s) = some x) :
    ∃ e, x = .status e ∧ Refusal accept data s.user e := by
  cases hhead : decodeHead data with
  | error y =>
      rw [tier0DecodeExtAccept_run, hhead, statusOf_error] at h
      obtain rfl : y = x := Option.some.inj h
      cases y with
      | fault => exact absurd hhead (decodeHead_ne_fault data)
      | status e => exact ⟨e, rfl, Refusal.head (decodeHead_error_iff.mp hhead)⟩
  | ok head =>
      have hof := decodeHead_eq_ok.mp hhead
      by_cases hpad : Padded (bitsOf data) head
      · have hpresents := hof.presents hpad
        have hsize := size_objectAt hof
        rcases ext_bit_iff.mp hpresents.ext_le with hext | hext
        · rw [hext] at hpresents
          rw [tier0DecodeExtAccept_plain hpresents] at h
          cases h
        · rw [hext] at hpresents
          cases hfound : blockHead data head.required with
          | error y =>
              cases y with
              | fault => exact absurd hfound (blockHead_ne_fault hof.length)
              | status e =>
                  rw [← hsize] at hfound
                  have hrefusal : Refusal accept data s.user e :=
                    Refusal.length hpresents ((blockHead_error_iff hpresents.length).mp hfound)
                  rw [hrefusal.status] at h
                  exact ⟨e, (Option.some.inj h).symm, hrefusal⟩
          | ok found =>
              rw [← hsize] at hfound
              obtain ⟨b, hb⟩ := hpresents.encloses hfound
              cases x with
              | fault => exact absurd h (decodeExt_ne_fault data accept s)
              | status e => exact ⟨e, rfl, Refusal.block hb (hb.walk_error_iff.mp h)⟩
      · have hrefusal : Refusal accept data s.user .noncanonical := Refusal.padding hof hpad
        rw [hrefusal.status] at h
        exact ⟨_, (Option.some.inj h).symm, hrefusal⟩

/-- The decoder of the fixed body. -/
theorem decodeBody_status_iff {t : DecodeOut} {x : Exit} :
    statusOf ((tier0DecodeBody data).run t) = some x ↔
      ∃ e, x = .status e ∧ BodyRefusal data e := by
  have hrun := tier0DecodeBody_run data t
  have hsound : ∀ {e : Err}, BodyRefusal data e →
      statusOf ((tier0DecodeBody data).run t) = some (.status e) := by
    intro e h
    cases h with
    | head hbad => rw [hrun, decodeHead_error_iff.mpr hbad, statusOf_error]
    | padding hof hpad =>
        rw [hrun, decodeHead_eq_ok.mpr hof]
        simp only
        rw [if_neg hpad, statusOf_error]
  constructor
  · intro h
    cases hhead : decodeHead data with
    | error y =>
        rw [hrun, hhead, statusOf_error] at h
        obtain rfl : y = x := Option.some.inj h
        cases y with
        | fault => exact absurd hhead (decodeHead_ne_fault data)
        | status e => exact ⟨e, rfl, BodyRefusal.head (decodeHead_error_iff.mp hhead)⟩
    | ok head =>
        by_cases hpad : Padded (bitsOf data) head
        · rw [hrun, hhead] at h
          simp only [if_pos hpad] at h
          cases h
        · have hrefusal := BodyRefusal.padding (decodeHead_eq_ok.mp hhead) hpad
          rw [hsound hrefusal] at h
          exact ⟨_, (Option.some.inj h).symm, hrefusal⟩
  · rintro ⟨e, rfl, h⟩
    exact hsound h

/-- The decoder of objects without extensions. -/
theorem decode_status_iff {t : DecodeOut} {x : Exit} :
    statusOf ((tier0Decode data).run t) = some x ↔ ∃ e, x = .status e ∧ PlainRefusal data e := by
  by_cases hlen : data.length < commonHeaderSize
  · rw [tier0Decode_short hlen, statusOf_error]
    constructor
    · intro h
      exact ⟨_, (Option.some.inj h).symm, PlainRefusal.short hlen⟩
    · rintro ⟨e, rfl, h⟩
      cases h with
      | short _ => rfl
      | extended hheader _ => exact absurd hlen (length_of_headerDecode hheader)
      | body hheader _ _ => exact absurd hlen (length_of_headerDecode hheader)
  · obtain ⟨header, hheader, -⟩ := headerDecode_spec (Nat.le_of_not_lt hlen)
    have hsame : ∀ {header' : Header}, headerDecode data = .ok header' → header' = header := by
      intro header' h
      rw [hheader] at h
      exact (Except.ok.inj h).symm
    rw [tier0Decode_run hheader]
    by_cases hext : header.extensionPresent = 0
    · rw [if_pos hext, decodeBody_status_iff]
      constructor
      · rintro ⟨e, rfl, h⟩
        exact ⟨e, rfl, PlainRefusal.body hheader hext h⟩
      · rintro ⟨e, rfl, h⟩
        cases h with
        | short h => exact absurd h hlen
        | extended hheader' hext' => exact absurd (hsame hheader' ▸ hext) hext'
        | body _ _ h => exact ⟨e, rfl, h⟩
    · rw [if_neg hext, statusOf_error]
      constructor
      · intro h
        exact ⟨_, (Option.some.inj h).symm, PlainRefusal.extended hheader hext⟩
      · rintro ⟨e, rfl, h⟩
        cases h with
        | short h => exact absurd h hlen
        | extended _ _ => rfl
        | body hheader' hext' _ => exact absurd (hsame hheader' ▸ hext') hext

/-- Every status of every decoder, read off the buffer. `mcl_wire_tier0_decode_body` fails with a
status exactly where `BodyRefusal` gives it, `mcl_wire_tier0_decode` exactly where `PlainRefusal`
does, and `mcl_wire_tier0_decode_ext_accept`, for any caller, exactly where `Refusal` does; where
there is no reason to refuse a buffer, they return `OK`. -/
theorem decode_refusals (data : List UInt8) :
    (∀ (t : DecodeOut) (x : Exit), statusOf ((tier0DecodeBody data).run t) = some x ↔
      ∃ e, x = .status e ∧ BodyRefusal data e) ∧
    (∀ (t : DecodeOut) (x : Exit), statusOf ((tier0Decode data).run t) = some x ↔
      ∃ e, x = .status e ∧ PlainRefusal data e) ∧
    ∀ (accept : Option (Accept σ)) (s : DecodeExtOut σ) (x : Exit),
      statusOf ((tier0DecodeExtAccept data accept).run s) = some x ↔
        ∃ e, x = .status e ∧ Refusal accept data s.user e := by
  refine ⟨fun t x => decodeBody_status_iff, fun t x => decode_status_iff, ?_⟩
  intro accept s x
  constructor
  · exact refusal_of_status
  · rintro ⟨e, rfl, h⟩
    exact h.status

/-- Padding is looked at before the block, and the block's length before what is in it: a HAZARD with
a padding bit set and no block, one with an empty block, and one with a block of which only its
malformed first byte is there. -/
example :
    statusOf ((tier0DecodeExt (σ := Unit) ([0x03, 0x09] ++ List.replicate 12 0 ++ [0x01])).run
      ⟨⟨0, 0, .presence {}⟩, ⟨[], 0, 0, 0, 0⟩, 0, ()⟩) = some (.status .noncanonical) ∧
    statusOf ((tier0DecodeExt (σ := Unit) ([0x03, 0x09] ++ List.replicate 13 0 ++ [0x00])).run
      ⟨⟨0, 0, .presence {}⟩, ⟨[], 0, 0, 0, 0⟩, 0, ()⟩) = some (.status .noncanonical) ∧
    statusOf ((tier0DecodeExt (σ := Unit) ([0x03, 0x09] ++ List.replicate 13 0 ++ [0x02, 0x00])).run
      ⟨⟨0, 0, .presence {}⟩, ⟨[], 0, 0, 0, 0⟩, 0, ()⟩) = some (.status .truncated) := by
  decide +kernel

end Decoders

end MclWire
