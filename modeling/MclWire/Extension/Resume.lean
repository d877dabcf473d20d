import MclWire.Extension.Calls

/-!
# Calling the reader again after a failure

A call of `mcl_wire_extension_reader_next` that fails behind the key has moved the offset over what
it has read. A further call goes on from there, in the middle of the TLV that was rejected, and may
find an extension.

* `Rejected` — a rejected TLV, and the bytes the failing call leaves in front of the reader.
* `DeadEnd` — the bytes over which every further call fails (`allFail_iff`).
* `errors_final_iff` — the blocks over which a failure is final.
-/

namespace MclWire

open SelfDelimiting (Code)
open Footprint (stateOf stateOf_ok stateOf_error)

/-! ## Dead ends

What a reader does after a failure depends on where the failing call has left it. `Rejected` says that of
the bytes: which TLV is rejected, and what stands behind the part of it that has been read. From there on
either nothing but rejections follow, and at last something that is no varint, or there comes a TLV. -/

/-- A key whose id may stand behind the id before. -/
def GoodId (previous : Option UInt32) (key : UInt32) : Prop :=
  key >>> 1 ≠ 0 ∧ ∀ p, previous = some p → p < key >>> 1

/-- The bytes start with no varint. -/
def NoVarint (d : List UInt8) : Prop := ∀ v : UInt32, ¬ Base128.encode v.toNat <+: d

/-- `Rejected previous d d'`: behind the id `previous` the bytes `d` start with a TLV that is
rejected, at its key, its id, its length or its value, and `d'` is what is left of them. -/
inductive Rejected (previous : Option UInt32) : List UInt8 → List UInt8 → Prop
  | key {d : List UInt8} : d ≠ [] → NoVarint d → Rejected previous d d
  | id {key : UInt32} {d : List UInt8} : ¬ GoodId previous key →
      Rejected previous (Base128.encode key.toNat ++ d) d
  | length {key : UInt32} {d : List UInt8} : GoodId previous key → NoVarint d →
      Rejected previous (Base128.encode key.toNat ++ d) d
  | value {key size : UInt32} {d : List UInt8} : GoodId previous key → d.length < size.toNat →
      Rejected previous (Base128.encode key.toNat ++ (Base128.encode size.toNat ++ d)) d

/-- Rejected TLVs one behind the other, and at last bytes that start with no varint. -/
inductive DeadEnd (previous : Option UInt32) : List UInt8 → Prop
  | noVarint {d : List UInt8} : d ≠ [] → NoVarint d → DeadEnd previous d
  | rejected {d d' : List UInt8} : Rejected previous d d' → DeadEnd previous d' → DeadEnd previous d

/-- A row of TLVs behind which there is nothing, or a dead end. -/
inductive Ends : Option UInt32 → List UInt8 → Prop
  | done (previous : Option UInt32) : Ends previous []
  | dead {previous : Option UInt32} {d : List UInt8} : DeadEnd previous d → Ends previous d
  | tlv {previous : Option UInt32} {t : Tlv} {d : List UInt8} : tlvCode.Follows previous t →
      Ends (some t.val.id) d → Ends previous (t.bytes ++ d)

section Rejected

variable {previous : Option UInt32} {d d' : List UInt8}

theorem Rejected.ne_nil (h : Rejected previous d d') : d ≠ [] := by
  have hpos : ∀ (key : UInt32) (e : List UInt8), Base128.encode key.toNat ++ e ≠ [] := by
    intro key e hnil
    have hlen := congrArg List.length hnil
    have hkey := Base128.length_encode_pos key.toNat
    rw [List.length_append, List.length_nil] at hlen
    omega
  cases h with
  | key hne _ => exact hne
  | id _ => exact hpos _ _
  | length _ _ => exact hpos _ _
  | value _ _ => exact hpos _ _

/-- Unless not even a key stands there, less is left than there was. -/
theorem Rejected.shorter (h : Rejected previous d d') : NoVarint d ∨ d'.length < d.length := by
  cases h with
  | key _ hno => exact Or.inl hno
  | @id key _ _ =>
      have hkey := Base128.length_encode_pos key.toNat
      rw [List.length_append]
      exact Or.inr (by omega)
  | @length key _ _ _ =>
      have hkey := Base128.length_encode_pos key.toNat
      rw [List.length_append]
      exact Or.inr (by omega)
  | @value key size _ _ _ =>
      have hkey := Base128.length_encode_pos key.toNat
      rw [List.length_append, List.length_append]
      exact Or.inr (by omega)

/-- A string starts with at most one varint. -/
theorem varint_unique {v w : UInt32} {e e' : List UInt8}
    (h : Base128.encode v.toNat ++ e = Base128.encode w.toNat ++ e') : v = w ∧ e = e' := by
  have hvalue : v.toNat = w.toNat := Base128.encode_unique (List.prefix_append _ e)
    (h ▸ List.prefix_append _ e')
  rw [← hvalue] at h
  exact ⟨UInt32.toNat_inj.mp hvalue, List.append_cancel_left h⟩

theorem NoVarint.not_append {v : UInt32} {e : List UInt8} (h : NoVarint (Base128.encode v.toNat ++ e)) :
    False := h v (List.prefix_append _ e)

/-- What is left of a rejected TLV is determined. -/
theorem Rejected.unique {e : List UInt8} (h : Rejected previous d d') (h' : Rejected previous d e) :
    d' = e := by
  generalize hd : d = c at h'
  cases h with
  | key _ hno =>
      subst hd
      cases h' with
      | key _ _ => rfl
      | id _ => exact hno.not_append.elim
      | length _ _ => exact hno.not_append.elim
      | value _ _ => exact hno.not_append.elim
  | id hbad =>
      cases h' with
      | key _ hno => exact (hd ▸ hno).not_append.elim
      | id _ => exact (varint_unique hd).2
      | length hgood _ => exact absurd ((varint_unique hd).1 ▸ hgood) hbad
      | value hgood _ => exact absurd ((varint_unique hd).1 ▸ hgood) hbad
  | length hgood hno =>
      cases h' with
      | key _ hno' => exact (hd ▸ hno').not_append.elim
      | id hbad => exact absurd ((varint_unique hd).1 ▸ hgood) hbad
      | length _ _ => exact (varint_unique hd).2
      | value _ _ => exact ((varint_unique hd).2 ▸ hno).not_append.elim
  | value hgood _ =>
      cases h' with
      | key _ hno' => exact (hd ▸ hno').not_append.elim
      | id hbad => exact absurd ((varint_unique hd).1 ▸ hgood) hbad
      | length _ hno' => exact ((varint_unique hd).2 ▸ hno').not_append.elim
      | value _ _ => exact (varint_unique (varint_unique hd).2).2

/-- No TLV stands where one is rejected. -/
theorem Rejected.no_tlv (h : Rejected previous d d') {t : Tlv} (hfollows : tlvCode.Follows previous t) :
    ¬ t.bytes <+: d := by
  intro ht
  obtain ⟨more, hmore⟩ := ht
  have hkeylt := t.key_lt
  obtain ⟨hid, hid', hcritical, hvalue⟩ := t.property
  have hkey : (UInt32.ofNat t.key).toNat = t.key := by
    rw [UInt32.toNat_ofNat', Nat.mod_eq_of_lt hkeylt]
  have hsize : (UInt32.ofNat t.val.value.length).toNat = t.val.value.length := by
    rw [UInt32.toNat_ofNat', Nat.mod_eq_of_lt hvalue]
  have hgood : GoodId previous (UInt32.ofNat t.key) := by
    rw [GoodId, (key_parts hkey).1]
    refine ⟨?_, hfollows⟩
    rw [ne_eq, ← UInt32.toNat_inj, UInt32.toNat_zero]
    omega
  rw [Tlv.bytes, List.append_assoc, List.append_assoc, ← hkey, ← hsize] at hmore
  cases h with
  | key _ hno => exact (hmore ▸ hno).not_append
  | id hbad => exact hbad ((varint_unique hmore).1 ▸ hgood)
  | length _ hno => exact ((varint_unique hmore).2 ▸ hno).not_append
  | value _ hshort =>
      obtain ⟨rfl, htail⟩ := varint_unique (varint_unique hmore).2
      rw [hsize, ← htail, List.length_append] at hshort
      omega

end Rejected

/-! ## Failing calls, read off the bytes

A call fails exactly where a TLV is rejected, and then it leaves the bytes that `Rejected` leaves. This
connects the exits of the code (`Rejects`) to the relation above, in both directions. -/

/-- A call on the reader fails. -/
def ExtensionReader.Fails (r : ExtensionReader) : Prop := statusOf (extensionReaderNext.run r) ≠ none

section Calls

variable {r r' : ExtensionReader}

theorem goodId_iff {key : UInt32} :
    ¬ (key >>> 1 = 0 ∨ (r.hasPrevious ≠ 0 ∧ key >>> 1 ≤ r.previousId)) ↔ GoodId r.previous key := by
  rw [not_or, GoodId, ExtensionReader.previous]
  by_cases h : r.hasPrevious = 0
  · simp [h]
  · simp [h]

/-- The reader moved on by `k` bytes. -/
theorem rest_move (r : ExtensionReader) (k : Nat) :
    ({ r with offset := r.offset + k } : ExtensionReader).rest = r.rest.drop k := by
  rw [ExtensionReader.rest, ExtensionReader.rest, drop_slice, Nat.sub_sub]

/-- A varint in front of the rest, and the rest behind it. -/
theorem rest_split {off k : Nat} {v : UInt32} (hoff : r.offset ≤ off)
    (h : uvarintDecode (r.data.drop off) (r.size - off) = .ok (v, k)) :
    r.rest.drop (off - r.offset) = Base128.encode v.toNat ++ r.rest.drop (off - r.offset + k) := by
  obtain ⟨hspell, rfl⟩ := (uvarintDecode_rest_eq_ok hoff).mp h
  obtain ⟨more, hmore⟩ := hspell
  rw [← List.drop_drop, ← hmore, List.drop_left]

/-- No varint in front of the rest. -/
theorem noVarint_rest {off : Nat} {e : Exit} (hoff : r.offset ≤ off)
    (h : uvarintDecode (r.data.drop off) (r.size - off) = .error e) :
    NoVarint (r.rest.drop (off - r.offset)) := by
  intro v hv
  have hok := (uvarintDecode_rest_eq_ok hoff).mpr ⟨hv, rfl⟩
  rw [h] at hok
  cases hok

/-- The exits of the reader reject TLVs. -/
theorem Rejects.rejected {e : Err} (hr : r.Ok) (hne : r.rest ≠ []) (h : Rejects r e r') :
    Rejected r.previous r.rest r'.rest ∧ r'.previous = r.previous := by
  cases h with
  | key hkey =>
      have hno := noVarint_rest (Nat.le_refl _) hkey
      rw [Nat.sub_self, List.drop_zero] at hno
      exact ⟨Rejected.key hne hno, rfl⟩
  | @id key k hkey hbad =>
      have hsplit := rest_split (Nat.le_refl _) hkey
      rw [Nat.sub_self, List.drop_zero, Nat.zero_add, ← rest_move] at hsplit
      rw [← not_not (a := _ ∨ _), goodId_iff] at hbad
      refine ⟨?_, rfl⟩
      rw [hsplit]
      exact Rejected.id hbad
  | @length key k _ hkey hgood hlen =>
      have hsplit := rest_split (Nat.le_refl _) hkey
      have hno := noVarint_rest (Nat.le_add_right _ _) hlen
      rw [Nat.add_sub_cancel_left, ← rest_move] at hno
      rw [Nat.sub_self, List.drop_zero, Nat.zero_add, ← rest_move] at hsplit
      refine ⟨?_, rfl⟩
      rw [hsplit]
      exact Rejected.length (goodId_iff.mp hgood) hno
  | @value key size k l hkey hgood hlen hshort =>
      have hsplit := rest_split (Nat.le_refl _) hkey
      have hsplit' := rest_split (Nat.le_add_right _ _) hlen
      rw [Nat.sub_self, List.drop_zero, Nat.zero_add] at hsplit
      rw [Nat.add_sub_cancel_left, ← rest_move r (k + l)] at hsplit'
      rw [hsplit'] at hsplit
      have hleft : ({ r with offset := r.offset + (k + l) } : ExtensionReader).rest.length <
          size.toNat := by
        rw [rest_move, List.length_drop, r.length_rest hr]
        omega
      rw [Nat.add_assoc]
      refine ⟨?_, rfl⟩
      rw [hsplit]
      exact Rejected.value (goodId_iff.mp hgood) hleft

/-- A call that fails rejects the TLV in front of the reader. -/
theorem ExtensionReader.Fails.rejected (hr : r.Ok) (h : r.Fails) :
    Rejected r.previous r.rest r.next.rest ∧ r.next.previous = r.previous := by
  rw [Fails] at h
  rw [next]
  rcases next_cases hr with ⟨-, hrun⟩ | ⟨t, -, -, hrun⟩ | ⟨hno, e, r', hrejects, hrun⟩
  · rw [hrun] at h
    exact absurd rfl h
  · rw [hrun] at h
    exact absurd rfl h
  · rw [hrun, stateOf_error]
    refine hrejects.rejected hr ?_
    intro hnil
    have hend : r.offset = r.size := by
      have hlen := r.length_rest hr
      have hoffset := hr.offset
      rw [hnil, List.length_nil] at hlen
      omega
    rw [extensionReaderNext_done hend] at hrun
    cases hrun

/-- A call over a rejected TLV fails. -/
theorem Rejected.fails {d : List UInt8} (hr : r.Ok) (h : Rejected r.previous r.rest d) :
    r.Fails ∧ r.next.rest = d := by
  have hfails : r.Fails := by
    rw [ExtensionReader.Fails]
    rcases next_cases hr with ⟨hnil, -⟩ | ⟨t, hfollows, ht, -⟩ | ⟨-, e, r', -, hrun⟩
    · exact absurd hnil h.ne_nil
    · exact absurd ht (h.no_tlv hfollows)
    · rw [hrun, statusOf_error]
      simp
  exact ⟨hfails, (hfails.rejected hr).1.unique h⟩

end Calls

/-! ## All further calls

If all calls fail, the bytes in front of the reader are a dead end, and the other way round. In the one
direction the induction is on the number of those bytes, since a call that fails either leaves fewer of
them or is stuck in front of a varint that there is none; in the other one it is on the dead end, with
the number of calls left open. -/

section Runs

variable {r : ExtensionReader}

/-- Bytes that start with no varint are never left behind. -/
theorem noVarint_after (hr : r.Ok) (hne : r.rest ≠ []) (hno : NoVarint r.rest) (n : Nat) :
    (r.after n).Ok ∧ (r.after n).rest = r.rest ∧ (r.after n).Fails := by
  induction n with
  | zero => exact ⟨hr, rfl, ((Rejected.key hne hno).fails hr).1⟩
  | succ n ih =>
      obtain ⟨hok, hrest, -⟩ := ih
      have hkey : Rejected (r.after n).previous (r.after n).rest r.rest := by
        rw [hrest]
        exact Rejected.key hne hno
      have hrest' : (r.after (n + 1)).rest = r.rest := (hkey.fails hok).2
      have hok' : (r.after (n + 1)).Ok := hok.next
      have hkey' : Rejected (r.after (n + 1)).previous (r.after (n + 1)).rest r.rest := by
        rw [hrest']
        exact Rejected.key hne hno
      exact ⟨hok', hrest', (hkey'.fails hok').1⟩

theorem DeadEnd.allFail {previous : Option UInt32} {d : List UInt8} (h : DeadEnd previous d) :
    ∀ {r : ExtensionReader}, r.Ok → r.previous = previous → r.rest = d → ∀ n, (r.after n).Fails := by
  induction h with
  | noVarint hne hno =>
      rintro r hr - rfl n
      exact (noVarint_after hr hne hno n).2.2
  | rejected hrejected _ ih =>
      rintro r hr rfl rfl n
      obtain ⟨hfails, hrest⟩ := hrejected.fails hr
      cases n with
      | zero => exact hfails
      | succ n =>
          rw [after_succ]
          exact ih hr.next (hfails.rejected hr).2 hrest n

/-- Every call fails exactly over a dead end. -/
theorem allFail_iff (hr : r.Ok) : (∀ n, (r.after n).Fails) ↔ DeadEnd r.previous r.rest := by
  constructor
  · intro h
    induction hn : r.rest.length using Nat.strongRecOn generalizing r with
    | _ n ih =>
      subst hn
      obtain ⟨hrejected, hprevious⟩ := (h 0).rejected hr
      rcases hrejected.shorter with hno | hshorter
      · exact DeadEnd.noVarint hrejected.ne_nil hno
      · have hnext : ∀ n, (r.next.after n).Fails := by
          intro n
          rw [← after_succ]
          exact h (n + 1)
        have hdead := ih _ hshorter hr.next hnext rfl
        rw [hprevious] at hdead
        exact DeadEnd.rejected hrejected hdead
  · intro h
    exact h.allFail hr rfl rfl

/-- A failure is final: once a call has failed, every later call fails. -/
def ExtensionReader.Final (r : ExtensionReader) : Prop :=
  ∀ m n, m < n → (r.after m).Fails → (r.after n).Fails

theorem ExtensionReader.Final.next (h : r.Final) : r.next.Final := by
  intro m n hmn hm
  rw [← after_succ] at hm ⊢
  exact h (m + 1) (n + 1) (Nat.succ_lt_succ hmn) hm

theorem ExtensionReader.Final.ends (hr : r.Ok) (h : r.Final) : Ends r.previous r.rest := by
  induction hn : r.rest.length using Nat.strongRecOn generalizing r with
  | _ n ih =>
    subst hn
    rcases next_cases hr with ⟨hnil, -⟩ | ⟨t, hfollows, ht, hrun⟩ | ⟨-, e, r', -, hrun⟩
    · rw [hnil]
      exact Ends.done _
    · have hskip : r.next = r.skip t := by rw [ExtensionReader.next, hrun, stateOf_ok]
      have hfinal := h.next
      have hlt : (r.skip t).rest.length < r.rest.length := by
        have hle := ht.length_le
        have htwo := t.two_le_length
        rw [r.rest_skip, List.length_drop]
        omega
      rw [hskip] at hfinal
      have htail := ih _ hlt (hr.skip ht) hfinal rfl
      obtain ⟨more, hmore⟩ := ht
      rw [r.rest_skip, ← hmore, List.drop_left] at htail
      rw [← hmore]
      exact Ends.tlv hfollows htail
    · have hfails : (r.after 0).Fails := by
        show statusOf (extensionReaderNext.run r) ≠ none
        rw [hrun, statusOf_error]
        simp
      apply Ends.dead
      apply (allFail_iff hr).mp
      intro n
      cases n with
      | zero => exact hfails
      | succ n => exact h 0 (n + 1) (Nat.succ_pos n) hfails

theorem not_fails_of_done (h : r.offset = r.size) : ¬ r.Fails := by
  intro hfails
  rw [ExtensionReader.Fails, extensionReaderNext_done h] at hfails
  exact hfails rfl

theorem offset_eq_size (hr : r.Ok) (h : r.rest = []) : r.offset = r.size := by
  have hlen := r.length_rest hr
  have hoffset := hr.offset
  rw [h, List.length_nil] at hlen
  omega

theorem tlv_not_fails (hr : r.Ok) {t : Tlv} (hfollows : tlvCode.Follows r.previous t)
    (ht : t.bytes <+: r.rest) : ¬ r.Fails ∧ r.next = r.skip t := by
  have hrun := extensionReaderNext_tlv hr hfollows ht
  constructor
  · intro hfails
    rw [ExtensionReader.Fails, hrun] at hfails
    exact hfails rfl
  · rw [ExtensionReader.next, hrun, stateOf_ok]

theorem Ends.final {previous : Option UInt32} {d : List UInt8} (h : Ends previous d) :
    ∀ {r : ExtensionReader}, r.Ok → r.previous = previous → r.rest = d → r.Final := by
  induction h with
  | done previous =>
      intro r hr _ hrest m n _ hm
      have hend := offset_eq_size hr hrest
      rw [after_of_done hend] at hm
      exact absurd hm (not_fails_of_done hend)
  | dead hdead =>
      intro r hr hprevious hrest m n _ _
      exact hdead.allFail hr hprevious hrest n
  | @tlv previous t d hfollows _ ih =>
      intro r hr hprevious hrest m n hmn hm
      have ht : t.bytes <+: r.rest := by
        rw [hrest]
        exact List.prefix_append _ _
      rw [← hprevious] at hfollows
      obtain ⟨hok, hnext⟩ := tlv_not_fails hr hfollows ht
      have hskip : (r.skip t).rest = d := by rw [r.rest_skip, hrest, List.drop_left]
      cases m with
      | zero => exact absurd hm hok
      | succ m =>
          obtain ⟨k, rfl⟩ : ∃ k, n = k + 1 := ⟨n - 1, by omega⟩
          rw [after_succ, hnext] at hm ⊢
          exact ih (hr.skip ht) rfl hskip m k (by omega) hm

/-- What is yielded is a TLV of the row in front of the reader, in its place. -/
theorem Ends.yields {previous : Option UInt32} {d : List UInt8} (h : Ends previous d) :
    ∀ {r : ExtensionReader}, r.Ok → r.previous = previous → r.rest = d →
      ∀ {n : Nat} {x : Extension Slice}, (r.after n).yields = some x →
        ∃ ts t, tlvCode.Chain previous (ts ++ [t]) ∧ blockOf (ts ++ [t]) <+: d ∧
          x.map (Slice.content r.data) = t.val ∧
          x.value.offset + x.value.size = r.offset + (blockOf (ts ++ [t])).length := by
  induction h with
  | done previous =>
      intro r hr _ hrest n x hx
      have hend := offset_eq_size hr hrest
      rw [after_of_done hend, ExtensionReader.yields, extensionReaderNext_done hend] at hx
      cases hx
  | dead hdead =>
      intro r hr hprevious hrest n x hx
      have hfails := hdead.allFail hr hprevious hrest n
      rw [ExtensionReader.Fails] at hfails
      rw [ExtensionReader.yields] at hx
      cases hrun : extensionReaderNext.run (r.after n) with
      | ok found r' =>
          rw [hrun] at hfails
          exact absurd rfl hfails
      | error e r' =>
          rw [hrun] at hx
          cases hx
  | @tlv previous t d hfollows _ ih =>
      intro r hr hprevious hrest n x hx
      have ht : t.bytes <+: r.rest := by
        rw [hrest]
        exact List.prefix_append _ _
      rw [← hprevious] at hfollows
      have hnext := (tlv_not_fails hr hfollows ht).2
      have hskip : (r.skip t).rest = d := by rw [r.rest_skip, hrest, List.drop_left]
      cases n with
      | zero =>
          have hfound : r.yields = some (r.found t) := by
            rw [ExtensionReader.yields, extensionReaderNext_tlv hr hfollows ht]
          have hx' : r.yields = some x := hx
          rw [hfound] at hx'
          cases hx'
          refine ⟨[], t, ?_, ?_, ExtensionReader.content_found hr ht, ?_⟩
          · exact Code.Chain.cons (hprevious ▸ hfollows) (Code.Chain.nil _)
          · rw [List.nil_append, blockOf_cons, blockOf_nil, List.append_nil]
            exact List.prefix_append _ _
          · rw [List.nil_append, blockOf_cons, blockOf_nil, List.append_nil]
            exact (found_bounds r t).2
      | succ n =>
          rw [after_succ, hnext] at hx
          obtain ⟨ts, u, hchain, hblock, hcontent, hplace⟩ := ih (hr.skip ht) rfl hskip hx
          refine ⟨t :: ts, u, Code.Chain.cons (hprevious ▸ hfollows) hchain, ?_, hcontent, ?_⟩
          · rw [List.cons_append, blockOf_cons, List.prefix_append_right_inj]
            exact hblock
          · have hoffset : (r.skip t).offset = r.offset + t.bytes.length := rfl
            rw [List.cons_append, blockOf_cons, List.length_append]
            omega

end Runs

/-- All that the calls of a reader over `d` yield are TLVs of the well-formed part in front of `d`,
each in its place. -/
def YieldsBlock (d : List UInt8) : Prop :=
  ∀ n x, (readerAfter d n).yields = some x → ∃ ts t, IsBlock (ts ++ [t]) ∧
    blockOf (ts ++ [t]) <+: d ∧ x.map (Slice.content d) = t.val ∧
    x.value.offset + x.value.size = (blockOf (ts ++ [t])).length

/-- The failures of a reader over `d` are final, and it never yields but TLVs of the well-formed part
of the block, exactly when behind the TLVs that `d` starts with there is nothing or a dead end. -/
theorem errors_final_iff (d : List UInt8) :
    (∀ m n, m < n → (readerAfter d m).Fails → (readerAfter d n).Fails) ∧ YieldsBlock d ↔
      Ends none d := by
  have hinit : (extensionReaderInit d d.length).Ok := extensionReaderInit_ok (Nat.le_refl _)
  have hrest : (extensionReaderInit d d.length).rest = d := by rw [rest_init, List.take_length]
  constructor
  · rintro ⟨hfinal, -⟩
    have hends := ExtensionReader.Final.ends hinit hfinal
    rw [hrest] at hends
    exact hends
  · intro h
    refine ⟨h.final hinit rfl hrest, ?_⟩
    intro n x hx
    obtain ⟨ts, t, hchain, hblock, hcontent, hplace⟩ := h.yields hinit rfl hrest hx
    refine ⟨ts, t, hchain, hblock, hcontent, ?_⟩
    rw [hplace]
    exact Nat.zero_add _

/-- A zero byte, and an extension behind it: the first call refuses the id 0, the second call yields
an extension. -/
theorem errors_not_final :
    (readerAfter [0x00, 0x02, 0x00] 0).Fails ∧
    (readerAfter [0x00, 0x02, 0x00] 1).yields = some ⟨1, 0, ⟨3, 0⟩⟩ ∧
    ¬ ((∀ m n, m < n → (readerAfter [0x00, 0x02, 0x00] m).Fails →
      (readerAfter [0x00, 0x02, 0x00] n).Fails) ∧ YieldsBlock [0x00, 0x02, 0x00]) := by
  have hfails : (readerAfter [0x00, 0x02, 0x00] 0).Fails := by
    rw [ExtensionReader.Fails]
    decide +kernel
  have hyields : (readerAfter [0x00, 0x02, 0x00] 1).yields = some ⟨1, 0, ⟨3, 0⟩⟩ := by
    decide +kernel
  refine ⟨hfails, hyields, ?_⟩
  rintro ⟨hfinal, -⟩
  have hsecond := hfinal 0 1 Nat.zero_lt_one hfails
  rw [ExtensionReader.Fails] at hsecond
  exact hsecond (by decide +kernel)

end MclWire
