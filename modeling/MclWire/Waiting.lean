import MclWire.Refusals
import MclWire.Growing

/-!
# When more input helps

A receiver that gets `TRUNCATED` waits for more bytes. Mostly that helps; it does not where the length
of the block is already there and the block is cut off inside, since a TLV that claims to reach past
the end of its block is `TRUNCATED` as well.

* `Announces` — an object with extensions, and the length of its block.
* `Announces.status_iff` — from there on the status is that of the walk over the block, or
  `TRUNCATED` while the block is not complete.
* `exists_settling` — before that, some continuation settles the status.
* `truncated_final_iff` — the buffers for which no continuation does.
-/

namespace MclWire

variable {σ : Type}

/-- An object with the extension bit set stands in front of `data`, and behind it the length `n` of
its block. -/
structure Announces (data : List UInt8) (major : UInt8) (o : Tier0) (n : Nat) : Prop where
  presents : Presents data major 1 o
  length : Base128.encode n <+: data.drop (o.size major)
  pos : 0 < n
  small : n ≤ extensionBlockMax

/-- The place of a block of `n` bytes. -/
def blockStart (major : UInt8) (o : Tier0) (n : Nat) : Nat :=
  o.size major + (Base128.encode n).length

/-- One of the strings is the beginning of the other. -/
def Agree (b d : List UInt8) : Prop := b <+: d ∨ d <+: b

section Announces

variable {data more : List UInt8} {major : UInt8} {o : Tier0} {n : Nat}

theorem Presents.append {e : UInt8} (h : Presents data major e o) (more : List UInt8) :
    Presents (data ++ more) major e o :=
  ⟨h.carried, h.inRange, h.ext_le, h.whole, h.starts.trans (List.prefix_append _ _)⟩

theorem Announces.append (h : Announces data major o n) (more : List UInt8) :
    Announces (data ++ more) major o n := by
  refine ⟨h.presents.append more, ?_, h.pos, h.small⟩
  rw [List.drop_append_of_le_length h.presents.length]
  exact h.length.trans (List.prefix_append _ _)

theorem Announces.start_le (h : Announces data major o n) : blockStart major o n ≤ data.length := by
  have hle := h.length.length_le
  have hsize := h.presents.length
  rw [List.length_drop] at hle
  rw [blockStart]
  omega

/-- A block that is all there is enclosed. -/
theorem Announces.encloses (h : Announces data major o n)
    (hlen : blockStart major o n + n ≤ data.length) :
    Encloses data major o ((data.drop (blockStart major o n)).take n) := by
  have htake : ((data.drop (blockStart major o n)).take n).length = n := by
    rw [List.length_take, List.length_drop]
    omega
  refine ⟨h.presents, ?_, ?_, ?_⟩
  · rw [htake, starts_append_iff, List.drop_drop]
    exact ⟨h.length, List.take_prefix _ _⟩
  · rw [← List.length_pos_iff, htake]
    exact h.pos
  · rw [htake]
    exact h.small

theorem Encloses.announces {b : List UInt8} (h : Encloses data major o b) :
    Announces data major o b.length :=
  ⟨h.presents, (starts_append_iff.mp h.block).1, List.length_pos_iff.mpr h.nonempty, h.small⟩

/-- Behind an announced length the status is `TRUNCATED` or that of the walk. -/
theorem Announces.status_iff (h : Announces data major o n) {accept : Option (Accept σ)}
    {s : DecodeExtOut σ} :
    statusOf ((tier0DecodeExtAccept data accept).run s) = some (.status .truncated) ↔
      data.length < blockStart major o n + n ∨
        Stops accept none ((data.drop (blockStart major o n)).take n) s.user .truncated := by
  by_cases hlen : data.length < blockStart major o n + n
  · have hrefusal : Refusal accept data s.user .truncated :=
      Refusal.length h.presents (BadLength.cut h.length h.pos h.small hlen)
    rw [hrefusal.status]
    exact ⟨fun _ => Or.inl hlen, fun _ => rfl⟩
  · rw [(h.encloses (Nat.le_of_not_lt hlen)).walk_error_iff]
    constructor
    · exact Or.inr
    · rintro (hshort | hstops)
      · exact absurd hshort hlen
      · exact hstops

end Announces

/-! ## Settling continuations

A status of `TRUNCATED` asks for more bytes. In front of the block there is always a way to go on that
settles the status, and it is given explicitly for each place where the buffer can end. -/

section Settling

variable {data : List UInt8} {accept : Option (Accept σ)} {s : DecodeExtOut σ}

/-- Two bytes settle a header that is not complete: no kind has the opcode 31. -/
theorem settle_short (h : data.length < commonHeaderSize) :
    statusOf ((tier0DecodeExtAccept (data ++ [0xff, 0xff]) accept).run s) =
      some (.status .unsupportedSemantic) := by
  obtain ⟨header, hheader, hopcode⟩ : ∃ header, headerDecode (data ++ [0xff, 0xff]) = .ok header ∧
      header.opcode = 31 := by
    cases data with
    | nil => exact ⟨_, rfl, rfl⟩
    | cons b data =>
        cases data with
        | nil => exact ⟨_, rfl, rfl⟩
        | cons c data =>
            rw [List.length_cons, List.length_cons, commonHeaderSize] at h
            omega
  have hno : ∀ kind, kindAllowedAtMajor header.majorVersion kind = true →
      kindToCode kind ≠ (header.category, header.opcode) := by
    intro kind _ hcode
    have hsnd : (kindToCode kind).2 = 31 := (congrArg Prod.snd hcode).trans hopcode
    cases kind with
    | unassigned c => exact absurd hsnd (show ¬ (0xff : UInt8) = 31 by decide)
    | _ => exact absurd hsnd (by decide)
  have hrefusal : Refusal accept (data ++ [0xff, 0xff]) s.user .unsupportedSemantic :=
    Refusal.head (BadHead.unsupported hheader hno)
  exact hrefusal.status

/-- Zeros up to the end of the body, and one more, settle a body that is not complete. -/
theorem settle_cut {header : Header} {kind : Kind} (hheader : headerDecode data = .ok header)
    (hcarried : kindAllowedAtMajor header.majorVersion kind = true)
    (hcode : kindToCode kind = (header.category, header.opcode)) {more : List UInt8}
    (hmore : (data ++ more).length = tier0EncodedSizeAtMajor header.majorVersion kind) :
    statusOf ((tier0DecodeExtAccept (data ++ more ++ [0]) accept).run s) ≠
      some (.status .truncated) := by
  intro hstatus
  rw [List.append_assoc] at hstatus
  have hheader' := headerDecode_append hheader (more ++ [0])
  have hlen : (data ++ (more ++ [0])).length =
      tier0EncodedSizeAtMajor header.majorVersion kind + 1 := by
    rw [← List.append_assoc, List.length_append, hmore, List.length_singleton]
  have hhead := decodeHead_of_kind hheader' hcarried hcode
  rw [if_neg (by omega)] at hhead
  have hof := decodeHead_eq_ok.mp hhead
  by_cases hpad : Padded (bitsOf (data ++ (more ++ [0])))
      ⟨header, kind, tier0EncodedSizeAtMajor header.majorVersion kind⟩
  · have hpresents := hof.presents hpad
    rcases ext_bit_iff.mp hpresents.ext_le with hext | hext
    · rw [hext] at hpresents
      rw [tier0DecodeExtAccept_plain hpresents] at hstatus
      cases hstatus
    · rw [hext] at hpresents
      -- the length of the block is the zero behind the body
      have hempty : Base128.encode 0 <+: (data ++ (more ++ [0])).drop
          ((objectAt (bitsOf (data ++ (more ++ [0])))
            ⟨header, kind, tier0EncodedSizeAtMajor header.majorVersion kind⟩).size
              header.majorVersion) := by
        have hzero : Base128.encode 0 = [0] := by decide +kernel
        rw [size_objectAt hof, ← hmore, ← List.append_assoc, List.drop_left, hzero]
      have hrefusal : Refusal accept (data ++ (more ++ [0])) s.user .noncanonical :=
        Refusal.length hpresents (BadLength.empty hempty)
      rw [hrefusal.status] at hstatus
      cases hstatus
  · have hrefusal : Refusal accept (data ++ (more ++ [0])) s.user .noncanonical :=
      Refusal.padding hof hpad
    rw [hrefusal.status] at hstatus
    cases hstatus

/-- A row of five continuation bytes or more spells no varint. -/
theorem badVarint_of_continues {d : List UInt8} (hlen : 5 ≤ d.length)
    (hall : ∀ b ∈ d, Base128.Continues b) : BadVarint d .range := by
  apply BadVarint.range
  · intro v hv
    apply Base128.not_continues_final v.toNat
    apply hall
    apply hv.subset
    rw [Base128.encode]
    exact List.mem_concat_self
  · intro hcut
    have := hcut.1
    omega
  · intro hover
    apply hover.not_continues
    intro b hb
    exact hall b (List.mem_of_mem_take hb)

/-- Five continuation bytes settle a length that is not complete. -/
theorem settle_length {major : UInt8} {o : Tier0} (h : Presents data major 1 o)
    (hcut : CutOff (data.drop (o.size major))) :
    statusOf ((tier0DecodeExtAccept (data ++ List.replicate 5 0x80) accept).run s) =
      some (.status .range) := by
  have hdrop : (data ++ List.replicate 5 0x80).drop (o.size major) =
      data.drop (o.size major) ++ List.replicate 5 0x80 :=
    List.drop_append_of_le_length h.length
  have hbad : BadVarint ((data ++ List.replicate 5 0x80).drop (o.size major)) .range := by
    rw [hdrop]
    apply badVarint_of_continues
    · rw [List.length_append, List.length_replicate]
      exact Nat.le_add_left _ _
    · intro b hb
      rcases List.mem_append.mp hb with hb | hb
      · exact hcut.2 b hb
      · rw [List.eq_of_mem_replicate hb]
        decide
  have hrefusal : Refusal accept (data ++ List.replicate 5 0x80) s.user .range :=
    Refusal.length (h.append _) (BadLength.varint hbad)
  exact hrefusal.status

/-- Unless the length of a block is announced, some continuation settles the status. -/
theorem exists_settling (hno : ∀ major o n, ¬ Announces data major o n) :
    ∃ more, statusOf ((tier0DecodeExtAccept (data ++ more) accept).run s) ≠
      some (.status .truncated) := by
  by_contra hall
  push Not at hall
  have hnow := hall []
  rw [List.append_nil] at hnow
  obtain ⟨e, he, hrefusal⟩ := refusal_of_status hnow
  cases he
  cases hrefusal with
  | head hbad =>
      cases hbad with
      | short hlen =>
          have hlater := hall [0xff, 0xff]
          rw [settle_short hlen] at hlater
          cases hlater
      | @cut header kind hheader hcarried hcode hshort =>
          have hlen : (data ++ List.replicate
              (tier0EncodedSizeAtMajor header.majorVersion kind - data.length) 0).length =
              tier0EncodedSizeAtMajor header.majorVersion kind := by
            rw [List.length_append, List.length_replicate]
            omega
          have hlater := hall (List.replicate
            (tier0EncodedSizeAtMajor header.majorVersion kind - data.length) 0 ++ [0])
          rw [← List.append_assoc] at hlater
          exact settle_cut hheader hcarried hcode hlen hlater
  | length hpresents hbad =>
      cases hbad with
      | varint hbad =>
          cases hbad with
          | cutOff hcut =>
              have hlater := hall (List.replicate 5 0x80)
              rw [settle_length hpresents hcut] at hlater
              cases hlater
      | cut hspell hpos hsmall _ => exact hno _ _ _ ⟨hpresents, hspell, hpos, hsmall⟩
  | block hencloses _ => exact hno _ _ _ hencloses.announces

end Settling

/-! ## Final truncations

Inside a block whose length is announced this is different, since the walk over the block never looks
behind it. Up to its end every continuation is one of the block; with its last byte the status is that of
the walk, and stays what it is. -/

/-- A receiver that waits on `TRUNCATED` waits forever exactly where the length `n` of a block is
announced and every block of `n` bytes that agrees with what is there of it is cut off inside. Then
`TRUNCATED` is the status of every continuation; of every other buffer some continuation has another
status, or is accepted. -/
theorem truncated_final_iff (data : List UInt8) (accept : Option (Accept σ)) (s : DecodeExtOut σ) :
    (∀ more, statusOf ((tier0DecodeExtAccept (data ++ more) accept).run s) =
      some (.status .truncated)) ↔
    ∃ major o n, Announces data major o n ∧
      ∀ b : List UInt8, b.length = n → Agree b (data.drop (blockStart major o n)) →
        Stops accept none b s.user .truncated := by
  constructor
  · intro hall
    by_cases hno : ∀ major o n, ¬ Announces data major o n
    · have hsettled : ∃ more, statusOf ((tier0DecodeExtAccept (data ++ more) accept).run s) ≠
          some (.status .truncated) := exists_settling hno
      obtain ⟨more, hmore⟩ := hsettled
      exact absurd (hall more) hmore
    · push Not at hno
      obtain ⟨major, o, n, hannounces⟩ := hno
      refine ⟨major, o, n, hannounces, ?_⟩
      intro b hb hagree
      have hstart := hannounces.start_le
      -- complete what is there to `b`
      have hstatus := hall (b.drop (data.drop (blockStart major o n)).length)
      have hblock : ((data ++ b.drop (data.drop (blockStart major o n)).length).drop
          (blockStart major o n)).take n = b := by
        rw [List.drop_append_of_le_length hstart]
        rcases hagree with hagree | hagree
        · have hle := hagree.length_le
          subst hb
          rw [List.take_append_of_le_length hle]
          exact (List.prefix_iff_eq_take.mp hagree).symm
        · obtain ⟨rest, hrest⟩ := hagree
          rw [← hrest, List.drop_left, hrest, ← hb, List.take_length]
      rw [(hannounces.append _).status_iff, hblock] at hstatus
      rcases hstatus with hshort | hstops
      · rw [List.length_append, List.length_drop, List.length_drop] at hshort
        omega
      · exact hstops
  · rintro ⟨major, o, n, hannounces, hall⟩ more
    rw [(hannounces.append more).status_iff]
    have hstart := hannounces.start_le
    by_cases hlen : (data ++ more).length < blockStart major o n + n
    · exact Or.inl hlen
    · right
      apply hall
      · rw [List.length_take, List.length_drop]
        omega
      · rw [List.drop_append_of_le_length hstart, Agree]
        rcases Nat.le_total n (data.drop (blockStart major o n)).length with hle | hle
        · left
          rw [List.take_append_of_le_length hle]
          exact List.take_prefix _ _
        · right
          rw [List.prefix_take_iff]
          exact ⟨List.prefix_append _ _, hle⟩

end MclWire
