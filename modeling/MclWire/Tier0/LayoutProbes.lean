import MclWire.Tier0.LayoutTool

/-!
# What the layout tool compares

The checks of `check_kind` without the buffer and the calls that fill it.

* `checkPass_iff` — a pass over a row: the row can take the probe's value, its bits in the image of the
  object are those of the value, and the decoder gives the value back (`Shows`).
* `checkHeader_iff` — the size and the header codes.
* `checkSource_eq_nil`, `checkPadding_eq_nil` — the others do not fail where these do not.
-/

namespace MclWire

open Footprint (stateOf)

namespace LayoutTool

/-! ## Tables

The tool is run over tables of which it is not known that they are right. What is assumed of a table is
only that its rows leave no gap; what is known of the published one is collected in `Published`. -/

/-- Rows one behind the other, from bit `o` up to bit `stop`. -/
def Follows (stop : Nat) : Nat → List FieldRow → Prop
  | o, []      => o = stop
  | o, f :: fs => f.offset = o ∧ Follows stop (o + f.width) fs

instance decidableFollows (stop : Nat) : ∀ (o : Nat) (fs : List FieldRow), Decidable (Follows stop o fs)
  | o, []      => inferInstanceAs (Decidable (o = stop))
  | o, f :: fs =>
      have := decidableFollows stop (o + f.width) fs
      inferInstanceAs (Decidable (_ ∧ _))

/-- The probes of the row are defined, and have a sign where the row is signed. -/
def Probed (f : FieldRow) : Prop :=
  if f.isSigned then 2 ≤ f.width ∧ f.width ≤ 31 else 1 ≤ f.width ∧ f.width ≤ 32

instance (f : FieldRow) : Decidable (Probed f) :=
  inferInstanceAs (Decidable (if f.isSigned then 2 ≤ f.width ∧ f.width ≤ 31
    else 1 ≤ f.width ∧ f.width ≤ 32))

theorem Probed.bounds {f : FieldRow} (h : Probed f) : 1 ≤ f.width ∧ f.width ≤ 32 := by
  unfold Probed at h
  split at h <;> omega

/-- The number of bits up to the padding. -/
def bodyEnd (k : KindRow) : Nat := 8 * k.bytes - k.padBits

/-- The rows of a kind follow on each other from the end of `source_ref` to the padding, which is less
than a byte; and the object that they lay out fits the 64 bytes of the tool's own buffer, `bufferSize`.
A longer one would not even be encoded. -/
structure Contiguous (k : KindRow) : Prop where
  probed : ∀ f ∈ k.fields, Probed f
  follows : Follows (bodyEnd k) 48 k.fields
  padding : k.padBits < 8
  room : k.bytes ≤ bufferSize

theorem contiguous_iff (k : KindRow) : Contiguous k ↔
    (∀ f ∈ k.fields, Probed f) ∧ Follows (bodyEnd k) 48 k.fields ∧ k.padBits < 8 ∧
      k.bytes ≤ bufferSize :=
  ⟨fun h => ⟨h.probed, h.follows, h.padding, h.room⟩, fun ⟨h₁, h₂, h₃, h₄⟩ => ⟨h₁, h₂, h₃, h₄⟩⟩

instance (k : KindRow) : Decidable (Contiguous k) := decidable_of_iff _ (contiguous_iff k).symm

theorem Follows.le {stop o : Nat} {fs : List FieldRow} (h : Follows stop o fs) : o ≤ stop := by
  induction fs generalizing o with
  | nil => exact Nat.le_of_eq h
  | cons f fs ih =>
      have := ih h.2
      omega

theorem Follows.unique {stop stop' o : Nat} {fs : List FieldRow} (h : Follows stop o fs)
    (h' : Follows stop' o fs) : stop = stop' := by
  induction fs generalizing o with
  | nil => exact h.symm.trans h'
  | cons f fs ih => exact ih h.2 h'.2

theorem Follows.inside {stop o : Nat} {fs : List FieldRow} (h : Follows stop o fs) :
    ∀ f ∈ fs, o ≤ f.offset ∧ f.offset + f.width ≤ stop := by
  induction fs generalizing o with
  | nil => simp
  | cons f fs ih =>
      obtain ⟨hoffset, hrest⟩ := h
      rw [List.forall_mem_cons]
      refine ⟨⟨by omega, ?_⟩, ?_⟩
      · have := hrest.le
        omega
      · intro g hg
        have := ih hrest g hg
        omega

/-- Between two bits that rows follow on each other, every bit belongs to a row. -/
theorem Follows.exists_cover {stop o i : Nat} {fs : List FieldRow} (h : Follows stop o fs)
    (hlo : o ≤ i) (hhi : i < stop) : ∃ f ∈ fs, f.Covers i := by
  induction fs generalizing o with
  | nil =>
      have heq : o = stop := h
      omega
  | cons f fs ih =>
      obtain ⟨hoffset, hrest⟩ := h
      by_cases hi : i < f.offset + f.width
      · exact ⟨f, List.mem_cons_self, by omega, hi⟩
      · obtain ⟨g, hg, hcover⟩ := ih hrest (by omega)
        exact ⟨g, List.mem_cons_of_mem f hg, hcover⟩

/-- What the published rows have in common. -/
structure Published (kind : Kind) (k : KindRow) : Prop where
  contiguous : Contiguous k
  bytes : k.bytes = tier0EncodedSize kind
  codes : kindToCode kind = (k.category, k.opcode)
  carried : kindAllowedAtMajor experimentalMajor kind = true
  width : bodyEnd k = 48 + bodyWidth experimentalMajor kind
  wide : ∀ g ∈ k.fields, 2 ≤ g.width ∧ g.offset + 8 ≤ bodyEnd k
  narrow : ∀ g ∈ k.fields, g.isSigned = true → g.width ≤ 16
  names : ∀ f ∈ k.fields, ∀ g ∈ k.fields, f.name = g.name → f = g

theorem published {kind : Kind} {k : KindRow} (h : kindRow experimentalMajor kind = some k) :
    Published kind k := by
  cases kind with
  | unassigned c => cases h
  | _ =>
      cases h
      exact ⟨by decide, by decide, by decide, by decide, by decide, by decide, by decide, by decide⟩

/-- The published row of a kind the experimental major carries. -/
theorem exists_published {kind : Kind} (hc : kindAllowedAtMajor experimentalMajor kind = true) :
    ∃ k, kindRow experimentalMajor kind = some k := by
  cases kind with
  | unassigned c => exact absurd rfl ((carried_cases hc).2 c)
  | _ => exact ⟨_, rfl⟩

/-! ## Objects in the buffer

The tool encodes into a buffer of its own and reads bits out of it. A bit there is a bit of the image of
the object, and by the layout of the codec that is a bit of the value of some field, or padding. -/

section Buffer

variable {kind : Kind} {o : Tier0} {k : KindRow} {f g : FieldRow} {data : List UInt8} {s : Out}

theorem size_le_buffer (o : Tier0) : o.size experimentalMajor ≤ bufferSize :=
  Nat.le_trans size_le_max (by decide)

/-- A call of the encoder that succeeds leaves the image of the object at the front of `buffer`. -/
theorem encode_ok (hc : kindAllowedAtMajor experimentalMajor o.kind = true)
    (hr : o.InRange experimentalMajor) (s : Out) :
    ∃ m, (encode o).run s = (true, ⟨m, o.size experimentalMajor⟩) ∧
      m.bytes 0 (o.size experimentalMajor) = o.image experimentalMajor 0 ∧
      o.image experimentalMajor 0 <+: m.bytes 0 bufferSize := by
  obtain ⟨m, hrun, himage, -⟩ := tier0EncodeAtMajor_ok hc (size_le_buffer o) hr 0 s
  refine ⟨m, ?_, himage, ?_⟩
  · show (decide (statusOf ((tier0Encode o 0 bufferSize).run s) = none),
      stateOf ((tier0Encode o 0 bufferSize).run s)) = _
    rw [tier0Encode, hrun]
    rfl
  · have hsplit : bufferSize = o.size experimentalMajor + (bufferSize - o.size experimentalMajor) :=
      (Nat.add_sub_cancel' (size_le_buffer o)).symm
    rw [hsplit, Mem.bytes_add, himage]
    exact List.prefix_append _ _

/-- A call succeeds only where the major carries the kind and the object is in range. -/
theorem encode_true (h : ((encode o).run s).1 = true) :
    kindAllowedAtMajor experimentalMajor o.kind = true ∧ o.InRange experimentalMajor := by
  have hstatus : statusOf ((tier0Encode o 0 bufferSize).run s) = none := of_decide_eq_true h
  obtain ⟨hno, -, hrange⟩ := tier0EncodeAtMajor_error experimentalMajor o 0 bufferSize s
  rw [tier0Encode] at hstatus
  cases hc : kindAllowedAtMajor experimentalMajor o.kind with
  | false =>
      rw [hno hc] at hstatus
      cases hstatus
  | true =>
      refine ⟨rfl, ?_⟩
      by_contra hr
      obtain ⟨t, hrun, -⟩ := hrange hc (size_le_buffer o) hr
      rw [hrun] at hstatus
      cases hstatus

/-- The accessor sees the image only. -/
theorem readBits_image (h : o.image experimentalMajor 0 <+: data) (hw : f.width ≤ 32)
    (hinside : f.offset + f.width ≤ 8 * o.size experimentalMajor) :
    readBits data f.offset f.width = readBits (o.image experimentalMajor 0) f.offset f.width := by
  obtain ⟨more, rfl⟩ := h
  rw [← UInt32.toNat_inj, readBits_eq _ _ hw, readBits_eq _ _ hw]
  apply BitField.read_congr
  intro i hi
  apply bitsOf_append
  rw [Tier0.length_image]
  omega

/-- The rows of a body have the names of its members. -/
theorem getField_published (hk : kindRow experimentalMajor kind = some k) (hg : g ∈ k.fields)
    (major e : UInt8) : o.getField k major e g.name = o.body.getField g.name := by
  have hname : ∀ g ∈ k.fields, g.name ∉ commonFields.map FieldRow.name := by
    cases kind with
    | unassigned c => cases hk
    | _ =>
        cases hk
        decide
  have hnot := hname g hg
  unfold Tier0.getField
  cases hn : g.name <;> first | rfl | exact absurd (hn ▸ by decide) hnot

/-- A published row has the bits of the value of its field. -/
theorem read_published (hk : kindRow experimentalMajor o.kind = some k)
    (hr : o.InRange experimentalMajor) (hg : g ∈ k.fields) {z : Int}
    (hz : o.body.getField g.name = some z) :
    BitField.read (bitsOf (o.image experimentalMajor 0)) g.offset g.width = g.bits z := by
  have hpub := published hk
  have hholds :=
    ((Tier0.image_prefix_iff (e := 0) hpub.carried hr (by decide)).mp (List.prefix_refl _)).2
  obtain ⟨k', hk', -, hfields, -⟩ := forall_layout hpub.carried hr (by decide) hholds
  cases hk.symm.trans hk'
  obtain ⟨z', hz', hread⟩ := (hfields g (List.mem_append_right _ hg)).1
  rw [getField_published hk hg, hz] at hz'
  cases hz'
  rw [← hread, readBits_eq _ _ (hpub.contiguous.probed g hg).bounds.2]

/-- A bit that belongs to a published row is that bit of the value of the field. -/
theorem bit_published (hk : kindRow experimentalMajor o.kind = some k)
    (hr : o.InRange experimentalMajor) (hg : g ∈ k.fields) {z : Int}
    (hz : o.body.getField g.name = some z) {i : Nat} (hi : g.Covers i) :
    bitsOf (o.image experimentalMajor 0) i = (g.bits z).testBit (g.offset + g.width - 1 - i) := by
  obtain ⟨hlo, hhi⟩ := hi
  rw [← read_published hk hr hg hz, BitField.testBit_read, decide_eq_true (by omega), Bool.true_and]
  congr 1
  omega

/-- Behind the published rows everything is clear. -/
theorem bit_padding (hk : kindRow experimentalMajor o.kind = some k)
    (hr : o.InRange experimentalMajor) {i : Nat} (hlo : bodyEnd k ≤ i) (hhi : i < 8 * k.bytes) :
    bitsOf (o.image experimentalMajor 0) i = false := by
  have hpub := published hk
  have hholds :=
    ((Tier0.image_prefix_iff (e := 0) hpub.carried hr (by decide)).mp (List.prefix_refl _)).2
  obtain ⟨k', hk', -, -, hclear⟩ := forall_layout hpub.carried hr (by decide) hholds
  cases hk.symm.trans hk'
  have hle := hpub.contiguous.follows.le
  apply hclear i hhi
  intro f hf
  rcases List.mem_append.mp hf with hf | hf
  · have hcommon : ∀ f ∈ commonFields, f.offset + f.width ≤ 48 := by decide
    have := hcommon f hf
    intro hcover
    exact absurd hcover.2 (by omega)
  · have := hpub.contiguous.follows.inside f hf
    intro hcover
    exact absurd hcover.2 (by omega)

end Buffer

/-! ## A pass

In a pass an object with extreme values in one field is encoded, the bits of the row are compared and the
object is decoded again. `checkPass_iff` says what a pass without a mismatch shows; the passes over a
row, and over all rows, are conjunctions of that. -/

section Pass

variable {decoded : Tier0} {kind : Kind} {o : Tier0} {k : KindRow} {f : FieldRow} {useMin : Bool}
  {s : Out}

theorem check_eq_nil {c : Prop} [Decidable c] {m : Mismatch} : check c m = [] ↔ c := by
  unfold check
  split
  · next h => exact iff_of_true rfl h
  · next h => exact iff_of_false (List.cons_ne_nil _ _) h

/-- `set_field` sets a member of the active body. -/
theorem kind_setField {b b' : Body} {name : FieldName} {v : Int32}
    (h : b.setField name v = some b') : b'.kind = b.kind := by
  unfold Body.setField at h
  split at h <;> cases h <;> rfl

theorem kind_saneBody (kind : Kind) : (saneBody kind).kind = kind := by
  cases kind <;> rfl

/-- The object of a probe. -/
def probe (body : Body) : Tier0 := ⟨0, 0, body⟩

/-- What a probe has to show: the row can take the value, the bits of the row are those of the value,
and the decoder gives the value back. -/
structure Shows (kind : Kind) (f : FieldRow) (value : Int32) (body : Body) : Prop where
  set : (saneBody kind).setField f.name value = some body
  inRange : (probe body).InRange experimentalMajor
  bits : readBits ((probe body).image experimentalMajor 0) f.offset f.width = expectedBits f value
  value : ∃ z, body.getField f.name = some z ∧ Int32.ofInt z = value

theorem checkDecoded_iff {body : Body} {m : Mem} {value : Int32} (hkind : body.kind = kind)
    (hc : kindAllowedAtMajor experimentalMajor kind = true)
    (hr : (probe body).InRange experimentalMajor)
    (himage : m.bytes 0 ((probe body).size experimentalMajor) = (probe body).image experimentalMajor 0) :
    checkDecoded decoded k f value ⟨m, (probe body).size experimentalMajor⟩ = [] ↔
      (∃ z, body.getField f.name = some z ∧ Int32.ofInt z = value) ∧
        tier0EncodedSize kind = k.bytes := by
  subst hkind
  have hrun := tier0Decode_image (o := probe body) hc hr ⟨decoded, 0⟩
  have hsize : (probe body).size experimentalMajor = tier0EncodedSize body.kind :=
    size_experimental hc
  unfold checkDecoded
  rw [himage, hrun, hsize]
  simp only [List.append_eq_nil_iff, check_eq_nil]
  refine and_congr ?_ Iff.rfl
  show body.getField f.name ≠ none ∧ ((body.getField f.name).map Int32.ofInt).getD 0 = value ↔ _
  cases body.getField f.name with
  | none => simp
  | some z => simp

/-- A pass over a row that names a member. -/
theorem run_checkPass {body : Body}
    (hset : (saneBody kind).setField f.name (probeValue f useMin) = some body) :
    ((checkPass decoded kind k f useMin).run s).1 =
      if ((encode (probe body)).run s).1 = true then
        check (readBits (((encode (probe body)).run s).2.mem.bytes 0 bufferSize) f.offset f.width =
            expectedBits f (probeValue f useMin)) (.misplaced f.name f.offset f.width) ++
          checkDecoded decoded k f (probeValue f useMin) ((encode (probe body)).run s).2
      else [.notEncoded f.name (probeValue f useMin)] := by
  unfold checkPass
  simp only [hset]
  show ((if ((encode (probe body)).run s).1 = true then _ else _ : StateM Out (List Mismatch)).run
    ((encode (probe body)).run s).2).1 = _
  split <;> rfl

/-- What a pass over a row compares. -/
theorem checkPass_iff (hc : kindAllowedAtMajor experimentalMajor kind = true)
    (hbytes : tier0EncodedSize kind = k.bytes) (hw : f.width ≤ 32)
    (hinside : f.offset + f.width ≤ 8 * k.bytes) :
    ((checkPass decoded kind k f useMin).run s).1 = [] ↔
      ∃ body, Shows kind f (probeValue f useMin) body := by
  cases hset : (saneBody kind).setField f.name (probeValue f useMin) with
  | none =>
      unfold checkPass
      simp only [hset]
      refine iff_of_false (List.cons_ne_nil _ _) ?_
      rintro ⟨body, hshows⟩
      cases hset.symm.trans hshows.set
  | some body =>
      have hkind : body.kind = kind := (kind_setField hset).trans (kind_saneBody kind)
      have hc' : kindAllowedAtMajor experimentalMajor (probe body).kind = true := by
        show kindAllowedAtMajor experimentalMajor body.kind = true
        rw [hkind, hc]
      have hsize : (probe body).size experimentalMajor = k.bytes := by
        rw [← hbytes, ← hkind]
        exact size_experimental hc'
      rw [run_checkPass hset]
      by_cases hr : (probe body).InRange experimentalMajor
      · obtain ⟨m, hrun, himage, hprefix⟩ := encode_ok hc' hr s
        rw [hrun, if_pos rfl, List.append_eq_nil_iff, check_eq_nil,
          checkDecoded_iff hkind hc hr himage,
          readBits_image hprefix hw (by rw [hsize]; exact hinside)]
        constructor
        · rintro ⟨hbits, hvalue, -⟩
          exact ⟨body, hset, hr, hbits, hvalue⟩
        · rintro ⟨body', hshows⟩
          cases hset.symm.trans hshows.set
          exact ⟨hshows.bits, hshows.value, hbytes⟩
      · rw [if_neg (fun htrue => hr (encode_true htrue).2)]
        refine iff_of_false (List.cons_ne_nil _ _) ?_
        rintro ⟨body', hshows⟩
        cases hset.symm.trans hshows.set
        exact hr hshows.inRange

/-- What the passes over a row compare. -/
theorem checkRow_iff (hc : kindAllowedAtMajor experimentalMajor kind = true)
    (hbytes : tier0EncodedSize kind = k.bytes) (hw : f.width ≤ 32)
    (hinside : f.offset + f.width ≤ 8 * k.bytes) :
    ((checkRow decoded kind k f).run s).1 = [] ↔
      ∀ useMin, (useMin = true → f.isSigned = true) →
        ∃ body, Shows kind f (probeValue f useMin) body := by
  have hpass : ∀ useMin (s : Out), ((checkPass decoded kind k f useMin).run s).1 = [] ↔
      ∃ body, Shows kind f (probeValue f useMin) body :=
    fun useMin s => checkPass_iff hc hbytes hw hinside
  unfold checkRow
  rw [StateT.run_bind]
  by_cases hsigned : f.isSigned = true
  · rw [hsigned]
    show ((checkPass decoded kind k f false).run s).1 ++ ((checkPass decoded kind k f true).run
      ((checkPass decoded kind k f false).run s).2).1 = [] ↔ _
    rw [List.append_eq_nil_iff, hpass, hpass, Bool.forall_bool]
    simp
  · rw [Bool.not_eq_true] at hsigned
    rw [hsigned]
    show ((checkPass decoded kind k f false).run s).1 = [] ↔ _
    rw [hpass, Bool.forall_bool]
    simp

theorem checkRows_iff {fs : List FieldRow} (hc : kindAllowedAtMajor experimentalMajor kind = true)
    (hbytes : tier0EncodedSize kind = k.bytes)
    (hfs : ∀ f ∈ fs, f.width ≤ 32 ∧ f.offset + f.width ≤ 8 * k.bytes) :
    ((checkRows decoded kind k fs).run s).1 = [] ↔
      ∀ f ∈ fs, ∀ useMin, (useMin = true → f.isSigned = true) →
        ∃ body, Shows kind f (probeValue f useMin) body := by
  induction fs generalizing s with
  | nil => exact iff_of_true rfl (by simp)
  | cons f fs ih =>
      rw [List.forall_mem_cons] at hfs
      obtain ⟨⟨hw, hinside⟩, hrest⟩ := hfs
      show ((checkRow decoded kind k f).run s).1 ++ ((checkRows decoded kind k fs).run
        ((checkRow decoded kind k f).run s).2).1 = [] ↔ _
      rw [List.append_eq_nil_iff, List.forall_mem_cons, checkRow_iff hc hbytes hw hinside, ih hrest]

end Pass

/-! ## The other checks

The header, the source and the padding are checked once for each kind, on objects that are as good as
empty. The first check compares the size and the codes of the row. The other two cannot fail for a row
that is published, so that they add nothing to what the passes show. -/

section Rest

variable {decoded : Tier0} {kind : Kind} {k : KindRow} {sourceRef : UInt32} {s : Out}

/-- The objects the other checks encode. -/
def cleared (kind : Kind) (sourceRef : UInt32) : Tier0 := ⟨0, sourceRef, saneBody kind⟩

theorem kind_cleared : (cleared kind sourceRef).kind = kind := kind_saneBody kind

theorem cleared_carried (hc : kindAllowedAtMajor experimentalMajor kind = true) :
    kindAllowedAtMajor experimentalMajor (cleared kind sourceRef).kind = true := by
  rw [kind_cleared, hc]

theorem cleared_inRange (sourceRef : UInt32)
    (hc : kindAllowedAtMajor experimentalMajor kind = true) :
    (cleared kind sourceRef).InRange experimentalMajor := by
  have hzero : (cleared kind 0).InRange experimentalMajor := by
    cases kind with
    | unassigned c => exact absurd rfl ((carried_cases hc).2 c)
    | _ => decide
  exact hzero

theorem size_cleared (hc : kindAllowedAtMajor experimentalMajor kind = true) :
    (cleared kind sourceRef).size experimentalMajor = tier0EncodedSize kind := by
  rw [Tier0.size, kind_cleared, size_experimental hc]

theorem headerDecode_bytes (m : Mem) {n : Nat} (h : 2 ≤ n) :
    headerDecode (m.bytes 0 n) = headerDecode [m 0, m 1] := by
  rw [← Nat.add_sub_cancel' h, Mem.bytes_add]
  rfl

/-- The header codes stand in the first two bytes. -/
theorem header_bytes {o : Tier0} {m : Mem}
    (hc : kindAllowedAtMajor experimentalMajor o.kind = true) (hr : o.InRange experimentalMajor)
    (himage : m.bytes 0 (o.size experimentalMajor) = o.image experimentalMajor 0) :
    kindToCode o.kind = (m 0 &&& 0x0F, m 1 >>> 3) := by
  have hpresents : Presents (m.bytes 0 (o.size experimentalMajor)) experimentalMajor 0 o := by
    rw [himage]
    exact ⟨hc, hr, by decide, o.atMajor_experimental, List.prefix_refl _⟩
  have hdecode := hpresents.head_of.header
  have htwo : 2 ≤ o.size experimentalMajor := two_le_size hc
  rw [headerDecode_bytes m htwo] at hdecode
  have hheader := Except.ok.inj hdecode
  exact Prod.ext (congrArg Header.category hheader).symm (congrArg Header.opcode hheader).symm

/-- What the first check compares. -/
theorem checkHeader_iff : ((checkHeader kind k).run s).1 = [] ↔
    kindAllowedAtMajor experimentalMajor kind = true ∧ tier0EncodedSize kind = k.bytes ∧
      kindToCode kind = (k.category, k.opcode) := by
  unfold checkHeader
  show check (((encode (cleared kind 0)).run s).1 = true) _ ++
    check (((encode (cleared kind 0)).run s).2.written = k.bytes) _ ++
    check (tier0EncodedSize kind = k.bytes) _ ++
    check (((encode (cleared kind 0)).run s).2.mem 0 &&& 0x0F = k.category) _ ++
    check (((encode (cleared kind 0)).run s).2.mem 1 >>> 3 = k.opcode) _ = [] ↔ _
  simp only [List.append_eq_nil_iff, check_eq_nil]
  constructor
  · rintro ⟨⟨⟨⟨htrue, -⟩, hsize⟩, hcategory⟩, hopcode⟩
    have hc := (encode_true htrue).1
    rw [kind_cleared] at hc
    obtain ⟨m, hrun, himage, -⟩ := encode_ok (cleared_carried hc) (cleared_inRange 0 hc) s
    rw [hrun] at hcategory hopcode
    have hcodes := header_bytes (cleared_carried hc) (cleared_inRange 0 hc) himage
    rw [kind_cleared] at hcodes
    exact ⟨hc, hsize, by rw [hcodes]; exact Prod.ext hcategory hopcode⟩
  · rintro ⟨hc, hsize, hcodes⟩
    obtain ⟨m, hrun, himage, -⟩ := encode_ok (cleared_carried hc) (cleared_inRange 0 hc) s
    have hbytes := header_bytes (cleared_carried hc) (cleared_inRange 0 hc) himage
    rw [kind_cleared, hcodes] at hbytes
    rw [hrun]
    exact ⟨⟨⟨⟨rfl, by rw [size_cleared hc, hsize]⟩, hsize⟩, (congrArg Prod.fst hbytes).symm⟩,
      (congrArg Prod.snd hbytes).symm⟩

/-- The second check never fails. -/
theorem checkSource_eq_nil : ((checkSource kind).run s).1 = [] := by
  have hrun : ((checkSource kind).run s).1 =
      if ((encode (cleared kind 0x89ABCDEF)).run s).1 = true then
        check (readBits (((encode (cleared kind 0x89ABCDEF)).run s).2.mem.bytes 0 bufferSize) 16 32 =
          0x89ABCDEF) .sourceRef
      else [] := by
    unfold checkSource
    show ((if ((encode (cleared kind 0x89ABCDEF)).run s).1 = true then _ else _ :
      StateM Out (List Mismatch)).run ((encode (cleared kind 0x89ABCDEF)).run s).2).1 = _
    split <;> rfl
  rw [hrun]
  split
  · next htrue =>
    obtain ⟨hc, hr⟩ := encode_true htrue
    obtain ⟨m, hrun, -, hprefix⟩ := encode_ok hc hr s
    have hholds := ((Tier0.image_prefix_iff (e := 0) hc hr (by decide)).mp hprefix).2
    rw [hrun, check_eq_nil, ← UInt32.toNat_inj, readBits_eq _ _ (by decide)]
    exact (holds_fields.mp hholds).2.1
  · rfl

/-- `write_bits` of a single bit that is set. -/
theorem writeBits_one (m : Mem) (offset : Nat) :
    bitsOf ((writeBits m 0 offset 1 1).bytes 0 (offset / 8 + 1)) offset = true ∧
      ∀ addr, addr ≠ offset / 8 → writeBits m 0 offset 1 1 addr = m addr := by
  have hbit : ∀ j < 8, (1 <<< UInt8.ofNat j : UInt8).toNat.testBit j = true := by decide
  have hstep : writeBits m 0 offset 1 1 = m.set (offset / 8)
      ((m (offset / 8) &&& ~~~(1 <<< UInt8.ofNat (7 - offset % 8))) |||
        1 <<< UInt8.ofNat (7 - offset % 8)) := by
    have hv : (1 >>> UInt32.ofNat (1 - 1 - 0) &&& 1 : UInt32).toUInt8 = 1 := by decide
    unfold writeBits
    simp only [List.range_one, List.foldl_cons, List.foldl_nil, hv, Nat.zero_add, Nat.add_zero,
      position_shiftRight, position_and]
  constructor
  · rw [bitsOf_bytes _ _ (by omega), Nat.mul_zero, Nat.zero_add, hstep, BitField.byteBits,
      Mem.set_same, UInt8.toNat_or, Nat.testBit_or, hbit _ (by omega), Bool.or_true]
  · intro addr hne
    rw [hstep, Mem.set_other hne]

/-- An object whose padding is not clear is refused as such. -/
theorem decode_dirty {o : Tier0} {m m' : Mem} (hk : kindRow experimentalMajor o.kind = some k)
    (hr : o.InRange experimentalMajor)
    (himage : m.bytes 0 (o.size experimentalMajor) = o.image experimentalMajor 0)
    (hfirst : m' 0 = m 0) (hsecond : m' 1 = m 1) {i : Nat} (hlo : bodyEnd k ≤ i)
    (hhi : i < 8 * o.size experimentalMajor)
    (hset : bitsOf (m'.bytes 0 (o.size experimentalMajor)) i = true) :
    statusOf ((tier0Decode (m'.bytes 0 (o.size experimentalMajor))).run ⟨decoded, 0⟩) =
      some (.status .noncanonical) := by
  have hpub := published hk
  have htwo : 2 ≤ o.size experimentalMajor := two_le_size hpub.carried
  have hpresents : Presents (m.bytes 0 (o.size experimentalMajor)) experimentalMajor 0 o := by
    rw [himage]
    exact ⟨hpub.carried, hr, by decide, o.atMajor_experimental, List.prefix_refl _⟩
  have hof := hpresents.head_of
  have hheader : headerDecode (m'.bytes 0 (o.size experimentalMajor)) =
      .ok (o.header experimentalMajor 0) := by
    have hdecode := hof.header
    rw [headerDecode_bytes m htwo] at hdecode
    rw [headerDecode_bytes m' htwo, hfirst, hsecond, hdecode]
    rfl
  have hof' : (o.head experimentalMajor 0).Of (m'.bytes 0 (o.size experimentalMajor)) := by
    refine ⟨hheader, hof.code, hof.carried, hof.required, ?_⟩
    rw [Mem.length_bytes]
    exact Nat.le_refl _
  have hdirty : ¬ Padded (bitsOf (m'.bytes 0 (o.size experimentalMajor)))
      (o.head experimentalMajor 0) := by
    rw [padded_iff hof']
    intro hclear
    have hfalse := hclear i (by rw [hpub.width] at hlo; exact hlo)
      (by rw [Tier0.required_head]; omega)
    rw [hset] at hfalse
    cases hfalse
  rw [tier0Decode_run hheader]
  show statusOf ((tier0DecodeBody (m'.bytes 0 (o.size experimentalMajor))).run ⟨decoded, 0⟩) = _
  rw [tier0DecodeBody_run, decodeHead_eq_ok.mpr hof']
  simp only []
  rw [if_neg hdirty]
  rfl

theorem run_checkPadding : ((checkPadding decoded kind k).run s).1 =
    if ((encode (cleared kind 0)).run s).1 = true ∧ 0 < k.padBits then
      check (readBits (((encode (cleared kind 0)).run s).2.mem.bytes 0 bufferSize)
          (k.bytes * 8 - k.padBits) k.padBits = 0) (.padding k.padBits) ++
        check (statusOf ((tier0Decode ((writeBits ((encode (cleared kind 0)).run s).2.mem 0
          (k.bytes * 8 - k.padBits + k.padBits - 1) 1 1).bytes 0
          ((encode (cleared kind 0)).run s).2.written)).run ⟨decoded, 0⟩) =
          some (.status .noncanonical)) .paddingAccepted
    else [] := by
  unfold checkPadding
  show ((if ((encode (cleared kind 0)).run s).1 = true ∧ 0 < k.padBits then _ else _ :
    StateM Out (List Mismatch)).run ((encode (cleared kind 0)).run s).2).1 = _
  split <;> rfl

/-- The last check does not fail for a published row. -/
theorem checkPadding_eq_nil (hk : kindRow experimentalMajor kind = some k) :
    ((checkPadding decoded kind k).run s).1 = [] := by
  have hpub := published hk
  have hc := hpub.carried
  have hr := cleared_inRange 0 hc
  have hk' : kindRow experimentalMajor (cleared kind 0).kind = some k := by
    rw [kind_cleared, hk]
  obtain ⟨m, hrun, himage, hprefix⟩ := encode_ok (cleared_carried hc) hr s
  have hsize : (cleared kind 0).size experimentalMajor = k.bytes := by
    rw [size_cleared hc, hpub.bytes]
  have hpadding := hpub.contiguous.padding
  have hfront := hpub.contiguous.follows.le
  have hend : k.bytes * 8 - k.padBits = bodyEnd k := by
    rw [bodyEnd, Nat.mul_comm]
  have hbody : bodyEnd k + k.padBits = 8 * k.bytes := by
    rw [bodyEnd] at hfront ⊢
    omega
  rw [run_checkPadding, hrun, hend]
  split
  · next hpad =>
    have hpos := hpad.2
    rw [List.append_eq_nil_iff, check_eq_nil, check_eq_nil]
    constructor
    · obtain ⟨more, hmore⟩ := hprefix
      rw [← UInt32.toNat_inj, readBits_eq _ _ (by omega), ← hmore, UInt32.toNat_zero]
      refine (BitField.read_eq_iff (Nat.two_pow_pos _)).mpr ?_
      intro i hi
      rw [bitsOf_append (by rw [Tier0.length_image, hsize]; omega),
        bit_padding hk' hr (by omega) (by omega), Nat.zero_testBit]
    · obtain ⟨hset, hother⟩ := writeBits_one m (bodyEnd k + k.padBits - 1)
      have hlast : (bodyEnd k + k.padBits - 1) / 8 + 1 = (cleared kind 0).size experimentalMajor := by
        rw [hsize]
        omega
      rw [hlast] at hset
      exact decode_dirty hk' hr himage (hother 0 (by omega)) (hother 1 (by omega)) (by omega)
        (by omega) hset
  · rfl

end Rest

end LayoutTool

end MclWire
