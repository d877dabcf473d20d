import MclWire.Tier0.LayoutRows

/-!
# What the layout tool accepts

The tool looks at one field at a time, with a value that has its first bit set. For a row that starts
where a field starts it sees which field that is and how wide it is, so it follows a table from field to
field as long as there is no gap.

* `row_exact` — a row that starts where a field starts and passes is the row of that field.
* `checkKind_iff` — of the rows without gaps, `check_kind` accepts exactly the published ones.
* `layout_tool_iff` — what `main` accepts.
-/

namespace MclWire

namespace LayoutTool

/-! ## A row that starts with a field

A row that is too narrow may pass as the end of a field. It does not if it starts where some field
starts: the first bit of that field is only set in a probe of the field itself. -/

section Exact

variable {kind : Kind} {k : KindRow} {f g : FieldRow} {body : Body}

/-- The members of a body no probe has touched. -/
theorem getField_saneBody (hk : kindRow experimentalMajor kind = some k) (hg : g ∈ k.fields) :
    ∃ z, (z = 0 ∨ z = 1) ∧ (saneBody kind).getField g.name = some z := by
  have hsane : ∀ g ∈ k.fields, (saneBody kind).getField g.name = some 0 ∨
      (saneBody kind).getField g.name = some 1 := by
    cases kind with
    | unassigned c => cases hk
    | _ =>
        cases hk
        decide
  rcases hsane g hg with h | h
  · exact ⟨0, Or.inl rfl, h⟩
  · exact ⟨1, Or.inr rfl, h⟩

/-- They have their first bit clear. -/
theorem testBit_sane {z : Int} (hw : 2 ≤ g.width) (hz : z = 0 ∨ z = 1) :
    (g.bits z).testBit (g.width - 1) = false := by
  have hbits : g.bits z = z.toNat := by
    unfold FieldRow.bits
    split
    · have hpow : (4 : Int) ≤ 2 ^ g.width := by
        calc (4 : Int) = 2 ^ 2 := by norm_num
          _ ≤ 2 ^ g.width := pow_le_pow_right₀ (by norm_num) hw
      exact BitField.twos_of_nonneg (by omega) (by omega)
    · rfl
  rw [hbits]
  apply Nat.testBit_lt_two_pow
  have hpow : 2 ^ 1 ≤ 2 ^ (g.width - 1) := Nat.pow_le_pow_right (by omega) (by omega)
  omega

/-- Where a field starts, only a probe of that field has a bit set. -/
theorem Shows.starts {value : Int32} (h : Shows kind f value body)
    (hk : kindRow experimentalMajor kind = some k) (hg : g ∈ k.fields) (hoffset : f.offset = g.offset)
    (hw : 1 ≤ f.width ∧ f.width ≤ 32)
    (hfirst : (expectedBits f value).toNat.testBit (f.width - 1) = true) :
    f.name = g.name ∧ ∃ z, body.getField g.name = some z ∧ Int32.ofInt z = value ∧ g.Fits z ∧
      (g.bits z).testBit (g.width - 1) = true := by
  have hk' := kindRow_probe hk h.set
  have hwide := ((published hk).wide g hg).1
  have hbit : ∀ z, body.getField g.name = some z → (g.bits z).testBit (g.width - 1) = true := by
    intro z hz
    have hpublished := bit_published hk' h.inRange hg hz (i := g.offset)
      ⟨Nat.le_refl _, by omega⟩
    have hrow := h.bit hw.2 (i := 0) (by omega)
    rw [Nat.add_zero, Nat.sub_zero, hfirst, hoffset, hpublished] at hrow
    rw [← hrow]
    congr 1
    omega
  have hname : f.name = g.name := by
    by_contra hne
    obtain ⟨z, hz, hsane⟩ := getField_saneBody hk hg
    rw [← getField_setField h.set (Ne.symm hne)] at hsane
    have hclear := testBit_sane hwide hz
    rw [hbit z hsane] at hclear
    cases hclear
  refine ⟨hname, ?_⟩
  obtain ⟨z, hz, hvalue⟩ := h.value
  rw [hname] at hz
  exact ⟨z, hz, hvalue, fits_published hk' hg h.inRange hz, hbit z hz⟩

/-- The second bit of a number that is close to a power of two. -/
theorem testBit_near_two_pow {n w j : Nat} (hj : j + 2 ≤ w) (h : n + 2 ^ j = 2 ^ w) :
    n.testBit (w - 2) = true := by
  have hpow : 2 ^ j ≤ 2 ^ (w - 2) := Nat.pow_le_pow_right (by omega) (by omega)
  have hpos : 0 < 2 ^ j := Nat.two_pow_pos j
  have hsplit : 2 ^ w = 4 * 2 ^ (w - 2) := by
    calc 2 ^ w = 2 ^ (2 + (w - 2)) := by rw [Nat.add_sub_cancel' (by omega)]
      _ = 4 * 2 ^ (w - 2) := by rw [Nat.pow_add]
  have hdiv : n / 2 ^ (w - 2) = 3 := by
    apply Nat.div_eq_of_lt_le
    · omega
    · omega
  rw [Nat.testBit_eq_decide_div_mod_eq, hdiv]
  rfl

/-- A row that starts with a field and passes is the row of that field. -/
theorem row_exact (hk : kindRow experimentalMajor kind = some k) (hg : g ∈ k.fields)
    (hoffset : f.offset = g.offset) (hf : Probed f)
    (h : Shows kind f (probeValue f f.isSigned) body) : f = g := by
  have hpub := published hk
  have hgprobed := hpub.contiguous.probed g hg
  have hbounds := hf.bounds
  obtain ⟨hname, z, hz, hvalue, hfits, hfirst⟩ := h.starts hk hg hoffset hf.bounds (probe_first hf)
  have hsame : f.width = g.width ∧ f.isSigned = g.isSigned := by
    cases hsigned : f.isSigned with
    | true =>
        rw [hsigned] at h hvalue
        obtain ⟨hbits, hle, hsign⟩ := bits_extreme hf hsigned hgprobed (hpub.narrow g hg) hvalue hfits
        obtain ⟨-, -, -, hrow⟩ := probe_signed hf hsigned
        unfold Probed at hf
        rw [hsigned, if_pos rfl] at hf
        have hwidth : f.width = g.width := by
          -- in a wider field the second bit of the row would be one, too
          by_contra hne
          have hsecond := h.bit (by omega) (i := 1) (by omega)
          rw [bit_published (kindRow_probe hk h.set) h.inRange hg hz
            (i := f.offset + 1) ⟨by omega, by omega⟩,
            show g.offset + g.width - 1 - (f.offset + 1) = g.width - 2 by omega,
            testBit_near_two_pow (by omega) hbits, hrow,
            Nat.testBit_two_pow_of_ne (by omega)] at hsecond
          cases hsecond
        refine ⟨hwidth, ?_⟩
        rcases hsign with hsign | h32
        · exact hsign.symm
        · omega
    | false =>
        rw [hsigned] at hvalue
        obtain ⟨hbits, hle⟩ := bits_unsigned hf hsigned hgprobed (hpub.narrow g hg) hvalue hfits
        obtain ⟨-, -, -, hhi⟩ := probe_unsigned hf hsigned
        rw [hbits] at hfirst
        have hlt : g.width - 1 < f.width := by
          have hpow := Nat.ge_two_pow_of_testBit hfirst
          exact (Nat.pow_lt_pow_iff_right (by omega)).mp (Nat.lt_of_le_of_lt hpow hhi)
        split at hle
        · omega
        · next hgsigned =>
          rw [Bool.not_eq_true] at hgsigned
          exact ⟨by omega, hgsigned.symm⟩
  cases f
  cases g
  simp only at hname hoffset hsame
  rw [hname, hoffset, hsame.1, hsame.2]

end Exact

/-! ## All rows

The induction goes along the rows. The first one starts with a field, so it is the row of that field,
and the next one starts where the next field does. -/

section Rows

variable {kind : Kind} {k : KindRow} {f : FieldRow}

/-- A row behind the last field does not pass. -/
theorem row_behind {body : Body} {value : Int32} (hk : kindRow experimentalMajor kind = some k)
    (hw : 1 ≤ f.width ∧ f.width ≤ 32) (h : Shows kind f value body)
    (hfirst : (expectedBits f value).toNat.testBit (f.width - 1) = true)
    (hlo : bodyEnd k ≤ f.offset) : ¬ f.offset < 8 * k.bytes := by
  intro hhi
  have hrow := h.bit hw.2 (i := 0) (by omega)
  rw [Nat.add_zero, Nat.sub_zero, hfirst, bit_padding (kindRow_probe hk h.set) h.inRange hlo
    hhi] at hrow
  cases hrow

/-- Rows without gaps that start with a field and pass are the published ones. -/
theorem rows_exact {fs gs : List FieldRow} {o stop : Nat}
    (hk : kindRow experimentalMajor kind = some k) (hsub : ∀ g ∈ gs, g ∈ k.fields)
    (hgs : Follows (bodyEnd k) o gs) (hfs : Follows stop o fs) (hstop : stop ≤ 8 * k.bytes)
    (hpad : 8 * k.bytes < stop + 8)
    (hpass : ∀ f ∈ fs, Probed f ∧ ∃ body, Shows kind f (probeValue f f.isSigned) body) :
    fs = gs := by
  have hpub := published hk
  induction fs generalizing gs o with
  | nil =>
      cases gs with
      | nil => rfl
      | cons g gs =>
          -- what is left would have to be padding, and is a byte at least
          have hwide := (hpub.wide g (hsub g List.mem_cons_self)).2
          have hoffset := hgs.1
          have heq : o = stop := hfs
          have hend : bodyEnd k ≤ 8 * k.bytes := Nat.sub_le _ _
          omega
  | cons f fs ih =>
      rw [List.forall_mem_cons] at hpass
      obtain ⟨⟨hf, body, hshows⟩, hrest⟩ := hpass
      obtain ⟨hoffset, hfs⟩ := hfs
      have hbounds := hf.bounds
      cases gs with
      | nil =>
          have heq : o = bodyEnd k := hgs
          have hinside := hfs.le
          exact absurd (by omega) (row_behind hk hbounds hshows (probe_first hf) (by omega))
      | cons g gs =>
          rw [List.forall_mem_cons] at hsub
          have hfg : f = g := row_exact hk hsub.1 (hoffset.trans hgs.1.symm) hf hshows
          subst hfg
          rw [ih hsub.2 hgs.2 hfs hrest]

end Rows

/-! ## The whole tool -/

section Tool

variable {decoded : Tier0} {kind : Kind} {k : KindRow} {s : Out}

/-- Of the rows without gaps, `check_kind` accepts exactly the published one. -/
theorem checkKind_iff (h : Contiguous k) : ((checkKind decoded kind k).run s).1 = [] ↔
    kindRow experimentalMajor kind = some k := by
  have hinside : ∀ f ∈ k.fields, f.width ≤ 32 ∧ f.offset + f.width ≤ 8 * k.bytes := by
    intro f hf
    refine ⟨(h.probed f hf).bounds.2, ?_⟩
    exact Nat.le_trans (h.follows.inside f hf).2 (Nat.sub_le _ _)
  have hsplit : ((checkKind decoded kind k).run s).1 =
      ((checkHeader kind k).run s).1 ++
        ((checkSource kind).run ((checkHeader kind k).run s).2).1 ++
        ((checkRows decoded kind k k.fields).run
          ((checkSource kind).run ((checkHeader kind k).run s).2).2).1 ++
        ((checkPadding decoded kind k).run ((checkRows decoded kind k k.fields).run
          ((checkSource kind).run ((checkHeader kind k).run s).2).2).2).1 := rfl
  rw [hsplit, List.append_eq_nil_iff, List.append_eq_nil_iff, List.append_eq_nil_iff, checkHeader_iff]
  constructor
  · rintro ⟨⟨⟨⟨hc, hbytes, hcodes⟩, -⟩, hrows⟩, -⟩
    obtain ⟨k', hk'⟩ := exists_published hc
    have hpub := published hk'
    have hsame : k.bytes = k'.bytes := by rw [← hbytes, hpub.bytes]
    have hfields : k.fields = k'.fields := by
      have hpass := (checkRows_iff hc hbytes hinside).mp hrows
      refine rows_exact hk' (fun g hg => hg) hpub.contiguous.follows h.follows ?_ ?_ ?_
      · rw [bodyEnd, hsame]
        exact Nat.sub_le _ _
      · have hpadding := h.padding
        rw [bodyEnd, hsame]
        omega
      · intro f hf
        exact ⟨h.probed f hf, hpass f hf f.isSigned id⟩
    have hend : bodyEnd k = bodyEnd k' := by
      have hfollows := h.follows
      rw [hfields] at hfollows
      exact hfollows.unique hpub.contiguous.follows
    have hpad : k.padBits = k'.padBits := by
      have hlo := h.follows.le
      have hpadding := h.padding
      have hpadding' := hpub.contiguous.padding
      unfold bodyEnd at hend hlo
      omega
    have hcode := hcodes.symm.trans hpub.codes
    rw [hk', Option.some.injEq]
    cases k
    cases k'
    cases hcode
    simp only at hsame hfields hpad
    rw [hsame, hfields, hpad]
  · intro hk
    have hpub := published hk
    have hbytes := hpub.bytes.symm
    refine ⟨⟨⟨⟨hpub.carried, hbytes, hpub.codes⟩, checkSource_eq_nil⟩, ?_⟩, checkPadding_eq_nil hk⟩
    rw [checkRows_iff hpub.carried hbytes hinside]
    intro f hf useMin hmin
    exact shows_of_tail hk hf (h.probed f hf) (tailOf_self f) hmin

theorem mismatches_eq_nil (stack : Nat → Stack) {table : List (Kind × KindRow)}
    (h : ∀ row ∈ table, Contiguous row.2) : mismatches stack table = [] ↔
      ∀ row ∈ table, kindRow experimentalMajor row.1 = some row.2 := by
  induction table generalizing stack with
  | nil => exact iff_of_true rfl (by simp)
  | cons row rows ih =>
      rw [List.forall_mem_cons] at h ⊢
      show ((checkKind (stack 0).decoded row.1 row.2).run ⟨(stack 0).mem, 0⟩).1 ++
        mismatches (fun i => stack (i + 1)) rows = [] ↔ _
      rw [List.append_eq_nil_iff, checkKind_iff h.1, ih _ h.2]

end Tool

/-- When the layout tool passes, whatever stood on its stack. Of the tables whose rows leave no gap, and
lay out objects that its buffer of 64 bytes has room for (`Contiguous`), it accepts those in which every
row is the one that the codec follows; and so it accepts its own. A width that is wrong, an offset, a
sign, a name, a size, a header code or a number of padding bits cannot stay unnoticed. -/
theorem layout_tool_iff (stack : Nat → Stack) (table : List (Kind × KindRow)) :
    exitStatus stack kTable = 0 ∧
      ((∀ row ∈ table, Contiguous row.2) → (exitStatus stack table = 0 ↔
        ∀ row ∈ table, kindRow experimentalMajor row.1 = some row.2)) := by
  have hstatus : ∀ table, (∀ row ∈ table, Contiguous row.2) → (exitStatus stack table = 0 ↔
      ∀ row ∈ table, kindRow experimentalMajor row.1 = some row.2) := by
    intro table h
    rw [← mismatches_eq_nil stack h]
    unfold exitStatus
    split
    · next hnil => exact iff_of_true rfl hnil
    · next hne => exact iff_of_false (by decide) hne
  refine ⟨?_, hstatus table⟩
  rw [hstatus kTable (by decide)]
  decide

/-- The hazard row with a bit of `x` given to `y`. -/
def shiftedHazard : KindRow :=
  ⟨3, 1, 15, 2, [⟨.hazardClass, 48, 8, false⟩, ⟨.severity, 56, 3, false⟩, ⟨.confidence, 59, 7, false⟩,
    ⟨.x, 66, 11, true⟩, ⟨.y, 77, 13, true⟩, ⟨.z, 90, 10, true⟩, ⟨.radius, 100, 10, false⟩,
    ⟨.ttl, 110, 8, false⟩]⟩

theorem layout_tool_iff_shifted :
    exitStatus (fun _ => ⟨fun _ => 0xff, nearHazard⟩) [(.hazard, shiftedHazard)] ≠ 0 := by
  intro hstatus
  have hrow := ((layout_tool_iff (fun _ => ⟨fun _ => 0xff, nearHazard⟩)
    [(.hazard, shiftedHazard)]).2 (by decide)).mp hstatus (.hazard, shiftedHazard) (by decide)
  revert hrow
  decide

end LayoutTool

end MclWire
