import MclWire.Registry.Rows

/-!
# The scans of the two tables

The loops of `main` restart the search one character behind the last hit, so inside the word that was
found; that changes nothing, since the rest of a string and its closing quote are passed over.

* `entries` — the entries that the scan for `"id"` finds in a row of members: the values of the keys
  that are `id`, and whatever stands behind a value that is.
* `Row.scan` — the scan finds these, as many as there is room for.
* `Row.scanned` — the scan for `"first"` finds the ranges.
-/

namespace MclWire

open CText

namespace Registry

/-! ## Ranges

The loop over the range table jumps from one `"first"` to the next, and reads the other members behind
it. The induction is on the ranges, with the room that is left. -/

/-- An entry of the range table. -/
structure RangeRow where
  first : Numeral
  last : Numeral
  policy : Text
  detail : Text
  deriving DecidableEq

/-- Its members. -/
def RangeRow.members (r : RangeRow) : List Member :=
  [⟨"first".toList, .num r.first⟩, ⟨"last".toList, .num r.last⟩, ⟨"policy".toList, .str r.policy⟩,
    ⟨"detail".toList, .str r.detail⟩]

/-- The range that it declares. -/
def RangeRow.range (r : RangeRow) : Range := ⟨r.first.value, r.last.value, r.policy⟩

/-- The range that the tool reads. -/
def RangeRow.read (r : RangeRow) : Range :=
  ⟨saturate r.first.value, saturate r.last.value, cut r.policy⟩

theorem isKey_first : IsKey "first".toList := by decide

theorem isKey_last : IsKey "last".toList := by decide

theorem isKey_policy : IsKey "policy".toList := by decide

/-- The scan depends on what it finds next, and on nothing in front of that. -/
theorem scanRanges_congr {start : Option Text} {c c' : Text}
    (h : findKey c "first".toList = findKey c' "first".toList) (n : Nat) :
    scanRanges start n c = scanRanges start n c' := by
  cases n with
  | zero => rfl
  | succ n => rw [scanRanges, scanRanges, h]

theorem scanRanges_hit {start c e policy : Text} {first last : Int}
    (hfind : findKey c "first".toList = some e) (hstart : start.length ≤ e.length)
    (hfirst : readLongAfter e "first".toList = some first)
    (hlast : readLongAfter e "last".toList = some last)
    (hpolicy : readStringAfter e "policy".toList maxStr = some policy) (n : Nat) :
    scanRanges (some start) (n + 1) c =
      (⟨first, last, policy⟩ :: (scanRanges (some start) n e.tail).1,
        (scanRanges (some start) n e.tail).2) := by
  have hle : ¬ e.length < start.length := Nat.not_lt.mpr hstart
  rw [scanRanges, hfind]
  simp only [Option.any_some, decide_eq_true_eq]
  rw [if_neg hle, hfirst, hlast, hpolicy]
  rfl

/-- The scan reads the ranges of the table, as many as there is room for. -/
theorem Row.scanned {tail t start : Text} {rows : List RangeRow}
    (hrow : Row tail (rows.flatMap RangeRow.members) t) (htail : Breaks tail)
    (hle : start.length ≤ tail.length)
    (hend : ∀ e, findKey tail "first".toList = some e → e.length < start.length)
    (hwords : ∀ r ∈ rows, r.policy ≠ "first".toList ∧ r.detail ≠ "first".toList) (n : Nat) :
    scanRanges (some start) n t = ((rows.take n).map RangeRow.read, []) := by
  induction rows generalizing n t with
  | nil =>
      have hfind := hrow.pass htail isKey_first (fun m hm => absurd hm List.not_mem_nil)
      cases n with
      | zero => rfl
      | succ n =>
          rw [scanRanges_congr hfind, scanRanges]
          cases htl : findKey tail "first".toList with
          | none => rfl
          | some e =>
              simp only [Option.any_some, decide_eq_true_eq]
              rw [if_pos (hend e htl)]
              rfl
  | cons r rows ih =>
      cases n with
      | zero => rfl
      | succ n =>
          obtain ⟨hpolicy, hdetail⟩ := hwords r List.mem_cons_self
          obtain ⟨-, e, t₁, hfind, hhit, hrow₁, hrest⟩ := hrow.keyed isKey_first rfl
          obtain ⟨t₂, hrow₂, hfind₂⟩ :=
            hrow₁.skip htail isKey_first (show "last".toList ≠ "first".toList by decide)
              Value.noConfusion
          obtain ⟨t₃, hrow₃, hfind₃⟩ :=
            hrow₂.skip htail isKey_first (show "policy".toList ≠ "first".toList by decide)
              fun h => hpolicy (Value.str.inj h)
          obtain ⟨t₄, hrow₄, hfind₄⟩ :=
            hrow₃.skip htail isKey_first (show "detail".toList ≠ "first".toList by decide)
              fun h => hdetail (Value.str.inj h)
          -- what the search started again finds
          have hnumber : findKey (r.first.text ++ t₁) "first".toList =
              findKey t₁ "first".toList := findKey_skip isKey_first r.first.no_quote
          have htailfind := hrest.trans (hnumber.trans (hfind₂.trans (hfind₃.trans hfind₄)))
          have hscan := scanRanges_hit hfind (hle.trans hhit.length_le)
            (hhit.readLong htail isKey_first) (hhit.readLong htail isKey_last)
            (hhit.readString htail isKey_policy) n
          rw [scanRanges_congr htailfind, ih hrow₄ fun r' hr' => hwords r' (List.mem_cons_of_mem r hr')]
            at hscan
          exact hscan

/-! ## Assignments

The same for the assignments, where the loop jumps from one `"id"` to the next. In a row of members that
may be a key or a value, so that the entries are defined for any row. -/

/-- The entries found in a row: the number, and the members from there on. -/
def entries (tail : Text) : List Member → List (Int × List Member)
  | []      => []
  | m :: ms =>
      (if m.key = "id".toList then [(m.value.number, m :: ms)] else []) ++
        ((if m.value = .str "id".toList then
            (numberBehind tail ms).toList.map fun id => (id, ms) else []) ++ entries tail ms)

/-- The assignment that is recorded for an entry. -/
def entryAssignment (tail : Text) (e : Int × List Member) : Assignment :=
  ⟨e.1, (stringAfter "name".toList tail e.2).getD [], (stringAfter "status".toList tail e.2).getD []⟩

/-- What is found missing of an entry. -/
def entryFailures (tail : Text) (e : Int × List Member) : List Failure :=
  failIf (stringAfter "name".toList tail e.2 = none) (.noName e.1) ++
    failIf (stringAfter "status".toList tail e.2 = none) (.noStatus e.1) ++
    failIf (mentions "specification".toList tail e.2 = false) (.noSpecification e.1) ++
    failIf (mentions "criticality_guidance".toList tail e.2 = false) (.noGuidance e.1)

/-- What is recorded for a list of entries. -/
def recorded (tail : Text) (es : List (Int × List Member)) : List Assignment × List Failure :=
  (es.map (entryAssignment tail), es.flatMap (entryFailures tail))

theorem isKey_id : IsKey "id".toList := by decide

theorem isKey_name : IsKey "name".toList := by decide

theorem isKey_status : IsKey "status".toList := by decide

theorem isKey_specification : IsKey "specification".toList := by decide

theorem isKey_guidance : IsKey "criticality_guidance".toList := by decide

theorem strstr_suffix {p t e : Text} (h : strstr p t = some e) : e <:+ t := by
  induction t with
  | nil =>
      rw [strstr] at h
      split at h
      · cases h
        exact List.suffix_refl _
      · cases h
  | cons x t ih =>
      rw [strstr] at h
      split at h
      · cases h
        exact List.suffix_refl _
      · exact (ih h).trans (List.suffix_cons x t)

/-- The scan depends on what it finds next, and on nothing in front of that. -/
theorem scanAssignments_congr {last c c' : Text} (h : findKey c "id".toList = findKey c' "id".toList)
    (n : Nat) : scanAssignments last n c = scanAssignments last n c' := by
  cases n with
  | zero => rfl
  | succ n => rw [scanAssignments, scanAssignments, h]

theorem scanAssignments_hit {last c e : Text} {id : Int} (hfind : findKey c "id".toList = some e)
    (hlast : last.length ≤ e.length) (hid : readLongAfter e "id".toList = some id) (n : Nat) :
    scanAssignments last (n + 1) c =
      (⟨id, (readStringAfter e "name".toList maxStr).getD [],
          (readStringAfter e "status".toList maxStr).getD []⟩ :: (scanAssignments last n e.tail).1,
        failIf (readStringAfter e "name".toList maxStr = none) (.noName id) ++
          failIf (readStringAfter e "status".toList maxStr = none) (.noStatus id) ++
          failIf (findKey e "specification".toList = none) (.noSpecification id) ++
          failIf (findKey e "criticality_guidance".toList = none) (.noGuidance id) ++
          (scanAssignments last n e.tail).2) := by
  have hle : ¬ e.length < last.length := by omega
  rw [scanAssignments, hfind]
  simp only
  rw [if_neg hle, hid]

section Scan

variable {tail t : Text} {ms : List Member} {m : Member}

/-- What the scan finds where a value is the word `id`. -/
def valueEntries (tail : Text) (ms : List Member) (v : Value) : List (Int × List Member) :=
  if v = .str "id".toList then (numberBehind tail ms).toList.map fun id => (id, ms) else []

theorem entries_cons : entries tail (m :: ms) =
    (if m.key = "id".toList then [(m.value.number, m :: ms)] else []) ++
      (valueEntries tail ms m.value ++ entries tail ms) := rfl

/-- What the scan records from a value that is the word `id` on. -/
theorem scan_value (hm : m.Plain) (hv : m.value = .str "id".toList) (hrow : Row tail ms t)
    (htail : Breaks tail) {n : Nat}
    (ih : scanAssignments tail n t = recorded tail ((entries tail ms).take n)) :
    scanAssignments tail (n + 1) (m.value.text ++ t) = recorded tail
      (((numberBehind tail ms).toList.map (fun id => (id, ms)) ++ entries tail ms).take (n + 1)) := by
  have ht := hrow.breaks htail
  have hfind : findKey (m.value.text ++ t) "id".toList = some (m.value.text ++ t) := by
    rw [findKey_value isKey_id hm ht, if_pos hv]
  have hlong : readLongAfter (m.value.text ++ t) "id".toList = numberBehind tail ms := by
    rw [readLongAfter_eq, hfind, Option.bind_some, (behind_value isKey_id.1 hv t).1]
    exact hrow.long htail
  cases hnumber : numberBehind tail ms with
  | none =>
      -- so no member and no colon stands behind the value
      cases ms with
      | cons m' ms' => cases hnumber
      | nil =>
          rw [hnumber] at hlong
          rw [scanAssignments, hfind]
          simp only [hlong]
          split
          · rfl
          · rfl
  | some id =>
      rw [hnumber] at hlong
      have hlast : tail.length ≤ (m.value.text ++ t).length := by
        rw [List.length_append]
        exact hrow.length_le.trans (Nat.le_add_left _ _)
      have hskip : ∀ {w : Text}, IsKey w → "id".toList ≠ w →
          findKey (m.value.text ++ t) w = findKey t w := by
        intro w hw hne
        rw [findKey_value hw hm ht, if_neg]
        rw [hv]
        exact fun h => hne (Value.str.inj h)
      have hstring : ∀ {w : Text}, IsKey w → "id".toList ≠ w →
          readStringAfter (m.value.text ++ t) w maxStr = stringAfter w tail ms := by
        intro w hw hne
        rw [readStringAfter_eq, hskip hw hne, ← readStringAfter_eq]
        exact hrow.readString htail hw
      have hmentions : ∀ {w : Text}, IsKey w → "id".toList ≠ w →
          (findKey (m.value.text ++ t) w = none ↔ mentions w tail ms = false) := by
        intro w hw hne
        rw [hskip hw hne]
        exact hrow.missing htail hw
      have hrest : scanAssignments tail n (m.value.text ++ t).tail = scanAssignments tail n t := by
        apply scanAssignments_congr
        rw [findKey_eq isKey_id, findKey_eq isKey_id, hv, Value.text_str, List.tail_cons]
        exact strstr_rest isKey_id.1 isKey_id.1.no_quote ht
      rw [scanAssignments_hit hfind hlast hlong n, hrest, ih,
        hstring isKey_name (by decide), hstring isKey_status (by decide)]
      simp only [hmentions isKey_specification (by decide),
        hmentions isKey_guidance (by decide)]
      rfl

/-- What the scan records from the value of a member on. -/
theorem scan_behind (hm : m.Plain) (hrow : Row tail ms t) (htail : Breaks tail)
    (ih : ∀ n, scanAssignments tail n t = recorded tail ((entries tail ms).take n)) (n : Nat) :
    scanAssignments tail n (m.value.text ++ t) =
      recorded tail ((valueEntries tail ms m.value ++ entries tail ms).take n) := by
  rw [valueEntries]
  by_cases hv : m.value = .str "id".toList
  · rw [if_pos hv]
    cases n with
    | zero => rfl
    | succ n => exact scan_value hm hv hrow htail (ih n)
  · rw [if_neg hv, List.nil_append, ← ih n]
    apply scanAssignments_congr
    rw [findKey_value isKey_id hm (hrow.breaks htail), if_neg hv]

/-- The scan records the entries of the row, as many as there is room for. -/
theorem Row.scan (hrow : Row tail ms t) (htail : Breaks tail)
    (hend : ∀ e, findKey tail "id".toList = some e → e.length < tail.length) (n : Nat) :
    scanAssignments tail n t = recorded tail ((entries tail ms).take n) := by
  induction ms generalizing n t with
  | nil =>
      have hfind := hrow.pass htail isKey_id (fun m hm => absurd hm List.not_mem_nil)
      cases n with
      | zero => rfl
      | succ n =>
          rw [scanAssignments_congr hfind, scanAssignments]
          cases htl : findKey tail "id".toList with
          | none => rfl
          | some e =>
              simp only
              rw [if_pos (hend e htl)]
              rfl
  | cons m ms ih =>
      rw [entries_cons]
      by_cases hkey : m.key = "id".toList
      · obtain ⟨hm, e, t', hfind, hhit, hrow', hrest⟩ := hrow.keyed isKey_id hkey
        rw [if_pos hkey]
        cases n with
        | zero => rfl
        | succ n =>
            have hlong := hhit.readLong htail isKey_id
            rw [numberAfter, if_pos hkey] at hlong
            rw [scanAssignments_hit hfind hhit.length_le hlong n, scanAssignments_congr hrest,
              scan_behind hm hrow' htail (fun n => ih hrow' n) n,
              hhit.readString htail isKey_name, hhit.readString htail isKey_status]
            simp only [hhit.missing htail isKey_specification, hhit.missing htail isKey_guidance]
            rfl
      · obtain ⟨hm, t', hrow', hfind⟩ := hrow.unkeyed isKey_id hkey
        rw [if_neg hkey, List.nil_append, scanAssignments_congr hfind]
        exact scan_behind hm hrow' htail (fun n => ih hrow' n) n

end Scan

end Registry

end MclWire
