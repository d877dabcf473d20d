import MclWire.Registry.CutOff

/-!
# Assignments that lack a field

The validator looks for the fields of an assignment from its `"id"` on, and does not stop where the
assignment ends. What one of them lacks is made up for by the next one, or by the text behind the
table.

* `Document.Noticed` — some object lacks a word, and nothing behind it in the file makes up for that.
* `Document.InOrder` — the ranges, the identifiers and the counts leave nothing to report.
* `Document.Regular.accepted_iff` — the validator accepts what is in order and where nothing is
  noticed.
* `complete_iff` — so what it accepts is complete if and only if it is, or something is noticed or not
  in order.

All of this is said of the table as it is written, row by row, and of the text behind it. The proof
goes through the entries that the scan finds (`Document.found`): in a table of objects they are the
objects with an identifier, each with everything behind it.
-/

namespace MclWire

open CText

namespace Registry

/-- Every assignment has all required fields. -/
def Document.Complete (d : Document) : Prop :=
  ∀ o ∈ d.assignments, ∀ w ∈ requiredKeys, ∃ m ∈ o, m.key = w

instance (d : Document) : Decidable d.Complete :=
  inferInstanceAs (Decidable (∀ o ∈ d.assignments, ∀ w ∈ requiredKeys, ∃ m ∈ o, m.key = w))

/-- A registry whose assignments are objects, as many as there is room for. Any text may stand behind
them. -/
structure Document.Regular (d : Document) : Prop extends Document.LaidOut d where
  assignments_le : d.assignments.length ≤ maxAssignments
  objects : ∀ o ∈ d.assignments, IsObject o

/-- The ranges there is room for, as they are declared. -/
def Document.declaredRanges (d : Document) : List Range :=
  (d.ranges.take maxRanges).map RangeRow.range

/-- The number that the text behind the table gives for a word, 0 if it gives none. -/
def Document.stated (d : Document) (w : Text) : Int := (readLongAfter d.behind w).getD 0

/-- Some assignment lacks a word behind its identifier, and neither a later assignment nor the text
behind the table makes up for it. -/
def Document.Noticed (d : Document) : Prop :=
  ∃ pre o post, d.assignments = pre ++ o :: post ∧ ∃ w ∈ searchedKeys,
    Lacks o w ∧ (∀ o' ∈ post, ∀ m ∈ o', m.key ≠ w) ∧ ¬ Offers d.behind w

/-- How many assignments get the status `deprecated` from the text behind the table. -/
def Document.borrowed (d : Document) : Nat :=
  if readStringAfter d.behind "status".toList maxStr = some "deprecated".toList then
    unstated d.assignments
  else
    0

/-- Apart from missing fields there is nothing to report: the ranges partition the identifiers, the
identifiers may be assigned and are not assigned twice, no status is one of the words of the summary,
and the summary counts the assignments that have an identifier, as deprecated those that get this
status from the text behind the table. -/
structure Document.InOrder (d : Document) : Prop where
  partition : Partition d.declaredRanges
  identifiers : ∀ o ∈ d.assignments, ∀ i ∈ o, i.key = "id".toList →
    ∃ x, i.value = .num x ∧ Assignable d.declaredRanges x.value
  unique : d.assignments.Pairwise fun o o' => ∀ x x', ⟨"id".toList, .num x⟩ ∈ o →
    ⟨"id".toList, .num x'⟩ ∈ o' → x.value ≠ x'.value
  statuses : ∀ o ∈ d.assignments, ∀ m ∈ o, ∀ w ∈ summaryWords, m.value ≠ .str w
  assigned : d.stated "assigned".toList = (d.assignments.countP fun o => HasId o) - d.borrowed
  deprecated : d.stated "deprecated".toList = d.borrowed
  total : d.stated "total".toList = d.assignments.countP fun o => HasId o

section Regular

variable {d : Document} {w : Text}

theorem stringAfter_skip {a ms : List Member} {tail : Text}
    (h : ∀ m ∈ a, m.key ≠ w ∧ m.value ≠ .str w) :
    stringAfter w tail (a ++ ms) = stringAfter w tail ms := by
  induction a with
  | nil => rfl
  | cons m a ih =>
      obtain ⟨hkey, hvalue⟩ := h m List.mem_cons_self
      rw [List.cons_append, stringAfter, if_neg hkey, if_neg hvalue]
      exact ih fun m' hm' => h m' (List.mem_cons_of_mem m hm')

/-- The entries that are found are the objects with an identifier. -/
theorem Document.Regular.found_eq (h : d.Regular) : d.found = tableEntries d.assignments := by
  have hlength := length_tableEntries h.objects
  rw [found, members, entries_flatten h.objects, List.take_of_length_le]
  rw [hlength]
  exact List.countP_le_length.trans h.assignments_le

theorem Document.Regular.length_found (h : d.Regular) :
    d.found.length = d.assignments.countP fun o => HasId o := by
  rw [h.found_eq]
  exact length_tableEntries h.objects

/-- The members from an identifier on are members of assignments. -/
theorem Document.Regular.member_of_found (h : d.Regular) {e : Int × List Member} (he : e ∈ d.found) :
    ∀ m ∈ e.2, ∃ o ∈ d.assignments, m ∈ o := by
  rw [h.found_eq] at he
  obtain ⟨pre, o, post, front, i, rest, hos, ho, -, rfl⟩ := (mem_tableEntries h.objects).mp he
  intro m hm
  rw [hos]
  simp only [List.mem_cons, List.mem_append, List.mem_flatten] at hm
  rcases hm with rfl | hm | ⟨o', ho', hm⟩
  · exact ⟨o, by simp, by simp [ho]⟩
  · exact ⟨o, by simp, by simp [ho, hm]⟩
  · exact ⟨o', by simp [ho'], hm⟩

/-- Nothing is missing of any entry, unless something is noticed. -/
theorem Document.Regular.supplied_iff (h : d.Regular) :
    (∀ e ∈ d.found, Supplied d.behind e.2) ↔ ¬ d.Noticed := by
  have hwords : ∀ e ∈ d.found, ∀ m ∈ e.2, ∀ w ∈ requiredKeys, m.value ≠ .str w := by
    intro e he m hm w hw
    obtain ⟨o, ho, hmo⟩ := h.member_of_found he m hm
    exact (h.objects o ho).words m hmo w hw
  have hstrings : ∀ e ∈ d.found, ∀ m ∈ e.2, m.key = "name".toList ∨ m.key = "status".toList →
      ∃ s, m.value = .str s := by
    intro e he m hm
    obtain ⟨o, ho, hmo⟩ := h.member_of_found he m hm
    exact (h.objects o ho).strings m hmo
  have hid : ∀ w ∈ searchedKeys, "id".toList ≠ w := by decide
  constructor
  · rintro hall ⟨pre, o, post, hos, w, hw, ⟨front, i, rest, ho, hi, hrest⟩, hpost, hno⟩
    have he : (i.value.number, i :: (rest ++ post.flatten)) ∈ d.found := by
      rw [h.found_eq]
      exact (mem_tableEntries h.objects).mpr ⟨pre, o, post, front, i, rest, hos, ho, hi, rfl⟩
    have hsupplied := (Registry.supplied_iff (hwords _ he) (hstrings _ he)).mp (hall _ he) w hw
    simp only [List.mem_cons, List.mem_append, List.mem_flatten] at hsupplied
    rcases hsupplied with ⟨m, rfl | hm | ⟨o', ho', hm⟩, hkey⟩ | hoffers
    · exact hid w hw (hi.symm.trans hkey)
    · exact hrest m hm hkey
    · exact hpost o' ho' m hm hkey
    · exact hno hoffers
  · intro hnoticed e he
    rw [Registry.supplied_iff (hwords e he) (hstrings e he)]
    intro w hw
    by_contra hmissing
    rw [not_or] at hmissing
    obtain ⟨hno, hoffers⟩ := hmissing
    rw [h.found_eq] at he
    obtain ⟨pre, o, post, front, i, rest, hos, ho, hi, rfl⟩ := (mem_tableEntries h.objects).mp he
    refine hnoticed ⟨pre, o, post, hos, w, hw, ⟨front, i, rest, ho, hi, ?_⟩, ?_, hoffers⟩
    · intro m hm hkey
      exact hno ⟨m, by simp [hm], hkey⟩
    · intro o' ho' m hm hkey
      exact hno ⟨m, by simp [show ∃ l ∈ post, m ∈ l from ⟨o', ho', hm⟩], hkey⟩

/-- A status that is a word of the summary is recorded as it is. -/
theorem Document.Regular.recorded_of_status (h : d.Regular) {o : List Member}
    (ho : o ∈ d.assignments) {m : Member} (hm : m ∈ o) (hw : w ∈ summaryWords)
    (hvalue : m.value = .str w) : ∃ a ∈ d.recorded, a.status = w := by
  obtain ⟨pre, post, hos⟩ := List.append_of_mem ho
  obtain ⟨before, behind, hsplit⟩ := List.append_of_mem hm
  have hobject := h.objects o ho
  obtain ⟨hstatus, ⟨i, hi, hid⟩, -⟩ := hobject.statuses before m behind hsplit w hw hvalue
  obtain ⟨front, mid, rfl⟩ := List.append_of_mem hi
  -- between the identifier and the status there is no other status
  have hskip : ∀ x ∈ i :: mid, x.key ≠ "status".toList ∧ x.value ≠ .str "status".toList := by
    intro x hx
    have hbefore : x ∈ front ++ i :: mid := List.mem_append_right front hx
    have hother := hobject.other hsplit x (List.mem_append_left _ hbefore)
    rw [hstatus] at hother
    have hxo : x ∈ o := hsplit ▸ List.mem_append_left _ hbefore
    exact ⟨hother, hobject.words x hxo _ status_required⟩
  have he : (i.value.number, i :: ((mid ++ m :: behind) ++ post.flatten)) ∈ d.found := by
    rw [h.found_eq, mem_tableEntries h.objects]
    exact ⟨pre, o, post, front, i, mid ++ m :: behind, hos, by simp [hsplit], hid, rfl⟩
  refine ⟨entryAssignment d.behind _, List.mem_map_of_mem he, ?_⟩
  have hread : stringAfter "status".toList d.behind (i :: ((mid ++ m :: behind) ++ post.flatten)) =
      some (cut w) := by
    have hassoc : i :: ((mid ++ m :: behind) ++ post.flatten) =
        (i :: mid) ++ m :: (behind ++ post.flatten) := by simp
    rw [hassoc, stringAfter_skip hskip, stringAfter, if_pos hstatus, hvalue]
    rfl
  show (stringAfter "status".toList d.behind _).getD [] = w
  rw [hread, (cut_eq (isKey_summaryWord w hw)).mpr rfl]
  rfl

/-- Where no status is a word of the summary, the recorded one is `deprecated` if there is none and the
text behind the table says so. -/
theorem Document.Regular.recorded_deprecated_iff (h : d.Regular)
    (hstatuses : ∀ o ∈ d.assignments, ∀ m ∈ o, ∀ w ∈ summaryWords, m.value ≠ .str w)
    {e : Int × List Member} (he : e ∈ d.found) :
    (entryAssignment d.behind e).status = "deprecated".toList ↔
      (∀ m ∈ e.2, m.key ≠ "status".toList) ∧
        readStringAfter d.behind "status".toList maxStr = some "deprecated".toList := by
  have hwords : ∀ m ∈ e.2, m.value ≠ .str "status".toList := by
    intro m hm
    obtain ⟨o, ho, hmo⟩ := h.member_of_found he m hm
    exact (h.objects o ho).words m hmo _ status_required
  have hstrings : ∀ m ∈ e.2, m.key = "status".toList → ∃ s, m.value = .str s := by
    intro m hm hkey
    obtain ⟨o, ho, hmo⟩ := h.member_of_found he m hm
    exact (h.objects o ho).strings m hmo (Or.inr hkey)
  show (stringAfter "status".toList d.behind e.2).getD [] = "deprecated".toList ↔ _
  rcases stringAfter_cases (u := d.behind) hwords hstrings with
    ⟨m, hm, hkey, s, hvalue, hs⟩ | ⟨hno, hs⟩
  · obtain ⟨o, ho, hmo⟩ := h.member_of_found he m hm
    rw [hs, Option.getD_some, cut_eq (isKey_summaryWord _ deprecated_summaryWord)]
    constructor
    · rintro rfl
      exact absurd hvalue (hstatuses o ho m hmo _ deprecated_summaryWord)
    · intro hboth
      exact absurd hkey (hboth.1 m hm)
  · rw [hs, and_iff_right hno]
    cases readStringAfter d.behind "status".toList maxStr with
    | none => exact iff_of_false (List.cons_ne_nil _ _).symm (Option.some_ne_none _).symm
    | some s => exact Option.some_inj.symm

/-- Where a status is a word of the summary, 0 is declared for it. -/
theorem Document.Regular.declared_eq (h : d.Regular) (hw : w ∈ summaryWords) :
    d.declared w = if ∃ o ∈ d.assignments, ∃ m ∈ o, m.value = .str w then 0 else d.stated w := by
  rw [declared, members, numberAfter_flatten h.objects hw]
  split
  · rfl
  · rfl

/-- So the counts only come out if there is no such status. -/
theorem Document.Regular.no_status (h : d.Regular) (hs : d.Sound) :
    ∀ o ∈ d.assignments, ∀ m ∈ o, ∀ w ∈ summaryWords, m.value ≠ .str w := by
  intro o ho m hm w hw hvalue
  obtain ⟨a, ha, hstatus⟩ := h.recorded_of_status ho hm hw hvalue
  have hzero := h.declared_eq hw
  rw [if_pos ⟨o, ho, m, hm, hvalue⟩] at hzero
  have hassigned := hs.assigned
  have hdeprecated := hs.deprecated
  have htotal := hs.total
  have hlength : d.recorded.length = d.found.length := List.length_map _
  have hpos := List.length_pos_of_mem ha
  simp only [summaryWords, List.mem_cons, List.not_mem_nil, or_false] at hw
  rcases hw with rfl | rfl | rfl
  · rw [hzero, countedAssigned] at hassigned
    have hne : "assigned".toList ≠ "deprecated".toList := by decide
    have hcount : 0 < d.recorded.countP fun a => a.status ≠ "deprecated".toList :=
      List.countP_pos_iff.mpr ⟨a, ha, decide_eq_true (hstatus ▸ hne)⟩
    omega
  · rw [hzero, countedDeprecated] at hdeprecated
    have hcount : 0 < d.recorded.countP fun a => a.status = "deprecated".toList :=
      List.countP_pos_iff.mpr ⟨a, ha, decide_eq_true hstatus⟩
    omega
  · omega

/-- What is counted where no status is a word of the summary. -/
theorem Document.Regular.counted (h : d.Regular)
    (hstatuses : ∀ o ∈ d.assignments, ∀ m ∈ o, ∀ w ∈ summaryWords, m.value ≠ .str w) :
    countedDeprecated d.recorded = d.borrowed ∧
      (countedAssigned d.recorded : Int) = (d.assignments.countP fun o => HasId o) - d.borrowed := by
  have hdeprecated : countedDeprecated d.recorded = d.borrowed := by
    rw [countedDeprecated, recorded, List.countP_map, borrowed, ← countP_tableEntries h.objects,
      ← h.found_eq]
    split
    case isTrue hbehind =>
      apply List.countP_congr
      intro e he
      simp only [Function.comp, decide_eq_true_eq, h.recorded_deprecated_iff hstatuses he, hbehind,
        and_true]
    case isFalse hbehind =>
      rw [List.countP_eq_zero]
      intro e he hstatus
      exact hbehind ((h.recorded_deprecated_iff hstatuses he).mp (of_decide_eq_true hstatus)).2
  have htotal : d.recorded.length = countedDeprecated d.recorded + countedAssigned d.recorded := by
    rw [countedDeprecated, countedAssigned,
      List.length_eq_countP_add_countP fun a => decide (a.status = "deprecated".toList)]
    simp only [decide_eq_true_eq, ne_eq]
  rw [recorded, List.length_map, h.length_found, ← recorded, hdeprecated] at htotal
  refine ⟨hdeprecated, ?_⟩
  omega

/-- Identifiers are read as they are, if they may be assigned. -/
theorem Document.Regular.identifiers_iff (h : d.Regular) (hpartition : Partition d.declaredRanges) :
    (∀ e ∈ d.found, Assignable d.table e.1) ↔ ∀ o ∈ d.assignments, ∀ i ∈ o, i.key = "id".toList →
      ∃ x, i.value = .num x ∧ saturate x.value = x.value ∧ Assignable d.declaredRanges x.value := by
  constructor
  · intro hall o ho i hi hid
    obtain ⟨pre, post, hos⟩ := List.append_of_mem ho
    obtain ⟨front, rest, hsplit⟩ := List.append_of_mem hi
    have he : (i.value.number, i :: (rest ++ post.flatten)) ∈ d.found := by
      rw [h.found_eq]
      exact (mem_tableEntries h.objects).mpr ⟨pre, o, post, front, i, rest, hos, hsplit, hid, rfl⟩
    have hassignable := hall _ he
    rw [Document.table, assignable_read_iff hpartition] at hassignable
    cases hvalue : i.value with
    | str s =>
        have hpos := hassignable.1
        rw [hvalue] at hpos
        exact absurd hpos (Int.lt_irrefl 0)
    | num x =>
        rw [hvalue] at hassignable
        have hexact : saturate x.value = x.value :=
          saturate_inside (Int.le_of_lt hassignable.1) hassignable.2.1
        refine ⟨x, rfl, hexact, ?_⟩
        rw [← hexact]
        exact hassignable
  · intro hall e he
    rw [h.found_eq] at he
    obtain ⟨pre, o, post, front, i, rest, hos, ho, hi, rfl⟩ := (mem_tableEntries h.objects).mp he
    obtain ⟨x, hvalue, hexact, hassignable⟩ := hall o (by simp [hos]) i (by simp [ho]) hi
    rw [Document.table, assignable_read_iff hpartition]
    show Assignable _ i.value.number
    rw [hvalue, Value.number, hexact]
    exact hassignable

/-- What is asked of ranges, identifiers and summary. -/
theorem Document.Regular.sound_iff (h : d.Regular) : d.Sound ↔ d.InOrder := by
  have hids := pairwise_tableEntries h.objects
  rw [← h.found_eq] at hids
  have hdeclared := fun w hw => h.declared_eq (w := w) hw
  have hmember : ∀ {i : Member} {x : Numeral}, i.key = "id".toList → i.value = .num x →
      i = ⟨"id".toList, .num x⟩ := by
    rintro ⟨k, v⟩ x rfl rfl
    rfl
  constructor
  · intro hs
    have hpartition : Partition d.declaredRanges := partition_read_iff.mp hs.partition
    have hidentifiers := (h.identifiers_iff hpartition).mp hs.assignable
    have hstatuses := h.no_status hs
    have hno : ∀ w ∈ summaryWords, ¬ ∃ o ∈ d.assignments, ∃ m ∈ o, m.value = .str w := by
      rintro w hw ⟨o, ho, m, hm, hvalue⟩
      exact hstatuses o ho m hm w hw hvalue
    obtain ⟨hnone, hcount⟩ := h.counted hstatuses
    have hstated : ∀ w ∈ summaryWords, d.declared w = d.stated w := by
      intro w hw
      rw [hdeclared w hw, if_neg (hno w hw)]
    constructor
    case partition => exact hpartition
    case identifiers =>
      intro o ho i hi hid
      obtain ⟨x, hvalue, -, hassignable⟩ := hidentifiers o ho i hi hid
      exact ⟨x, hvalue, hassignable⟩
    case unique =>
      refine (hids.mp hs.unique).imp_of_mem ?_
      intro o o' ho ho' hne x x' hx hx'
      have hnumber := hne _ hx _ hx' rfl rfl
      obtain ⟨y, hy, hexact, -⟩ := hidentifiers o ho _ hx rfl
      obtain ⟨y', hy', hexact', -⟩ := hidentifiers o' ho' _ hx' rfl
      cases hy
      cases hy'
      simp only [Value.number, hexact, hexact'] at hnumber
      exact hnumber
    case statuses => exact hstatuses
    case assigned => rw [← hstated _ assigned_summaryWord, hs.assigned, hcount]
    case deprecated => rw [← hstated _ deprecated_summaryWord, hs.deprecated, hnone]
    case total => rw [← hstated _ total_summaryWord, hs.total, h.length_found]
  · intro ho
    have hidentifiers : ∀ o ∈ d.assignments, ∀ i ∈ o, i.key = "id".toList →
        ∃ x, i.value = .num x ∧ saturate x.value = x.value ∧
          Assignable d.declaredRanges x.value := by
      intro o hmem i hi hid
      obtain ⟨x, hvalue, hassignable⟩ := ho.identifiers o hmem i hi hid
      exact ⟨x, hvalue, saturate_id (Int.le_of_lt hassignable.1) hassignable.2.1, hassignable⟩
    have hno : ∀ w ∈ summaryWords, ¬ ∃ o ∈ d.assignments, ∃ m ∈ o, m.value = .str w := by
      rintro w hw ⟨o, hmem, m, hm, hvalue⟩
      exact ho.statuses o hmem m hm w hw hvalue
    obtain ⟨hnone, hcount⟩ := h.counted ho.statuses
    have hstated : ∀ w ∈ summaryWords, d.declared w = d.stated w := by
      intro w hw
      rw [hdeclared w hw, if_neg (hno w hw)]
    constructor
    case partition => exact partition_read_iff.mpr ho.partition
    case assignable => exact (h.identifiers_iff ho.partition).mpr hidentifiers
    case unique =>
      refine hids.mpr (ho.unique.imp_of_mem ?_)
      intro o o' hmem hmem' hne i hi i' hi' hid hid'
      obtain ⟨x, hx, hexact, -⟩ := hidentifiers o hmem i hi hid
      obtain ⟨x', hx', hexact', -⟩ := hidentifiers o' hmem' i' hi' hid'
      rw [hx, hx', Value.number, Value.number, hexact, hexact']
      exact hne x x' (hmember hid hx ▸ hi) (hmember hid' hx' ▸ hi')
    case assigned => rw [hstated _ assigned_summaryWord, ho.assigned, hcount]
    case deprecated => rw [hstated _ deprecated_summaryWord, ho.deprecated, hnone]
    case total => rw [hstated _ total_summaryWord, ho.total, h.length_found]

/-- What the validator accepts. -/
theorem Document.Regular.accepted_iff (h : d.Regular) : d.Accepted ↔ d.InOrder ∧ ¬ d.Noticed := by
  rw [← h.sound_iff, ← h.supplied_iff]
  constructor
  · intro ha
    exact ⟨ha.toSound, ha.supplied⟩
  · rintro ⟨hs, hsupplied⟩
    exact ⟨hs, hsupplied⟩

end Regular

/-- What stands behind the assignments is of no concern to it. -/
theorem Document.Regular.kept {d : Document} (h : d.Regular) (file : Text) :
    (d.kept file).Regular where
  opening := h.opening
  ranges := h.ranges
  assignments := h.assignments
  assignments_le := h.assignments_le
  objects := h.objects

/-- An identifier, and strings under other keys. -/
def objectOf (x : Numeral) (ps : List (Text × Text)) : List Member :=
  ⟨"id".toList, .num x⟩ :: ps.map fun p => ⟨p.1, .str p.2⟩

theorem objectOf_isObject {x : Numeral} {ps : List (Text × Text)}
    (hnodup : ("id".toList :: ps.map Prod.fst).Nodup)
    (hfree : ∀ p ∈ ps, p.1 ∉ summaryWords ∧ p.2 ∉ requiredKeys ∧ p.2 ∉ summaryWords) :
    IsObject (objectOf x ps) := by
  have hvalue : ∀ m ∈ objectOf x ps, m = ⟨"id".toList, .num x⟩ ∨
      ∃ p ∈ ps, m = ⟨p.1, .str p.2⟩ := by
    intro m hm
    rw [objectOf, List.mem_cons, List.mem_map] at hm
    rcases hm with hm | ⟨p, hp, hm⟩
    · exact Or.inl hm
    · exact Or.inr ⟨p, hp, hm.symm⟩
  have hwords : ∀ m ∈ objectOf x ps, ∀ w, m.value = .str w → w ∉ requiredKeys ∧ w ∉ summaryWords := by
    intro m hm w hw
    rcases hvalue m hm with rfl | ⟨p, hp, rfl⟩
    · cases hw
    · cases hw
      exact (hfree p hp).2
  have hid : ∀ w ∈ "name".toList :: "status".toList :: summaryWords, "id".toList ≠ w := by
    decide
  constructor
  case nodup =>
    rw [objectOf, List.map_cons, List.map_map]
    exact hnodup
  case keys =>
    intro m hm hkey
    rcases hvalue m hm with rfl | ⟨p, hp, rfl⟩
    · exact hid _ (List.mem_cons_of_mem _ (List.mem_cons_of_mem _ hkey)) rfl
    · exact (hfree p hp).1 hkey
  case strings =>
    intro m hm hkey
    rcases hvalue m hm with rfl | ⟨p, -, rfl⟩
    · rcases hkey with hkey | hkey
      · exact absurd hkey (hid _ (by simp))
      · exact absurd hkey (hid _ (by simp))
    · exact ⟨p.2, rfl⟩
  case words => exact fun m hm w hw hstr => (hwords m hm w hstr).1 hw
  case statuses =>
    intro pre m post ho w hw hstr
    exact absurd hw (hwords m (by simp [ho]) w hstr).2

theorem objectOf_plain {x : Numeral} {ps : List (Text × Text)}
    (hkeys : ∀ k ∈ "id".toList :: ps.map Prod.fst, '"' ∉ k ∧ ':' ∉ k ∧ '[' ∉ k ∧ ']' ∉ k)
    (hstrings : ∀ s ∈ ps.map Prod.snd, '"' ∉ s ∧ '[' ∉ s ∧ ']' ∉ s) :
    ∀ m ∈ objectOf x ps, m.Plain ∧ m.Closed := by
  intro m hm
  rw [objectOf, List.mem_cons, List.mem_map] at hm
  rcases hm with rfl | ⟨p, hp, rfl⟩
  · obtain ⟨hquote, hcolon, hopen, hclose⟩ := hkeys _ List.mem_cons_self
    exact ⟨⟨⟨hquote, hcolon⟩, fun s hs => Value.noConfusion hs⟩, paired_of_free hopen hclose,
      fun s hs => Value.noConfusion hs⟩
  · obtain ⟨hquote, hcolon, hopen, hclose⟩ :=
      hkeys p.1 (List.mem_cons_of_mem _ (List.mem_map_of_mem hp))
    obtain ⟨hquote', hopen', hclose'⟩ := hstrings p.2 (List.mem_map_of_mem hp)
    exact ⟨⟨⟨hquote, hcolon⟩, fun s hs => Value.str.inj hs ▸ hquote'⟩,
      paired_of_free hopen hclose, fun s hs => Value.str.inj hs ▸ paired_of_free hopen' hclose'⟩

/-- An assignment that only has an identifier, in front of the list of the required fields. -/
def bareRegistry : Document where
  opening := ['{']
  ranges := pairRanges
  assignments := [objectOf (.ofNat 1) []]
  closing := [','] ++ (labelText "assignment_requirements".toList ('{' :: (labelText
      "required".toList ('[' :: (commas quoted (requiredKeys ++ ["detail".toList]) ++ [']', ','])) ++
      (labelText "criticality_guidance".toList (quoted ['g']) ++ ['}', ',']))) ++
    (labelText "summary".toList (objectText [⟨"assigned".toList, .num (.ofNat 1)⟩,
      ⟨"deprecated".toList, .num (.ofNat 0)⟩,
      ⟨"total".toList, .num (.ofNat 1)⟩]) ++ ['}']))

theorem bare_regular : bareRegistry.Regular where
  opening := by decide
  ranges := by decide
  assignments o ho := by
    rw [List.mem_singleton.mp ho]
    exact objectOf_plain (by decide) (by decide)
  assignments_le := by decide
  objects o ho := by
    rw [List.mem_singleton.mp ho]
    exact objectOf_isObject (by decide) (by decide)

theorem bare_fits : buffer bareRegistry.text = bareRegistry.text :=
  buffer_eq (by decide +kernel) (by decide +kernel)

/-- The name of its assignment holds a NUL, where what `main` sees of the file ends. -/
def severedRegistry : Document where
  opening := ['{']
  ranges := pairRanges
  assignments := [objectOf (.ofNat 1) [("name".toList, ['a', Char.ofNat 0])]]
  closing := ['}']

theorem severed_regular : severedRegistry.Regular where
  opening := by decide
  ranges := by decide
  assignments o ho := by
    rw [List.mem_singleton.mp ho]
    exact objectOf_plain (by decide) (by decide)
  assignments_le := by decide
  objects o ho := by
    rw [List.mem_singleton.mp ho]
    exact objectOf_isObject (by decide) (by decide)

end Registry

end MclWire
