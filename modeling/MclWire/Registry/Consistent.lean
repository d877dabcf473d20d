import Mathlib.Data.List.Sort
import MclWire.Registry.Document

/-!
# Registries that are consistent

Every assignment is complete, the identifiers are unique and may be assigned, and the summary declares
what there is. The validator is there to accept these, and accepts them if and only if none of their
strings is a word that it looks for (`consistent_iff`): it searches the whole file for the summary, and
the statuses of the assignments stand in front of that.
-/

namespace MclWire

open CText Tiling

namespace Registry

/-! ## Assignments

A complete assignment has its six members in the order of `required`. The scans look for words and not
for members, so that a string can be taken for a key; what they find then is in front of the next
string. -/

/-- A complete assignment. -/
structure AssignmentRow where
  id : Numeral
  name : Text
  status : Text
  specification : Text
  guidance : Text
  detail : Text
  deriving DecidableEq

/-- Its members. -/
def AssignmentRow.members (r : AssignmentRow) : List Member :=
  [⟨"id".toList, .num r.id⟩, ⟨"name".toList, .str r.name⟩, ⟨"status".toList, .str r.status⟩,
    ⟨"specification".toList, .str r.specification⟩,
    ⟨"criticality_guidance".toList, .str r.guidance⟩, ⟨"detail".toList, .str r.detail⟩]

/-- The strings that another member stands behind. -/
def AssignmentRow.strings (r : AssignmentRow) : List Text :=
  [r.name, r.status, r.specification, r.guidance]

/-- The keys of an assignment. -/
def assignmentKeys : List Text :=
  ["id".toList, "name".toList, "status".toList, "specification".toList,
    "criticality_guidance".toList, "detail".toList]

/-- The words of the summary. -/
def summaryWords : List Text := ["assigned".toList, "deprecated".toList, "total".toList]

theorem no_summaryWord : ∀ w ∈ summaryWords, ∀ k ∈ assignmentKeys, k ≠ w := by decide

theorem isKey_summaryWord : ∀ w ∈ summaryWords, IsKey w := by decide

theorem assigned_summaryWord : "assigned".toList ∈ summaryWords := List.mem_cons_self

theorem deprecated_summaryWord : "deprecated".toList ∈ summaryWords :=
  List.mem_cons_of_mem _ List.mem_cons_self

theorem total_summaryWord : "total".toList ∈ summaryWords :=
  List.mem_cons_of_mem _ (List.mem_cons_of_mem _ List.mem_cons_self)

section Members

variable {r : AssignmentRow} {ms : List Member} {tail w k s : Text}

theorem numberAfter_num (hk : k ≠ w) (x : Numeral) :
    numberAfter w tail (⟨k, .num x⟩ :: ms) = numberAfter w tail ms := by
  rw [numberAfter, if_neg hk, if_neg Value.noConfusion]

theorem numberAfter_here (w : Text) (x : Numeral) :
    numberAfter w tail (⟨w, .num x⟩ :: ms) = some (saturate x.value) := by
  rw [numberAfter, if_pos rfl]
  rfl

theorem numberAfter_str (hk : k ≠ w) : numberAfter w tail (⟨k, .str s⟩ :: ms) =
    if s = w then numberBehind tail ms else numberAfter w tail ms := by
  rw [numberAfter, if_neg hk]
  by_cases hs : s = w
  · rw [if_pos hs, if_pos (congrArg Value.str hs)]
  · rw [if_neg hs, if_neg fun h => hs (Value.str.inj h)]

/-- A search for a word of the summary stops at a string that is the word, in front of another
string. -/
theorem AssignmentRow.number (hkeys : ∀ k ∈ assignmentKeys, k ≠ w) (hdetail : r.detail ≠ w) :
    numberAfter w tail (r.members ++ ms) =
      if w ∈ r.strings then some 0 else numberAfter w tail ms := by
  simp only [assignmentKeys, List.forall_mem_cons] at hkeys
  obtain ⟨hid, hname, hstatus, hspecification, hguidance, hkey, -⟩ := hkeys
  show numberAfter w tail (⟨_, .num r.id⟩ :: ⟨_, .str r.name⟩ :: ⟨_, .str r.status⟩ ::
    ⟨_, .str r.specification⟩ :: ⟨_, .str r.guidance⟩ :: ⟨_, .str r.detail⟩ :: ms) = _
  rw [numberAfter_num hid, numberAfter_str hname, numberAfter_str hstatus,
    numberAfter_str hspecification, numberAfter_str hguidance, numberAfter_str hkey,
    if_neg hdetail]
  have hmem : w ∈ r.strings ↔
      r.name = w ∨ r.status = w ∨ r.specification = w ∨ r.guidance = w := by
    simp [strings, eq_comm]
  simp only [hmem, ite_or]
  rfl

theorem stringAfter_num (hk : k ≠ w) (x : Numeral) :
    stringAfter w tail (⟨k, .num x⟩ :: ms) = stringAfter w tail ms := by
  rw [stringAfter, if_neg hk, if_neg Value.noConfusion]

theorem stringAfter_here (w s : Text) :
    stringAfter w tail (⟨w, .str s⟩ :: ms) = some (cut s) := by
  rw [stringAfter, if_pos rfl]
  rfl

theorem stringAfter_str (hk : k ≠ w) : stringAfter w tail (⟨k, .str s⟩ :: ms) =
    if s = w then stringBehindRow tail ms else stringAfter w tail ms := by
  rw [stringAfter, if_neg hk]
  by_cases hs : s = w
  · rw [if_pos hs, if_pos (congrArg Value.str hs)]
  · rw [if_neg hs, if_neg fun h => hs (Value.str.inj h)]

theorem mentions_of_key {m : Member} (hm : m ∈ ms) (hk : m.key = w) : mentions w tail ms = true := by
  induction ms with
  | nil => cases hm
  | cons m' ms ih =>
      rw [mentions]
      rcases List.mem_cons.mp hm with rfl | hm
      · rw [decide_eq_true hk]
        rfl
      · rw [ih hm, Bool.or_true]

theorem entries_id (x : Numeral) : entries tail (⟨"id".toList, .num x⟩ :: ms) =
    (saturate x.value, ⟨"id".toList, .num x⟩ :: ms) :: entries tail ms := by
  rw [entries, if_pos rfl, if_neg Value.noConfusion]
  rfl

theorem entries_str (hk : k ≠ "id".toList) : entries tail (⟨k, .str s⟩ :: ms) =
    (if s = "id".toList then (numberBehind tail ms).toList.map fun id => (id, ms) else []) ++
      entries tail ms := by
  rw [entries, if_neg hk, List.nil_append]
  by_cases hs : s = "id".toList
  · rw [if_pos hs, if_pos (congrArg Value.str hs)]
  · rw [if_neg hs, if_neg fun h => hs (Value.str.inj h)]

/-- What is found where a string in front of another one is the word `id`. -/
def stray (s : Text) (ms : List Member) : List (Int × List Member) :=
  if s = "id".toList then [(0, ms)] else []

/-- What is found between an assignment and the next one. -/
def AssignmentRow.strays (r : AssignmentRow) (ms : List Member) : List (Int × List Member) :=
  stray r.name (r.members.drop 2 ++ ms) ++ (stray r.status (r.members.drop 3 ++ ms) ++
    (stray r.specification (r.members.drop 4 ++ ms) ++ stray r.guidance (r.members.drop 5 ++ ms)))

theorem AssignmentRow.entries (hdetail : r.detail ≠ "id".toList) :
    entries tail (r.members ++ ms) =
      (saturate r.id.value, r.members ++ ms) :: (r.strays ms ++ entries tail ms) := by
  have hkeys : ∀ k ∈ assignmentKeys.tail, k ≠ "id".toList := by decide
  simp only [assignmentKeys, List.tail_cons, List.forall_mem_cons] at hkeys
  obtain ⟨hname, hstatus, hspecification, hguidance, hkey, -⟩ := hkeys
  show Registry.entries tail (⟨_, .num r.id⟩ :: ⟨_, .str r.name⟩ :: ⟨_, .str r.status⟩ ::
    ⟨_, .str r.specification⟩ :: ⟨_, .str r.guidance⟩ :: ⟨_, .str r.detail⟩ :: ms) = _
  rw [entries_id, entries_str hname, entries_str hstatus, entries_str hspecification,
    entries_str hguidance, entries_str hkey, if_neg hdetail, List.nil_append, strays]
  simp only [List.append_assoc]
  rfl

theorem AssignmentRow.strays_nil (h : "id".toList ∉ r.strings) : r.strays ms = [] := by
  simp only [strings, List.mem_cons, List.not_mem_nil, or_false, not_or] at h
  obtain ⟨hname, hstatus, hspecification, hguidance⟩ := h
  rw [strays, stray, stray, stray, stray, if_neg (Ne.symm hname), if_neg (Ne.symm hstatus),
    if_neg (Ne.symm hspecification), if_neg (Ne.symm hguidance)]
  rfl

/-- A stray entry has the number 0, since a string stands where it is looked for. -/
theorem AssignmentRow.strays_zero (ms : List Member) (h : "id".toList ∈ r.strings) :
    ∃ e es, r.strays ms = e :: es ∧ e.1 = 0 := by
  have hstray : ∀ (s : Text) (ms : List Member), ∀ e ∈ stray s ms, e.1 = 0 := by
    intro s ms e he
    rw [stray] at he
    split at he
    · rw [List.mem_singleton.mp he]
    · cases he
  have hzero : ∀ e ∈ r.strays ms, e.1 = 0 := by
    intro e he
    rw [strays, List.mem_append, List.mem_append, List.mem_append] at he
    rcases he with he | he | he | he
    · exact hstray _ _ e he
    · exact hstray _ _ e he
    · exact hstray _ _ e he
    · exact hstray _ _ e he
  cases hes : r.strays ms with
  | nil =>
      have hfree : ∀ {s : Text} {ms : List Member}, stray s ms = [] → s ≠ "id".toList := by
        intro s ms hnil hs
        rw [stray, if_pos hs] at hnil
        cases hnil
      rw [strays, List.append_eq_nil_iff, List.append_eq_nil_iff, List.append_eq_nil_iff] at hes
      obtain ⟨hname, hstatus, hspecification, hguidance⟩ := hes
      simp only [strings, List.mem_cons, List.not_mem_nil, or_false] at h
      rcases h with h | h | h | h
      · exact absurd h.symm (hfree hname)
      · exact absurd h.symm (hfree hstatus)
      · exact absurd h.symm (hfree hspecification)
      · exact absurd h.symm (hfree hguidance)
  | cons e es => exact ⟨e, es, rfl, hzero e (hes ▸ List.mem_cons_self)⟩

end Members

/-! ## The assignment table

The scan finds the assignments, and between them what strings that are the word `id` make it find. Such
a stray entry has the number 0, which is refused. -/

/-- The entries of the assignments. -/
def rowEntries : List AssignmentRow → List (Int × List Member)
  | []      => []
  | r :: rs => (saturate r.id.value, r.members ++ rs.flatMap AssignmentRow.members) :: rowEntries rs

section Found

variable {tail : Text} {rows : List AssignmentRow}

/-- If no stray entry is in front of the last assignment, the assignments are found. -/
theorem found_rows (hdetail : ∀ r ∈ rows, r.detail ≠ "id".toList) {n : Nat} (hn : rows.length ≤ n)
    (hfree : ∀ r ∈ rows.take (n - 1), "id".toList ∉ r.strings) :
    (entries tail (rows.flatMap AssignmentRow.members)).take n = rowEntries rows := by
  induction rows generalizing n with
  | nil => exact List.take_nil
  | cons r rows ih =>
      cases n with
      | zero => exact absurd hn (by simp)
      | succ n =>
          have hrow := hdetail r List.mem_cons_self
          have hrows : ∀ r' ∈ rows, r'.detail ≠ "id".toList :=
            fun r' hr' => hdetail r' (List.mem_cons_of_mem r hr')
          have hle : rows.length ≤ n := Nat.le_of_succ_le_succ hn
          rw [List.flatMap_cons, AssignmentRow.entries hrow, List.take_succ_cons, rowEntries]
          cases n with
          | zero =>
              rw [List.length_eq_zero_iff.mp (Nat.le_zero.mp hle)]
              rfl
          | succ n =>
              have hthis := hfree r (List.mem_cons_self)
              rw [AssignmentRow.strays_nil hthis, List.nil_append]
              congr 1
              apply ih hrows hle
              intro r' hr'
              exact hfree r' (List.mem_cons_of_mem r hr')

/-- Otherwise an entry with the number 0 is found. -/
theorem found_stray (tail : Text) (hdetail : ∀ r ∈ rows, r.detail ≠ "id".toList) {n : Nat}
    {r : AssignmentRow} (hr : r ∈ rows.take n) (h : "id".toList ∈ r.strings) :
    ∃ e ∈ (entries tail (rows.flatMap AssignmentRow.members)).take (n + 1), e.1 = 0 := by
  induction rows generalizing n with
  | nil => exact absurd hr (by simp)
  | cons r' rows ih =>
      cases n with
      | zero => exact absurd hr (by simp)
      | succ n =>
          have hrows : ∀ r ∈ rows, r.detail ≠ "id".toList :=
            fun r hr => hdetail r (List.mem_cons_of_mem r' hr)
          rw [List.flatMap_cons, AssignmentRow.entries (hdetail r' List.mem_cons_self),
            List.take_succ_cons]
          by_cases hfree : "id".toList ∈ r'.strings
          · obtain ⟨e, es, hes, hzero⟩ :=
              AssignmentRow.strays_zero (rows.flatMap AssignmentRow.members) hfree
            refine ⟨e, ?_, hzero⟩
            rw [hes]
            simp
          · rw [AssignmentRow.strays_nil hfree, List.nil_append]
            rw [List.take_succ_cons, List.mem_cons] at hr
            rcases hr with rfl | hr
            · exact absurd h hfree
            · obtain ⟨e, he, hzero⟩ := ih hrows hr
              exact ⟨e, List.mem_cons_of_mem _ he, hzero⟩

end Found

/-! ## The summary

The counts are read behind the first mention of their words in the whole file. In front of the summary
there are only strings of the assignments that can be that mention. -/

/-- The counts that the summary declares. -/
inductive Summary (assigned deprecated total : Int) : Text → Prop
  | mk {between s rest : Text} {a b c : Numeral} {m : List Member} :
      (∀ w ∈ summaryWords, ¬ quoted w <:+: between ++ ['"']) →
      Labelled "summary".toList (ObjectWritten (⟨"assigned".toList, .num a⟩ ::
        ⟨"deprecated".toList, .num b⟩ :: ⟨"total".toList, .num c⟩ :: m)) s →
      (∀ x ∈ m, x.Plain) → a.value = assigned → b.value = deprecated → c.value = total →
      Summary assigned deprecated total (between ++ (s ++ rest))

/-- A number in an object with a label, behind a text that does not hold the word. -/
theorem readLongAfter_object {between s rest key w : Text} {o : List Member} (hw : IsKey w)
    (hbetween : ¬ quoted w <:+: between ++ ['"']) (hkey : '"' ∉ key) (hne : key ≠ w)
    (hs : Labelled key (ObjectWritten o) s) (ho : ∀ m ∈ o, m.Plain) :
    readLongAfter (']' :: (between ++ (s ++ rest))) w = numberAfter w ('}' :: rest) o := by
  cases hs with
  | @mk t b b' ht hb hb' =>
    obtain ⟨u, hu, hrow⟩ := ht.inside ho rest
    have hsplit : ('"' :: (key ++ '"' :: (b ++ ':' :: (b' ++ t)))) ++ rest =
        '"' :: (key ++ '"' :: (b ++ ':' :: (b' ++ '{' :: u))) := by
      rw [← hu]
      simp
    rw [← hrow.readLong (breaks_cons (by decide) (by decide) _) hw, readLongAfter_eq,
      readLongAfter_eq, hsplit, ← List.singleton_append, findKey_skip hw (by decide),
      findKey_behind hw hbetween, findKey_labelled hw hkey hne hb hb', ← List.singleton_append,
      findKey_skip hw (by decide)]

theorem Summary.number {x y z : Int} {closing : Text} (h : Summary x y z closing) :
    readLongAfter (']' :: closing) "assigned".toList = some (saturate x) ∧
      readLongAfter (']' :: closing) "deprecated".toList = some (saturate y) ∧
      readLongAfter (']' :: closing) "total".toList = some (saturate z) := by
  cases h with
  | @mk between s rest a b c more hbetween hs hmore ha hb hc =>
    obtain ⟨hne₁, hne₂, hne₃⟩ : "assigned".toList ≠ "deprecated".toList ∧
        "assigned".toList ≠ "total".toList ∧ "deprecated".toList ≠ "total".toList := by
      decide
    have hkeys : ∀ w ∈ summaryWords, '"' ∉ w ∧ ':' ∉ w := by decide
    have hplain : ∀ w ∈ summaryWords, ∀ x : Numeral, (⟨w, .num x⟩ : Member).Plain :=
      fun w hw x => ⟨hkeys w hw, fun s hs => Value.noConfusion hs⟩
    have hmembers : ∀ m ∈ (⟨"assigned".toList, .num a⟩ : Member) :: ⟨"deprecated".toList, .num b⟩ ::
        ⟨"total".toList, .num c⟩ :: more, m.Plain := by
      intro m hm
      simp only [List.mem_cons] at hm
      rcases hm with rfl | rfl | rfl | hm
      · exact hplain _ assigned_summaryWord a
      · exact hplain _ deprecated_summaryWord b
      · exact hplain _ total_summaryWord c
      · exact hmore m hm
    have hno : ∀ w ∈ summaryWords, "summary".toList ≠ w := by decide
    have hread : ∀ w ∈ summaryWords, readLongAfter (']' :: (between ++ (s ++ rest))) w =
        numberAfter w ('}' :: rest) _ := fun w hw =>
      readLongAfter_object (isKey_summaryWord w hw) (hbetween w hw) (by decide) (hno w hw)
        hs hmembers
    refine ⟨?_, ?_, ?_⟩
    · rw [hread _ assigned_summaryWord, numberAfter_here, ha]
    · rw [hread _ deprecated_summaryWord, numberAfter_num hne₁, numberAfter_here, hb]
    · rw [hread _ total_summaryWord, numberAfter_num hne₂, numberAfter_num hne₃, numberAfter_here,
        hc]

section Recorded

variable {tail : Text} {rows : List AssignmentRow} {ranges : List Range}

theorem AssignmentRow.suppliedWith (r : AssignmentRow) (ms : List Member) :
    stringAfter "name".toList tail (r.members ++ ms) = some (cut r.name) ∧
      stringAfter "status".toList tail (r.members ++ ms) = some (cut r.status) ∧
      Supplied tail (r.members ++ ms) := by
  obtain ⟨hne₁, hne₂, hne₃⟩ : "id".toList ≠ "name".toList ∧ "id".toList ≠ "status".toList ∧
      "name".toList ≠ "status".toList := by decide
  have hname : stringAfter "name".toList tail (r.members ++ ms) = some (cut r.name) := by
    show stringAfter _ tail (⟨_, .num r.id⟩ :: ⟨_, .str r.name⟩ :: (r.members.drop 2 ++ ms)) = _
    rw [stringAfter_num hne₁, stringAfter_here]
  have hstatus : stringAfter "status".toList tail (r.members ++ ms) = some (cut r.status) := by
    show stringAfter _ tail (⟨_, .num r.id⟩ :: ⟨_, .str r.name⟩ :: ⟨_, .str r.status⟩ ::
      (r.members.drop 3 ++ ms)) = _
    rw [stringAfter_num hne₂, stringAfter_str hne₃, stringAfter_here]
    -- the name may be the word `status`
    split
    · rfl
    · rfl
  refine ⟨hname, hstatus, ?_⟩
  constructor
  case name => rw [hname]; exact Option.some_ne_none _
  case status => rw [hstatus]; exact Option.some_ne_none _
  case specification =>
      have hmem : (⟨"specification".toList, .str r.specification⟩ : Member) ∈ r.members := by
        simp [members]
      exact mentions_of_key (List.mem_append_left ms hmem) rfl
  case guidance =>
      have hmem : (⟨"criticality_guidance".toList, .str r.guidance⟩ : Member) ∈ r.members := by
        simp [members]
      exact mentions_of_key (List.mem_append_left ms hmem) rfl

theorem rowEntries_supplied : ∀ e ∈ rowEntries rows, Supplied tail e.2 := by
  induction rows with
  | nil =>
      intro e he
      cases he
  | cons r rows ih =>
      intro e he
      rcases List.mem_cons.mp he with rfl | he
      · exact (r.suppliedWith _).2.2
      · exact ih e he

theorem rowEntries_ids (rows : List AssignmentRow) :
    (rowEntries rows).map Prod.fst = rows.map fun r => saturate r.id.value := by
  induction rows with
  | nil => rfl
  | cons r rows ih => rw [rowEntries, List.map_cons, List.map_cons, ih]

theorem rowEntries_statuses (tail : Text) (rows : List AssignmentRow) :
    ((rowEntries rows).map (entryAssignment tail)).map Assignment.status =
      rows.map fun r => cut r.status := by
  induction rows with
  | nil => rfl
  | cons r rows ih =>
      rw [rowEntries, List.map_cons, List.map_cons, List.map_cons, ih, entryAssignment,
        (r.suppliedWith _).2.1]
      rfl

/-- A word is not cut off. -/
theorem cut_eq {s w : Text} (hw : IsKey w) : cut s = w ↔ s = w := by
  have hlen : w.length + 2 < maxStr := by
    have hlt := hw.2
    rwa [quoted, List.length_cons, List.length_append] at hlt
  constructor
  · intro h
    rw [cut] at h
    have hshort : s.length ≤ maxStr - 1 := by
      by_contra hlong
      rw [← h, List.length_take, Nat.min_eq_left (by omega)] at hlen
      omega
    rwa [List.take_of_length_le hshort] at h
  · rintro rfl
    exact List.take_of_length_le (by omega)

/-- The statuses that are counted. -/
theorem rowEntries_counted (tail : Text) (rows : List AssignmentRow) :
    countedDeprecated ((rowEntries rows).map (entryAssignment tail)) =
      (rows.countP fun r => r.status = "deprecated".toList) ∧
    countedAssigned ((rowEntries rows).map (entryAssignment tail)) =
      rows.countP fun r => r.status ≠ "deprecated".toList := by
  have hkey : IsKey "deprecated".toList := isKey_summaryWord _ deprecated_summaryWord
  have hcount : ∀ p : Text → Bool, ((rowEntries rows).map (entryAssignment tail)).countP
      (fun a => p a.status) = rows.countP fun r => p (cut r.status) := by
    intro p
    have hstatus := congrArg (List.countP p) (rowEntries_statuses tail rows)
    rw [List.countP_map] at hstatus
    apply hstatus.trans
    rw [List.countP_map]
    rfl
  have hdeprecated := hcount fun s => s = "deprecated".toList
  have hassigned := hcount fun s => s ≠ "deprecated".toList
  simp only [cut_eq hkey, ne_eq] at hdeprecated hassigned
  exact ⟨hdeprecated, hassigned⟩

end Recorded

/-! ## Consistent registries

What a consistent registry is, in terms of the declared ranges and assignments, is put next to what the
validator asks for (`Document.Accepted`), in terms of what it reads. -/

/-- Complete assignments that are unique and may be assigned, and a summary that declares what there
is. -/
structure Document.Consistent (d : Document) (rows : List AssignmentRow) : Prop where
  assignments : d.assignments = rows.map AssignmentRow.members
  details : ∀ r ∈ rows, r.detail ≠ "id".toList ∧ r.detail ∉ summaryWords
  ranges_le : d.ranges.length ≤ maxRanges
  assignments_le : rows.length ≤ maxAssignments
  partition : Partition (d.ranges.map RangeRow.range)
  assignable : ∀ r ∈ rows, Assignable (d.ranges.map RangeRow.range) r.id.value
  unique : rows.Pairwise fun r s => r.id.value ≠ s.id.value
  summary : Summary (rows.countP fun r => r.status ≠ "deprecated".toList)
    (rows.countP fun r => r.status = "deprecated".toList) rows.length d.closing

section Consistent

variable {d : Document} {rows : List AssignmentRow} {rs : List RangeRow}

theorem saturate_id {n : Int} (h : 0 ≤ n) (h' : n ≤ extensionIdMax) : saturate n = n := by
  rw [extensionIdMax] at h'
  apply saturate_eq
  · omega
  · omega

/-- A row with numbers that `strtol` can represent. -/
def RangeRow.Exact (r : RangeRow) : Prop :=
  saturate r.first.value = r.first.value ∧ saturate r.last.value = r.last.value

theorem isKey_reserved : IsKey "Reserved".toList := by decide

/-- What is between two numbers that `strtol` can represent was not cut down to them. -/
theorem saturate_inside {n : Int} (h : 0 ≤ saturate n) (h' : saturate n ≤ extensionIdMax) :
    saturate n = n := by
  rw [extensionIdMax] at h'
  rw [saturate] at h h' ⊢
  omega

/-- The ranges of a partition are read as they are. -/
theorem Partition.exact (h : Partition (rs.map RangeRow.range)) : ∀ r ∈ rs, r.Exact := by
  intro r hr
  have hmem : r.range ∈ rs.map RangeRow.range := List.mem_map_of_mem hr
  have hle := h.partitions.forwards _ hmem
  have hfirst := h.partitions.inside _ hmem _ (covers_first hle)
  have hlast := h.partitions.inside _ hmem r.range.last ⟨hle, le_refl _⟩
  exact ⟨saturate_id hfirst.1 hfirst.2, saturate_id hlast.1 hlast.2⟩

/-- And ranges that are read as a partition are those that are declared. -/
theorem Partition.exact_of_read (h : Partition (rs.map RangeRow.read)) : ∀ r ∈ rs, r.Exact := by
  intro r hr
  have hmem : r.read ∈ rs.map RangeRow.read := List.mem_map_of_mem hr
  have hle := h.partitions.forwards _ hmem
  have hfirst := h.partitions.inside _ hmem _ (covers_first hle)
  have hlast := h.partitions.inside _ hmem r.read.last ⟨hle, le_refl _⟩
  exact ⟨saturate_inside hfirst.1 hfirst.2, saturate_inside hlast.1 hlast.2⟩

/-- A partition is a matter of the bounds, and of which ranges are reserved. -/
theorem Partition.congr {f g : RangeRow → Range} (h : Partition (rs.map f))
    (hfg : ∀ r ∈ rs, (f r).first = (g r).first ∧ (f r).last = (g r).last ∧
      ((f r).policy = "Reserved".toList → (g r).policy = "Reserved".toList)) :
    Partition (rs.map g) := by
  have hcovers : ∀ r ∈ rs, ∀ n, Covers Range.first Range.last (g r) n ↔
      Covers Range.first Range.last (f r) n := by
    intro r hr n
    rw [Covers, Covers, (hfg r hr).1, (hfg r hr).2.1]
  constructor
  case partitions =>
    constructor
    case forwards =>
      intro x hx
      obtain ⟨r, hr, rfl⟩ := List.mem_map.mp hx
      rw [← (hfg r hr).1, ← (hfg r hr).2.1]
      exact h.partitions.forwards (f r) (List.mem_map_of_mem hr)
    case inside =>
      intro x hx n hn
      obtain ⟨r, hr, rfl⟩ := List.mem_map.mp hx
      exact h.partitions.inside _ (List.mem_map_of_mem hr) n ((hcovers r hr n).mp hn)
    case once =>
      intro n hlo hhi
      have hone := h.partitions.once n hlo hhi
      rw [cover, List.countP_map] at hone ⊢
      rw [← hone]
      apply List.countP_congr
      intro r hr
      simpa using hcovers r hr n
  case zero =>
    intro x hx hzero
    obtain ⟨r, hr, rfl⟩ := List.mem_map.mp hx
    exact (hfg r hr).2.2 (h.zero (f r) (List.mem_map_of_mem hr) ((hcovers r hr 0).mp hzero))

theorem partition_read_iff :
    Partition (rs.map RangeRow.read) ↔ Partition (rs.map RangeRow.range) := by
  constructor
  · intro h
    refine h.congr fun r hr => ?_
    exact ⟨(h.exact_of_read r hr).1, (h.exact_of_read r hr).2, (cut_eq isKey_reserved).mp⟩
  · intro h
    refine h.congr fun r hr => ?_
    exact ⟨(h.exact r hr).1.symm, (h.exact r hr).2.symm, (cut_eq isKey_reserved).mpr⟩

theorem assignable_read_iff (h : Partition (rs.map RangeRow.range)) {id : Int} :
    Assignable (rs.map RangeRow.read) id ↔ Assignable (rs.map RangeRow.range) id := by
  have hexact : ∀ r ∈ rs, (Covers Range.first Range.last r.read id ∧
      r.read.policy ≠ "Reserved".toList ↔ Covers Range.first Range.last r.range id ∧
      r.range.policy ≠ "Reserved".toList) := by
    intro r hr
    obtain ⟨hfirst, hlast⟩ := h.exact r hr
    rw [Covers, Covers, RangeRow.read, RangeRow.range, hfirst, hlast, ne_eq, ne_eq,
      cut_eq isKey_reserved]
  rw [Assignable, Assignable]
  refine and_congr_right fun _ => and_congr_right fun _ => ?_
  constructor
  · rintro ⟨x, hx, hthis⟩
    obtain ⟨r, hr, rfl⟩ := List.mem_map.mp hx
    exact ⟨r.range, List.mem_map_of_mem hr, (hexact r hr).mp hthis⟩
  · rintro ⟨x, hx, hthis⟩
    obtain ⟨r, hr, rfl⟩ := List.mem_map.mp hx
    exact ⟨r.read, List.mem_map_of_mem hr, (hexact r hr).mpr hthis⟩

theorem Document.Consistent.members_eq (h : d.Consistent rows) :
    d.members = rows.flatMap AssignmentRow.members := by
  rw [members, h.assignments]
  rfl

theorem Document.Consistent.table_eq (h : d.Consistent rows) :
    d.table = d.ranges.map RangeRow.read := by
  rw [Document.table, List.take_of_length_le h.ranges_le]

/-- A count is what the summary says, or 0 if a string in front of it is the word. -/
theorem Document.Consistent.declared_eq (h : d.Consistent rows) {w : Text} (hw : w ∈ summaryWords)
    {n : Nat} (hn : n ≤ maxAssignments)
    (hread : readLongAfter d.behind w = some (saturate n)) :
    d.declared w = if ∃ r ∈ rows, w ∈ r.strings then 0 else (n : Int) := by
  have hnumber : ∀ rows' : List AssignmentRow, (∀ r ∈ rows', r.detail ∉ summaryWords) →
      numberAfter w d.behind (rows'.flatMap AssignmentRow.members) =
        if ∃ r ∈ rows', w ∈ r.strings then some 0 else readLongAfter d.behind w := by
    intro rows' hdetails
    induction rows' with
    | nil => rw [if_neg (by simp)]; rfl
    | cons r rows' ih =>
        have hdetail : r.detail ≠ w := fun hr => hdetails r List.mem_cons_self (hr ▸ hw)
        rw [List.flatMap_cons, AssignmentRow.number (no_summaryWord w hw) hdetail,
          ih fun r' hr' => hdetails r' (List.mem_cons_of_mem r hr')]
        simp only [List.exists_mem_cons_iff, ite_or]
  have hsaturate : saturate n = n := by
    apply saturate_id
    · exact Int.natCast_nonneg n
    · rw [maxAssignments] at hn
      rw [extensionIdMax]
      omega
  rw [declared, h.members_eq, hnumber rows fun r hr => (h.details r hr).2, hread, hsaturate]
  split
  · rfl
  · rfl

end Consistent

/-- Nothing that the scans stumble over stands in the strings of the assignments. -/
structure Harmless (rows : List AssignmentRow) : Prop where
  deprecated : ∀ r ∈ rows, r.status ≠ "deprecated".toList
  assigned : ∀ r ∈ rows, "assigned".toList ∉ r.strings
  total : ∀ r ∈ rows, "total".toList ∉ r.strings
  id : ∀ r ∈ rows.take (maxAssignments - 1), "id".toList ∉ r.strings

section Harmless

variable {d : Document} {rows : List AssignmentRow}

theorem Document.Consistent.found_eq (h : d.Consistent rows)
    (hfree : ∀ r ∈ rows.take (maxAssignments - 1), "id".toList ∉ r.strings) :
    d.found = rowEntries rows := by
  rw [found, h.members_eq]
  exact found_rows (fun r hr => (h.details r hr).1) h.assignments_le hfree

/-- The three numbers that are declared. -/
theorem Document.Consistent.declared (h : d.Consistent rows) :
    (d.declared "assigned".toList = if ∃ r ∈ rows, "assigned".toList ∈ r.strings then 0
      else ((rows.countP fun r => r.status ≠ "deprecated".toList : Nat) : Int)) ∧
    (d.declared "deprecated".toList = if ∃ r ∈ rows, "deprecated".toList ∈ r.strings then 0
      else ((rows.countP fun r => r.status = "deprecated".toList : Nat) : Int)) ∧
    d.declared "total".toList = if ∃ r ∈ rows, "total".toList ∈ r.strings then 0
      else (rows.length : Int) := by
  obtain ⟨hassigned, hdeprecated, htotal⟩ := h.summary.number
  have hle := h.assignments_le
  exact ⟨h.declared_eq assigned_summaryWord (List.countP_le_length.trans hle) hassigned,
    h.declared_eq deprecated_summaryWord (List.countP_le_length.trans hle) hdeprecated,
    h.declared_eq total_summaryWord hle htotal⟩

theorem Document.Consistent.harmless (h : d.Consistent rows) (ha : d.Accepted) : Harmless rows := by
  have hid : ∀ r ∈ rows.take (maxAssignments - 1), "id".toList ∉ r.strings := by
    intro r hr hmem
    obtain ⟨e, he, hzero⟩ := found_stray d.behind (fun r hr => (h.details r hr).1) hr hmem
    have hfound : e ∈ d.found := by
      rw [found, h.members_eq]
      exact he
    have hpos := (ha.assignable e hfound).1
    rw [hzero] at hpos
    exact absurd hpos (by decide)
  have hfound := h.found_eq hid
  obtain ⟨hassigned, hdeprecated, htotal⟩ := h.declared
  have hcounted := rowEntries_counted d.behind rows
  rw [ha.assigned, recorded, hfound, hcounted.2] at hassigned
  rw [ha.deprecated, recorded, hfound, hcounted.1] at hdeprecated
  have hlength : d.found.length = rows.length := by
    have hids := congrArg List.length (rowEntries_ids rows)
    rwa [List.length_map, List.length_map, ← hfound] at hids
  rw [ha.total, hlength] at htotal
  -- where the word is found in a string, there would have to be nothing to count
  have hstatus : ∀ r ∈ rows, r.status ≠ "deprecated".toList := by
    intro r hr hs
    have hmem : "deprecated".toList ∈ r.strings := by simp [AssignmentRow.strings, hs]
    rw [if_pos ⟨r, hr, hmem⟩] at hdeprecated
    have hpos : 0 < rows.countP fun r => r.status = "deprecated".toList :=
      List.countP_pos_iff.mpr ⟨r, hr, decide_eq_true hs⟩
    omega
  constructor
  case deprecated => exact hstatus
  case assigned =>
      intro r hr hmem
      rw [if_pos ⟨r, hr, hmem⟩] at hassigned
      have hpos : 0 < rows.countP fun r => r.status ≠ "deprecated".toList :=
        List.countP_pos_iff.mpr ⟨r, hr, decide_eq_true (hstatus r hr)⟩
      omega
  case total =>
      intro r hr hmem
      rw [if_pos ⟨r, hr, hmem⟩] at htotal
      have hpos := List.length_pos_of_mem hr
      omega
  case id => exact hid

theorem Document.Consistent.sound (h : d.Consistent rows) (hh : Harmless rows) : d.Sound := by
  have hfound := h.found_eq hh.id
  have hread := partition_read_iff.mpr h.partition
  obtain ⟨hassigned, hdeprecated, htotal⟩ := h.declared
  have hcounted := rowEntries_counted d.behind rows
  have hids : ∀ r ∈ rows, saturate r.id.value = r.id.value := by
    intro r hr
    obtain ⟨hpos, hmax, -⟩ := h.assignable r hr
    exact saturate_id (Int.le_of_lt hpos) hmax
  have hmap : d.found.map Prod.fst = rows.map fun r => r.id.value := by
    rw [hfound, rowEntries_ids]
    exact List.map_congr_left hids
  constructor
  case partition =>
      rw [h.table_eq]
      exact hread
  case assignable =>
      intro e he
      have hmem : e.1 ∈ d.found.map Prod.fst := List.mem_map_of_mem he
      rw [hmap] at hmem
      obtain ⟨r, hr, hid⟩ := List.mem_map.mp hmem
      rw [h.table_eq, ← hid]
      exact (assignable_read_iff h.partition).mpr (h.assignable r hr)
  case unique =>
      have hpairwise : (d.found.map Prod.fst).Pairwise (· ≠ ·) := by
        rw [hmap]
        exact List.pairwise_map.mpr h.unique
      exact List.pairwise_map.mp hpairwise
  case assigned =>
      rw [hassigned, if_neg, recorded, hfound, hcounted.2]
      rintro ⟨r, hr, hmem⟩
      exact hh.assigned r hr hmem
  case deprecated =>
      rw [hdeprecated, recorded, hfound, hcounted.1]
      -- the word may be a name: there is no such status, and 0 is what is read
      have hnone : (rows.countP fun r => r.status = "deprecated".toList) = 0 := by
        rw [List.countP_eq_zero]
        intro r hr hstatus
        exact hh.deprecated r hr (of_decide_eq_true hstatus)
      rw [hnone]
      split
      · rfl
      · rfl
  case total =>
      have hlength := congrArg List.length hmap
      rw [List.length_map, List.length_map] at hlength
      rw [htotal, if_neg, hlength]
      rintro ⟨r, hr, hmem⟩
      exact hh.total r hr hmem

theorem Document.Consistent.accepted (h : d.Consistent rows) (hh : Harmless rows) : d.Accepted where
  toSound := h.sound hh
  supplied := by
    rw [h.found_eq hh.id]
    exact rowEntries_supplied

end Harmless

/-! ## A registry for every table -/

/-- The registry of a table, with its counts in the summary. -/
def Document.ofRows (ranges : List RangeRow) (rows : List AssignmentRow) : Document where
  opening := ['{']
  ranges := ranges
  assignments := rows.map AssignmentRow.members
  closing := [','] ++ (labelText "summary".toList (objectText
    [⟨"assigned".toList, .num (.ofNat (rows.countP fun r => r.status ≠ "deprecated".toList))⟩,
      ⟨"deprecated".toList, .num (.ofNat (rows.countP fun r => r.status = "deprecated".toList))⟩,
      ⟨"total".toList, .num (.ofNat rows.length)⟩]) ++ ['}'])

section OfRows

variable {ranges : List RangeRow} {rows : List AssignmentRow}

theorem AssignmentRow.plain {r : AssignmentRow}
    (hfree : ∀ s ∈ r.detail :: r.strings, '"' ∉ s ∧ '[' ∉ s ∧ ']' ∉ s) :
    ∀ m ∈ r.members, m.Plain ∧ m.Closed := by
  have hkeys : ∀ k ∈ assignmentKeys, ('"' ∉ k ∧ ':' ∉ k) ∧ '[' ∉ k ∧ ']' ∉ k := by decide
  have hplain : ∀ m : Member, m.key ∈ assignmentKeys →
      (∀ s, m.value = .str s → s ∈ r.detail :: r.strings) → m.Plain ∧ m.Closed := by
    intro m hk hv
    obtain ⟨hkey, hopen, hclose⟩ := hkeys m.key hk
    refine ⟨⟨hkey, fun s hs => (hfree s (hv s hs)).1⟩, paired_of_free hopen hclose, ?_⟩
    intro s hs
    obtain ⟨-, hopen, hclose⟩ := hfree s (hv s hs)
    exact paired_of_free hopen hclose
  intro m hm
  apply hplain m
  · have hall : r.members.map Member.key = assignmentKeys := rfl
    rw [← hall]
    exact List.mem_map_of_mem hm
  · intro s hs
    simp only [members, List.mem_cons, List.not_mem_nil, or_false] at hm
    rcases hm with rfl | rfl | rfl | rfl | rfl | rfl
    · cases hs
    · cases hs
      simp [strings]
    · cases hs
      simp [strings]
    · cases hs
      simp [strings]
    · cases hs
      simp [strings]
    · cases hs
      simp

theorem Document.ofRows_laidOut (hranges : ∀ r ∈ ranges, IsRemark r.policy ∧ IsRemark r.detail)
    (hrows : ∀ r ∈ rows, ∀ s ∈ r.detail :: r.strings, '"' ∉ s ∧ '[' ∉ s ∧ ']' ∉ s) :
    (ofRows ranges rows).LaidOut where
  opening := show ∀ w ∈ headWords, ¬ quoted w <:+: ['{'] ++ ['"'] by decide
  ranges := hranges
  assignments := by
    intro o ho
    obtain ⟨r, hr, rfl⟩ := List.mem_map.mp ho
    exact AssignmentRow.plain (hrows r hr)

theorem Document.ofRows_summary : Summary (rows.countP fun r => r.status ≠ "deprecated".toList)
    (rows.countP fun r => r.status = "deprecated".toList) rows.length
      (ofRows ranges rows).closing := by
  apply Summary.mk (m := [])
  · show ∀ w ∈ summaryWords, ¬ quoted w <:+: [','] ++ ['"']
    decide
  · exact labelText_labelled (objectText_written _)
  · intro x hx
    cases hx
  · exact Numeral.value_ofNat _
  · exact Numeral.value_ofNat _
  · exact Numeral.value_ofNat _

end OfRows

/-! ## What is accepted -/

/-- The validator accepts a consistent registry if and only if no status is `deprecated`, no other
string is a word of the summary that counts, and none in front of the last row there is room for is
`id`. -/
theorem consistent_iff {d : Document} {rows : List AssignmentRow}
    {qsort : List Range → List Range} (hq : Sorts qsort) {file : Text}
    (hd : d.LaidOut) (hw : d.Written (buffer file)) (hc : d.Consistent rows) :
    exitStatus qsort file = 0 ↔ Harmless rows := by
  rw [Document.exitStatus_iff hq hd hw]
  exact ⟨hc.harmless, hc.accepted⟩

/-- 0 is reserved, and all other identifiers may be assigned. -/
def pairRanges : List RangeRow :=
  [⟨.ofNat 0, .ofNat 0, "Reserved".toList, ['d']⟩, ⟨.ofNat 1, .ofNat 2147483647, ['p'], ['d']⟩]

theorem pairRanges_partition : Partition (pairRanges.map RangeRow.range) :=
  (rangeSection_nil insertionSort_sorts _).mp (by decide)

/-- Two assignments with the given statuses. -/
def pairRows (status status' : Text) : List AssignmentRow :=
  [⟨.ofNat 1, ['a'], status, ['s'], ['g'], ['d']⟩, ⟨.ofNat 2, ['b'], status', ['s'], ['g'], ['d']⟩]

theorem consistent_iff_stable :
    let rows := pairRows "stable".toList "stable".toList
    exitStatus insertionSort (Document.ofRows pairRanges rows).text = 0 ↔ Harmless rows := by
  intro rows
  have hbuffer : buffer (Document.ofRows pairRanges rows).text =
      (Document.ofRows pairRanges rows).text := buffer_eq (by decide +kernel) (by decide +kernel)
  have hlaidOut : (Document.ofRows pairRanges rows).LaidOut :=
    Document.ofRows_laidOut (by decide) (by decide)
  have hconsistent : (Document.ofRows pairRanges rows).Consistent rows :=
    ⟨rfl, by decide, by decide, by decide, pairRanges_partition, by decide,
      by decide, Document.ofRows_summary⟩
  exact consistent_iff insertionSort_sorts hlaidOut (hbuffer.symm ▸ Document.text_written _)
    hconsistent

/-- Two assignments with the statuses `assigned` and `deprecated`: the registry is consistent, and it
is refused. -/
theorem consistent_refused :
    let rows := pairRows "assigned".toList "deprecated".toList
    let d := Document.ofRows pairRanges rows
    Sorts insertionSort ∧ d.LaidOut ∧ d.Written (buffer d.text) ∧ d.Consistent rows ∧
      exitStatus insertionSort d.text = 1 := by
  intro rows d
  have hbuffer : buffer d.text = d.text := buffer_eq (by decide +kernel) (by decide +kernel)
  have hlaidOut : d.LaidOut := Document.ofRows_laidOut (by decide) (by decide)
  have hconsistent : d.Consistent rows :=
    ⟨rfl, by decide, by decide, by decide, pairRanges_partition, by decide,
      by decide, Document.ofRows_summary⟩
  exact ⟨insertionSort_sorts, hlaidOut, hbuffer.symm ▸ d.text_written, hconsistent,
    by decide +kernel⟩

end Registry

end MclWire
