import Mathlib.Data.List.TakeWhile
import MclWire.Registry.Partition
import MclWire.Registry.Tables

/-!
# What the validator makes of a registry

A registry as it is laid out: some text, the table of the ranges, the table of the assignments, and
more text with the summary in it. White space is free.

* `Document.Written` — the text of a registry.
* `Document.Accepted` — what the validator asks for, said of the tables.
* `Document.exitStatus_iff` — it exits with 0 if and only if the registry is accepted.
-/

namespace MclWire

open CText Tiling

namespace Registry

/-! ## The text of a registry -/

/-- Items with commas between them. -/
inductive Listed {α : Type} (R : α → Text → Prop) : List α → Text → Prop
  | nil {b : Text} : IsBlank b → Listed R [] b
  | single {x : α} {t b b' : Text} : R x t → IsBlank b → IsBlank b' → Listed R [x] (b ++ (t ++ b'))
  | cons {x y : α} {xs : List α} {t u b b' : Text} : R x t → IsBlank b → IsBlank b' →
      Listed R (y :: xs) u → Listed R (x :: y :: xs) (b ++ (t ++ (b' ++ ',' :: u)))

/-- A key, and what belongs to it. -/
inductive Labelled (key : Text) (R : Text → Prop) : Text → Prop
  | mk {t b b' : Text} : R t → IsBlank b → IsBlank b' →
      Labelled key R ('"' :: (key ++ '"' :: (b ++ ':' :: (b' ++ t))))

/-- A member of an object. -/
def Member.Written (m : Member) : Text → Prop := Labelled m.key (· = m.value.text)

/-- An object. -/
inductive ObjectWritten (ms : List Member) : Text → Prop
  | mk {u : Text} : Listed Member.Written ms u → ObjectWritten ms ('{' :: (u ++ ['}']))

/-- An array of objects. -/
inductive ArrayWritten (os : List (List Member)) : Text → Prop
  | mk {u : Text} : Listed ObjectWritten os u → ArrayWritten os ('[' :: (u ++ [']']))

/-- A registry. -/
structure Document where
  /-- The text in front of the tables. -/
  opening : Text
  ranges : List RangeRow
  assignments : List (List Member)
  /-- The text behind the tables. -/
  closing : Text

/-- How it is written. -/
inductive Document.Written (d : Document) : Text → Prop
  | mk {r a b b' : Text} :
      Labelled "ranges".toList (ArrayWritten (d.ranges.map RangeRow.members)) r → IsBlank b →
      IsBlank b' → Labelled "assignments".toList (ArrayWritten d.assignments) a →
      Written d (d.opening ++ (r ++ (b ++ ',' :: (b' ++ (a ++ d.closing)))))

/-- The words that are looked for from the start of the file on. -/
def headWords : List Text :=
  ["ranges".toList, "assignments".toList, "assigned".toList, "deprecated".toList, "total".toList]

/-- The words that are looked for in the range table or behind it, and are none of its keys. -/
def rangeWords : List Text :=
  ["first".toList, "assignments".toList, "assigned".toList, "deprecated".toList, "total".toList]

theorem assignments_headWord : "assignments".toList ∈ headWords :=
  List.mem_cons_of_mem _ List.mem_cons_self

theorem assignments_rangeWord : "assignments".toList ∈ rangeWords :=
  List.mem_cons_of_mem _ List.mem_cons_self

theorem assignments_ne_first : "assignments".toList ≠ "first".toList := by decide

/-- A free text of the range table. -/
def IsRemark (s : Text) : Prop := '"' ∉ s ∧ s ∉ rangeWords

instance (s : Text) : Decidable (IsRemark s) := inferInstanceAs (Decidable (_ ∧ _))

/-- The text in front of the tables and the remarks in the range table do not hold the words that are
looked for, and in the assignments the brackets pair up. -/
structure Document.LaidOut (d : Document) : Prop where
  opening : ∀ w ∈ headWords, ¬ quoted w <:+: d.opening ++ ['"']
  ranges : ∀ r ∈ d.ranges, IsRemark r.policy ∧ IsRemark r.detail
  assignments : ∀ o ∈ d.assignments, ∀ m ∈ o, m.Plain ∧ m.Closed

/-- The members of all assignments. -/
def Document.members (d : Document) : List Member := d.assignments.flatten

/-- What stands behind the assignments. -/
def Document.behind (d : Document) : Text := ']' :: d.closing

/-- The entries of the assignment table that the tool finds. -/
def Document.found (d : Document) : List (Int × List Member) :=
  (entries d.behind d.members).take maxAssignments

/-! ## Every registry has a text -/

/-- Items with commas between them, without white space. -/
def commas {α : Type} (write : α → Text) : List α → Text
  | []           => []
  | [x]          => write x
  | x :: y :: xs => write x ++ ',' :: commas write (y :: xs)

/-- A key, and what belongs to it. -/
def labelText (key t : Text) : Text := '"' :: (key ++ '"' :: ':' :: t)

/-- An object. -/
def objectText (ms : List Member) : Text :=
  '{' :: (commas (fun m => labelText m.key m.value.text) ms ++ ['}'])

/-- An array of objects. -/
def arrayText (os : List (List Member)) : Text := '[' :: (commas objectText os ++ [']'])

/-- A registry, without white space. -/
def Document.text (d : Document) : Text :=
  d.opening ++ (labelText "ranges".toList (arrayText (d.ranges.map RangeRow.members)) ++
    ',' :: (labelText "assignments".toList (arrayText d.assignments) ++ d.closing))

section Text

variable {α : Type} {R : α → Text → Prop}

theorem isBlank_nil : IsBlank [] := by
  intro c hc
  cases hc

theorem commas_listed {write : α → Text} {xs : List α} (h : ∀ x ∈ xs, R x (write x)) :
    Listed R xs (commas write xs) := by
  induction xs with
  | nil => exact Listed.nil isBlank_nil
  | cons x xs ih =>
      have hx := h x List.mem_cons_self
      have ih := ih fun y hy => h y (List.mem_cons_of_mem x hy)
      cases xs with
      | nil => simpa [commas] using Listed.single hx isBlank_nil isBlank_nil
      | cons y xs => simpa [commas] using Listed.cons hx isBlank_nil isBlank_nil ih

theorem labelText_labelled {key t : Text} {P : Text → Prop} (h : P t) :
    Labelled key P (labelText key t) := Labelled.mk h isBlank_nil isBlank_nil

theorem objectText_written (ms : List Member) : ObjectWritten ms (objectText ms) := by
  apply ObjectWritten.mk
  apply commas_listed
  intro m _
  exact labelText_labelled rfl

theorem arrayText_written (os : List (List Member)) : ArrayWritten os (arrayText os) := by
  apply ArrayWritten.mk
  apply commas_listed
  intro o _
  exact objectText_written o

theorem Document.text_written (d : Document) : d.Written d.text :=
  Written.mk (labelText_labelled (arrayText_written _)) isBlank_nil isBlank_nil
    (labelText_labelled (arrayText_written _))

end Text

/-- A file that there is room for, without a NUL, is read as it is. -/
theorem buffer_eq {file : Text} (hlen : file.length < maxFileSize) (hnul : Char.ofNat 0 ∉ file) :
    buffer file = file := by
  rw [buffer, List.take_of_length_le (Nat.le_sub_one_of_lt hlen), List.takeWhile_eq_self_iff]
  intro c hc
  apply decide_eq_true
  rintro rfl
  exact hnul hc

/-! ## Tables as rows -/

section Rows

variable {α : Type} {R : α → Text → Prop} {tail t u : Text} {ms : List Member}

/-- Items that are rows, in a list, are a row. -/
theorem Listed.row {f : α → List Member} {xs : List α} (h : Listed R xs u)
    (hitem : ∀ x ∈ xs, ∀ {s ms t}, R x s → Row tail ms t → Row tail (f x ++ ms) (s ++ t))
    (hrow : Row tail ms t) : Row tail (xs.flatMap f ++ ms) (u ++ t) := by
  induction h with
  | nil hb => exact hrow.gap (blank_isGap hb)
  | single hx hb hb' =>
      have hthis := hitem _ List.mem_cons_self hx (hrow.gap (blank_isGap hb'))
      simpa using hthis.gap (blank_isGap hb)
  | @cons x y xs s u b b' hx hb hb' _ ih =>
      have hrest := ih fun x' hx' => hitem x' (List.mem_cons_of_mem x hx')
      have hcomma : IsGap [','] := isGap_nil.cons (by decide)
      have hgap := hrest.gap ((blank_isGap hb').append hcomma)
      have hthis := (hitem x List.mem_cons_self hx hgap).gap (blank_isGap hb)
      simpa using hthis

theorem Member.Written.row {m : Member} {s : Text} (h : m.Written s) (hm : m.Plain)
    (hrow : Row tail ms t) : Row tail ([m] ++ ms) (s ++ t) := by
  cases h with
  | mk hvalue hb hb' =>
      rw [hvalue]
      simpa using Row.cons hm isGap_nil hb hb' hrow

theorem ObjectWritten.row {o : List Member} {s : Text} (h : ObjectWritten o s)
    (ho : ∀ m ∈ o, m.Plain) (hrow : Row tail ms t) : Row tail (o ++ ms) (s ++ t) := by
  cases h with
  | @mk u hu =>
      have hend : Row tail ms ('}' :: t) := hrow.gap (isGap_nil.cons (by decide))
      have hinner := hu.row (f := fun m => [m]) (fun m hm _ _ _ hs => hs.row (ho m hm)) hend
      rw [List.flatMap_singleton'] at hinner
      have hthis : Row tail (o ++ ms) ('{' :: (u ++ '}' :: t)) :=
        hinner.gap (isGap_nil.cons (by decide))
      simpa using hthis

/-- The inside of an object is a row. -/
theorem ObjectWritten.inside {o : List Member} {s : Text} (h : ObjectWritten o s)
    (ho : ∀ m ∈ o, m.Plain) (rest : Text) :
    ∃ u, s ++ rest = '{' :: u ∧ Row ('}' :: rest) o u := by
  cases h with
  | @mk u hu =>
      have hnil : Row ('}' :: rest) [] ('}' :: rest) := Row.nil isGap_nil
      have hrow := hu.row (f := fun m => [m]) (fun m hm _ _ _ hs => hs.row (ho m hm)) hnil
      rw [List.flatMap_singleton', List.append_nil] at hrow
      exact ⟨u ++ '}' :: rest, by simp, hrow⟩

/-- The inside of an array is a row. -/
theorem Listed.array {os : List (List Member)} (h : Listed ObjectWritten os u)
    (hos : ∀ o ∈ os, ∀ m ∈ o, m.Plain) (tail : Text) : Row tail os.flatten (u ++ tail) := by
  have hnil : Row tail [] tail := Row.nil isGap_nil
  have hrow := h.row (f := id) (fun o ho _ _ _ hs => hs.row (hos o ho)) hnil
  simpa using hrow

end Rows

/-! ## The scans of a registry

The tool searches for a word from some place to the end of the text, and a hit anywhere counts. Part by
part the text is passed over, if it does not hold the word, until the search comes to the table it is
meant for. -/

/-- A table: its label, and the array `u`. -/
def table (key b b' u rest : Text) : Text :=
  '"' :: (key ++ '"' :: (b ++ ':' :: (b' ++ '[' :: (u ++ ']' :: rest))))

theorem Labelled.table {key r : Text} {os : List (List Member)}
    (h : Labelled key (ArrayWritten os) r) : ∃ b b' u, IsBlank b ∧ IsBlank b' ∧
      Listed ObjectWritten os u ∧ ∀ rest, r ++ rest = table key b b' u rest := by
  cases h with
  | @mk t b b' hos hb hb' =>
      cases hos with
      | @mk u hu =>
          refine ⟨b, b', u, hb, hb', hu, ?_⟩
          intro rest
          simp [Registry.table]

section Search

variable {a b b' key rest u w t : Text}

/-- A search for another word passes over a key. -/
theorem findKey_labelled (hw : IsKey w) (hkey : '"' ∉ key) (hne : key ≠ w) (hb : IsBlank b)
    (hb' : IsBlank b') :
    findKey ('"' :: (key ++ '"' :: (b ++ ':' :: (b' ++ t)))) w = findKey t w := by
  have hbreaks : Breaks (b ++ ':' :: (b' ++ t)) :=
    (blank_isGap hb).breaks (breaks_cons (by decide) (by decide) _)
  have hno : '"' ∉ b ++ ':' :: b' := by
    simp [(blank_isGap hb).no_quote, (blank_isGap hb').no_quote]
  have hsplit : b ++ ':' :: (b' ++ t) = (b ++ ':' :: b') ++ t := by simp
  rw [findKey_eq hw, strstr_string hw.1 hkey hbreaks, if_neg hne, ← findKey_eq hw, hsplit,
    findKey_skip hw hno]

/-- A search for another word passes over the label of a table. -/
theorem findKey_label (hw : IsKey w) (hkey : '"' ∉ key) (hne : key ≠ w) (hb : IsBlank b)
    (hb' : IsBlank b') : findKey (table key b b' u rest) w = findKey (u ++ ']' :: rest) w := by
  rw [table, findKey_labelled hw hkey hne hb hb']
  exact findKey_skip (a := ['[']) hw (by decide)

/-- A search for the label of a table stops there. -/
theorem findKey_here (hw : IsKey w) :
    findKey (table w b b' u rest) w = some (table w b b' u rest) := by
  rw [table, findKey_eq hw, strstr_here]

/-- A search passes over a text that does not hold the word. -/
theorem findKey_behind (hw : IsKey w) (ha : ¬ quoted w <:+: a ++ ['"']) :
    findKey (a ++ '"' :: t) w = findKey ('"' :: t) w := by
  rw [findKey_eq hw, findKey_eq hw, strstr_behind hw.1.no_quote ha]

theorem findKey_table (hw : IsKey w) (ha : ¬ quoted w <:+: a ++ ['"']) :
    findKey (a ++ table key b b' u rest) w = findKey (table key b b' u rest) w :=
  findKey_behind hw ha

theorem findKey_length {e : Text} (hw : IsKey w) (h : findKey t w = some e) : e.length ≤ t.length := by
  rw [findKey_eq hw] at h
  exact (strstr_suffix h).length_le

/-- The array behind its label. -/
theorem arraySpan_label (hw : IsKey w) (hb : IsBlank b) (hb' : IsBlank b') (hu : Paired u)
    (h : findKey t w = some (table w b b' u rest)) :
    arraySpan t w = some ('[' :: (u ++ ']' :: rest), ']' :: rest) := by
  have hno : '[' ∉ '"' :: (w ++ '"' :: (b ++ ':' :: b')) := by
    have hword : '[' ∉ w := fun hc => absurd (hw.1.2 _ hc) (by decide)
    simp [hword, (blank_isGap hb).no_opening, (blank_isGap hb').no_opening]
  have hsplit : table w b b' u rest =
      '"' :: (w ++ '"' :: (b ++ ':' :: b')) ++ '[' :: (u ++ ']' :: rest) := by simp [table]
  rw [arraySpan, h, Option.bind_eq_bind, Option.bind_some, hsplit, strchr_skip hno, strchr_here]
  show (spanLoop 0 _ >>= fun last => some (_, last)) = _
  rw [spanLoop_array hu]
  rfl

end Search

theorem isKey_ranges : IsKey "ranges".toList := by decide

theorem isKey_assignments : IsKey "assignments".toList := by decide

theorem isKey_of_rangeWords : ∀ w ∈ rangeWords, IsKey w := by decide

/-- What the scans of the validator come to, for a registry. -/
structure Document.Scanned (d : Document) (text : Text) : Prop where
  ranges : ∃ start, findKey text "ranges".toList = some start ∧
    scanRanges (findKey start "assignments".toList) maxRanges start =
      ((d.ranges.take maxRanges).map RangeRow.read, [])
  assignments : ∃ start, arraySpan text "assignments".toList = some (start, d.behind) ∧
    scanAssignments d.behind maxAssignments start = recorded d.behind d.found
  summary : ∀ w ∈ rangeWords, w ∈ headWords → w ≠ "assignments".toList →
    readLongAfter text w = numberAfter w d.behind d.members

section Scanned

variable {d : Document} {text : Text}

theorem RangeRow.plain {r : RangeRow} (hpolicy : '"' ∉ r.policy) (hdetail : '"' ∉ r.detail) :
    ∀ m ∈ r.members, m.Plain := by
  have hkeys : ∀ w ∈ ["first".toList, "last".toList, "policy".toList, "detail".toList],
      '"' ∉ w ∧ ':' ∉ w := by decide
  intro m hm
  simp only [RangeRow.members, List.mem_cons, List.not_mem_nil, or_false] at hm
  rcases hm with rfl | rfl | rfl | rfl
  · exact ⟨hkeys _ (by simp), fun s hs => Value.noConfusion hs⟩
  · exact ⟨hkeys _ (by simp), fun s hs => Value.noConfusion hs⟩
  · exact ⟨hkeys _ (by simp), fun s hs => Value.str.inj hs ▸ hpolicy⟩
  · exact ⟨hkeys _ (by simp), fun s hs => Value.str.inj hs ▸ hdetail⟩

/-- The range table does not hold the words that are looked for behind it. -/
theorem RangeRow.words {r : RangeRow} (hpolicy : IsRemark r.policy) (hdetail : IsRemark r.detail)
    {w : Text} (hw : w ∈ rangeWords) (hne : w ≠ "first".toList) :
    ∀ m ∈ r.members, m.key ≠ w ∧ m.value ≠ .str w := by
  have hkeys : ∀ w ∈ rangeWords, w ≠ "first".toList →
      ∀ k ∈ ["first".toList, "last".toList, "policy".toList, "detail".toList], k ≠ w := by
    decide
  intro m hm
  simp only [RangeRow.members, List.mem_cons, List.not_mem_nil, or_false] at hm
  rcases hm with rfl | rfl | rfl | rfl
  · exact ⟨hkeys w hw hne _ (by simp), Value.noConfusion⟩
  · exact ⟨hkeys w hw hne _ (by simp), Value.noConfusion⟩
  · exact ⟨hkeys w hw hne _ (by simp), fun h => hpolicy.2 (Value.str.inj h ▸ hw)⟩
  · exact ⟨hkeys w hw hne _ (by simp), fun h => hdetail.2 (Value.str.inj h ▸ hw)⟩

section Parts

variable {b b' b₁ b₂ u v w A : Text}

/-- What stands between the two arrays is passed over. -/
theorem findKey_between (hw : IsKey w) (hb : IsBlank b) (hb' : IsBlank b') (A : Text) :
    findKey (']' :: (b ++ ',' :: (b' ++ A))) w = findKey A w := by
  have hno : '"' ∉ ']' :: (b ++ ',' :: b') := by
    simp [(blank_isGap hb).no_quote, (blank_isGap hb').no_quote]
  have hsplit : ']' :: (b ++ ',' :: (b' ++ A)) = ']' :: (b ++ ',' :: b') ++ A := by simp
  rw [hsplit, findKey_skip hw hno]

theorem Document.LaidOut.rangesRow (hd : d.LaidOut)
    (hu : Listed ObjectWritten (d.ranges.map RangeRow.members) u) (tail : Text) :
    Row tail (d.ranges.flatMap RangeRow.members) (u ++ tail) := by
  apply hu.array
  intro o ho
  obtain ⟨r, hr, rfl⟩ := List.mem_map.mp ho
  exact RangeRow.plain (hd.ranges r hr).1.1 (hd.ranges r hr).2.1

theorem Document.LaidOut.membersRow (hd : d.LaidOut) (hv : Listed ObjectWritten d.assignments v) :
    Row d.behind d.members (v ++ d.behind) :=
  hv.array (fun o ho m hm => (hd.assignments o ho m hm).1) d.behind

/-- The words that are looked for behind the range table are not found in it. -/
theorem Document.LaidOut.pass_ranges (hd : d.LaidOut)
    (hu : Listed ObjectWritten (d.ranges.map RangeRow.members) u) (hb₁ : IsBlank b₁)
    (hb₂ : IsBlank b₂) (hb : IsBlank b) (hb' : IsBlank b') (hw : w ∈ rangeWords)
    (hne : w ≠ "first".toList) :
    findKey (table "ranges".toList b₁ b₂ u (b ++ ',' :: (b' ++ A))) w = findKey A w := by
  have hkey := isKey_of_rangeWords w hw
  have hno : ∀ w ∈ rangeWords, "ranges".toList ≠ w := by decide
  have hrow := hd.rangesRow hu (']' :: (b ++ ',' :: (b' ++ A)))
  have hmembers : ∀ m ∈ d.ranges.flatMap RangeRow.members, m.key ≠ w ∧ m.value ≠ .str w := by
    intro m hm
    obtain ⟨r, hr, hmr⟩ := List.mem_flatMap.mp hm
    exact RangeRow.words (hd.ranges r hr).1 (hd.ranges r hr).2 hw hne m hmr
  rw [findKey_label hkey (by decide) (hno w hw) hb₁ hb₂,
    hrow.pass (breaks_cons (by decide) (by decide) _) hkey hmembers, findKey_between hkey hb hb']

/-- The scan for the ranges ends at the assignments `A`. -/
theorem Document.LaidOut.scan_ranges (hd : d.LaidOut)
    (hu : Listed ObjectWritten (d.ranges.map RangeRow.members) u) (hb₁ : IsBlank b₁)
    (hb₂ : IsBlank b₂) (hb : IsBlank b) (hb' : IsBlank b')
    (hend : ∀ e, findKey A "first".toList = some e → e.length < A.length) (n : Nat) :
    scanRanges (some A) n (table "ranges".toList b₁ b₂ u (b ++ ',' :: (b' ++ A))) =
      ((d.ranges.take n).map RangeRow.read, []) := by
  have hstart : findKey (table "ranges".toList b₁ b₂ u (b ++ ',' :: (b' ++ A))) "first".toList =
      findKey (u ++ ']' :: (b ++ ',' :: (b' ++ A))) "first".toList :=
    findKey_label isKey_first (by decide) (by decide) hb₁ hb₂
  rw [scanRanges_congr hstart]
  apply (hd.rangesRow hu _).scanned (breaks_cons (by decide) (by decide) _)
  · simp only [List.length_cons, List.length_append]
    omega
  · intro e he
    rw [findKey_between isKey_first hb hb'] at he
    exact hend e he
  · have hfirst : "first".toList ∈ rangeWords := List.mem_cons_self
    intro r hr
    obtain ⟨hpolicy, hdetail⟩ := hd.ranges r hr
    exact ⟨fun h => hpolicy.2 (h ▸ hfirst), fun h => hdetail.2 (h ▸ hfirst)⟩

/-- The brackets of the assignments pair up. -/
theorem Document.LaidOut.paired (hd : d.LaidOut) (hv : Listed ObjectWritten d.assignments v) :
    Paired v := by
  have hclosed : ∀ m ∈ d.members, m.Closed := by
    intro m hm
    obtain ⟨o, ho, hmo⟩ := List.mem_flatten.mp hm
    exact (hd.assignments o ho m hmo).2
  obtain ⟨body, hbody, hpaired⟩ := (hd.membersRow hv).paired hclosed
  rwa [← List.append_cancel_right hbody] at hpaired

/-- The scan of the assignments ends at the end of their array. -/
theorem Document.LaidOut.scan_assignments (hd : d.LaidOut)
    (hv : Listed ObjectWritten d.assignments v) (n : Nat) :
    scanAssignments d.behind n ('[' :: (v ++ d.behind)) =
      recorded d.behind ((entries d.behind d.members).take n) := by
  have hbracket : findKey ('[' :: (v ++ d.behind)) "id".toList =
      findKey (v ++ d.behind) "id".toList := findKey_skip (a := ['[']) isKey_id (by decide)
  rw [scanAssignments_congr hbracket]
  apply (hd.membersRow hv).scan (breaks_cons (by decide) (by decide) _)
  intro e he
  rw [Document.behind, ← List.singleton_append, findKey_skip isKey_id (by decide)] at he
  exact Nat.lt_succ_of_le (findKey_length isKey_id he)

/-- A word of the summary and the label of the assignments are found behind the range table. -/
theorem Document.LaidOut.find_behind (hd : d.LaidOut)
    (hu : Listed ObjectWritten (d.ranges.map RangeRow.members) u) (hb₁ : IsBlank b₁)
    (hb₂ : IsBlank b₂) (hb : IsBlank b) (hb' : IsBlank b') (hhead : w ∈ headWords)
    (hw : w ∈ rangeWords) (hne : w ≠ "first".toList) :
    findKey (d.opening ++ table "ranges".toList b₁ b₂ u (b ++ ',' :: (b' ++ A))) w = findKey A w := by
  rw [findKey_table (isKey_of_rangeWords w hw) (hd.opening w hhead),
    hd.pass_ranges hu hb₁ hb₂ hb hb' hw hne]

/-- A search for another word goes through the label of the assignments. -/
theorem findKey_assignments (hw : IsKey w) (hne : w ≠ "assignments".toList) (hb : IsBlank b)
    (hb' : IsBlank b') :
    findKey (table "assignments".toList b b' v d.closing) w = findKey (v ++ d.behind) w :=
  findKey_label hw (by decide) hne.symm hb hb'

end Parts

/-- The text of a registry, taken apart. -/
theorem Document.Written.parts (h : d.Written text) : ∃ b₁ b₂ u b b' b₃ b₄ v,
    IsBlank b₁ ∧ IsBlank b₂ ∧ Listed ObjectWritten (d.ranges.map RangeRow.members) u ∧
      IsBlank b ∧ IsBlank b' ∧ IsBlank b₃ ∧ IsBlank b₄ ∧ Listed ObjectWritten d.assignments v ∧
      text = d.opening ++ Registry.table "ranges".toList b₁ b₂ u
        (b ++ ',' :: (b' ++ Registry.table "assignments".toList b₃ b₄ v d.closing)) := by
  cases h with
  | @mk r a b b' hr hb hb' ha =>
    obtain ⟨b₁, b₂, u, hb₁, hb₂, hu, hr⟩ := hr.table
    obtain ⟨b₃, b₄, v, hb₃, hb₄, hv, ha⟩ := ha.table
    exact ⟨b₁, b₂, u, b, b', b₃, b₄, v, hb₁, hb₂, hu, hb, hb', hb₃, hb₄, hv, by rw [ha, hr]⟩

theorem Document.Written.scanned (h : d.Written text) (hd : d.LaidOut) : d.Scanned text := by
  obtain ⟨b₁, b₂, u, b, b', b₃, b₄, v, hb₁, hb₂, hu, hb, hb', hb₃, hb₄, hv, rfl⟩ := h.parts
  constructor
  case ranges =>
    refine ⟨_, (findKey_table isKey_ranges (hd.opening _ List.mem_cons_self)).trans
      (findKey_here isKey_ranges), ?_⟩
    rw [hd.pass_ranges hu hb₁ hb₂ hb hb' assignments_rangeWord assignments_ne_first,
      findKey_here isKey_assignments]
    apply hd.scan_ranges hu hb₁ hb₂ hb hb'
    intro e he
    rw [findKey_assignments isKey_first assignments_ne_first.symm hb₃ hb₄] at he
    have hle := findKey_length isKey_first he
    rw [Registry.table, ← Document.behind]
    simp only [List.length_cons, List.length_append] at hle ⊢
    omega
  case assignments =>
    refine ⟨'[' :: (v ++ d.behind), ?_, hd.scan_assignments hv _⟩
    apply arraySpan_label isKey_assignments hb₃ hb₄ (hd.paired hv)
    rw [hd.find_behind hu hb₁ hb₂ hb hb' assignments_headWord assignments_rangeWord
      assignments_ne_first]
    exact findKey_here isKey_assignments
  case summary =>
    intro w hw hmem hne
    have hkey := isKey_of_rangeWords w hw
    have hfirst : w ≠ "first".toList := by
      rintro rfl
      exact absurd hmem (by decide)
    rw [← (hd.membersRow hv).readLong (breaks_cons (by decide) (by decide) _) hkey,
      readLongAfter_eq, readLongAfter_eq, hd.find_behind hu hb₁ hb₂ hb hb' hmem hw hfirst,
      findKey_assignments hkey hne hb₃ hb₄]

end Scanned

/-! ## What the validator asks for

Given what the scans come to, there are no failures exactly if the ranges are a partition, the
identifiers may be assigned, nothing is missing, and the counts come out. -/

/-- Behind the entry all four fields are found. -/
structure Supplied (tail : Text) (ms : List Member) : Prop where
  name : stringAfter "name".toList tail ms ≠ none
  status : stringAfter "status".toList tail ms ≠ none
  specification : mentions "specification".toList tail ms = true
  guidance : mentions "criticality_guidance".toList tail ms = true

/-- The identifier is in a range that is not reserved. -/
def Assignable (ranges : List Range) (id : Int) : Prop :=
  0 < id ∧ id ≤ extensionIdMax ∧
    ∃ r ∈ ranges, Covers Range.first Range.last r id ∧ r.policy ≠ "Reserved".toList

instance (ranges : List Range) (id : Int) : Decidable (Assignable ranges id) :=
  inferInstanceAs (Decidable (_ ∧ _ ∧ ∃ r ∈ ranges, _))

/-- The ranges that are read. -/
def Document.table (d : Document) : List Range := (d.ranges.take maxRanges).map RangeRow.read

/-- The assignments that are recorded. -/
def Document.recorded (d : Document) : List Assignment := d.found.map (entryAssignment d.behind)

/-- The number behind the first mention of a word. -/
def Document.declared (d : Document) (w : Text) : Int := (numberAfter w d.behind d.members).getD 0

/-- What the validator asks of the ranges, the identifiers and the summary. -/
structure Document.Sound (d : Document) : Prop where
  partition : Partition d.table
  assignable : ∀ e ∈ d.found, Assignable d.table e.1
  unique : d.found.Pairwise fun e e' => e.1 ≠ e'.1
  assigned : d.declared "assigned".toList = countedAssigned d.recorded
  deprecated : d.declared "deprecated".toList = countedDeprecated d.recorded
  total : d.declared "total".toList = d.found.length

/-- What the validator asks for. -/
structure Document.Accepted (d : Document) : Prop extends Document.Sound d where
  supplied : ∀ e ∈ d.found, Supplied d.behind e.2

section Accepted

variable {d : Document} {text tail : Text} {ranges : List Range} {as : List Assignment}

theorem entryFailures_nil {e : Int × List Member} :
    entryFailures tail e = [] ↔ Supplied tail e.2 := by
  rw [entryFailures]
  simp only [List.append_eq_nil_iff, failIf_eq_nil, Bool.not_eq_false]
  constructor
  · rintro ⟨⟨⟨hname, hstatus⟩, hspecification⟩, hguidance⟩
    exact ⟨hname, hstatus, hspecification, hguidance⟩
  · rintro ⟨hname, hstatus, hspecification, hguidance⟩
    exact ⟨⟨⟨hname, hstatus⟩, hspecification⟩, hguidance⟩

/-- In a partition the range that is found is the one. -/
theorem placement_nil (h : Partition ranges) {id : Int} (hpos : 0 < id) (hmax : id ≤ extensionIdMax) :
    placement ranges id = [] ↔
      ∃ r ∈ ranges, Covers Range.first Range.last r id ∧ r.policy ≠ "Reserved".toList := by
  rw [placement]
  cases hfind : ranges.find? fun r => r.first ≤ id && id ≤ r.last with
  | none =>
      have hnone := List.find?_eq_none.mp hfind
      constructor
      · intro hnil
        cases hnil
      · rintro ⟨r, hr, ⟨hfirst, hlast⟩, -⟩
        exact absurd (by simp [hfirst, hlast]) (hnone r hr)
  | some r =>
      have hr := List.mem_of_find?_eq_some hfind
      have hcovers : Covers Range.first Range.last r id := by
        simpa [Covers] using List.find?_some hfind
      rw [failIf_eq_nil]
      constructor
      · intro hpolicy
        exact ⟨r, hr, hcovers, hpolicy⟩
      · rintro ⟨s, hs, hcovers', hpolicy⟩
        rwa [h.partitions.unique (Int.le_of_lt hpos) hmax hr hs hcovers hcovers']

theorem assignmentChecks_nil : assignmentChecks ranges as = [] ↔
    (∀ a ∈ as, (0 < a.id ∧ a.id ≤ extensionIdMax) ∧ placement ranges a.id = []) ∧
      as.Pairwise fun a b => a.id ≠ b.id := by
  induction as with
  | nil => simp [assignmentChecks]
  | cons a as ih =>
      rw [assignmentChecks]
      simp only [List.append_eq_nil_iff, failIf_eq_nil, flatMap_failIf_eq_nil, ih,
        List.forall_mem_cons, List.pairwise_cons, not_or, Int.not_le, gt_iff_lt, Int.not_lt]
      tauto

theorem summaryChecks_nil {buf : Text} : summaryChecks buf as = [] ↔
    (readLongAfter buf "assigned".toList).getD 0 = countedAssigned as ∧
      (readLongAfter buf "deprecated".toList).getD 0 = countedDeprecated as ∧
      (readLongAfter buf "total".toList).getD 0 = as.length := by
  rw [summaryChecks]
  simp only [List.append_eq_nil_iff, failIf_eq_nil, not_not, and_assoc]

theorem exitStatus_eq_zero {qsort : List Range → List Range} {file : Text} :
    exitStatus qsort file = 0 ↔ failures qsort file = [] := by
  rw [exitStatus]
  split
  · next hnil => exact ⟨fun _ => hnil, fun _ => rfl⟩
  · next hne => exact ⟨fun h => absurd h (by decide), fun h => absurd h hne⟩

/-- The failures of the validator, for a registry. -/
theorem Document.Scanned.failures_eq {qsort : List Range → List Range} {file : Text}
    (h : d.Scanned (buffer file)) : failures qsort file =
      rangeSection qsort d.table ++ d.found.flatMap (entryFailures d.behind) ++
        assignmentChecks (qsort d.table) d.recorded ++ summaryChecks (buffer file) d.recorded := by
  obtain ⟨start, hranges, hscan⟩ := h.ranges
  obtain ⟨start', hspan, hentries⟩ := h.assignments
  rw [failures]
  simp only [hranges, hscan, hspan, hentries]
  rfl

/-- The validator exits with 0 if and only if the registry is what it asks for. -/
theorem Document.exitStatus_iff {qsort : List Range → List Range} (hq : Sorts qsort) {file : Text}
    (hd : d.LaidOut) (h : d.Written (buffer file)) : exitStatus qsort file = 0 ↔ d.Accepted := by
  have hscanned := h.scanned hd
  have hsummary : ∀ w ∈ ["assigned".toList, "deprecated".toList, "total".toList],
      (readLongAfter (buffer file) w).getD 0 = d.declared w := by
    have hwords : ∀ w ∈ ["assigned".toList, "deprecated".toList, "total".toList],
        w ∈ rangeWords ∧ w ∈ headWords ∧ w ≠ "assignments".toList := by decide
    intro w hw
    obtain ⟨hrange, hhead, hne⟩ := hwords w hw
    rw [hscanned.summary w hrange hhead hne]
    rfl
  rw [exitStatus_eq_zero, hscanned.failures_eq, List.append_eq_nil_iff, List.append_eq_nil_iff,
    List.append_eq_nil_iff, rangeSection_nil hq, List.flatMap_eq_nil_iff, assignmentChecks_nil,
    summaryChecks_nil, hsummary _ (by simp), hsummary _ (by simp), hsummary _ (by simp)]
  have hids : (∀ a ∈ d.recorded, (0 < a.id ∧ a.id ≤ extensionIdMax) ∧
      placement (qsort d.table) a.id = []) ↔ ∀ e ∈ d.found, (0 < e.1 ∧ e.1 ≤ extensionIdMax) ∧
        placement (qsort d.table) e.1 = [] := List.forall_mem_map
  have hunique : (d.recorded.Pairwise fun a b => a.id ≠ b.id) ↔
      d.found.Pairwise fun e e' => e.1 ≠ e'.1 := List.pairwise_map
  have hlength : d.recorded.length = d.found.length := List.length_map _
  have hplaced : ∀ {id : Int}, Partition d.table →
      (((0 < id ∧ id ≤ extensionIdMax) ∧ placement (qsort d.table) id = []) ↔
        Assignable d.table id) := by
    intro id hpartition
    rw [Assignable, and_assoc]
    apply and_congr_right
    intro hpos
    apply and_congr_right
    intro hmax
    rw [placement_nil (hpartition.perm (hq.perm d.table).symm) hpos hmax]
    apply exists_congr
    intro r
    rw [(hq.perm d.table).mem_iff]
  rw [hids, hunique, hlength]
  constructor
  · rintro ⟨⟨⟨hpartition, hmissing⟩, hplacement, hnodup⟩, hassigned, hdeprecated, htotal⟩
    exact ⟨⟨hpartition, fun e he => (hplaced hpartition).mp (hplacement e he), hnodup, hassigned,
      hdeprecated, htotal⟩, fun e he => entryFailures_nil.mp (hmissing e he)⟩
  · intro ha
    exact ⟨⟨⟨ha.partition, fun e he => entryFailures_nil.mpr (ha.supplied e he)⟩,
      fun e he => (hplaced ha.partition).mpr (ha.assignable e he), ha.unique⟩, ha.assigned,
      ha.deprecated, ha.total⟩

end Accepted

end Registry

end MclWire
