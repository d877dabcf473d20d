import MclWire.Registry.Objects

/-!
# Registries that are cut off

`main` reads the first 65535 bytes of the file. If these end in front of the bracket that closes the
assignments, `array_span` counts an opening bracket too many and comes to the end of the text: the
registry is then read as one without assignments, which is not reported.

* `Document.Written.kept` — a cut behind the assignments leaves a registry with less text behind them.
* `arraySpan_cut` — the array has no end in what is kept.
* `Document.CutOff.readLong_zero` — and nothing that is kept declares a count.
* `Document.CutOff.exitStatus_iff` — so that only the ranges matter.

What is kept of the text is a beginning of it, and a search that finds something in a beginning finds
the same in the whole text (`strstr_append`). So each search is followed in the whole text, where it is
known what it comes to, and cut down again.
-/

namespace MclWire

open CText

namespace Registry

/-- The range table that is read from a text passes. -/
def RangesPass (t : Text) : Prop :=
  ∃ start ranges, findKey t "ranges".toList = some start ∧
    scanRanges (findKey start "assignments".toList) maxRanges start = (ranges, []) ∧
    Partition ranges

/-- The kept part of the file ends in front of the bracket that closes the assignments. -/
def Document.CutOff (d : Document) (file : Text) : Prop :=
  (buffer file).length + d.behind.length ≤ file.length

/-- The registry as far as it is kept, where the cut is behind the assignments. -/
def Document.kept (d : Document) (file : Text) : Document :=
  { d with closing := d.closing.take (d.closing.length - (file.length - (buffer file).length)) }

theorem buffer_starts (file : Text) : buffer file <+: file :=
  (List.takeWhile_prefix _).trans (List.take_prefix _ _)

section Searches

variable {t e more w : Text}

theorem findKey_append (hw : IsKey w) (h : findKey t w = some e) (more : Text) :
    findKey (t ++ more) w = some (e ++ more) := by
  rw [findKey_eq hw] at h ⊢
  exact strstr_append h more

theorem starts_of_findKey (hw : IsKey w) (h : findKey t w = some e) : quoted w <+: e := by
  rw [findKey_eq hw] at h
  obtain ⟨-, -, hprefix, -⟩ := strstr_iff.mp h
  exact hprefix

theorem findKey_self (hw : IsKey w) (h : quoted w <+: t) : findKey t w = some t := by
  rw [findKey_eq hw, strstr_iff]
  exact ⟨[], rfl, h, fun _ _ => Nat.zero_le _⟩

/-- The end of an array is not found in a beginning of its inside. -/
theorem spanLoop_cut {s : Text} (hs : Paired s) {depth : Int} (hd : 0 < depth) (ht : t <+: s) :
    spanLoop depth t = none := by
  induction hs generalizing depth t with
  | nil =>
      rw [List.prefix_nil.mp ht]
      rfl
  | @char c s hopen hclose _ ih =>
      cases t with
      | nil => rfl
      | cons x t =>
          obtain ⟨hx, ht⟩ := List.cons_prefix_cons.mp ht
          rw [hx, spanLoop, if_neg hopen, if_neg hclose]
          exact ih hd ht
  | @pair s s' hs _ ih ih' =>
      cases t with
      | nil => rfl
      | cons x t =>
          obtain ⟨hx, ht⟩ := List.cons_prefix_cons.mp ht
          rw [hx, spanLoop, if_pos rfl]
          rcases List.prefix_or_prefix_of_prefix ht (List.prefix_append s _) with hin | ⟨t', rfl⟩
          · exact ih (by omega) hin
          · -- the inner brackets are closed, and the outer ones are open still
            rw [List.prefix_append_right_inj] at ht
            rw [spanLoop_paired hs (by omega)]
            cases t' with
            | nil => rfl
            | cons y t' =>
                have hclose : ']' ≠ '[' := by decide
                obtain ⟨hy, ht⟩ := List.cons_prefix_cons.mp ht
                rw [hy, spanLoop, if_neg hclose, if_pos rfl, if_neg (by omega), Int.add_sub_cancel]
                exact ih' hd ht

/-- An array whose end is not kept has none. -/
theorem arraySpan_cut {b b' v rest : Text} (hw : IsKey w) (hb : IsBlank b) (hb' : IsBlank b')
    (hv : Paired v) (hfind : findKey (t ++ more) w = some (table w b b' v rest))
    (hmore : (']' :: rest).length ≤ more.length) : arraySpan t w = none := by
  have hno : '[' ∉ '"' :: (w ++ '"' :: (b ++ ':' :: b')) := by
    have hword : '[' ∉ w := fun hc => absurd (hw.1.2 _ hc) (by decide)
    simp [hword, (blank_isGap hb).no_opening, (blank_isGap hb').no_opening]
  have hsplit : table w b b' v rest =
      '"' :: (w ++ '"' :: (b ++ ':' :: b')) ++ '[' :: (v ++ ']' :: rest) := by simp [table]
  rw [arraySpan]
  cases hk : findKey t w with
  | none => rfl
  | some e =>
      rw [findKey_append hw hk more, Option.some.injEq] at hfind
      show (strchr '[' e >>= fun p => spanLoop 0 p >>= fun last => some (p, last)) = none
      cases hp : strchr '[' e with
      | none => rfl
      | some p =>
          obtain ⟨q, rfl⟩ := strchr_head hp
          have happend := strchr_append hp more
          rw [hfind, hsplit, strchr_skip hno, strchr_here, Option.some.injEq, List.cons_append,
            List.cons.injEq] at happend
          -- what is kept of the array ends inside of it
          have hq : q <+: v := by
            apply List.prefix_of_prefix_length_le
              (happend.2 ▸ List.prefix_append q more) (List.prefix_append v _)
            have hlength := congrArg List.length happend.2
            rw [List.length_append, List.length_append] at hlength
            omega
          show (spanLoop 0 ('[' :: q) >>= fun last => some ('[' :: q, last)) = none
          rw [spanLoop, if_pos rfl, spanLoop_cut hv (by decide) hq]
          rfl

end Searches

section Counts

variable {tail t e more w : Text} {m : Member} {ms : List Member}

/-- Where the first colon of a row stands. -/
theorem Row.colon (h : Row tail (m :: ms) t) :
    ∃ b t', IsBlank b ∧ strchr ':' t = some (':' :: (b ++ (m.value.text ++ t'))) := by
  cases h with
  | @cons g b b' t _ _ hm hg hb hb' hrow =>
      have hno : ':' ∉ g ++ '"' :: (m.key ++ '"' :: b) := by
        simp only [List.mem_cons, List.mem_append, not_or]
        exact ⟨hg.no_colon, by decide, hm.key.2, by decide, (blank_isGap hb).no_colon⟩
      have hsplit : g ++ '"' :: (m.key ++ '"' :: (b ++ ':' :: (b' ++ (m.value.text ++ t)))) =
          g ++ '"' :: (m.key ++ '"' :: b) ++ ':' :: (b' ++ (m.value.text ++ t)) := by simp
      exact ⟨b', t, hb', by rw [hsplit, strchr_skip hno, strchr_here]⟩

/-- In front of the end of a row, where every mention of a word has a string behind it, no number is
read behind the first mention, wherever the text is cut off. -/
theorem Hit.cut {o : Option Text} (h : Hit w tail ms o) (hw : IsKey w) (hkeys : ∀ m ∈ ms, m.key ≠ w)
    (hfollowed : Followed w ms) (ho : o = some (e ++ more)) (he : e ≠ [])
    (hmore : tail.length ≤ more.length) : (longBehind e).getD 0 = 0 := by
  induction h with
  | behind =>
      have hle := findKey_length hw ho
      have hpos := List.length_pos_iff.mpr he
      rw [List.length_append] at hle
      omega
  | key hkey _ => exact absurd hkey (hkeys _ List.mem_cons_self)
  | @value m ms t _ hvalue hrow =>
      obtain ⟨x, ms', s, rfl, hx⟩ := hfollowed [] m ms rfl hvalue
      obtain ⟨b, t', hb, hcolon⟩ := hrow.colon
      have hno : ':' ∉ m.value.text := by
        rw [hvalue, Value.text, quoted]
        simp only [List.mem_cons, List.mem_append, not_or]
        exact ⟨by decide, hw.1.no_colon, by decide, by simp⟩
      have hfirst : strchr ':' (e ++ more) = some (':' :: (b ++ '"' :: (s ++ '"' :: t'))) := by
        rw [← Option.some.inj ho, strchr_skip hno, hcolon, hx, Value.text_str]
      rw [longBehind]
      cases hp : strchr ':' e with
      | none => rfl
      | some p =>
          obtain ⟨q, rfl⟩ := strchr_head hp
          rw [strchr_append hp more, Option.some.injEq, List.cons_append, List.cons.injEq] at hfirst
          exact strtol_cut hb hfirst.2
  | pass _ _ _ ih =>
      exact ih (fun m' hm' => hkeys m' (List.mem_cons_of_mem _ hm')) hfollowed.of_cons ho

end Counts

section Registry

variable {d : Document} {file : Text}

theorem Document.CutOff.split (h : d.CutOff file) :
    ∃ more, file = buffer file ++ more ∧ d.behind.length ≤ more.length := by
  obtain ⟨more, hmore⟩ := buffer_starts file
  refine ⟨more, hmore.symm, ?_⟩
  have hlength := congrArg List.length hmore
  rw [List.length_append] at hlength
  rw [CutOff] at h
  omega

/-- A list that is cut behind its first part. -/
theorem take_append_behind {α : Type} {a c : List α} {n : Nat} (ha : a.length ≤ n)
    (hn : n ≤ (a ++ c).length) :
    (a ++ c).take n = a ++ c.take (c.length - ((a ++ c).length - n)) := by
  rw [List.take_append, List.take_of_length_le ha]
  rw [List.length_append] at hn ⊢
  congr 2
  omega

/-- Any text may take the place of what stands behind the assignments. -/
theorem Document.Written.closing (hw : d.Written file) :
    ∃ t, file = t ++ d.closing ∧ ∀ c, { d with closing := c }.Written (t ++ c) := by
  cases hw with
  | @mk r a b b' hranges hb hb' hassignments =>
      refine ⟨d.opening ++ (r ++ (b ++ ',' :: (b' ++ a))), by simp, ?_⟩
      intro c
      have hwritten := Written.mk (d := { d with closing := c }) hranges hb hb' hassignments
      simpa using hwritten

/-- A cut behind the assignments takes away some of that text only. -/
theorem Document.Written.kept (hw : d.Written file) (h : ¬ d.CutOff file) :
    (d.kept file).Written (buffer file) := by
  obtain ⟨t, hfile, hwritten⟩ := hw.closing
  have hbuffer := List.prefix_iff_eq_take.mp (buffer_starts file)
  have hle := (buffer_starts file).length_le
  have hlength : t.length ≤ (buffer file).length := by
    have htotal : file.length = t.length + d.closing.length := by rw [hfile, List.length_append]
    rw [CutOff, behind, List.length_cons] at h
    omega
  have hkept : buffer file = t ++ (d.kept file).closing := by
    rw [hbuffer, Document.kept]
    generalize (buffer file).length = n at hle hlength
    rw [hfile] at hle ⊢
    exact take_append_behind hlength hle
  rw [hkept]
  exact hwritten _

/-- What fits is kept whole. -/
theorem Document.kept_eq (h : buffer file = file) : d.kept file = d := by
  rw [kept, h, Nat.sub_self, Nat.sub_zero, List.take_length]

theorem Document.not_cutOff (h : buffer file = file) : ¬ d.CutOff file := by
  rw [CutOff, h, behind, List.length_cons]
  omega

/-- No assignment is read. -/
theorem Document.CutOff.arraySpan_none (h : d.CutOff file) (hd : d.LaidOut) (hw : d.Written file) :
    arraySpan (buffer file) "assignments".toList = none := by
  obtain ⟨more, hmore, hlength⟩ := h.split
  obtain ⟨b₁, b₂, u, b, b', b₃, b₄, v, hb₁, hb₂, hu, hb, hb', hb₃, hb₄, hv, hfile⟩ := hw.parts
  apply arraySpan_cut isKey_assignments hb₃ hb₄ (hd.paired hv) _ hlength
  rw [← hmore, hfile, hd.find_behind hu hb₁ hb₂ hb hb' assignments_headWord assignments_rangeWord
    assignments_ne_first]
  exact findKey_here isKey_assignments

/-- No count is declared. -/
theorem Document.CutOff.readLong_zero (h : d.CutOff file) (hd : d.LaidOut) (hw : d.Written file)
    (ho : ∀ o ∈ d.assignments, IsObject o) {w : Text} (hword : w ∈ summaryWords) :
    (readLongAfter (buffer file) w).getD 0 = 0 := by
  obtain ⟨more, hmore, hlength⟩ := h.split
  obtain ⟨b₁, b₂, u, b, b', b₃, b₄, v, hb₁, hb₂, hu, hb, hb', hb₃, hb₄, hv, hfile⟩ := hw.parts
  have hwords : ∀ w ∈ summaryWords, w ∈ headWords ∧ w ∈ rangeWords ∧ w ≠ "first".toList ∧
      w ≠ "assignments".toList := by decide
  obtain ⟨hhead, hrange, hfirst, hassignments⟩ := hwords w hword
  have hkey := isKey_of_rangeWords w hrange
  rw [readLongAfter_eq]
  cases hk : findKey (buffer file) w with
  | none => rfl
  | some e =>
      have hhit := (hd.membersRow hv).hit (breaks_cons (by decide) (by decide) _) hkey
      have he : e ≠ [] := by
        rintro rfl
        have hprefix := List.prefix_nil.mp (starts_of_findKey hkey hk)
        exact absurd hprefix (List.cons_ne_nil _ _)
      apply hhit.cut hkey (flatten_keys ho hword) (flatten_followed ho hword) _ he hlength
      have happend := findKey_append hkey hk more
      rw [← hmore, hfile, hd.find_behind hu hb₁ hb₂ hb hb' hhead hrange hfirst,
        findKey_assignments hkey hassignments hb₃ hb₄] at happend
      exact happend

/-- So nothing but the ranges is checked. -/
theorem Document.CutOff.exitStatus_iff (h : d.CutOff file) (hd : d.LaidOut) (hw : d.Written file)
    (ho : ∀ o ∈ d.assignments, IsObject o) {qsort : List Range → List Range} (hq : Sorts qsort) :
    exitStatus qsort file = 0 ↔ RangesPass (buffer file) := by
  have hnone := h.arraySpan_none hd hw
  have hsummary : summaryChecks (buffer file) [] = [] := by
    rw [summaryChecks_nil, h.readLong_zero hd hw ho assigned_summaryWord,
      h.readLong_zero hd hw ho deprecated_summaryWord, h.readLong_zero hd hw ho total_summaryWord]
    exact ⟨rfl, rfl, rfl⟩
  rw [exitStatus_eq_zero, failures, RangesPass]
  cases hranges : findKey (buffer file) "ranges".toList with
  | none => simp
  | some start =>
      rcases hscan : scanRanges (findKey start "assignments".toList) maxRanges start with
        ⟨ranges, incomplete⟩
      simp only [hscan, hnone, List.append_nil, assignmentChecks, hsummary,
        List.append_eq_nil_iff, rangeSection_nil hq, Option.some.injEq]
      constructor
      · rintro ⟨hincomplete, hpartition⟩
        exact ⟨start, ranges, rfl, hscan ▸ Prod.ext rfl hincomplete, hpartition⟩
      · rintro ⟨start', ranges', rfl, hscan', hpartition⟩
        rw [hscan] at hscan'
        cases hscan'
        exact ⟨rfl, hpartition⟩

/-- If the label of the assignments is kept, the ranges are those of the registry. -/
theorem Document.CutOff.rangesPass_iff (h : d.CutOff file) (hd : d.LaidOut) (hw : d.Written file)
    (hlabel : findKey (buffer file) "assignments".toList ≠ none) :
    RangesPass (buffer file) ↔ Partition d.table := by
  obtain ⟨more, hmore, -⟩ := h.split
  obtain ⟨b₁, b₂, u, b, b', b₃, b₄, v, hb₁, hb₂, hu, hb, hb', -, -, -, hfile⟩ := hw.parts
  obtain ⟨A, hA⟩ := Option.ne_none_iff_exists'.mp hlabel
  have hprefix := starts_of_findKey isKey_assignments hA
  have happend := findKey_append isKey_assignments hA more
  rw [← hmore, hfile, hd.find_behind hu hb₁ hb₂ hb hb' assignments_headWord assignments_rangeWord
    assignments_ne_first, findKey_here isKey_assignments, Option.some.injEq] at happend
  -- the kept text is the registry up to there, with the kept part of the assignments behind it
  have hbuffer : buffer file =
      d.opening ++ Registry.table "ranges".toList b₁ b₂ u (b ++ ',' :: (b' ++ A)) := by
    have hwhole : buffer file ++ more = d.opening ++ Registry.table "ranges".toList b₁ b₂ u
        (b ++ ',' :: (b' ++ A)) ++ more := by
      rw [← hmore, hfile, happend]
      simp [Registry.table]
    exact List.append_cancel_right hwhole
  have hscan := hd.scan_ranges (A := A) hu hb₁ hb₂ hb hb' (n := maxRanges) <| by
    intro e he
    rw [findKey_eq isKey_first] at he
    obtain ⟨front, hfront, hfirst, -⟩ := strstr_iff.mp he
    cases front with
    | nil =>
        rw [List.nil_append] at hfront
        rw [hfront] at hprefix
        rcases List.prefix_or_prefix_of_prefix hprefix hfirst with hno | hno
        · exact absurd hno (by decide)
        · exact absurd hno (by decide)
    | cons c front =>
        rw [hfront, List.length_append, List.length_cons]
        omega
  have hranges : findKey (buffer file) "ranges".toList =
      some (Registry.table "ranges".toList b₁ b₂ u (b ++ ',' :: (b' ++ A))) := by
    rw [hbuffer, findKey_table isKey_ranges (hd.opening _ List.mem_cons_self),
      findKey_here isKey_ranges]
  have hlabel : findKey (Registry.table "ranges".toList b₁ b₂ u (b ++ ',' :: (b' ++ A)))
      "assignments".toList = some A := by
    rw [hd.pass_ranges hu hb₁ hb₂ hb hb' assignments_rangeWord assignments_ne_first]
    exact findKey_self isKey_assignments hprefix
  rw [RangesPass]
  constructor
  · rintro ⟨start, ranges, hstart, hread, hpartition⟩
    rw [hranges, Option.some.injEq] at hstart
    rw [← hstart, hlabel, hscan] at hread
    cases hread
    exact hpartition
  · intro hpartition
    exact ⟨_, _, hranges, by rw [hlabel, hscan]; rfl, hpartition⟩

end Registry

end Registry

end MclWire
