import MclWire.Registry.Consistent

/-!
# Assignments that are objects

The shipped registry asks of an assignment that it is an object with certain fields. Here nothing is
asked for but that: the fields may be there or not, in any order, with others between them
(`IsObject`). What the scans of the tool find in a table of such objects is read off the table:

* `entries_flatten` — one entry for each object with an `id`, from there to the end of the table.
* `numberAfter_flatten` — a count is the one behind the table, or 0 if a status is the word.
* `supplied_iff` — what an entry lacks is supplied by a later object or by the text behind.

The scans go member by member and the table goes object by object, so each of these is an induction on
the members of one object, with the rest of the table behind it, and then one on the table.
-/

namespace MclWire

open CText

namespace Registry

/-! ## Objects

In an object no key stands twice, and no value but a status is a word that is looked for. So the scan
for `"id"` stops in it once, or not at all if it has no identifier. -/

/-- The fields that every assignment has to have. -/
def requiredKeys : List Text :=
  ["id".toList, "name".toList, "status".toList, "specification".toList,
    "criticality_guidance".toList]

/-- The fields that are looked for behind an identifier. -/
def searchedKeys : List Text :=
  ["name".toList, "status".toList, "specification".toList, "criticality_guidance".toList]

theorem searchedKeys_required : ∀ w ∈ searchedKeys, w ∈ requiredKeys :=
  fun _ hw => List.mem_cons_of_mem _ hw

theorem status_required : "status".toList ∈ requiredKeys :=
  searchedKeys_required _ (List.mem_cons_of_mem _ List.mem_cons_self)

/-- An assignment as an object: no key twice, names and statuses are strings, and no string is a word
that the tool looks for. Only a status may be one of the words of the summary; then an `id` stands in
front of it and another string behind it, as in the shipped file. -/
structure IsObject (o : List Member) : Prop where
  nodup : (o.map Member.key).Nodup
  keys : ∀ m ∈ o, m.key ∉ summaryWords
  strings : ∀ m ∈ o, m.key = "name".toList ∨ m.key = "status".toList → ∃ s, m.value = .str s
  words : ∀ m ∈ o, ∀ w ∈ requiredKeys, m.value ≠ .str w
  statuses : ∀ pre m post, o = pre ++ m :: post → ∀ w ∈ summaryWords, m.value = .str w →
    m.key = "status".toList ∧ (∃ i ∈ pre, i.key = "id".toList) ∧
      ∃ x post' s, post = x :: post' ∧ x.value = .str s

/-- Where a value is the word, a member with a string comes next. -/
def Followed (w : Text) (ms : List Member) : Prop :=
  ∀ pre m post, ms = pre ++ m :: post → m.value = .str w →
    ∃ x post' s, post = x :: post' ∧ x.value = .str s

/-- The object has an identifier. -/
def HasId (o : List Member) : Prop := ∃ m ∈ o, m.key = "id".toList

instance (o : List Member) : Decidable (HasId o) :=
  inferInstanceAs (Decidable (∃ m ∈ o, m.key = "id".toList))

/-- What an object with an identifier contributes to the entries, with the members `ms` behind it. -/
def objectEntry (o ms : List Member) : List (Int × List Member) :=
  match o.dropWhile fun m => m.key ≠ "id".toList with
  | []        => []
  | i :: rest => [(i.value.number, i :: (rest ++ ms))]

/-- The entries of a table of objects. -/
def tableEntries : List (List Member) → List (Int × List Member)
  | []      => []
  | o :: os => objectEntry o os.flatten ++ tableEntries os

section Object

variable {o front rest ms : List Member} {i m : Member} {u w : Text}

/-- The first member with a key is the only one. -/
theorem IsObject.other (h : IsObject o) (ho : o = front ++ i :: rest) :
    ∀ m ∈ front ++ rest, m.key ≠ i.key := by
  have hnodup := h.nodup
  rw [ho, List.map_append, List.map_cons, List.nodup_middle, List.nodup_cons] at hnodup
  intro m hm hkey
  apply hnodup.1
  rw [← hkey, ← List.map_append]
  exact List.mem_map_of_mem hm

theorem objectEntry_of_no_id (h : ¬ HasId o) : objectEntry o ms = [] := by
  have hdrop : o.dropWhile (fun m => m.key ≠ "id".toList) = [] := by
    rw [List.dropWhile_eq_nil_iff]
    intro m hm
    exact decide_eq_true fun hkey => h ⟨m, hm, hkey⟩
  rw [objectEntry, hdrop]

theorem objectEntry_of_split (h : IsObject o) (ho : o = front ++ i :: rest)
    (hi : i.key = "id".toList) : objectEntry o ms = [(i.value.number, i :: (rest ++ ms))] := by
  have hfront : ∀ m ∈ front, decide (m.key ≠ "id".toList) = true := by
    intro m hm
    exact decide_eq_true (hi ▸ h.other ho m (List.mem_append_left _ hm))
  have hdrop : o.dropWhile (fun m => m.key ≠ "id".toList) = i :: rest := by
    rw [ho, List.dropWhile_append_of_pos hfront, List.dropWhile_cons_of_neg (by simp [hi])]
  rw [objectEntry, hdrop]

/-- Where an object has an identifier, that is one member of it. -/
theorem HasId.split (h : HasId o) : ∃ front i rest, o = front ++ i :: rest ∧ i.key = "id".toList := by
  obtain ⟨i, hi, hkey⟩ := h
  obtain ⟨front, rest, ho⟩ := List.append_of_mem hi
  exact ⟨front, i, rest, ho, hkey⟩

/-- The scan for `"id"` passes over members that do not mention it. -/
theorem entries_pass (h : ∀ m ∈ o, m.key ≠ "id".toList ∧ m.value ≠ .str "id".toList) :
    entries u (o ++ ms) = entries u ms := by
  induction o with
  | nil => rfl
  | cons m o ih =>
      obtain ⟨hkey, hvalue⟩ := h m List.mem_cons_self
      rw [List.cons_append, entries, if_neg hkey, if_neg hvalue]
      exact ih fun m' hm' => h m' (List.mem_cons_of_mem m hm')

/-- The scan finds the one entry of an object, and goes on behind it. -/
theorem IsObject.entries (h : IsObject o) :
    entries u (o ++ ms) = objectEntry o ms ++ entries u ms := by
  have hvalue : ∀ m ∈ o, m.value ≠ .str "id".toList :=
    fun m hm => h.words m hm _ List.mem_cons_self
  by_cases hid : HasId o
  · obtain ⟨front, i, rest, ho, hi⟩ := hid.split
    have hother := h.other ho
    rw [hi] at hother
    have hi' : i ∈ o := by simp [ho]
    have hfront : ∀ m ∈ front, m.key ≠ "id".toList ∧ m.value ≠ .str "id".toList :=
      fun m hm => ⟨hother m (List.mem_append_left _ hm), hvalue m (by simp [ho, hm])⟩
    have hrest : ∀ m ∈ rest, m.key ≠ "id".toList ∧ m.value ≠ .str "id".toList :=
      fun m hm => ⟨hother m (List.mem_append_right _ hm), hvalue m (by simp [ho, hm])⟩
    rw [objectEntry_of_split h ho hi, ho, List.append_assoc, entries_pass hfront, List.cons_append,
      Registry.entries, if_pos hi, if_neg (hvalue i hi'), entries_pass hrest]
    rfl
  · rw [objectEntry_of_no_id hid, List.nil_append]
    exact entries_pass fun m hm => ⟨fun hkey => hid ⟨m, hm, hkey⟩, hvalue m hm⟩

theorem Followed.of_cons (h : Followed w (m :: ms)) : Followed w ms :=
  fun pre m' post hms => h (m :: pre) m' post (by rw [hms, List.cons_append])

theorem Followed.append {a b : List Member} (ha : Followed w a) (hb : Followed w b) :
    Followed w (a ++ b) := by
  intro pre m post hsplit hvalue
  rcases List.append_eq_append_iff.mp hsplit with ⟨c, -, hc⟩ | ⟨c, ha', hc⟩
  · exact hb c m post hc hvalue
  · cases c with
    | nil => exact hb [] m post hc.symm hvalue
    | cons x c =>
        obtain ⟨rfl, rfl⟩ := List.cons.inj hc
        obtain ⟨x, post', s, rfl, hx⟩ := ha pre m c ha' hvalue
        exact ⟨x, post' ++ b, s, rfl, hx⟩

theorem IsObject.followed (h : IsObject o) (hw : w ∈ summaryWords) : Followed w o :=
  fun pre m post ho hvalue => (h.statuses pre m post ho w hw hvalue).2.2

/-- A search for a word that is no key stops at the first value that is the word, and reads 0 from the
string behind it. -/
theorem Followed.number (h : Followed w o) (hkeys : ∀ m ∈ o, m.key ≠ w) :
    numberAfter w u (o ++ ms) =
      if ∃ m ∈ o, m.value = .str w then some 0 else numberAfter w u ms := by
  induction o with
  | nil => rw [List.nil_append, if_neg (by simp)]
  | cons m o ih =>
      have ih := ih h.of_cons fun m' hm' => hkeys m' (List.mem_cons_of_mem m hm')
      rw [List.cons_append, numberAfter, if_neg (hkeys m List.mem_cons_self)]
      by_cases hvalue : m.value = .str w
      · obtain ⟨x, post, s, ho, hx⟩ := h [] m o rfl hvalue
        rw [if_pos hvalue, if_pos ⟨m, List.mem_cons_self, hvalue⟩, ho, List.cons_append,
          numberBehind, hx]
        rfl
      · rw [if_neg hvalue, ih]
        simp only [List.exists_mem_cons_iff, hvalue, false_or]

end Object

/-! ## Tables

By induction on the objects: the entries of a table are those of its objects, each with the members of
the later ones behind it. -/

section Table

variable {os : List (List Member)} {u w : Text}

/-- The entries that the scan finds in a table of objects are those of its objects. -/
theorem entries_flatten (h : ∀ o ∈ os, IsObject o) : entries u os.flatten = tableEntries os := by
  induction os with
  | nil => rfl
  | cons o os ih =>
      rw [List.flatten_cons, (h o List.mem_cons_self).entries, tableEntries,
        ih fun o' ho' => h o' (List.mem_cons_of_mem o ho')]

theorem length_tableEntries (h : ∀ o ∈ os, IsObject o) :
    (tableEntries os).length = os.countP fun o => HasId o := by
  induction os with
  | nil => rfl
  | cons o os ih =>
      rw [tableEntries, List.length_append, ih fun o' ho' => h o' (List.mem_cons_of_mem o ho')]
      by_cases hid : HasId o
      · obtain ⟨front, i, rest, ho, hi⟩ := hid.split
        rw [objectEntry_of_split (h o List.mem_cons_self) ho hi, List.countP_cons,
          if_pos (decide_eq_true hid), List.length_singleton, Nat.add_comm]
      · rw [objectEntry_of_no_id hid, List.countP_cons, if_neg (by simpa using hid),
          List.length_nil, Nat.zero_add, Nat.add_zero]

/-- An entry is an object with an identifier, from there on, with the later objects behind it. -/
theorem mem_tableEntries (h : ∀ o ∈ os, IsObject o) {e : Int × List Member} :
    e ∈ tableEntries os ↔ ∃ pre o post front i rest, os = pre ++ o :: post ∧
      o = front ++ i :: rest ∧ i.key = "id".toList ∧
      e = (i.value.number, i :: (rest ++ post.flatten)) := by
  induction os with
  | nil => simp [tableEntries]
  | cons o os ih =>
      have ho := h o List.mem_cons_self
      rw [tableEntries, List.mem_append, ih fun o' ho' => h o' (List.mem_cons_of_mem o ho')]
      constructor
      · rintro (he | ⟨pre, o', post, front, i, rest, rfl, hsplit⟩)
        · by_cases hid : HasId o
          · obtain ⟨front, i, rest, hsplit, hi⟩ := hid.split
            rw [objectEntry_of_split ho hsplit hi, List.mem_singleton] at he
            exact ⟨[], o, os, front, i, rest, rfl, hsplit, hi, he⟩
          · rw [objectEntry_of_no_id hid] at he
            cases he
        · exact ⟨o :: pre, o', post, front, i, rest, rfl, hsplit⟩
      · rintro ⟨pre, o', post, front, i, rest, hos, hsplit, hi, he⟩
        cases pre with
        | nil =>
            obtain ⟨rfl, rfl⟩ := List.cons.inj hos
            left
            rw [objectEntry_of_split ho hsplit hi, he]
            exact List.mem_singleton_self _
        | cons p pre =>
            obtain ⟨rfl, rfl⟩ := List.cons.inj hos
            exact Or.inr ⟨pre, o', post, front, i, rest, rfl, hsplit, hi, he⟩

/-- Two entries are those of two objects. -/
theorem pairwise_tableEntries (h : ∀ o ∈ os, IsObject o) :
    ((tableEntries os).Pairwise fun e e' => e.1 ≠ e'.1) ↔
      os.Pairwise fun o o' => ∀ i ∈ o, ∀ i' ∈ o', i.key = "id".toList → i'.key = "id".toList →
        i.value.number ≠ i'.value.number := by
  induction os with
  | nil => simp [tableEntries]
  | cons o os ih =>
      have ho := h o List.mem_cons_self
      have hos : ∀ o' ∈ os, IsObject o' := fun o' ho' => h o' (List.mem_cons_of_mem o ho')
      rw [tableEntries, List.pairwise_cons, ← ih hos]
      by_cases hid : HasId o
      · obtain ⟨front, i, rest, hsplit, hi⟩ := hid.split
        rw [objectEntry_of_split ho hsplit hi, List.singleton_append, List.pairwise_cons]
        refine and_congr_left fun _ => ?_
        constructor
        · intro hne o' ho' j hj i' hi' hjkey hi'key
          have hji : j = i := by
            rw [hsplit] at hj
            by_contra hji
            have hmem : j ∈ front ++ rest := by
              simpa [hji] using hj
            exact ho.other hsplit j hmem (hjkey.trans hi.symm)
          obtain ⟨pre, post, hpost⟩ := List.append_of_mem ho'
          obtain ⟨front', rest', hsplit'⟩ := List.append_of_mem hi'
          rw [hji]
          exact hne _ ((mem_tableEntries hos).mpr
            ⟨pre, o', post, front', i', rest', hpost, hsplit', hi'key, rfl⟩)
        · intro hne e he
          obtain ⟨pre, o', post, front', i', rest', hpost, hsplit', hi', rfl⟩ :=
            (mem_tableEntries hos).mp he
          exact hne o' (by simp [hpost]) i (by simp [hsplit]) i' (by simp [hsplit']) hi hi'
      · rw [objectEntry_of_no_id hid, List.nil_append]
        have hvacuous : ∀ o' ∈ os, ∀ i ∈ o, ∀ i' ∈ o', i.key = "id".toList →
            i'.key = "id".toList → i.value.number ≠ i'.value.number :=
          fun o' _ i hi _ _ hkey => absurd ⟨i, hi, hkey⟩ hid
        exact ⟨fun hp => ⟨hvacuous, hp⟩, And.right⟩

theorem flatten_keys (h : ∀ o ∈ os, IsObject o) (hw : w ∈ summaryWords) :
    ∀ m ∈ os.flatten, m.key ≠ w := by
  intro m hm hkey
  obtain ⟨o, ho, hmo⟩ := List.mem_flatten.mp hm
  exact (h o ho).keys m hmo (hkey ▸ hw)

theorem flatten_followed (h : ∀ o ∈ os, IsObject o) (hw : w ∈ summaryWords) :
    Followed w os.flatten := by
  induction os with
  | nil =>
      intro pre m post hsplit
      simp at hsplit
  | cons o os ih =>
      rw [List.flatten_cons]
      exact ((h o List.mem_cons_self).followed hw).append
        (ih fun o' ho' => h o' (List.mem_cons_of_mem o ho'))

/-- What is declared is what is declared behind the table, or 0 if a status is the word. -/
theorem numberAfter_flatten (h : ∀ o ∈ os, IsObject o) (hw : w ∈ summaryWords) :
    numberAfter w u os.flatten =
      if ∃ o ∈ os, ∃ m ∈ o, m.value = .str w then some 0 else readLongAfter u w := by
  have hnumber : numberAfter w u (os.flatten ++ []) =
      if ∃ m ∈ os.flatten, m.value = .str w then some 0 else numberAfter w u [] :=
    (flatten_followed h hw).number (flatten_keys h hw)
  rw [List.append_nil, numberAfter] at hnumber
  rw [hnumber]
  have hmem : (∃ m ∈ os.flatten, m.value = .str w) ↔ ∃ o ∈ os, ∃ m ∈ o, m.value = .str w := by
    simp only [List.mem_flatten]
    constructor
    · rintro ⟨m, ⟨o, ho, hm⟩, hvalue⟩
      exact ⟨o, ho, m, hm, hvalue⟩
    · rintro ⟨o, ho, m, hm, hvalue⟩
      exact ⟨m, ⟨o, ho, hm⟩, hvalue⟩
  simp only [hmem]

end Table

/-! ## What is looked for behind an identifier

The four words are looked for up to the end of the file. They can be mentioned by the object itself, by
a later one, or by the text behind the table. -/

/-- The text has what is looked for under a word: a string for `name` and `status`, the word itself
for the other two. -/
def Offers (t w : Text) : Prop :=
  if w = "name".toList ∨ w = "status".toList then readStringAfter t w maxStr ≠ none
  else findKey t w ≠ none

instance (t w : Text) : Decidable (Offers t w) := inferInstanceAs (Decidable (ite _ _ _))

/-- The object lacks a word behind its identifier. -/
def Lacks (o : List Member) (w : Text) : Prop :=
  ∃ front i rest, o = front ++ i :: rest ∧ i.key = "id".toList ∧ ∀ m ∈ rest, m.key ≠ w

section Lacks

variable {o front rest : List Member} {os : List (List Member)} {i : Member} {w : Text}

theorem lacks_cons {m : Member} :
    Lacks (m :: o) w ↔ (m.key = "id".toList ∧ ∀ m' ∈ o, m'.key ≠ w) ∨ Lacks o w := by
  constructor
  · rintro ⟨front, i, rest, ho, hi, hrest⟩
    cases front with
    | nil =>
        obtain ⟨rfl, rfl⟩ := List.cons.inj ho
        exact Or.inl ⟨hi, hrest⟩
    | cons x front =>
        obtain ⟨rfl, rfl⟩ := List.cons.inj ho
        exact Or.inr ⟨front, i, rest, rfl, hi, hrest⟩
  · rintro (⟨hi, hrest⟩ | ⟨front, i, rest, rfl, hi, hrest⟩)
    · exact ⟨[], m, o, rfl, hi, hrest⟩
    · exact ⟨m :: front, i, rest, rfl, hi, hrest⟩

instance Lacks.decidable (w : Text) : ∀ o, Decidable (Lacks o w)
  | []     => isFalse fun ⟨_, _, _, ho, _⟩ => by simp at ho
  | _ :: o => haveI := Lacks.decidable w o; decidable_of_iff _ lacks_cons.symm

/-- There is one place in an object to look at. -/
theorem IsObject.lacks_iff (h : IsObject o) (ho : o = front ++ i :: rest)
    (hi : i.key = "id".toList) : Lacks o w ↔ ∀ m ∈ rest, m.key ≠ w := by
  constructor
  · rintro ⟨front', i', rest', ho', hi', hrest'⟩
    have hentry : objectEntry o [] = [(i.value.number, i :: (rest ++ []))] :=
      objectEntry_of_split h ho hi
    rw [objectEntry_of_split h ho' hi', List.append_nil, List.append_nil] at hentry
    obtain ⟨-, rfl⟩ : i' = i ∧ rest' = rest := by
      simpa using congrArg (List.map Prod.snd) hentry
    exact hrest'
  · intro hrest
    exact ⟨front, i, rest, ho, hi, hrest⟩

/-- How many assignments have no status behind their identifier and in no later assignment. -/
def unstated : List (List Member) → Nat
  | []      => 0
  | o :: os => unstated os +
      if Lacks o "status".toList ∧ ∀ o' ∈ os, ∀ m ∈ o', m.key ≠ "status".toList then 1 else 0

/-- They are the entries without a status. -/
theorem countP_tableEntries (h : ∀ o ∈ os, IsObject o) :
    ((tableEntries os).countP fun e => ∀ m ∈ e.2, m.key ≠ "status".toList) = unstated os := by
  have hid : "id".toList ≠ "status".toList := by decide
  induction os with
  | nil => rfl
  | cons o os ih =>
      have ho := h o List.mem_cons_self
      rw [tableEntries, List.countP_append, unstated,
        ih fun o' ho' => h o' (List.mem_cons_of_mem o ho'), Nat.add_comm]
      congr 1
      by_cases hhas : HasId o
      · obtain ⟨front, i, rest, hsplit, hi⟩ := hhas.split
        have hiff : (∀ m ∈ i :: (rest ++ os.flatten), m.key ≠ "status".toList) ↔
            Lacks o "status".toList ∧ ∀ o' ∈ os, ∀ m ∈ o', m.key ≠ "status".toList := by
          rw [ho.lacks_iff hsplit hi, List.forall_mem_cons, List.forall_mem_append,
            List.forall_mem_flatten]
          exact and_iff_right (hi ▸ hid)
        rw [objectEntry_of_split ho hsplit hi, List.countP_singleton]
        simp only [decide_eq_true_eq, hiff]
      · have hlacks : ¬ Lacks o "status".toList := by
          rintro ⟨front, i, rest, hsplit, hi, -⟩
          exact hhas ⟨i, by simp [hsplit], hi⟩
        rw [objectEntry_of_no_id hhas, List.countP_nil, if_neg fun hboth => hlacks hboth.1]

end Lacks

section Search

variable {ms : List Member} {u w : Text}

/-- A search for a string comes to the first member with the key, or goes on behind the row. -/
theorem stringAfter_cases (hwords : ∀ m ∈ ms, m.value ≠ .str w)
    (hstrings : ∀ m ∈ ms, m.key = w → ∃ s, m.value = .str s) :
    (∃ m ∈ ms, m.key = w ∧ ∃ s, m.value = .str s ∧ stringAfter w u ms = some (cut s)) ∨
      (∀ m ∈ ms, m.key ≠ w) ∧ stringAfter w u ms = readStringAfter u w maxStr := by
  induction ms with
  | nil => exact Or.inr ⟨by simp, rfl⟩
  | cons m ms ih =>
      rw [stringAfter]
      by_cases hkey : m.key = w
      · obtain ⟨s, hs⟩ := hstrings m List.mem_cons_self hkey
        rw [if_pos hkey, hs]
        exact Or.inl ⟨m, List.mem_cons_self, hkey, s, hs, rfl⟩
      · rw [if_neg hkey, if_neg (hwords m List.mem_cons_self)]
        rcases ih (fun m' hm' => hwords m' (List.mem_cons_of_mem m hm'))
          (fun m' hm' => hstrings m' (List.mem_cons_of_mem m hm')) with
          ⟨m', hm', hfound⟩ | ⟨hnone, htail⟩
        · exact Or.inl ⟨m', List.mem_cons_of_mem m hm', hfound⟩
        · exact Or.inr ⟨List.forall_mem_cons.mpr ⟨hkey, hnone⟩, htail⟩

theorem stringAfter_ne_none (hwords : ∀ m ∈ ms, m.value ≠ .str w)
    (hstrings : ∀ m ∈ ms, m.key = w → ∃ s, m.value = .str s) :
    stringAfter w u ms ≠ none ↔ (∃ m ∈ ms, m.key = w) ∨ readStringAfter u w maxStr ≠ none := by
  rcases stringAfter_cases (u := u) hwords hstrings with ⟨m, hm, hkey, s, -, hs⟩ | ⟨hno, hs⟩
  · rw [hs]
    exact iff_of_true (Option.some_ne_none _) (Or.inl ⟨m, hm, hkey⟩)
  · rw [hs]
    constructor
    · exact Or.inr
    · rintro (⟨m, hm, hkey⟩ | h)
      · exact absurd hkey (hno m hm)
      · exact h

theorem mentions_iff (hwords : ∀ m ∈ ms, m.value ≠ .str w) :
    mentions w u ms = true ↔ (∃ m ∈ ms, m.key = w) ∨ findKey u w ≠ none := by
  induction ms with
  | nil => simp [mentions, Option.isSome_iff_ne_none]
  | cons m ms ih =>
      have ih := ih fun m' hm' => hwords m' (List.mem_cons_of_mem m hm')
      rw [mentions, decide_eq_false (hwords m List.mem_cons_self), Bool.or_false, Bool.or_eq_true,
        decide_eq_true_eq, ih]
      simp only [List.exists_mem_cons_iff, or_assoc]

/-- What an entry has: the four words are mentioned in its members or offered behind them. -/
theorem supplied_iff (hwords : ∀ m ∈ ms, ∀ w ∈ requiredKeys, m.value ≠ .str w)
    (hstrings : ∀ m ∈ ms, m.key = "name".toList ∨ m.key = "status".toList → ∃ s, m.value = .str s) :
    Supplied u ms ↔ ∀ w ∈ searchedKeys, (∃ m ∈ ms, m.key = w) ∨ Offers u w := by
  have hfree : ∀ w ∈ searchedKeys, ∀ m ∈ ms, m.value ≠ .str w :=
    fun w hw m hm => hwords m hm w (searchedKeys_required w hw)
  simp only [searchedKeys, List.forall_mem_cons, List.not_mem_nil, false_implies, implies_true,
    and_true] at hfree
  obtain ⟨hfree₁, hfree₂, hfree₃, hfree₄⟩ := hfree
  have hname := stringAfter_ne_none (u := u) hfree₁ fun m hm hkey => hstrings m hm (Or.inl hkey)
  have hstatus := stringAfter_ne_none (u := u) hfree₂ fun m hm hkey => hstrings m hm (Or.inr hkey)
  have hspecification := mentions_iff (u := u) hfree₃
  have hguidance := mentions_iff (u := u) hfree₄
  have hplain : ∀ w, Offers u w ↔ if w = "name".toList ∨ w = "status".toList then
      readStringAfter u w maxStr ≠ none else findKey u w ≠ none := fun w => Iff.rfl
  obtain ⟨hno₁, hno₂⟩ :
      ¬ ("specification".toList = "name".toList ∨ "specification".toList = "status".toList) ∧
      ¬ ("criticality_guidance".toList = "name".toList ∨
        "criticality_guidance".toList = "status".toList) := by
    decide
  simp only [searchedKeys, List.forall_mem_cons, List.not_mem_nil, false_implies, implies_true,
    and_true]
  rw [hplain, hplain, hplain, hplain, if_pos (Or.inl rfl), if_pos (Or.inr rfl), if_neg hno₁,
    if_neg hno₂, ← hname, ← hstatus, ← hspecification, ← hguidance]
  constructor
  · rintro ⟨h₁, h₂, h₃, h₄⟩
    exact ⟨h₁, h₂, h₃, h₄⟩
  · rintro ⟨h₁, h₂, h₃, h₄⟩
    exact ⟨h₁, h₂, h₃, h₄⟩

end Search

end Registry

end MclWire
