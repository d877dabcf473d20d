import MclWire.Vectors.ExtensionTool

/-!
# The scanner of the extension vectors over tokens

`find_string_value` looks for a key between two pointers. Over a row of tokens it comes to the first
token that is the key and has nothing but separators behind it, and its value is the next token: a
word that stands there as a value is passed over.

* `lookup` — the value of a key in a row of tokens, and what is behind it.
* `findStringValue_render` — this is what `find_string_value` finds.
-/

namespace MclWire

open CText

namespace ExtensionVectors

/-! ## Separators -/

/-- Separators only. -/
def IsSeparator (g : Text) : Prop := ∀ c ∈ g, isSeparator c = true

instance (g : Text) : Decidable (IsSeparator g) :=
  inferInstanceAs (Decidable (∀ c ∈ g, isSeparator c = true))

section Separators

variable {g p last : Text}

theorem skipSeparators_append (hg : IsSeparator g) (hp : last.length ≤ p.length) :
    skipSeparators last (g ++ p) = skipSeparators last p := by
  induction g with
  | nil => rfl
  | cons c g ih =>
      rw [IsSeparator, List.forall_mem_cons] at hg
      rw [List.cons_append, skipSeparators, if_pos]
      · exact ih hg.2
      · refine ⟨?_, hg.1⟩
        simp only [List.length_cons, List.length_append]
        omega

theorem skipSeparators_stop {c : Char} (hc : isSeparator c = false) (p : Text) :
    skipSeparators last (c :: p) = c :: p := by
  rw [skipSeparators, if_neg]
  rw [hc]
  exact fun h => Bool.false_ne_true h.2

/-- Nothing is passed over beyond the end. -/
theorem skipSeparators_last (last : Text) : skipSeparators last last = last := by
  cases last with
  | nil => rfl
  | cons c cs =>
      rw [skipSeparators, if_neg]
      exact fun h => absurd h.1 (Nat.lt_irrefl _)

/-- The first character of a gap that is no separator. -/
theorem exists_not_separator (h : ¬ IsSeparator g) :
    ∃ g' c g'', g = g' ++ c :: g'' ∧ IsSeparator g' ∧ isSeparator c = false := by
  induction g with
  | nil => exact absurd (fun c hc => absurd hc List.not_mem_nil) h
  | cons c g ih =>
      by_cases hc : isSeparator c = true
      · have hg : ¬ IsSeparator g := by
          intro hg
          exact h (List.forall_mem_cons.mpr ⟨hc, hg⟩)
        obtain ⟨g', d, g'', rfl, hg', hd⟩ := ih hg
        exact ⟨c :: g', d, g'', rfl, List.forall_mem_cons.mpr ⟨hc, hg'⟩, hd⟩
      · rw [Bool.not_eq_true] at hc
        refine ⟨[], c, g, rfl, ?_, hc⟩
        intro d hd
        cases hd

/-- In another gap the search goes on where something else stands. -/
theorem skipSeparators_gap (hg : ¬ IsSeparator g) (hp : last.length ≤ p.length) :
    ∃ g' c g'', g = g' ++ c :: g'' ∧ skipSeparators last (g ++ p) = c :: (g'' ++ p) := by
  obtain ⟨g', c, g'', rfl, hg', hc⟩ := exists_not_separator hg
  refine ⟨g', c, g'', rfl, ?_⟩
  rw [List.append_assoc, skipSeparators_append hg', List.cons_append, skipSeparators_stop hc]
  simp only [List.length_append]
  omega

end Separators

/-! ## Looking for a key -/

/-- The value of a key in a row of tokens, and the tokens behind it. -/
def lookup (key : Text) : List Token → Option (Token × List Token)
  | []      => none
  | k :: ks =>
      if k.string = key ∧ IsSeparator k.gap then ks.head?.map fun v => (v, ks.tail)
      else lookup key ks

/-- A row of tokens in a text: what stands in front of it, and the end of the search behind it. -/
structure Row (g : Text) (ks : List Token) (stop : Text) : Prop where
  gap : '"' ∉ g ∧ Char.ofNat 0 ∉ g
  plain : ∀ k ∈ ks, k.Plain
  breaks : Breaks stop
  nul : Char.ofNat 0 ∉ stop

/-- A key that fits `pattern`. -/
def IsKey (key : Text) : Prop := IsWord key ∧ key.length + 4 < 64

instance (key : Text) : Decidable (IsKey key) := inferInstanceAs (Decidable (_ ∧ _))

section Lookup

variable {g stop key : Text} {k : Token} {ks as : List Token} {n cap : Nat}

theorem lookup_skip (h : ∀ k ∈ as, k.string ≠ key) : lookup key (as ++ ks) = lookup key ks := by
  induction as with
  | nil => rfl
  | cons k as ih =>
      rw [List.forall_mem_cons] at h
      rw [List.cons_append, lookup, if_neg fun hk => h.1 hk.1]
      exact ih h.2

theorem lookup_here {v : Token} (hkey : k.string = key) (hgap : IsSeparator k.gap) :
    lookup key (k :: v :: ks) = some (v, ks) := by
  rw [lookup, if_pos ⟨hkey, hgap⟩]
  rfl

theorem lookup_none (h : ∀ k ∈ ks, k.string ≠ key) : lookup key ks = none := by
  have hskip : lookup key (ks ++ []) = lookup key [] := lookup_skip h
  rwa [List.append_nil] at hskip

theorem Row.no_nul (h : Row g ks stop) : Char.ofNat 0 ∉ g ++ (render ks ++ stop) := by
  simp only [List.mem_append, not_or]
  exact ⟨h.gap.2, no_nul_render h.plain, h.nul⟩

/-- The row behind its first token. -/
theorem Row.tail (h : Row g (k :: ks) stop) : Row k.gap ks stop := by
  obtain ⟨hk, hks⟩ := List.forall_mem_cons.mp h.plain
  exact ⟨⟨hk.gap, hk.nul.2⟩, hks, h.breaks, h.nul⟩

/-- The row behind a part of what stands in front of it. -/
theorem Row.rest {g' : Text} (h : Row (g' ++ g) ks stop) : Row g ks stop := by
  refine ⟨⟨?_, ?_⟩, h.plain, h.breaks, h.nul⟩
  · exact fun hmem => h.gap.1 (List.mem_append_right _ hmem)
  · exact fun hmem => h.gap.2 (List.mem_append_right _ hmem)

/-- A search comes to the same if its first step does. -/
theorem findValue_congr {last pattern p p' : Text} (h : strstrIn pattern p = strstrIn pattern p') :
    findValue last pattern n p = findValue last pattern n p' := by
  cases n with
  | zero => rfl
  | succ n => rw [findValue, findValue, h]

/-- Nothing is found beyond the end. -/
theorem findValue_behind {last pattern p : Text} (hp : p <:+ last) (hnul : Char.ofNat 0 ∉ p) :
    findValue last pattern n p = none := by
  cases n with
  | zero => rfl
  | succ n =>
      rw [findValue, strstrIn_eq hnul]
      cases hfind : strstr pattern p with
      | none => rfl
      | some q =>
          have hle := ((strstr_isSuffix hfind).trans hp).length_le
          simp only
          rw [if_pos hle]

/-- A turn that has come to the key. -/
theorem findValue_key (h : Row g (k :: ks) stop) (hw : IsWord k.string) :
    findValue stop (quoted k.string) (n + 1) (g ++ (render (k :: ks) ++ stop)) =
      (let p := skipSeparators stop (k.gap ++ (render ks ++ stop))
        if stop.length < p.length ∧ p.head? = some '"' then some p.tail
        else findValue stop (quoted k.string) n p) := by
  have hdrop : (render (k :: ks) ++ stop).drop (quoted k.string).length =
      k.gap ++ (render ks ++ stop) := by
    have htext : render (k :: ks) ++ stop = quoted k.string ++ (k.gap ++ (render ks ++ stop)) := by
      rw [render_cons, quoted]
      simp
    rw [htext, List.drop_left]
  have hlong : ¬ (render (k :: ks) ++ stop).length ≤ stop.length := by
    rw [render_cons]
    simp only [List.length_cons, List.length_append]
    omega
  rw [findValue, strstrIn_eq h.no_nul, strstr_skip h.gap.1, strstr_render hw h.plain h.breaks,
    seek_here rfl, if_neg (List.cons_ne_nil _ _)]
  simp only
  rw [if_neg hlong, hdrop]

/-- The search stops behind the opening quote of the value. -/
theorem findValue_render (hw : IsWord key) (h : Row g ks stop) (hn : ks.length < n) :
    findValue stop (quoted key) n (g ++ (render ks ++ stop)) =
      (lookup key ks).map fun found =>
        found.1.string ++ '"' :: (found.1.gap ++ (render found.2 ++ stop)) := by
  induction ks generalizing g n with
  | nil =>
      have hcongr : strstrIn (quoted key) (g ++ (render [] ++ stop)) = strstrIn (quoted key) stop := by
        rw [strstrIn_eq h.no_nul, strstrIn_eq h.nul, strstr_skip h.gap.1]
        rfl
      rw [findValue_congr hcongr, findValue_behind (List.suffix_refl _) h.nul]
      rfl
  | cons k ks ih =>
      by_cases hk : k.string = key
      · subst hk
        obtain ⟨n, rfl⟩ : ∃ m, n = m + 1 := ⟨n - 1, by omega⟩
        rw [List.length_cons] at hn
        rw [findValue_key h hw]
        by_cases hsep : IsSeparator k.gap
        · cases ks with
          | nil =>
              -- behind the last token nothing is left
              rw [render_nil, List.nil_append, skipSeparators_append hsep (Nat.le_refl _),
                skipSeparators_last]
              simp only
              rw [if_neg fun h => absurd h.1 (Nat.lt_irrefl _),
                findValue_behind (List.suffix_refl _) h.nul, lookup, if_pos ⟨rfl, hsep⟩]
              rfl
          | cons v ks =>
              rw [skipSeparators_append hsep (by rw [List.length_append]; omega), render_cons,
                skipSeparators_stop (by decide)]
              simp only
              rw [if_pos, lookup_here rfl hsep]
              · rfl
              · refine ⟨?_, rfl⟩
                simp only [List.length_cons, List.length_append]
                omega
        · have hstop : stop.length ≤ (render ks ++ stop).length := by
            rw [List.length_append]
            omega
          obtain ⟨g', c, g'', hgap, hskip⟩ := skipSeparators_gap hsep hstop
          have htail := h.tail
          rw [hgap] at htail
          have hquote : c ≠ '"' := by
            rintro rfl
            exact htail.gap.1 (by simp)
          rw [hskip]
          simp only
          rw [if_neg, lookup, if_neg fun h => hsep h.2]
          · exact ih htail.rest (by omega)
          · rintro ⟨-, hhead⟩
            exact hquote (Option.some.inj hhead)
      · have hcongr : strstrIn (quoted key) (g ++ (render (k :: ks) ++ stop)) =
            strstrIn (quoted key) (k.gap ++ (render ks ++ stop)) := by
          rw [strstrIn_eq h.no_nul, strstrIn_eq h.tail.no_nul, strstr_skip h.gap.1,
            strstr_skip h.tail.gap.1, strstr_render hw h.plain h.breaks, seek_cons hk,
            strstr_render hw h.tail.plain h.breaks]
        rw [findValue_congr hcongr, lookup, if_neg fun h => hk h.1]
        rw [List.length_cons] at hn
        exact ih h.tail (by omega)

/-- A value is copied if it fits. -/
theorem copyValue_string {s t out : Text} (hs : '"' ∉ s) (ht : stop.length ≤ t.length)
    (hout : out.length < cap) :
    copyValue stop cap out (s ++ '"' :: t) =
      if out.length + s.length < cap then some (out ++ s, t) else none := by
  induction s generalizing out with
  | nil =>
      have hlast : ¬ ('"' :: t).length ≤ stop.length := by
        rw [List.length_cons]
        omega
      rw [List.nil_append, copyValue, if_neg hlast, if_pos rfl, List.append_nil, if_pos]
      simpa using hout
  | cons c s ih =>
      rw [List.mem_cons, not_or] at hs
      have hlast : ¬ (c :: (s ++ '"' :: t)).length ≤ stop.length := by
        simp only [List.length_cons, List.length_append]
        omega
      rw [List.cons_append, copyValue, if_neg hlast, if_neg (Ne.symm hs.1)]
      by_cases hfull : out.length + 1 ≥ cap
      · rw [if_pos hfull, if_neg]
        rw [List.length_cons]
        omega
      · rw [if_neg hfull, ih hs.2 (by rw [List.length_append, List.length_singleton]; omega),
          List.append_assoc, List.length_append, List.length_singleton, List.length_cons,
          Nat.add_right_comm, Nat.add_assoc]
        rfl

theorem mem_lookup {v : Token} {rest : List Token} (h : lookup key ks = some (v, rest)) :
    v ∈ ks ∧ rest <:+ ks := by
  induction ks with
  | nil => cases h
  | cons k ks ih =>
      rw [lookup] at h
      split at h
      · cases ks with
        | nil => cases h
        | cons v' ks =>
            cases h
            exact ⟨by simp, ⟨[k, v], rfl⟩⟩
      · obtain ⟨hv, hrest⟩ := ih h
        exact ⟨List.mem_cons_of_mem _ hv, hrest.trans (List.suffix_cons _ _)⟩

/-- `find_string_value`, over a row of tokens. -/
theorem findStringValue_render (cap : Nat) (hkey : IsKey key) (h : Row g ks stop) (hcap : 0 < cap) :
    findStringValue (g ++ (render ks ++ stop)) stop key cap =
      (lookup key ks).bind fun found =>
        if found.1.string.length < cap then
          some (found.1.string, found.1.gap ++ (render found.2 ++ stop))
        else none := by
  have hlen : ks.length < (g ++ (render ks ++ stop)).length + 1 := by
    have := length_le_render ks
    simp only [List.length_append]
    omega
  rw [findStringValue, if_neg (Nat.not_le_of_lt hkey.2), findValue_render hkey.1 h hlen]
  cases hfound : lookup key ks with
  | none => rfl
  | some found =>
      obtain ⟨v, rest⟩ := found
      have hv := h.plain v (mem_lookup hfound).1
      have hstop : stop.length ≤ (v.gap ++ (render rest ++ stop)).length := by
        simp only [List.length_append]
        omega
      simp only [Option.map_some, Option.bind_eq_bind, Option.bind_some]
      rw [copyValue_string hv.string hstop hcap, List.length_nil, Nat.zero_add, List.nil_append]
      split
      · rw [Option.bind_some]
        simp only
        rw [cString_eq_self hv.nul.1]
        rfl
      · rfl

end Lookup

end ExtensionVectors

end MclWire
